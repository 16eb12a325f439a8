import Mathlib.Data.ENat.Lattice
import Chip8.Headless
import Chip8.Proofs.Waiting

/-! # The step limit

    The headless program takes steps up to a limit, and stops early at a step that fails or at a
    wait. What it prints depends on the limit in a simple way. Consider the steps without end: they
    meet a first failure, or a first wait, or neither, but never both, because a step of a waiting
    machine does nothing and a failing one changes nothing. A limit that reaches the failure gives
    its error, and any other gives the screen after so many steps, or at the wait if that comes
    before.

    One step shifts both numbers down by one, which is the induction that ties the loop to them. -/

namespace Chip8

open Classical in
/-- The first number with a property, or infinity if there is none. -/
noncomputable def firstWith (p : ℕ → Prop) : ℕ∞ := if h : ∃ k, p k then (Nat.find h : ℕ∞) else ⊤

open Classical in
theorem firstWith_eq_zero {p : ℕ → Prop} (h : p 0) : firstWith p = 0 := by
  rw [firstWith, dif_pos ⟨0, h⟩]
  exact congrArg Nat.cast ((Nat.find_eq_zero _).2 h)

theorem not_of_lt_firstWith {p : ℕ → Prop} {k : ℕ} (h : k < firstWith p) : ¬ p k := by
  classical
  intro hk
  rw [firstWith, dif_pos ⟨k, hk⟩, Nat.cast_lt] at h
  exact Nat.find_min ⟨k, hk⟩ h hk

theorem firstWith_eq_top_iff {p : ℕ → Prop} : firstWith p = ⊤ ↔ ∀ k, ¬ p k := by
  rw [firstWith]
  split
  · rename_i h
    simpa using h
  · rename_i h
    simpa using h

open Classical in
theorem firstWith_succ {p : ℕ → Prop} (h : ¬ p 0) :
    firstWith p = firstWith (fun k => p (k + 1)) + 1 := by
  by_cases hsome : ∃ k, p (k + 1)
  · have hfirst : ∃ k, p k := hsome.elim fun k hk => ⟨k + 1, hk⟩
    rw [firstWith, firstWith, dif_pos hfirst, dif_pos hsome, Nat.find_comp_succ hfirst hsome h]
    rfl
  · rw [firstWith_eq_top_iff.2 (not_exists.1 hsome), top_add, firstWith_eq_top_iff]
    rintro (_ | k) hk
    · exact h hk
    · exact hsome ⟨k, hk⟩

namespace Machine

/-- The machine after so many steps, whatever comes of them. -/
def afterSteps (m : Machine) (n : ℕ) : Machine := m.after (List.replicate n .step)

/-- The number of the first step that fails, counted from one. -/
noncomputable def firstFailure (m : Machine) : ℕ∞ :=
  firstWith (fun k => ∃ e, (m.afterSteps k).step.verdict = .failed e) + 1

/-- The number of steps after which the machine first waits. -/
noncomputable def firstWait (m : Machine) : ℕ∞ :=
  firstWith fun k => (m.afterSteps k).isWaiting = true

variable {m : Machine}

theorem afterSteps_succ (m : Machine) (n : ℕ) :
    m.afterSteps (n + 1) = m.step.machine.afterSteps n := rfl

/-! ### How one step shifts them -/

theorem afterSteps_of_step_eq (h : m.step.machine = m) (n : ℕ) : m.afterSteps n = m := by
  induction n with
  | zero => rfl
  | succ n ih => rw [afterSteps_succ, h, ih]

/-- What a step does to both numbers. -/
inductive Shifted (m : Machine) : Prop where
  | waits (hw : m.isWaiting = true) (hwait : m.firstWait = 0) (hfailure : m.firstFailure = ⊤)
  | fails {e : Error} (hw : m.isWaiting = false) (he : m.step.verdict = .failed e)
      (hwait : m.firstWait = ⊤) (hfailure : m.firstFailure = 1)
  | goesOn (hw : m.isWaiting = false) (hdone : m.step.verdict = .done)
      (hwait : m.firstWait = m.step.machine.firstWait + 1)
      (hfailure : m.firstFailure = m.step.machine.firstFailure + 1)

theorem firstFailure_of_failed {e : Error} (he : m.step.verdict = .failed e) :
    m.firstFailure = 1 := by
  rw [firstFailure, firstWith_eq_zero ⟨e, he⟩, zero_add]

theorem Shifted.of_failed {e : Error} (hw : m.isWaiting = false) (he : m.step.verdict = .failed e)
    (hmachine : m.step.machine = m) : m.Shifted := by
  refine .fails hw he (firstWith_eq_top_iff.2 fun k => ?_) (firstFailure_of_failed he)
  rw [afterSteps_of_step_eq hmachine, hw]
  exact Bool.false_ne_true

theorem Shifted.of_done (hw : m.isWaiting = false) (hdone : m.step.verdict = .done) :
    m.Shifted := by
  have hnone : ¬ ∃ e, (m.afterSteps 0).step.verdict = .failed e := by
    rintro ⟨e, he⟩
    cases hdone.symm.trans he
  refine .goesOn hw hdone (firstWith_succ (Bool.not_eq_true _ ▸ hw)) ?_
  rw [firstFailure, firstWith_succ hnone]
  rfl

theorem Shifted.of_isWaiting (hw : m.isWaiting = true) : m.Shifted := by
  have hstep := step_of_isWaiting hw
  refine .waits hw (firstWith_eq_zero hw) ?_
  rw [firstFailure, firstWith_eq_top_iff.2, top_add]
  rintro k ⟨e, he⟩
  rw [afterSteps_of_step_eq (congrArg (·.machine) hstep), hstep] at he
  cases he

theorem shifted (h : m.Bounded) : m.Shifted := by
  have hstepped := stepped h
  generalize hstep : m.step = o at hstepped
  cases hstepped with
  | waits hw => exact .of_isWaiting hw
  | unknown hw | refused hw => exact .of_failed hw (by rw [hstep]) (by rw [hstep])
  | ran hw => exact .of_done hw (by rw [hstep])

/-- Before the first failure all steps are done. -/
theorem done_of_lt_firstFailure (h : m.Bounded) {k : ℕ} (hk : k + 1 < m.firstFailure) :
    (m.afterSteps k).step.verdict = .done := by
  have hlt := (ENat.add_lt_add_iff_right ENat.one_ne_top).1 hk
  have hnone := not_of_lt_firstWith hlt
  have hstepped := stepped (h.after (List.replicate k .step))
  rw [afterSteps] at hnone ⊢
  generalize (m.after _).step = o at hstepped hnone ⊢
  cases hstepped with
  | waits | ran => rfl
  | unknown | refused => exact absurd ⟨_, rfl⟩ hnone

/-- A machine that comes to wait never fails. -/
theorem firstFailure_of_firstWait (h : m.Bounded) {w : ℕ} (hw : m.firstWait = w) :
    m.firstFailure = ⊤ := by
  induction w generalizing m with
  | zero =>
    cases shifted h with
    | waits _ _ hfailure => exact hfailure
    | fails _ _ hwait => cases hwait.symm.trans hw
    | goesOn _ _ hwait => exact absurd (hwait.symm.trans hw) (by simp)
  | succ w ih =>
    cases shifted h with
    | waits _ _ hfailure => exact hfailure
    | fails _ _ hwait => cases hwait.symm.trans hw
    | goesOn _ _ hwait hfailure =>
      have hw' : m.step.machine.firstWait = w := by
        simpa using hwait.symm.trans hw
      rw [hfailure, ih (h.of_stepped (stepped h)) hw', top_add]

/-! ### Runs with a limit -/

/-- The ends of a run that takes at most so many steps. -/
inductive Ended {σ : Type} (m : Machine) (n : ℕ) (r : Run σ) : Prop where
  | failed {k : ℕ} {e : Error} (hk : k < n) (hfailure : m.firstFailure = k + 1)
      (he : (m.afterSteps k).step.verdict = .failed e) (hverdict : r.verdict = .failed e)
  | done (hn : n < m.firstFailure) (hverdict : r.verdict = .done)
      (hmachine : r.machine = m.afterSteps (min n m.firstWait : ℕ∞).toNat)

theorem Ended.succ {σ : Type} {n : ℕ} {r : Run σ}
    (hwait : m.firstWait = m.step.machine.firstWait + 1)
    (hfailure : m.firstFailure = m.step.machine.firstFailure + 1)
    (h : Ended m.step.machine n r) : Ended m (n + 1) r := by
  cases h with
  | @failed k e hk hfirst he hverdict =>
    refine .failed (Nat.succ_lt_succ hk) ?_ he hverdict
    rw [hfailure, hfirst, Nat.cast_succ]
  | done hn hverdict hmachine =>
    refine .done ?_ hverdict ?_
    · rw [hfailure, Nat.cast_succ]
      exact (ENat.add_lt_add_iff_right ENat.one_ne_top).2 hn
    · have hmin :
          min ((n + 1 : ℕ) : ℕ∞) m.firstWait = min (n : ℕ∞) m.step.machine.firstWait + 1 := by
        rw [hwait, Nat.cast_succ, min_add_add_right]
      have htop : min (n : ℕ∞) m.step.machine.firstWait ≠ ⊤ :=
        ne_top_of_le_ne_top (ENat.natCast_ne_top n) (min_le_left _ _)
      rw [hmin, ENat.toNat_add htop ENat.one_ne_top, hmachine]
      rfl

theorem runFrom_of_done {σ : Type} (hw : m.isWaiting = false) (hdone : m.step.verdict = .done)
    (observe : σ → List Event → σ) (ran : ℕ) (seen : σ) (n : ℕ) :
    runFrom observe ran seen m (n + 1) =
      runFrom observe (ran + 1) (observe seen m.step.events) m.step.machine n := by
  rw [runFrom, if_neg (by simp [hw])]
  generalize m.step = o at hdone
  obtain ⟨verdict, after, events⟩ := o
  cases hdone
  rfl

theorem runFrom_of_failed {σ : Type} {e : Error} (hw : m.isWaiting = false)
    (he : m.step.verdict = .failed e) (observe : σ → List Event → σ) (ran : ℕ) (seen : σ) (n : ℕ) :
    (runFrom observe ran seen m (n + 1)).verdict = .failed e := by
  rw [runFrom, if_neg (by simp [hw])]
  generalize m.step = o at he
  obtain ⟨verdict, after, events⟩ := o
  cases he
  rfl

/-- A run with a limit ends at the first failure, if the limit reaches it, or as far as it gets. -/
theorem ended_runFrom {σ : Type} (h : m.Bounded) (observe : σ → List Event → σ) (ran : ℕ) (seen : σ)
    (n : ℕ) : Ended m n (runFrom observe ran seen m n) := by
  induction n generalizing m ran seen with
  | zero =>
    refine .done ?_ rfl (by simp [runFrom, afterSteps])
    rw [firstFailure, Nat.cast_zero]
    exact pos_of_ne_zero (by simp)
  | succ n ih =>
    cases shifted h with
    | waits hw hwait hfailure =>
      rw [runFrom, if_pos hw]
      refine .done ?_ rfl (by simp [hwait, afterSteps])
      rw [hfailure]
      exact ENat.natCast_lt_top _
    | fails hw he _ hfailure =>
      refine .failed n.succ_pos ?_ he (runFrom_of_failed hw he observe ran seen n)
      rw [hfailure, Nat.cast_zero, zero_add]
    | goesOn hw hdone hwait hfailure =>
      rw [runFrom_of_done hw hdone]
      exact (ih (h.of_stepped (stepped h)) _ _).succ hwait hfailure

end Machine

namespace Headless

open CommandLine (HeadlessOptions)
open Machine (ended_runFrom firstFailure_of_firstWait done_of_lt_firstFailure)

variable {m : Machine} {o : HeadlessOptions} {rom : Array UInt8} {entropy : ChaCha.Key}
  {events : List Event}

/-- A run with a limit gives the first failure, if the limit reaches it, or a screen. -/
theorem run_cases (hnew : Machine.new rom o.settings entropy = .ok (m, events)) (n : ℕ) :
    (∃ (k : ℕ) (e : Error), k < n ∧ m.firstFailure = k + 1 ∧
      (m.afterSteps k).step.verdict = .failed e ∧
      run { o with steps := n } rom entropy = .error (.machine e)) ∨
    (n < m.firstFailure ∧ run { o with steps := n } rom entropy =
      .ok (m.afterSteps (min n m.firstWait : ℕ∞).toNat).screen.text) := by
  have hended := ended_runFrom (Machine.wellFormed_new hnew).toBounded (fun _ _ => ()) 0 () n
  simp only [run, hnew, Machine.runFor]
  cases hended with
  | failed hk hfailure he hverdict =>
    exact Or.inl ⟨_, _, hk, hfailure, he, by rw [hverdict]⟩
  | done hn hverdict hmachine =>
    exact Or.inr ⟨hn, by rw [hverdict, hmachine]⟩

theorem run_of_le (hnew : Machine.new rom o.settings entropy = .ok (m, events)) {n : ℕ}
    (hn : m.firstFailure ≤ n) :
    ∃ (k : ℕ) (e : Error), m.firstFailure = k + 1 ∧ (m.afterSteps k).step.verdict = .failed e ∧
      run { o with steps := n } rom entropy = .error (.machine e) := by
  rcases run_cases hnew n with ⟨k, e, -, hfailed⟩ | ⟨hlt, -⟩
  · exact ⟨k, e, hfailed⟩
  · exact absurd hn (not_le.2 hlt)

theorem run_of_lt (hnew : Machine.new rom o.settings entropy = .ok (m, events)) {n : ℕ}
    (hn : n < m.firstFailure) :
    run { o with steps := n } rom entropy =
      .ok (m.afterSteps (min n m.firstWait : ℕ∞).toNat).screen.text := by
  rcases run_cases hnew n with ⟨k, e, hk, hfailure, -⟩ | ⟨-, hscreen⟩
  · rw [hfailure, ← Nat.cast_succ, Nat.cast_lt] at hn
    omega
  · exact hscreen

/-- A failure stays with a larger limit. -/
theorem run_error_of_le (hnew : Machine.new rom o.settings entropy = .ok (m, events)) {n n' : ℕ}
    (hle : n ≤ n') {f : Failure} (hf : run { o with steps := n } rom entropy = .error f) :
    run { o with steps := n' } rom entropy = .error f := by
  rcases run_cases hnew n with ⟨k, e, hk, hfailure, he, hrun⟩ | ⟨-, hrun⟩
  · have hn : m.firstFailure ≤ n' := by
      rw [hfailure, ← Nat.cast_succ, Nat.cast_le]
      omega
    obtain ⟨k', e', hfailure', he', hrun'⟩ := run_of_le hnew hn
    obtain rfl : k = k' := by simpa using hfailure.symm.trans hfailure'
    obtain rfl : e = e' := Verdict.failed.inj (he.symm.trans he')
    rw [hrun', ← hf, hrun]
  · cases hrun.symm.trans hf

/-- The screen at a wait stays with a larger limit. -/
theorem run_of_firstWait_le (hnew : Machine.new rom o.settings entropy = .ok (m, events))
    {n n' : ℕ} (hw : m.firstWait ≤ n) (hle : n ≤ n') :
    run { o with steps := n' } rom entropy = run { o with steps := n } rom entropy := by
  obtain ⟨w, hwait⟩ := ENat.ne_top_iff_exists.1 (ne_top_of_le_ne_top (ENat.natCast_ne_top n) hw)
  have hnever := firstFailure_of_firstWait (Machine.wellFormed_new hnew).toBounded hwait.symm
  have hw' : m.firstWait ≤ n' := hw.trans (Nat.cast_le.2 hle)
  have hlt (j : ℕ) : j < m.firstFailure := hnever ▸ ENat.natCast_lt_top j
  rw [run_of_lt hnew (hlt n), run_of_lt hnew (hlt n'), min_eq_right hw, min_eq_right hw']

theorem launch_of_readable {μ : Type → Type} [Monad μ] [LawfulMonad μ]
    {readFile : String → μ (Option (Array UInt8))} {args : List String}
    (hargs : HeadlessOptions.read? args = some o) (hfile : readFile o.path = pure (some rom)) :
    launch readFile entropy args = pure (run o rom entropy) := by
  simp only [launch, hargs, hfile, pure_bind]

/-- What the headless program does depends on its limit in a simple way. Take the steps of the
    machine without end: `firstFailure` is the number of the first that fails, counted from one, and
    `firstWait` is the number of steps after which the machine waits for a key. A limit that reaches
    the failure gives its error and no output. Any other gives the screen after so many steps, or at
    the wait if that comes before, as all that is put out. So a failure stays with any larger limit,
    and so does the screen at a wait. -/
theorem run_with_limit (o : HeadlessOptions) (rom : Array UInt8) (entropy : ChaCha.Key)
    (hspeed : o.settings.speed ≠ 0) (hrom : rom.size ≤ 3584) :
    ∃ m events, Machine.new rom o.settings entropy = .ok (m, events) ∧
      let result (n : ℕ) := run { o with steps := n } rom entropy
      (∀ n : ℕ, m.firstFailure ≤ n → ∃ (k : ℕ) (e : Error), m.firstFailure = k + 1 ∧
        (m.afterSteps k).step.verdict = .failed e ∧ result n = .error (.machine e) ∧
        (report (result n)).output = "") ∧
      (∀ n : ℕ, n < m.firstFailure →
        let screen := (m.afterSteps (min n m.firstWait : ℕ∞).toNat).screen
        result n = .ok screen.text ∧ report (result n) = ⟨0, screen.text, ""⟩) ∧
      (∀ k : ℕ, k + 1 < m.firstFailure → (m.afterSteps k).step.verdict = .done) ∧
      (m.firstWait ≠ ⊤ → m.firstFailure = ⊤) ∧
      (∀ n n' : ℕ, n ≤ n' → ∀ f, result n = .error f → result n' = .error f) ∧
      (∀ n n' : ℕ, n ≤ n' → m.firstWait ≤ n → result n' = result n) ∧
      (∀ {μ : Type → Type} [Monad μ] [LawfulMonad μ]
        (readFile : String → μ (Option (Array UInt8))) (args : List String) (n : ℕ),
        HeadlessOptions.read? args = some { o with steps := n } →
        readFile o.path = pure (some rom) →
        launch readFile entropy args = pure (result n)) := by
  obtain ⟨m, events, hnew⟩ : ∃ m events, Machine.new rom o.settings entropy = .ok (m, events) :=
    ⟨_, _, Machine.new_eq_ok_iff.2 ⟨hspeed, hrom, rfl, rfl⟩⟩
  have hm := (Machine.wellFormed_new hnew).toBounded
  refine ⟨m, events, hnew, ?_⟩
  intro result
  refine ⟨fun n hn => ?_, fun n hn => ?_, fun k hk => ?_, fun hw => ?_, fun n n' hle f hf => ?_,
    fun n n' hle hw => ?_, fun readFile args n hargs hfile => ?_⟩
  · obtain ⟨k, e, hfailure, he, hrun⟩ := run_of_le hnew hn
    refine ⟨k, e, hfailure, he, hrun, ?_⟩
    simp only [result, hrun, report]
  · intro screen
    have hrun := run_of_lt hnew hn
    refine ⟨hrun, ?_⟩
    simp only [result, hrun, report, screen]
  · exact done_of_lt_firstFailure hm hk
  · obtain ⟨w, hwait⟩ := ENat.ne_top_iff_exists.1 hw
    exact firstFailure_of_firstWait hm hwait.symm
  · exact run_error_of_le hnew hle hf
  · exact run_of_firstWait_le hnew hw hle
  · exact launch_of_readable hargs hfile

/-- A return without a call, as the first instruction: the limit zero shows the blank screen, and
    every other gives the error. -/
theorem run_with_limit_return :
    let key := Vector.replicate 8 0
    let o (n : ℕ) : HeadlessOptions := ⟨{ seed := some 7 }, n, "return"⟩
    let result (n : ℕ) := run (o n) #[0x00, 0xEE] key
    result 0 = .ok Screen.blank.text ∧
      (∀ n ≠ 0, result n = .error (.machine (.stackUnderflow 0x200))) ∧
      launch (m := Id) (fun _ => some #[0x00, 0xEE]) key ["-n", "1", "--seed", "7", "return"] =
        result 1 := by
  intro key o result
  obtain ⟨m, events, hnew, hfailed, hdone, -, -, -, -, hlaunch⟩ :=
    run_with_limit (o 0) #[0x00, 0xEE] key (by decide) (by decide)
  have hm := (Machine.wellFormed_new hnew).toBounded
  obtain ⟨-, -, heq, -⟩ := Machine.new_eq_ok_iff.1 hnew
  obtain ⟨-, -, -, hnone, hfetch⟩ := Machine.start_of_new hnew
  have hfails : m.step.verdict = .failed (.stackUnderflow 0x200) := by
    refine (Machine.verdict_of_stepped (Machine.stepped hm)).2.2 ?_
    refine (Machine.failure?_eq_some_iff hm).2
      ⟨Machine.isWaiting_eq_false_iff.2 hnone, Or.inr (Or.inr ⟨?_, ?_, ?_⟩)⟩
    · rw [hfetch]
      decide
    · rw [heq]
      rfl
    · rw [heq]
      rfl
  have hfirst := Machine.firstFailure_of_failed hfails
  refine ⟨?_, fun n hn => ?_, hlaunch _ _ 1 rfl rfl⟩
  · have hshown := (hdone 0 (by rw [hfirst]; exact zero_lt_one)).1
    rw [Nat.cast_zero, zero_min, ENat.toNat_zero, heq] at hshown
    exact hshown
  · have hle : m.firstFailure ≤ n := hfirst ▸ Nat.one_le_cast.2 (Nat.one_le_iff_ne_zero.2 hn)
    obtain ⟨k, e, hk, he, hrun, -⟩ := hfailed n hle
    obtain rfl : k = 0 := by simpa using hk.symm.trans hfirst
    obtain rfl : _ = e := Verdict.failed.inj (hfails.symm.trans he)
    exact hrun

end Headless

end Chip8
