import Chip8.Proofs.Beeps
import Chip8.Proofs.KeyHolds
import Chip8.Proofs.Rendering
import Chip8.Terminal.Script

/-! # Turns of a session

    Whatever is typed and whenever, a terminal that takes what is written shows the screen of the
    machine between any two turns of a session, and also after its end. Only steps change the
    screen, and a turn whose step is done draws what the step has changed; keys change nothing that
    is seen, and a step that fails changes nothing at all. So `q` and a failing step end a session
    without a last redraw. A step beeps at most once, so no beep waits longer than to the end of its
    turn, and the turn rings the bell for it. -/

namespace Chip8

namespace Terminal

namespace Session

open Machine (hear_channel count_beep_step_le)

variable {s : Session}

/-- Between turns: what is drawn is the screen of the machine, and no beep waits. -/
structure UpToDate (s : Session) : Prop where
  wellFormed : s.machine.WellFormed
  shown : s.canvas.shown = s.machine.screen
  silent : s.speaker = .channel 0

/-- A part of a turn that changes nothing that is seen or heard, and ends the session or not. -/
structure Unseen (s : Session) (ending : Option Ending) (r : Session × Option Ending) : Prop where
  upToDate : r.1.UpToDate
  screen : r.1.machine.screen = s.machine.screen
  ending_eq : r.2 = ending

/-- The moments of a session with a machine: what was written up to then, the session, and how it
    ended, if it did. Every turn has its time, its keys and its link. -/
inductive Reached (m : Machine) : List Write → Session → Option Ending → Prop where
  | start : Reached m Canvas.opening (Session.start m) none
  | turn {ws : List Write} {s : Session} (h : Reached m ws s none) (now : Int) (keys : List Key)
      (link : Link) :
      Reached m (ws ++ (s.turn now keys link).writes) (s.turn now keys link).session
        (s.turn now keys link).ending

/-- The ends of a turn, with the keys that were typed, the link, and the step that follows the
    keys. -/
inductive Turned (s : Session) (keys : List Key) (link : Link) (step : Outcome) : Turn → Prop where
  | quit {left : Session} (hquit : Key.quit ∈ keys) (hleft : left.UpToDate)
      (hscreen : left.machine.screen = s.machine.screen) :
      Turned s keys link step ⟨[], left, some .quit⟩
  | failed {left : Session} {e : Error} (hgoes : Key.quit ∉ keys) (he : step.verdict = .failed e)
      (hleft : left.UpToDate) (hscreen : left.machine.screen = s.machine.screen) :
      Turned s keys link step ⟨[], left, some (.failed e)⟩
  | drawn {left : Session} {pixels : List Write} (hgoes : Key.quit ∉ keys)
      (hdone : step.verdict = .done) (hleft : left.UpToDate)
      (hmachine : left.machine = step.machine)
      (hdraws : Canvas.Draws s.machine.screen left.machine.screen pixels) :
      Turned s keys link step ⟨pixels ++ if .beep ∈ step.events then [.bell] else [], left, none⟩
  | unwritten {left : Session} {pixels sent : List Write} (hgoes : Key.quit ∉ keys)
      (hdone : step.verdict = .done) (hlink : ¬ link.Works) (hmachine : left.machine = step.machine)
      (hdraws : Canvas.Draws s.machine.screen left.machine.screen pixels)
      (hsent : sent <+: pixels ++ if .beep ∈ step.events then [.bell] else []) :
      Turned s keys link step ⟨sent, left, some .unwritten⟩

/-! ### Input -/

/-- A key of the keypad can be pressed and released. -/
theorem verdict_key {m : Machine} (hm : m.WellFormed) {key : UInt8} (hkey : key.toNat < 16) :
    (m.press key).verdict = .done ∧ (m.release key).verdict = .done := by
  have hpress : (Operation.press key).InRange := trivial
  have hsound : (m.press key).verdict ≠ .fault := (hm.perform hpress).1
  have hpressed := Machine.pressed m key
  have hreleased := Machine.released m key
  generalize m.press key = o, m.release key = p at hsound hpressed hreleased
  constructor
  · cases hpressed with
    | ignored hout => omega
    | noticed | resumed => rfl
    | fault => exact absurd rfl hsound
  · cases hreleased with
    | ignored hout => omega
    | noticed => rfl

theorem after_of_done {o : Outcome} (hdone : o.verdict = .done) :
    s.after o = ({ s with machine := o.machine }, none) := by
  rw [Session.after, hdone]

theorem UpToDate.after (h : s.UpToDate) (op : Operation) (hout : op.isOutside = true)
    (hdone : (s.machine.perform op).verdict = .done) :
    s.Unseen none (s.after (s.machine.perform op)) := by
  have hop : op.InRange := by
    cases op with
    | press | release | load => trivial
    | step | execute | executeAll => cases hout
  obtain ⟨memory, registers, pc, keypad, hafter⟩ := s.machine.exists_perform_outside hout
  have hscreen : (s.machine.perform op).machine.screen = s.machine.screen := by rw [hafter]
  rw [after_of_done hdone]
  exact ⟨⟨(h.wellFormed.perform hop).2, h.shown.trans hscreen.symm, h.silent⟩, hscreen, rfl⟩

theorem UpToDate.withHeld (h : s.UpToDate) (held : KeyHolds) : UpToDate { s with held } :=
  ⟨h.wellFormed, h.shown, h.silent⟩

theorem Unseen.trans {s' : Session} {ending : Option Ending} {r : Session × Option Ending}
    (h : s.Unseen none (s', none)) (h' : s'.Unseen ending r) : s.Unseen ending r :=
  ⟨h'.upToDate, h'.screen.trans h.screen, h'.ending_eq⟩

/-- Only `q` ends the session. -/
theorem UpToDate.takeKey (h : s.UpToDate) (now : Int) (key : Key) :
    s.Unseen (if key = Key.quit then some .quit else none) (s.takeKey now key) := by
  rw [Session.takeKey]
  split
  · exact ⟨h, rfl, rfl⟩
  · split
    · exact ⟨h, rfl, rfl⟩
    · rename_i k _
      split
      · rename_i held hpress
        have hdone := (verdict_key h.wellFormed (KeyHolds.lt_of_press_eq_true hpress)).1
        have hpressed := (h.withHeld held).after (.press k) rfl hdone
        exact ⟨hpressed.upToDate, hpressed.screen, hpressed.ending_eq⟩
      · rename_i held _
        exact ⟨h.withHeld held, rfl, rfl⟩

theorem UpToDate.takeKeys (h : s.UpToDate) (now : Int) (keys : List Key) :
    s.Unseen (if Key.quit ∈ keys then some .quit else none) (s.takeKeys now keys) := by
  induction keys generalizing s with
  | nil => exact ⟨h, rfl, rfl⟩
  | cons key keys ih =>
    have hfirst := h.takeKey now key
    rw [Session.takeKeys]
    generalize s.takeKey now key = r at hfirst
    obtain ⟨s', ending⟩ := r
    by_cases hkey : key = Key.quit
    · rw [if_pos hkey] at hfirst
      obtain rfl : ending = some .quit := hfirst.ending_eq
      rw [if_pos (List.mem_cons.2 (Or.inl hkey.symm))]
      exact hfirst
    · rw [if_neg hkey] at hfirst
      obtain rfl : ending = none := hfirst.ending_eq
      rw [if_congr (List.mem_cons.trans (or_iff_right (Ne.symm hkey))) rfl rfl]
      exact hfirst.trans (ih hfirst.upToDate)

theorem UpToDate.releaseKeys (h : s.UpToDate) {keys : List UInt8}
    (hkeys : ∀ key ∈ keys, key.toNat < 16) : s.Unseen none (s.releaseKeys keys) := by
  induction keys generalizing s with
  | nil => exact ⟨h, rfl, rfl⟩
  | cons key keys ih =>
    obtain ⟨hkey, hkeys⟩ := List.forall_mem_cons.1 hkeys
    have hfirst : s.Unseen none (s.after (s.machine.release key)) :=
      h.after (.release key) rfl (verdict_key h.wellFormed hkey).2
    rw [Session.releaseKeys]
    generalize s.after (s.machine.release key) = r at hfirst
    obtain ⟨s', ending⟩ := r
    obtain rfl : ending = none := hfirst.ending_eq
    exact hfirst.trans (ih hfirst.upToDate hkeys)

theorem UpToDate.input (h : s.UpToDate) (now : Int) (keys : List Key) :
    s.Unseen (if Key.quit ∈ keys then some .quit else none) (s.input now keys) := by
  have hkeys := h.takeKeys now keys
  rw [Session.input]
  generalize s.takeKeys now keys = r at hkeys
  obtain ⟨s', ending⟩ := r
  obtain rfl : ending = _ := hkeys.ending_eq
  split at hkeys
  · rename_i hquit
    rw [if_pos hquit]
    exact hkeys
  · rename_i hgoes
    rw [if_neg hgoes]
    have hdue : ∀ key ∈ (s'.held.expire now).1, key.toNat < 16 :=
      fun key => KeyHolds.lt_of_mem_expire
    have hreleased := (hkeys.upToDate.withHeld (s'.held.expire now).2).releaseKeys hdue
    exact hkeys.trans ⟨hreleased.upToDate, hreleased.screen, hreleased.ending_eq⟩

/-! ### Output -/

/-- Either all is written, and what was drawn and heard is noted, or the link does not work. -/
theorem output_cases (s : Session) (link : Link) :
    let (pixels, canvas) := s.canvas.redraw s.machine.screen
    let (beeps, speaker) := s.speaker.receive
    let writes := pixels ++ if 0 < beeps.getD 0 then [.bell] else []
    s.output link = ⟨writes, { s with canvas, speaker }, none⟩ ∨
      ¬ link.Works ∧ ∃ sent left, sent <+: writes ∧ left.machine = s.machine ∧
        left.held = s.held ∧ s.output link = ⟨sent, left, some .unwritten⟩ := by
  rw [output]
  generalize s.canvas.redraw s.machine.screen = drawn, s.speaker.receive = heard
  obtain ⟨pixels, canvas⟩ := drawn
  obtain ⟨beeps, speaker⟩ := heard
  dsimp only
  rcases link.send_cases pixels with hdrawn | ⟨hlink, sent, hsent, hdrawn⟩
  · rw [hdrawn]
    dsimp only
    rcases link.send_cases (if 0 < beeps.getD 0 then [.bell] else []) with
      hrung | ⟨hlink, sent, hsent, hrung⟩
    · rw [hrung]
      exact Or.inl rfl
    · rw [hrung]
      dsimp only
      exact Or.inr ⟨hlink, pixels ++ sent, { s with canvas, speaker },
        (List.prefix_append_right_inj pixels).2 hsent, rfl, rfl, rfl⟩
  · rw [hdrawn]
    exact Or.inr ⟨hlink, sent, s, hsent.trans (List.prefix_append pixels _), rfl, rfl, rfl⟩

/-- Neither drawing nor the bell changes the machine or the table of held keys. -/
theorem session_output (s : Session) (link : Link) :
    (s.output link).session.machine = s.machine ∧ (s.output link).session.held = s.held := by
  rcases s.output_cases link with hwritten | ⟨-, sent, left, -, hmachine, hheld, hunwritten⟩
  · rw [hwritten]
    exact ⟨rfl, rfl⟩
  · rw [hunwritten]
    exact ⟨hmachine, hheld⟩

/-! ### Turns -/

/-- A turn ends the session if `q` is typed, if its step fails, or if the terminal does. Otherwise
    it draws what the step has changed, and rings the bell if the step has beeped. -/
theorem UpToDate.turn (h : s.UpToDate) (now : Int) (keys : List Key) (link : Link) :
    Turned s keys link (s.input now keys).1.machine.step (s.turn now keys link) := by
  have hinput := h.input now keys
  rw [Session.turn]
  generalize s.input now keys = r at hinput ⊢
  obtain ⟨input, ending⟩ := r
  obtain rfl : ending = _ := hinput.ending_eq
  by_cases hquit : Key.quit ∈ keys
  · rw [if_pos hquit]
    exact .quit hquit hinput.upToDate hinput.screen
  · rw [if_neg hquit]
    have hm := hinput.upToDate.wellFormed
    have hop : Operation.step.InRange := trivial
    obtain ⟨hfault, hwellFormed⟩ := hm.perform hop
    simp only [Session.after]
    cases hv : input.machine.step.verdict with
    | fault => exact absurd hv hfault
    | failed e =>
      -- a step that fails leaves the machine as it was
      have hmachine : input.machine.step.machine = input.machine := by
        rcases (Machine.stepped hm.toBounded).cases with
          ⟨-, -, hmachine, -⟩ | ⟨_, _, ⟨-, -, hdone⟩, -⟩
        · exact hmachine
        · cases hv.symm.trans hdone
      rw [hmachine]
      exact .failed hquit hv hinput.upToDate hinput.screen
    | done =>
      have hspeaker : (input.speaker.hear input.machine.step.events).1 =
          .channel (input.machine.step.events.count .beep) := by
        rw [hinput.upToDate.silent, hear_channel, Nat.zero_add]
      obtain ⟨hdraws, hshown⟩ := input.canvas.draws_redraw input.machine.step.machine.screen
      rw [hinput.upToDate.shown, hinput.screen] at hdraws
      have houtput := output_cases
        { input with
          machine := input.machine.step.machine
          speaker := (input.speaker.hear input.machine.step.events).1 } link
      simp only [hspeaker, Speaker.receive, Option.getD_some, List.count_pos_iff] at houtput ⊢
      rcases houtput with hwritten | ⟨hlink, sent, left, hsent, hmachine, -, hunwritten⟩
      · rw [hwritten]
        exact .drawn hquit hv ⟨hwellFormed, hshown, rfl⟩ rfl hdraws
      · rw [hunwritten]
        exact .unwritten hquit hv hlink hmachine (hmachine ▸ hdraws) hsent

theorem Turned.upToDate {keys : List Key} {link : Link} {step : Outcome} {t : Turn}
    (ht : Turned s keys link step t) (hwritten : t.ending ≠ some .unwritten) :
    t.session.UpToDate := by
  cases ht with
  | quit | failed | drawn => assumption
  | unwritten => exact absurd rfl hwritten

theorem Turned.ending_ne_unwritten {keys : List Key} {link : Link} {step : Outcome} {t : Turn}
    (ht : Turned s keys link step t) (hlink : link.Works) : t.ending ≠ some .unwritten := by
  cases ht with
  | quit | failed | drawn => nofun
  | unwritten _ _ hfails => exact absurd hlink hfails

/-- What a turn does is told by its keys, its step and the link. -/
theorem Turned.outcome {keys : List Key} {link : Link} {step : Outcome} {t : Turn}
    (ht : Turned s keys link step t) :
    (Key.quit ∈ keys → t.ending = some .quit ∧ t.writes = []) ∧
    (Key.quit ∉ keys → ∀ e, step.verdict = .failed e →
      t.ending = some (.failed e) ∧ t.writes = []) ∧
    (Key.quit ∉ keys → step.verdict = .done →
      t.session.machine = step.machine ∧
      ∃ pixels, Canvas.Draws s.machine.screen step.machine.screen pixels ∧
        let writes := pixels ++ if .beep ∈ step.events then [.bell] else []
        t.ending = none ∧ t.writes = writes ∨
          ¬ link.Works ∧ t.ending = some .unwritten ∧ t.writes <+: writes) := by
  cases ht with
  | quit hquit =>
    exact ⟨fun _ => ⟨rfl, rfl⟩, fun hgoes => absurd hquit hgoes, fun hgoes => absurd hquit hgoes⟩
  | failed hgoes he =>
    refine ⟨fun hquit => absurd hquit hgoes, fun _ e he' => ?_, fun _ hdone => ?_⟩
    · obtain rfl : _ = e := Verdict.failed.inj (he.symm.trans he')
      exact ⟨rfl, rfl⟩
    · cases he.symm.trans hdone
  | drawn hgoes hdone hleft hmachine hdraws =>
    refine ⟨fun hquit => absurd hquit hgoes, fun _ e he => ?_, fun _ _ => ?_⟩
    · cases hdone.symm.trans he
    · rw [hmachine] at hdraws
      exact ⟨hmachine, _, hdraws, Or.inl ⟨rfl, rfl⟩⟩
  | unwritten hgoes hdone hlink hmachine hdraws hsent =>
    refine ⟨fun hquit => absurd hquit hgoes, fun _ e he => ?_, fun _ _ => ?_⟩
    · cases hdone.symm.trans he
    · rw [hmachine] at hdraws
      exact ⟨hmachine, _, hdraws, Or.inr ⟨hlink, rfl, hsent⟩⟩

/-! ### Sessions -/

theorem upToDate_start {rom : Array UInt8} {settings : Settings} {entropy : ChaCha.Key}
    {m : Machine} {events : List Event}
    (hnew : Machine.new rom settings entropy = .ok (m, events)) : (Session.start m).UpToDate := by
  have hwellFormed := Machine.wellFormed_new hnew
  obtain ⟨-, -, rfl, -⟩ := Machine.new_eq_ok_iff.1 hnew
  exact ⟨hwellFormed, rfl, rfl⟩

theorem applyAll_bell (g : Grid) (c : Prop) [Decidable c] :
    g.applyAll (if c then [.bell] else []) = g := by
  split <;> rfl

theorem Turned.shows {keys : List Key} {link : Link} {step : Outcome} {t : Turn}
    (ht : Turned s keys link step t) (hwritten : t.ending ≠ some .unwritten) {g : Grid}
    (h : g.Shows s.machine.screen) :
    t.session.UpToDate ∧ (g.applyAll t.writes).Shows t.session.machine.screen := by
  refine ⟨ht.upToDate hwritten, ?_⟩
  cases ht with
  | unwritten => exact absurd rfl hwritten
  | quit hquit hleft hscreen | failed hgoes he hleft hscreen =>
    rw [hscreen]
    exact h
  | drawn hgoes hdone hleft hmachine hdraws =>
    rw [Grid.applyAll_append, applyAll_bell]
    exact h.draw hdraws

/-- At any moment of a session, unless the terminal has failed, it shows the screen of the
    machine. -/
theorem Reached.shows {m : Machine} (hstart : (Session.start m).UpToDate) {ws : List Write}
    {ending : Option Ending} (h : Reached m ws s ending) (hwritten : ending ≠ some .unwritten)
    (g : Grid) : s.UpToDate ∧ (g.applyAll ws).Shows s.machine.screen := by
  induction h with
  | start =>
    refine ⟨hstart, ?_⟩
    rw [← hstart.shown]
    exact Grid.shows_opening g
  | turn h now keys link ih =>
    obtain ⟨hs, hshows⟩ := ih nofun
    rw [Grid.applyAll_append]
    exact (hs.turn now keys link).shows hwritten hshows

/-- What a terminal shows is always the whole screen, although only changes are drawn. Of screens
    that are drawn one after the other it shows the last one, and each redraw writes the pixels that
    differ from the screen before. At any moment of a session, whatever the program and the keys, it
    shows the screen of the machine, unless it has failed and so ended the session. A turn ends the
    session and writes nothing if `q` is typed, or if its step fails. Any other turn draws the
    pixels that its step has changed, and then rings the bell once if the step has beeped; only over
    a link that does not work can it end before all this is written. The channel for beeps is empty
    between turns, and never holds more than one. -/
theorem terminal_shows_screen :
    (∀ (g : Grid) (screens : List Screen) (next : Screen),
      let last := screens.getLastD Screen.blank
      let r := (g.applyAll Canvas.opening).redrawAll Canvas.blank screens
      r.1.Shows last ∧ Canvas.Draws last next (r.2.redraw next).1 ∧
        ((r.2.redraw next).1 = [] ↔ next = last)) ∧
    ∀ {rom : Array UInt8} {settings : Settings} {entropy : ChaCha.Key} {m : Machine}
      {events : List Event}, Machine.new rom settings entropy = .ok (m, events) →
      ∀ {ws : List Write} {s : Session} {ending : Option Ending}, Reached m ws s ending →
        ending ≠ some .unwritten →
        (∀ g : Grid, (g.applyAll ws).Shows s.machine.screen) ∧ s.speaker = .channel 0 ∧
        ∀ (now : Int) (keys : List Key) (link : Link),
          let t := s.turn now keys link
          let input := (s.input now keys).1
          let step := input.machine.step
          step.verdict ≠ .fault ∧
          (∃ waiting ≤ 1, (input.speaker.hear step.events).1 = .channel waiting) ∧
          (Key.quit ∈ keys → t.ending = some .quit ∧ t.writes = []) ∧
          (Key.quit ∉ keys → ∀ e, step.verdict = .failed e →
            t.ending = some (.failed e) ∧ t.writes = []) ∧
          (Key.quit ∉ keys → step.verdict = .done →
            t.session.machine = step.machine ∧
            ∃ pixels, Canvas.Draws s.machine.screen step.machine.screen pixels ∧
              let writes := pixels ++ if .beep ∈ step.events then [.bell] else []
              t.ending = none ∧ t.writes = writes ∨
                ¬ link.Works ∧ t.ending = some .unwritten ∧ t.writes <+: writes) := by
  refine ⟨fun g screens next => ?_, fun hnew ws s ending h hwritten => ?_⟩
  · intro last r
    obtain ⟨hlast, hshows⟩ :=
      Grid.shows_redrawAll (c := Canvas.blank) (Grid.shows_opening g) screens
    obtain ⟨hdraws, -⟩ := r.2.draws_redraw next
    rw [hlast] at hshows hdraws
    exact ⟨hshows, hdraws, hdraws.eq_nil_iff⟩
  · have hstart := upToDate_start hnew
    have hs := (h.shows hstart hwritten Grid.blank).1
    refine ⟨fun g => (h.shows hstart hwritten g).2, hs.silent, fun now keys link => ?_⟩
    intro t input step
    have hinput := (hs.input now keys).upToDate
    have hop : Operation.step.InRange := trivial
    refine ⟨(hinput.wellFormed.perform hop).1,
      ⟨_, count_beep_step_le hinput.wellFormed.toBounded, ?_⟩, ?_⟩
    · rw [hinput.silent, hear_channel, Nat.zero_add]
    · exact (hs.turn now keys link).outcome

/-- A screen that is lit everywhere, and a session that is ended at once. -/
theorem terminal_shows_lit_screen :
    (let lit : Screen := ⟨Vector.replicate 2048 true⟩
     let r := (Grid.blank.applyAll Canvas.opening).redrawAll Canvas.blank [lit]
     r.1 0 0 = '┏' ∧ r.1 128 32 = '█') ∧
    ∃ m events, Machine.new #[] {} (Vector.replicate 8 0) = .ok (m, events) ∧
      (Grid.blank.applyAll Canvas.opening).Shows m.screen ∧
      ((Session.start m).turn 0 [Key.quit] Link.working).ending = some .quit ∧
      ((Session.start m).turn 0 [Key.quit] Link.working).writes = [] := by
  obtain ⟨hscreens, hsessions⟩ := terminal_shows_screen
  refine ⟨?_, ?_⟩
  · intro lit r
    obtain ⟨hshows, -⟩ := hscreens Grid.blank [lit] Screen.blank
    have hlit : block (lit.isLit 63 31) = '█' := by
      have hcell : Screen.cell 63 31 = 2047 := Screen.cell_eq (by decide) (by decide)
      simp [lit, Screen.isLit, Screen.get?, hcell, block]
    exact ⟨hshows.border 0 (by decide) 0 (by decide) _ rfl,
      (hshows.pixel 63 (by decide) 31 (by decide)).2.trans hlit⟩
  · obtain ⟨m, events, hnew⟩ : ∃ m events,
        Machine.new #[] {} (Vector.replicate 8 0) = .ok (m, events) :=
      ⟨_, _, Machine.new_eq_ok_iff.2 ⟨by decide, by decide, rfl, rfl⟩⟩
    obtain ⟨hshows, -, hturn⟩ := hsessions hnew .start (by decide)
    obtain ⟨-, -, hquit, -⟩ := hturn 0 [Key.quit] Link.working
    exact ⟨m, events, hnew, hshows Grid.blank, hquit (List.mem_singleton.2 rfl)⟩

end Session

/-! ### The program -/

/-- A play is at a moment of a session with its machine, and its terminal has not failed. -/
structure Play.Follows (m : Machine) (p : Play) : Prop where
  reached : Session.Reached m p.written.toList p.session p.ending
  taken : p.ending ≠ some .unwritten

namespace Play

variable {m : Machine} {p : Play}

theorem follows_start (m : Machine) : (Play.start m).Follows m := ⟨.start, nofun⟩

theorem Follows.turn (hstart : (Session.start m).UpToDate) (h : p.Follows m)
    (hending : p.ending = none) : p.turn.Follows m := by
  have hs := (h.reached.shows hstart h.taken Grid.blank).1
  have hreached := h.reached
  rw [hending] at hreached
  constructor
  · have hwritten : p.turn.written.toList =
        p.written.toList ++ (p.session.turn p.now p.queue.takeAll.1 Link.working).writes :=
      Array.toList_appendList
    rw [hwritten]
    exact hreached.turn p.now p.queue.takeAll.1 Link.working
  · exact (hs.turn p.now p.queue.takeAll.1 Link.working).ending_ne_unwritten fun _ => rfl

theorem Follows.turns (hstart : (Session.start m).UpToDate) (h : p.Follows m) (n : Nat) :
    (p.turns n).Follows m := by
  induction n generalizing p with
  | zero => exact h
  | succ n ih =>
    rw [Play.turns]
    split
    · exact h
    · rename_i hending
      exact ih (h.turn hstart (by simpa using hending))

theorem Follows.entry (hstart : (Session.start m).UpToDate) (h : p.Follows m) (e : Entry) :
    (p.entry e).Follows m := by
  have hentered : (p.enter e).Follows m := by
    cases e <;> exact ⟨h.reached, h.taken⟩
  exact hentered.turns hstart settleTurns

theorem Follows.foldl (hstart : (Session.start m).UpToDate) (h : p.Follows m)
    (script : List Entry) : (script.foldl Play.entry p).Follows m := by
  induction script generalizing p with
  | nil => exact h
  | cons e script ih => exact ih (h.entry hstart e)

end Play

/-- Whatever is typed, the interactive program writes what a session with its machine writes up to
    some moment, and then gives the terminal back. -/
theorem Interactive.exists_reached_run (o : CommandLine.InteractiveOptions) {rom : Array UInt8}
    {entropy : ChaCha.Key} (script : List Entry) {m : Machine} {events : List Event}
    (hnew : Machine.new rom o.settings entropy = .ok (m, events)) :
    ∃ ws s ending, Session.Reached m ws s ending ∧ ending ≠ some .unwritten ∧
      (Interactive.run o rom entropy script).written = ws ++ Canvas.closing := by
  have hstart := Session.upToDate_start hnew
  have hfollows :=
    ((Play.follows_start m).turns hstart Play.settleTurns).foldl hstart (script ++ [.pause])
  refine ⟨_, _, _, hfollows.reached, hfollows.taken, ?_⟩
  simp only [Interactive.run, hnew, Play.run]
  exact Array.toList_appendList

end Terminal

end Chip8
