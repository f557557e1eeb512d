import LittleMan.Proofs.PlainRun

/-! The loop of a run without the debugger, round by round: it is over after a bounded number of
rounds, and before each of them no more cycles have been made than the run may make. -/
namespace LittleMan.PlainRun

theorem after_stopped (ending : Ending) (executed : Nat) (c : Computer) (es es' : List Event) :
    (stopped ending executed c es').after es = stopped ending executed c (es ++ es') := by
  simp [after, stopped]

theorem after_after (r : PlainRun) (es es' : List Event) :
    (r.after es').after es = r.after (es ++ es') := by
  simp [after]

section

variable {settings : Settings} {shownAtEnd : List Event} {lines : List InputLine} {executed : Nat}
  {c : Computer}

theorem leg_eq (hd : settings.stepDelay = 0) (executed : Nat) (c : Computer) :
    leg settings executed c = c.run .empty (settings.stepLimit - executed) := by
  unfold leg burst
  rw [if_pos hd]

theorem overAfter_le (hd : settings.stepDelay = 0) (he : executed ≤ settings.stepLimit) :
    overAfter settings executed c ≤ settings.stepLimit := by
  have hb := Computer.steps_run_le c .empty (settings.stepLimit - executed)
  rw [← leg_eq hd] at hb
  unfold overAfter
  omega

/-- Without pauses no run makes more cycles than it may. -/
theorem executed_runOn_le (hd : settings.stepDelay = 0) (he : executed ≤ settings.stepLimit) :
    (runOn settings shownAtEnd lines executed c).executed ≤ settings.stepLimit := by
  induction hn : lines.length using Nat.strongRecOn generalizing lines executed c with
  | ind n ih =>
    have ho : overAfter settings executed c ≤ settings.stepLimit := overAfter_le hd he
    rw [runOn_eq]
    cases hs : (leg settings executed c).stop with
    | breakpoint a => exact absurd hs (Computer.stop_runOn_empty_ne_breakpoint _ _ _ _)
    | halted => exact ho
    | stepLimit =>
      dsimp only
      rw [if_pos (le_leg_of_stepLimit hd hs)]
      exact ho
    | waiting =>
      cases hi : Input.next shownAtEnd lines with
      | mk events found =>
        cases found with
        | none => exact ho
        | some found =>
          have hn' : found.2.length < n := by
            rw [← hn]
            exact Input.length_lt_of_next (congrArg Prod.snd hi)
          exact ih _ hn' ho rfl

end

/-- A run before a round of its loop. -/
structure Pending where
  lines : List InputLine
  executed : Nat
  computer : Computer
  /-- Shown so far. -/
  events : List Event

namespace Pending

variable {settings : Settings} {shownAtEnd : List Event} {p q : Pending}

/-- What the run comes to in the end. -/
def outcome (settings : Settings) (shownAtEnd : List Event) (p : Pending) : PlainRun :=
  (runOn settings shownAtEnd p.lines p.executed p.computer).after p.events

/-- One leg and a look at the input, if it is wanted: the run is over, or another round follows. -/
def round (settings : Settings) (shownAtEnd : List Event) (p : Pending) : PlainRun ⊕ Pending :=
  let r := leg settings p.executed p.computer
  let executed := overAfter settings p.executed p.computer
  let events := p.events ++ legEvents settings p.executed p.computer
  match r.stop with
  | .halted => .inl (stopped .halted executed r.computer events)
  | .waiting =>
    match Input.next shownAtEnd p.lines with
    | (more, none) => .inl (stopped .noInput executed r.computer (events ++ more))
    | (more, some (v, rest)) => .inr ⟨rest, executed, r.computer.push v, events ++ more⟩
  | .breakpoint _ | .stepLimit =>
    if settings.stepLimit ≤ executed then
      .inl (stopped (.stepLimit settings.stepLimit) executed r.computer events)
    else .inr ⟨p.lines, executed, r.computer, events⟩

theorem outcome_eq (settings : Settings) (shownAtEnd : List Event) (p : Pending) :
    p.outcome settings shownAtEnd =
      match p.round settings shownAtEnd with
      | .inl r => r
      | .inr q => q.outcome settings shownAtEnd := by
  unfold outcome round
  rw [runOn_eq]
  dsimp only
  cases (leg settings p.executed p.computer).stop with
  | halted => exact after_stopped _ _ _ _ _
  | waiting =>
    rcases Input.next shownAtEnd p.lines with ⟨more, _ | ⟨v, rest⟩⟩
    · dsimp only
      rw [after_stopped, List.append_assoc]
    · dsimp only
      rw [after_after, List.append_assoc]
  | breakpoint a | stepLimit =>
    dsimp only
    by_cases hl : settings.stepLimit ≤ overAfter settings p.executed p.computer
    · rw [if_pos hl, if_pos hl]
      exact after_stopped _ _ _ _ _
    · rw [if_neg hl, if_neg hl]
      exact after_after _ _ _

/-- Another round follows a value that has been read, or a pause between cycles. -/
theorem round_cases (h : p.round settings shownAtEnd = .inr q) :
    q.executed = overAfter settings p.executed p.computer ∧
      (((leg settings p.executed p.computer).stop = .waiting ∧
          q.lines.length < p.lines.length) ∨
        ((leg settings p.executed p.computer).stop = .stepLimit ∧ q.lines = p.lines ∧
          q.executed < settings.stepLimit)) := by
  unfold round at h
  dsimp only at h
  cases hs : (leg settings p.executed p.computer).stop with
  | halted => rw [hs] at h; contradiction
  | waiting =>
    rw [hs] at h
    dsimp only at h
    cases hn : Input.next shownAtEnd p.lines with
    | mk more found =>
      rw [hn] at h
      cases found with
      | none => contradiction
      | some found =>
        obtain ⟨v, rest⟩ := found
        obtain rfl := Sum.inr.inj h
        exact ⟨rfl, .inl ⟨rfl, Input.length_lt_of_next (congrArg Prod.snd hn)⟩⟩
  | breakpoint a => exact absurd hs (Computer.stop_runOn_empty_ne_breakpoint _ _ _ _)
  | stepLimit =>
    rw [hs] at h
    dsimp only at h
    split at h
    · contradiction
    · next hl =>
      obtain rfl := Sum.inr.inj h
      exact ⟨rfl, .inr ⟨rfl, rfl, Nat.lt_of_not_le hl⟩⟩

theorem measure_lt_of_round (h : p.round settings shownAtEnd = .inr q) :
    q.lines.length + (settings.stepLimit - q.executed) <
      p.lines.length + (settings.stepLimit - p.executed) := by
  obtain ⟨he, ⟨-, hl⟩ | ⟨hs, hq, hl⟩⟩ := round_cases h
  · unfold overAfter at he
    omega
  · have hn : (leg settings p.executed p.computer).steps = burst settings p.executed :=
      Computer.steps_run_of_stepLimit hs
    unfold overAfter at he
    have hb : burst settings p.executed = 1 := burst_eq_one (by omega)
    rw [hq]
    omega

end Pending

/-- A run before its first round. -/
def begin (input : Input) (c : Computer) : Pending := ⟨input.lines, 0, c, []⟩

theorem outcome_begin (settings : Settings) (input : Input) (c : Computer) :
    (begin input c).outcome settings input.shownAtEnd = run settings input c := rfl

end LittleMan.PlainRun
