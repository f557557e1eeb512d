import LittleMan.Computer
import LittleMan.Input
import LittleMan.Settings

/-! Runs without the debugger: values are read when the inbox is empty, and emitted values shown. -/
namespace LittleMan

/-- A run that is over. -/
structure PlainRun where
  ending : Ending
  /-- Cycles that were completed. -/
  executed : Nat
  computer : Computer
  events : List Event
  deriving DecidableEq, Repr

namespace PlainRun

def after (r : PlainRun) (events : List Event) : PlainRun := { r with events := events ++ r.events }

def stopped (ending : Ending) (executed : Nat) (c : Computer) (events : List Event) : PlainRun :=
  ⟨ending, executed, c, events ++ [.ended ending]⟩

/-- The cycles until outputs are looked at again: all that are left, or a single one where there is
a pause after each. -/
def burst (settings : Settings) (executed : Nat) : Nat :=
  if settings.stepDelay = 0 then settings.stepLimit - executed else 1

theorem burst_eq_one {settings : Settings} {executed : Nat}
    (h : executed + burst settings executed < settings.stepLimit) :
    burst settings executed = 1 := by
  unfold burst at h ⊢
  split
  · rw [if_pos ‹_›] at h; omega
  · rfl

/-- Goes on with a run of which `executed` cycles are over. -/
def runOn (settings : Settings) (shownAtEnd : List Event) (lines : List InputLine) (executed : Nat)
    (c : Computer) : PlainRun :=
  let r := c.run .empty (burst settings executed)
  let executed' := executed + r.steps
  let shown := (c.newOutputs r.computer).map .output
  match _hs : r.stop with
  | .halted => stopped .halted executed' r.computer shown
  | .waiting =>
    match _hn : Input.next shownAtEnd lines with
    | (events, none) => stopped .noInput executed' r.computer (shown ++ events)
    | (events, some (v, rest)) =>
      (runOn settings shownAtEnd rest executed' (r.computer.push v)).after (shown ++ events)
  | .breakpoint _ | .stepLimit =>
    if _hl : settings.stepLimit ≤ executed' then
      stopped (.stepLimit settings.stepLimit) executed' r.computer shown
    else
      (runOn settings shownAtEnd lines executed' r.computer).after shown
termination_by (lines.length, settings.stepLimit - executed)
decreasing_by
  · have := Input.length_lt_of_next (congrArg Prod.snd _hn)
    exact Prod.Lex.left _ _ this
  · have : 0 < (c.run .empty (burst settings executed)).steps :=
      Computer.steps_runOn_pos_of_breakpoint _hs
    refine Prod.Lex.right _ ?_
    simp only [executed', r] at _hl ⊢
    omega
  · have hsteps := Computer.steps_run_of_stepLimit _hs
    refine Prod.Lex.right _ ?_
    simp only [executed', r, hsteps] at _hl ⊢
    have := burst_eq_one (show executed + burst settings executed < settings.stepLimit by omega)
    omega

def run (settings : Settings) (input : Input) (c : Computer) : PlainRun :=
  runOn settings input.shownAtEnd input.lines 0 c

end PlainRun

end LittleMan
