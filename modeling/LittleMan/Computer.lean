import LittleMan.Breakpoints
import LittleMan.Machine

/-! A machine between its two trays, and runs of many cycles. -/
namespace LittleMan

structure Computer where
  machine : Machine
  /-- Values that wait to be taken, the next one first. -/
  inbox : List Int
  /-- Values emitted so far, the oldest first. -/
  outbox : Array Int
  deriving DecidableEq, Repr

/-- Why a run ends. -/
inductive Stop
  | halted
  | waiting
  /-- The counter has reached a breakpoint, whose instruction is still to come. -/
  | breakpoint (address : Address)
  | stepLimit
  deriving DecidableEq, Repr

structure Run where
  stop : Stop
  /-- Completed cycles. An input instruction that stays blocked is none. -/
  steps : Nat
  computer : Computer
  deriving DecidableEq, Repr

namespace Computer

def push (c : Computer) (v : Int) : Computer := { c with inbox := c.inbox ++ [v] }

/-- An emitted value goes to the back of the outbox. -/
def step (c : Computer) : Outcome × Computer :=
  let s := c.machine.step c.inbox
  let outbox :=
    match s.outcome with
    | .emitted v => c.outbox.push v
    | .completed | .blocked | .halted => c.outbox
  (s.outcome, ⟨s.machine, s.inbox, outbox⟩)

/-- What has come into the outbox between two states of a computer. -/
def newOutputs (before after : Computer) : List Int :=
  (after.outbox.extract before.outbox.size).toList

/-- Goes on with a run of which `done` cycles are over, for at most as many more as given. A
breakpoint counts only between two cycles of a run. -/
def runOn (stops : Breakpoints) (done : Nat) : Nat → Computer → Run
  | 0, c => ⟨if c.machine.isHalted then .halted else .stepLimit, done, c⟩
  | left + 1, c =>
    if c.machine.isHalted then ⟨.halted, done, c⟩
    else if 0 < done ∧ stops.contains c.machine.counter.val then
      ⟨.breakpoint c.machine.counter, done, c⟩
    else
      match c.step with
      | (.blocked, c') => ⟨.waiting, done, c'⟩
      | (.halted, c') => ⟨.halted, done + 1, c'⟩
      | (.completed, c') | (.emitted _, c') => runOn stops (done + 1) left c'

/-- Runs until the machine halts, is blocked on input or reaches a breakpoint, for at most `limit`
cycles. -/
def run (c : Computer) (stops : Breakpoints) (limit : Nat) : Run := runOn stops 0 limit c

theorem steps_runOn_of_stepLimit {stops : Breakpoints} {done left : Nat} {c : Computer}
    (h : (c.runOn stops done left).stop = .stepLimit) :
    (c.runOn stops done left).steps = done + left := by
  fun_induction runOn stops done left c with
  | case1 => rfl
  | case2 => simp at h
  | case3 => simp at h
  | case4 => simp at h
  | case5 => simp at h
  | case6 _ _ _ _ _ _ _ ih => rw [ih h]; omega
  | case7 _ _ _ _ _ _ _ _ ih => rw [ih h]; omega

theorem steps_runOn_pos_of_breakpoint {stops : Breakpoints} {done left : Nat} {c : Computer}
    {a : Address} (h : (c.runOn stops done left).stop = .breakpoint a) :
    0 < (c.runOn stops done left).steps := by
  fun_induction runOn stops done left c with
  | case1 => split at h <;> simp at h
  | case2 => simp at h
  | case3 _ _ _ _ hd => exact hd.1
  | case4 => simp at h
  | case5 => simp at h
  | case6 _ _ _ _ _ _ _ ih => exact ih h
  | case7 _ _ _ _ _ _ _ _ ih => exact ih h

/-- A run that is given up at its limit has made all its cycles. -/
theorem steps_run_of_stepLimit {stops : Breakpoints} {limit : Nat} {c : Computer}
    (h : (c.run stops limit).stop = .stepLimit) : (c.run stops limit).steps = limit := by
  simpa [run] using steps_runOn_of_stepLimit h

end Computer

end LittleMan
