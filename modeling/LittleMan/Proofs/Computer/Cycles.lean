import Mathlib.Logic.Function.Iterate
import LittleMan.Proofs.Computer.Runs

/-! The cycles that a run consists of, one by one: what comes into the outbox are the accumulators
of those that carry out an output instruction. -/
namespace LittleMan

namespace Machine

variable {m : Machine}

/-- The value that the next cycle emits: the accumulator, if an output instruction is carried out. A
pending input instruction is finished first, whatever has been written over it. -/
def emits? (m : Machine) : Option Int :=
  if m.flag = .running ∧ Instruction.decode (m.memory.get m.counter) = .output then
    some m.accumulator
  else none

theorem values_execute (origin : Address) (inbox : List Int) (i : Instruction) :
    (m.execute origin inbox i).outcome.values = if i = .output then [m.accumulator] else [] := by
  cases i with
  | input => cases inbox <;> rfl
  | _ => rfl

theorem values_step (m : Machine) (inbox : List Int) :
    (m.step inbox).outcome.values = m.emits?.toList := by
  unfold emits?
  cases hf : m.flag with
  | running =>
    rw [step_of_running hf, values_execute]
    have hi : m.fetch.fetched = m.memory.get m.counter := rfl
    have ha : m.fetch.accumulator = m.accumulator := rfl
    rw [hi, ha]
    by_cases ho : Instruction.decode (m.memory.get m.counter) = .output
    · rw [if_pos ho, if_pos ⟨rfl, ho⟩]
      rfl
    · rw [if_neg ho, if_neg fun h => ho h.2]
      rfl
  | waiting resume =>
    cases inbox with
    | nil => rw [step_of_waiting_nil hf]; rfl
    | cons v rest => rw [step_of_waiting_cons hf]; rfl
  | halted => rw [step_of_halted hf]; rfl

end Machine

/-- The cycles of a run that have begun: those that are completed, and one that is blocked. -/
def Run.begun (r : Run) : Nat := if r.stop = .waiting then r.steps + 1 else r.steps

namespace Computer

/-- The computer when so many cycles have begun. -/
def after (n : Nat) (c : Computer) : Computer := (fun d => d.step.2)^[n] c

/-- The machines at which so many cycles begin. -/
def machines (n : Nat) (c : Computer) : List Machine :=
  (List.range n).map fun i => (c.after i).machine

variable {stops : Breakpoints} {done left : Nat} {c : Computer}

theorem machines_succ (n : Nat) (c : Computer) :
    c.machines (n + 1) = c.machines n ++ [(c.after n).machine] := by
  unfold machines
  rw [List.range_succ, List.map_append]
  rfl

theorem machines_cons (n : Nat) (c : Computer) :
    c.machines (n + 1) = c.machine :: c.step.2.machines n := by
  unfold machines
  rw [List.range_succ_eq_map, List.map_cons, List.map_map]
  rfl

/-- The outbox holds what the cycles have emitted, behind what it has held before. -/
theorem outbox_after (n : Nat) (c : Computer) :
    (c.after n).outbox.toList = c.outbox.toList ++ (c.machines n).filterMap Machine.emits? := by
  induction n with
  | zero => exact (List.append_nil _).symm
  | succ n ih =>
    have hs : c.after (n + 1) = (c.after n).step.2 := Function.iterate_succ_apply' _ n c
    have hv : (c.after n).step.1.values = (c.after n).machine.emits?.toList :=
      Machine.values_step _ _
    rw [hs, step_outbox, ih, hv, machines_succ, List.filterMap_append, List.append_assoc]
    cases h : (c.after n).machine.emits? <;> simp [h]

theorem begun_runOn_zero (stops : Breakpoints) (done : Nat) (c : Computer) :
    (c.runOn stops done 0).begun = done := by
  rw [runOn_zero]
  unfold Run.begun
  cases c.machine.isHalted <;> simp

/-- A run consists of the cycles that have begun. -/
theorem computer_runOn (stops : Breakpoints) (done left : Nat) (c : Computer) :
    ∃ n, (c.runOn stops done left).begun = done + n ∧
      (c.runOn stops done left).computer = c.after n := by
  induction left generalizing done c with
  | zero =>
    refine ⟨0, begun_runOn_zero stops done c, ?_⟩
    rw [runOn_zero]
    rfl
  | succ left ih =>
    rcases cycle_cases stops done c with ⟨-, hc⟩ | ⟨-, -, -, hc⟩ | ⟨-, -, hc⟩ | ⟨-, -, hc⟩ |
      ⟨-, -, -, hc⟩
    · rw [runOn_of_end hc]
      exact ⟨0, rfl, rfl⟩
    · rw [runOn_of_end hc]
      exact ⟨0, rfl, rfl⟩
    · rw [runOn_of_end hc]
      exact ⟨1, rfl, rfl⟩
    · rw [runOn_of_end hc]
      exact ⟨1, rfl, rfl⟩
    · rw [runOn_of_next hc]
      obtain ⟨n, hn, hd⟩ := ih (done + 1) c.step.2
      exact ⟨n + 1, by omega, hd⟩

/-- The machines at which the cycles of a run begin. -/
def cycles (c : Computer) (r : Run) : List Machine := c.machines r.begun

theorem computer_run (c : Computer) (stops : Breakpoints) (limit : Nat) :
    (c.run stops limit).computer = c.after (c.run stops limit).begun := by
  obtain ⟨n, hn, hc⟩ := computer_runOn stops 0 limit c
  rw [Nat.zero_add] at hn
  rw [run, hn]
  exact hc

/-- A run puts into the outbox what its output instructions emit. -/
theorem newOutputs_run (c : Computer) (stops : Breakpoints) (limit : Nat) :
    c.newOutputs (c.run stops limit).computer =
      (c.cycles (c.run stops limit)).filterMap Machine.emits? := by
  apply newOutputs_of_append
  rw [computer_run]
  exact outbox_after _ c

end Computer

end LittleMan
