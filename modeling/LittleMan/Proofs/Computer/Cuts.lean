import LittleMan.Proofs.Computer.Cycles
import LittleMan.Proofs.Computer.Ends

/-! Runs that are cut in two: where the second part goes on as the whole run would have, and where it
passes over a breakpoint that the whole run stops at. -/
namespace LittleMan

namespace Machine

variable {m : Machine} {inbox : List Int}

theorem flag_execute_of_next {origin : Address} {i : Instruction} (h : m.flag = .running)
    (hb : (m.execute origin inbox i).outcome ≠ .blocked)
    (hh : (m.execute origin inbox i).outcome ≠ .halted) :
    (m.execute origin inbox i).machine.flag = .running := by
  cases i with
  | input =>
    cases inbox with
    | nil => simp [execute] at hb
    | cons v rest => exact h
  | halt => simp [execute] at hh
  | invalid w => simp [execute] at hh
  | _ => exact h

/-- A machine that has finished a cycle is ready for the next. -/
theorem flag_step_of_next (hb : (m.step inbox).outcome ≠ .blocked)
    (hh : (m.step inbox).outcome ≠ .halted) : (m.step inbox).machine.flag = .running := by
  cases hf : m.flag with
  | running =>
    rw [step_of_running hf] at hb hh ⊢
    exact flag_execute_of_next hf hb hh
  | waiting resume =>
    cases inbox with
    | nil => simp [step_of_waiting_nil hf] at hb
    | cons v rest => rw [step_of_waiting_cons hf]; rfl
  | halted => simp [step_of_halted hf] at hh

end Machine

/-- The run of a single step that ends so and leads to the given computer. -/
def Outcome.singleStep (d : Computer) : Outcome → Run
  | blocked => ⟨.waiting, 0, d⟩
  | halted => ⟨.halted, 1, d⟩
  | completed | emitted _ => ⟨.stepLimit, 1, d⟩

namespace Computer

variable {stops : Breakpoints} {done left n m : Nat} {c : Computer}

theorem runOn_zero_of_not_halted (h : c.machine.flag ≠ .halted) :
    c.runOn stops done 0 = ⟨.stepLimit, done, c⟩ := by
  have hh : c.machine.isHalted = false := by simpa [← Bool.not_eq_true] using h
  simp [runOn_zero, hh]

/-- A run that is given up at its limit has not halted. -/
theorem flag_runOn_of_stepLimit (h : (c.runOn stops done left).stop = .stepLimit) :
    (c.runOn stops done left).computer.machine.flag ≠ .halted := by
  induction left generalizing done c with
  | zero =>
    intro hh
    have hc : c.machine.isHalted = true := Machine.isHalted_iff.mpr hh
    simp [runOn_zero, hc] at h
  | succ left ih =>
    rcases cycle_cases stops done c with ⟨-, hc⟩ | ⟨-, -, -, hc⟩ | ⟨-, -, hc⟩ | ⟨-, -, hc⟩ |
      ⟨-, -, -, hc⟩
    · simp [runOn_of_end hc] at h
    · simp [runOn_of_end hc] at h
    · simp [runOn_of_end hc] at h
    · simp [runOn_of_end hc] at h
    · rw [runOn_of_next hc] at h ⊢
      exact ih h

theorem runOn_of_breakpoint (h : c.machine.flag ≠ .halted) (hd : 0 < done) (hl : 0 < left)
    (hb : stops.contains c.machine.counter.val = true) :
    c.runOn stops done left = ⟨.breakpoint c.machine.counter, done, c⟩ := by
  obtain ⟨k, rfl⟩ : ∃ k, left = k + 1 := ⟨left - 1, by omega⟩
  exact runOn_of_end (cycle_of_breakpoint h hd hb)

/-- The cycles that are over only matter to the first breakpoint test. -/
theorem runOn_eq_later (h : c.machine.flag ≠ .halted)
    (hb : ¬(0 < done ∧ 0 < left ∧ stops.contains c.machine.counter.val = true)) :
    c.runOn stops done left = (c.run stops left).later done := by
  cases left with
  | zero => simp [run, runOn_zero_of_not_halted h, Run.later]
  | succ left =>
    have hc : c.Begins stops done := by
      refine ⟨h, fun hd => hb ⟨hd.1, by omega, hd.2⟩⟩
    exact runOn_of_step_eq hc (begins_zero h) rfl left

/-- From its second cycle on a run begins none at a breakpoint. -/
theorem not_contains_runOn (stops : Breakpoints) (done left : Nat) (c : Computer) :
    ∃ k, (c.runOn stops done left).begun = done + k ∧
      ∀ i < k, 0 < done + i → stops.contains (c.after i).machine.counter.val = false := by
  induction left generalizing done c with
  | zero =>
    exact ⟨0, begun_runOn_zero stops done c, by omega⟩
  | succ left ih =>
    -- the test of the cycle that begins here
    have hfirst : c.Begins stops done → 0 < done →
        stops.contains c.machine.counter.val = false := by
      intro hg hd
      have hn : ¬stops.contains c.machine.counter.val = true := fun hb => hg.2 ⟨hd, hb⟩
      simpa using hn
    rcases cycle_cases stops done c with ⟨-, hc⟩ | ⟨-, -, -, hc⟩ | ⟨hg, -, hc⟩ | ⟨hg, -, hc⟩ |
      ⟨hg, -, -, hc⟩
    · exact ⟨0, by simp [runOn_of_end hc, Run.begun], by omega⟩
    · exact ⟨0, by simp [runOn_of_end hc, Run.begun], by omega⟩
    · refine ⟨1, by simp [runOn_of_end hc, Run.begun], fun i hi hd => ?_⟩
      obtain rfl : i = 0 := by omega
      exact hfirst hg hd
    · refine ⟨1, by simp [runOn_of_end hc, Run.begun], fun i hi hd => ?_⟩
      obtain rfl : i = 0 := by omega
      exact hfirst hg hd
    · obtain ⟨k, hk, hn⟩ := ih (done + 1) c.step.2
      refine ⟨k + 1, by rw [runOn_of_next hc, hk]; omega, fun i hi hd => ?_⟩
      cases i with
      | zero => exact hfirst hg hd
      | succ i => exact hn i (by omega) (by omega)

theorem run_one (h : c.machine.flag ≠ .halted) : c.run stops 1 = c.step.1.singleStep c.step.2 := by
  rcases cycle_cases stops 0 c with ⟨hh, -⟩ | ⟨-, hd, -, -⟩ | ⟨-, hs, hc⟩ | ⟨-, hs, hc⟩ |
    ⟨-, hb, hs, hc⟩
  · contradiction
  · omega
  · simp [run, runOn_of_end hc, Outcome.singleStep, hs]
  · simp [run, runOn_of_end hc, Outcome.singleStep, hs]
  · have hr : c.step.2.machine.flag = .running := Machine.flag_step_of_next hb hs
    have hn : c.step.2.machine.flag ≠ .halted := by simp [hr]
    rw [run, runOn_of_next hc, runOn_zero_of_not_halted hn]
    cases ho : c.step.1 with
    | blocked => contradiction
    | halted => contradiction
    | completed => rfl
    | emitted v => rfl

/-- A run of `n + m` cycles is one of `n` cycles, with one of `m` cycles behind it if the first is
given up at its limit. A breakpoint between the two stops the whole run, but the second part passes
over it. Of the cycles of a run all but the first begin outside of the breakpoints; with no cycle to
make nothing happens, and with a single one a machine that has not halted makes one step. -/
theorem run_cut (c : Computer) (stops : Breakpoints) (n m : Nat) :
    let r := c.run stops n
    (r.stop ≠ .stepLimit → c.run stops (n + m) = r) ∧
    (r.stop = .stepLimit →
      r.steps = n ∧
      (0 < n ∧ 0 < m ∧ stops.contains r.computer.machine.counter.val = true →
        c.run stops (n + m) = ⟨.breakpoint r.computer.machine.counter, n, r.computer⟩) ∧
      (¬(0 < n ∧ 0 < m ∧ stops.contains r.computer.machine.counter.val = true) →
        c.run stops (n + m) = (r.computer.run stops m).later n)) ∧
    (r.computer = c.after r.begun ∧
      ∀ i, 0 < i → i < r.begun → stops.contains (c.after i).machine.counter.val = false) ∧
    c.run stops 0 = ⟨if c.machine.flag = .halted then .halted else .stepLimit, 0, c⟩ ∧
    (c.machine.flag = .halted → c.run stops 1 = ⟨.halted, 0, c⟩) ∧
    (c.machine.flag ≠ .halted → c.run stops 1 = c.step.1.singleStep c.step.2) := by
  intro r
  refine ⟨fun h => ?_, fun h => ⟨?_, fun hb => ?_, fun hb => ?_⟩, ⟨?_, ?_⟩, ?_, ?_, ?_⟩
  · exact run_of_le h (Nat.le_add_right n m)
  · exact steps_run_of_stepLimit h
  · have hs := runOn_split m h
    rw [Nat.zero_add] at hs
    exact hs.trans (runOn_of_breakpoint (flag_runOn_of_stepLimit h) hb.1 hb.2.1 hb.2.2)
  · have hs := runOn_split m h
    rw [Nat.zero_add] at hs
    exact hs.trans (runOn_eq_later (flag_runOn_of_stepLimit h) hb)
  · exact computer_run c stops n
  · intro i hi hn
    obtain ⟨k, hk, hout⟩ := not_contains_runOn stops 0 n c
    have hk' : r.begun = k := by rw [← Nat.zero_add k]; exact hk
    exact hout i (by omega) (by omega)
  · simp only [run, runOn_zero, Machine.isHalted_iff]
  · exact run_of_halted stops 1
  · exact run_one

end Computer

end LittleMan
