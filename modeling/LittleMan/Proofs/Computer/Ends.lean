import LittleMan.Proofs.Computer.Supply

/-! Where a run without breakpoints ends: the same end is found from every computer on the way. -/
namespace LittleMan

/-- Ends as another run does, after no more cycles. -/
structure Run.EndsAs (r' r : Run) : Prop where
  stop : r'.stop = r.stop
  computer : r'.computer = r.computer
  steps : r'.steps ≤ r.steps

theorem Run.EndsAs.refl (r : Run) : r.EndsAs r := ⟨rfl, rfl, Nat.le_refl _⟩

theorem Run.EndsAs.trans {r r' r'' : Run} (h : r''.EndsAs r') (h' : r'.EndsAs r) : r''.EndsAs r :=
  ⟨h.stop.trans h'.stop, h.computer.trans h'.computer, Nat.le_trans h.steps h'.steps⟩

namespace Computer

variable {limit limit' : Nat} {c d : Computer}

theorem run_of_halted (stops : Breakpoints) (limit : Nat) (h : c.machine.flag = .halted) :
    c.run stops limit = ⟨.halted, 0, c⟩ := by
  unfold run
  cases limit with
  | zero => rw [runOn_zero, if_pos (Machine.isHalted_iff.mpr h)]
  | succ n => rw [runOn_of_end (cycle_of_halted h)]

/-- The cycles behind a limit are those of a run of its own. -/
theorem run_split (n : Nat) (h : (c.run .empty limit).stop = .stepLimit) :
    c.run .empty (limit + n) = ((c.run .empty limit).computer.run .empty n).later limit := by
  have hs : c.run .empty (limit + n) = (c.run .empty limit).computer.runOn .empty (0 + limit) n :=
    runOn_split n h
  rw [hs, Nat.add_comm]
  exact runOn_add limit (.inr rfl)

/-- A machine that blocks once blocks again, and is left as it was. -/
theorem run_step_of_blocked (h : c.step.1 = .blocked) :
    c.step.2.run .empty (limit + 1) = c.run .empty (limit + 1) := by
  obtain ⟨resume, hb⟩ := Blocks.of_step h
  have hs := hb.step_supply []
  have hd : (c.step.2.supply []).Begins .empty 0 := hb.begins []
  simp only [supply_nil] at hs hd
  have hc : c.Begins .empty 0 := begins_zero hb.machine.flag_before
  have hr := runOn_of_step_eq hc hd hs limit
  rw [Run.later_zero] at hr
  exact hr.symm

/-- One cycle of a run may be made ahead of it. -/
theorem run_step (h : (c.run .empty limit).stop ≠ .stepLimit) :
    (c.step.2.run .empty limit).EndsAs (c.run .empty limit) := by
  cases limit with
  | zero =>
    have hh : c.machine.flag = .halted := by
      unfold run at h
      rw [runOn_zero] at h
      by_cases hh : c.machine.isHalted = true
      · exact Machine.isHalted_iff.mp hh
      · rw [if_neg hh] at h
        contradiction
    rw [step_of_halted hh]
    exact .refl _
  | succ n =>
    rcases cycle_cases .empty 0 c with ⟨hh, hc⟩ | ⟨-, -, hb, -⟩ | ⟨-, hs, -⟩ | ⟨-, hs, hc⟩ |
      ⟨-, -, -, hc⟩
    · rw [step_of_halted hh]
      exact .refl _
    · simp at hb
    · rw [run_step_of_blocked hs]
      exact .refl _
    · have hr : c.run .empty (n + 1) = ⟨.halted, 1, c.step.2⟩ := runOn_of_end hc
      rw [run_of_halted .empty (n + 1) (step_halted hs), hr]
      exact ⟨rfl, rfl, Nat.zero_le 1⟩
    · have ha : c.step.2.runOn .empty (1 + 0) n = (c.step.2.run .empty n).later 1 :=
        runOn_add 1 (.inr rfl)
      have hr : c.run .empty (n + 1) = (c.step.2.run .empty n).later 1 := (runOn_of_next hc).trans ha
      rw [hr] at h ⊢
      rw [run_of_le h (Nat.le_succ n)]
      exact ⟨rfl, rfl, Nat.le_add_left _ 1⟩

/-- From a computer on the way a run comes to the same end, if it may go on for as long. -/
theorem Reaches.run (h : Reaches c d) (hr : (c.run .empty limit).stop ≠ .stepLimit)
    (hl : limit ≤ limit') : (d.run .empty limit').EndsAs (c.run .empty limit) := by
  induction h with
  | refl c =>
    rw [run_of_le hr hl]
    exact .refl _
  | step _ ih =>
    have hs := run_step hr
    rw [← hs.stop] at hr
    exact (ih hr).trans hs

end Computer

end LittleMan
