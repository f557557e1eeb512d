import LittleMan.Computer
import LittleMan.Proofs.Machine.Steps

/-! Runs of many cycles: how their parts fit together, and what they leave in the outbox. -/
namespace LittleMan

/-- What a step adds to the outbox. -/
def Outcome.values : Outcome → List Int
  | emitted v => [v]
  | completed | blocked | halted => []

/-- The same run behind `k` cycles that are over. -/
def Run.later (k : Nat) (r : Run) : Run := { r with steps := k + r.steps }

theorem Run.later_zero (r : Run) : r.later 0 = r := by
  unfold later
  rw [Nat.zero_add]

@[simp] theorem Breakpoints.contains_empty (a : Nat) : Breakpoints.empty.contains a = false := rfl

namespace Computer

variable {stops : Breakpoints} {done left limit : Nat} {c d e : Computer}

theorem step_outbox (c : Computer) : c.step.2.outbox.toList = c.outbox.toList ++ c.step.1.values := by
  unfold step
  dsimp only
  split <;> simp [Outcome.values, *]

theorem step_of_halted (h : c.machine.flag = .halted) : c.step.2 = c := by
  unfold step
  rw [Machine.step_of_halted h]

theorem step_halted (h : c.step.1 = .halted) : c.step.2.machine.flag = .halted :=
  Machine.step_halted h

theorem step_blocked (h : c.step.1 = .blocked) :
    c.inbox = [] ∧ c.step.2.inbox = [] ∧ c.step.2.outbox = c.outbox ∧
      ∃ resume, c.machine.StuckAs c.step.2.machine resume := by
  obtain ⟨hi, resume, hs⟩ := Machine.step_blocked h
  unfold step
  rw [hi]
  refine ⟨rfl, ?_, ?_, resume, hs⟩
  · rw [hs.step_nil]
  · rw [hs.step_nil]

/-- Some cycles, none perhaps, lead from the first computer to the second. -/
inductive Reaches : Computer → Computer → Prop
  | refl (c : Computer) : Reaches c c
  | step {c d : Computer} (h : Reaches c.step.2 d) : Reaches c d

theorem Reaches.trans (h : Reaches c d) (h' : Reaches d e) : Reaches c e := by
  induction h with
  | refl => exact h'
  | step _ ih => exact .step (ih h')

/-- What comes of a run when one more cycle is allowed: its end, or the computer it goes on with. -/
def cycle (stops : Breakpoints) (done : Nat) (c : Computer) : Run ⊕ Computer :=
  if c.machine.isHalted then .inl ⟨.halted, done, c⟩
  else if 0 < done ∧ stops.contains c.machine.counter.val then
    .inl ⟨.breakpoint c.machine.counter, done, c⟩
  else
    match c.step.1 with
    | .blocked => .inl ⟨.waiting, done, c.step.2⟩
    | .halted => .inl ⟨.halted, done + 1, c.step.2⟩
    | .completed | .emitted _ => .inr c.step.2

theorem runOn_zero (stops : Breakpoints) (done : Nat) (c : Computer) :
    c.runOn stops done 0 = ⟨if c.machine.isHalted then .halted else .stepLimit, done, c⟩ := by
  unfold runOn
  rfl

theorem runOn_succ (stops : Breakpoints) (done left : Nat) (c : Computer) :
    c.runOn stops done (left + 1) =
      match c.cycle stops done with
      | .inl r => r
      | .inr d => d.runOn stops (done + 1) left := by
  rw [runOn]
  unfold cycle
  split
  · rfl
  · split
    · rfl
    · cases hs : c.step with
      | mk o c' => cases o <;> rfl

theorem runOn_of_end {r : Run} (h : c.cycle stops done = .inl r) :
    c.runOn stops done (left + 1) = r := by
  rw [runOn_succ, h]

theorem runOn_of_next (h : c.cycle stops done = .inr d) :
    c.runOn stops done (left + 1) = d.runOn stops (done + 1) left := by
  rw [runOn_succ, h]

/-- Nothing keeps the next cycle of a run from beginning. -/
def Begins (stops : Breakpoints) (done : Nat) (c : Computer) : Prop :=
  c.machine.flag ≠ .halted ∧ ¬(0 < done ∧ stops.contains c.machine.counter.val)

theorem begins_zero (h : c.machine.flag ≠ .halted) : c.Begins stops 0 :=
  ⟨h, fun hd => absurd hd.1 (Nat.lt_irrefl 0)⟩

theorem cycle_of_halted (h : c.machine.flag = .halted) :
    c.cycle stops done = .inl ⟨.halted, done, c⟩ := by
  unfold cycle
  rw [if_pos (Machine.isHalted_iff.mpr h)]

theorem cycle_of_breakpoint (h : c.machine.flag ≠ .halted) (hd : 0 < done)
    (hb : stops.contains c.machine.counter.val) :
    c.cycle stops done = .inl ⟨.breakpoint c.machine.counter, done, c⟩ := by
  unfold cycle
  rw [if_neg (fun hh => h (Machine.isHalted_iff.mp hh)), if_pos ⟨hd, hb⟩]

theorem cycle_of_begins (h : c.Begins stops done) :
    c.cycle stops done =
      match c.step.1 with
      | .blocked => .inl ⟨.waiting, done, c.step.2⟩
      | .halted => .inl ⟨.halted, done + 1, c.step.2⟩
      | .completed | .emitted _ => .inr c.step.2 := by
  unfold cycle
  rw [if_neg (fun hh => h.1 (Machine.isHalted_iff.mp hh)), if_neg h.2]

theorem cycle_of_blocked (h : c.Begins stops done) (hs : c.step.1 = .blocked) :
    c.cycle stops done = .inl ⟨.waiting, done, c.step.2⟩ := by
  rw [cycle_of_begins h, hs]

theorem cycle_of_halting (h : c.Begins stops done) (hs : c.step.1 = .halted) :
    c.cycle stops done = .inl ⟨.halted, done + 1, c.step.2⟩ := by
  rw [cycle_of_begins h, hs]

theorem cycle_of_next (h : c.Begins stops done) (hb : c.step.1 ≠ .blocked)
    (hh : c.step.1 ≠ .halted) : c.cycle stops done = .inr c.step.2 := by
  rw [cycle_of_begins h]
  cases hs : c.step.1 with
  | blocked => exact absurd hs hb
  | halted => exact absurd hs hh
  | completed => rfl
  | emitted v => rfl

/-- A run ends because the machine has halted already, at a breakpoint, or with a step that blocks
or halts. All other steps it goes on from. -/
theorem cycle_cases (stops : Breakpoints) (done : Nat) (c : Computer) :
    (c.machine.flag = .halted ∧ c.cycle stops done = .inl ⟨.halted, done, c⟩) ∨
    (c.machine.flag ≠ .halted ∧ 0 < done ∧ stops.contains c.machine.counter.val = true ∧
      c.cycle stops done = .inl ⟨.breakpoint c.machine.counter, done, c⟩) ∨
    (c.Begins stops done ∧ c.step.1 = .blocked ∧
      c.cycle stops done = .inl ⟨.waiting, done, c.step.2⟩) ∨
    (c.Begins stops done ∧ c.step.1 = .halted ∧
      c.cycle stops done = .inl ⟨.halted, done + 1, c.step.2⟩) ∨
    (c.Begins stops done ∧ c.step.1 ≠ .blocked ∧ c.step.1 ≠ .halted ∧
      c.cycle stops done = .inr c.step.2) := by
  by_cases hh : c.machine.flag = .halted
  · exact .inl ⟨hh, cycle_of_halted hh⟩
  by_cases hb : 0 < done ∧ stops.contains c.machine.counter.val = true
  · exact .inr (.inl ⟨hh, hb.1, hb.2, cycle_of_breakpoint hh hb.1 hb.2⟩)
  have h : c.Begins stops done := ⟨hh, hb⟩
  by_cases h₁ : c.step.1 = .blocked
  · exact .inr (.inr (.inl ⟨h, h₁, cycle_of_blocked h h₁⟩))
  by_cases h₂ : c.step.1 = .halted
  · exact .inr (.inr (.inr (.inl ⟨h, h₂, cycle_of_halting h h₂⟩)))
  · exact .inr (.inr (.inr (.inr ⟨h, h₁, h₂, cycle_of_next h h₁ h₂⟩)))

theorem reaches_runOn (stops : Breakpoints) (done left : Nat) (c : Computer) :
    Reaches c (c.runOn stops done left).computer := by
  induction left generalizing done c with
  | zero => rw [runOn_zero]; exact .refl c
  | succ left ih =>
    rcases cycle_cases stops done c with ⟨-, hc⟩ | ⟨-, -, -, hc⟩ | ⟨-, -, hc⟩ | ⟨-, -, hc⟩ |
      ⟨-, -, -, hc⟩
    · rw [runOn_of_end hc]; exact .refl c
    · rw [runOn_of_end hc]; exact .refl c
    · rw [runOn_of_end hc]; exact .step (.refl _)
    · rw [runOn_of_end hc]; exact .step (.refl _)
    · rw [runOn_of_next hc]; exact .step (ih _ _)

theorem newOutputs_of_append {vs : List Int} (h : d.outbox.toList = c.outbox.toList ++ vs) :
    c.newOutputs d = vs := by
  have hs : d.outbox.size = c.outbox.size + vs.length := by
    have := congrArg List.length h
    simpa using this
  unfold newOutputs
  rw [Array.toList_extract, h]
  simp [List.extract, hs]

/-- Values only ever come to the back of the outbox. -/
theorem Reaches.outbox (h : Reaches c d) : d.outbox.toList = c.outbox.toList ++ c.newOutputs d := by
  have hv : ∃ vs, d.outbox.toList = c.outbox.toList ++ vs := by
    induction h with
    | refl => exact ⟨[], by simp⟩
    | step _ ih =>
      obtain ⟨vs, hvs⟩ := ih
      rw [step_outbox, List.append_assoc] at hvs
      exact ⟨_, hvs⟩
  obtain ⟨vs, hvs⟩ := hv
  rw [newOutputs_of_append hvs]
  exact hvs

@[simp] theorem newOutputs_self (c : Computer) : c.newOutputs c = [] :=
  newOutputs_of_append (by simp)

theorem Reaches.newOutputs_append (h : Reaches c d) (h' : Reaches d e) :
    c.newOutputs d ++ d.newOutputs e = c.newOutputs e := by
  symm
  apply newOutputs_of_append
  rw [h'.outbox, h.outbox, List.append_assoc]

theorem cycle_add (k : Nat) (h : 0 < done ∨ stops = .empty) :
    c.cycle stops (k + done) = (c.cycle stops done).map (Run.later k) id := by
  have hb : (0 < k + done ∧ stops.contains c.machine.counter.val) ↔
      (0 < done ∧ stops.contains c.machine.counter.val) := by
    rcases h with h | rfl
    · exact and_congr_left fun _ => ⟨fun _ => h, fun _ => by omega⟩
    · simp
  unfold cycle
  simp only [hb]
  split
  · rfl
  · split
    · rfl
    · cases c.step.1 <;> rfl

/-- Once a run is under way, or where nothing holds it up, it does not matter how many cycles are
over. -/
theorem runOn_add (k : Nat) (h : 0 < done ∨ stops = .empty) :
    c.runOn stops (k + done) left = (c.runOn stops done left).later k := by
  induction left generalizing done c with
  | zero => rw [runOn_zero, runOn_zero]; rfl
  | succ left ih =>
    have hk := cycle_add (c := c) k h
    cases hc : c.cycle stops done with
    | inl r =>
      rw [hc] at hk
      rw [runOn_of_end hk, runOn_of_end hc]
    | inr d =>
      rw [hc] at hk
      rw [runOn_of_next hk, runOn_of_next hc]
      have hd : 0 < done + 1 := Nat.succ_pos done
      exact ih (.inl hd)

/-- A run that does not end at its limit ends in the same way if it may go on for longer. -/
theorem runOn_of_le {left' : Nat} (h : (c.runOn stops done left).stop ≠ .stepLimit)
    (hl : left ≤ left') : c.runOn stops done left' = c.runOn stops done left := by
  induction left generalizing done left' c with
  | zero =>
    rw [runOn_zero] at h ⊢
    have hh : c.machine.isHalted = true := by
      cases hh : c.machine.isHalted with
      | true => rfl
      | false => rw [hh] at h; exact absurd rfl h
    rw [hh]
    cases left' with
    | zero => rw [runOn_zero, hh]
    | succ left' => rw [runOn_of_end (cycle_of_halted (Machine.isHalted_iff.mp hh))]; rfl
  | succ left ih =>
    obtain ⟨n, rfl⟩ : ∃ n, left' = n + 1 := ⟨left' - 1, by omega⟩
    cases hc : c.cycle stops done with
    | inl r => rw [runOn_of_end hc, runOn_of_end hc]
    | inr d =>
      rw [runOn_of_next hc] at h
      rw [runOn_of_next hc, runOn_of_next hc]
      exact ih h (by omega)

/-- A run that is given up at its limit may be taken up again where it was left. -/
theorem runOn_split (n : Nat) (h : (c.runOn stops done left).stop = .stepLimit) :
    c.runOn stops done (left + n) =
      (c.runOn stops done left).computer.runOn stops (done + left) n := by
  induction left generalizing done c with
  | zero => rw [runOn_zero, Nat.zero_add, Nat.add_zero]
  | succ left ih =>
    have hn : left + 1 + n = left + n + 1 := Nat.add_right_comm left 1 n
    have hd : done + (left + 1) = done + 1 + left := by omega
    rcases cycle_cases stops done c with ⟨-, hc⟩ | ⟨-, -, -, hc⟩ | ⟨-, -, hc⟩ | ⟨-, -, hc⟩ |
      ⟨-, -, -, hc⟩
    · rw [runOn_of_end hc] at h; contradiction
    · rw [runOn_of_end hc] at h; contradiction
    · rw [runOn_of_end hc] at h; contradiction
    · rw [runOn_of_end hc] at h; contradiction
    · rw [runOn_of_next hc] at h ⊢
      rw [hn, runOn_of_next hc, hd]
      exact ih h

theorem steps_runOn_le (stops : Breakpoints) (done left : Nat) (c : Computer) :
    (c.runOn stops done left).steps ≤ done + left := by
  induction left generalizing done c with
  | zero => rw [runOn_zero]; exact Nat.le_refl done
  | succ left ih =>
    rcases cycle_cases stops done c with ⟨-, hc⟩ | ⟨-, -, -, hc⟩ | ⟨-, -, hc⟩ | ⟨-, -, hc⟩ |
      ⟨-, -, -, hc⟩
    · rw [runOn_of_end hc]; dsimp only; omega
    · rw [runOn_of_end hc]; dsimp only; omega
    · rw [runOn_of_end hc]; dsimp only; omega
    · rw [runOn_of_end hc]; dsimp only; omega
    · rw [runOn_of_next hc]
      have := ih (done + 1) c.step.2
      omega

theorem steps_run_le (c : Computer) (stops : Breakpoints) (limit : Nat) :
    (c.run stops limit).steps ≤ limit := by
  have h := steps_runOn_le stops 0 limit c
  rwa [Nat.zero_add] at h

theorem run_of_le {limit' : Nat} (h : (c.run stops limit).stop ≠ .stepLimit)
    (hl : limit ≤ limit') : c.run stops limit' = c.run stops limit := runOn_of_le h hl

theorem stop_runOn_empty_ne_breakpoint (done left : Nat) (c : Computer) (a : Address) :
    (c.runOn .empty done left).stop ≠ .breakpoint a := by
  induction left generalizing done c with
  | zero => rw [runOn_zero]; dsimp only; split <;> simp
  | succ left ih =>
    rcases cycle_cases .empty done c with ⟨-, hc⟩ | ⟨-, -, hb, -⟩ | ⟨-, -, hc⟩ | ⟨-, -, hc⟩ |
      ⟨-, -, -, hc⟩
    · rw [runOn_of_end hc]; simp
    · simp at hb
    · rw [runOn_of_end hc]; simp
    · rw [runOn_of_end hc]; simp
    · rw [runOn_of_next hc]; exact ih _ _

end Computer

end LittleMan
