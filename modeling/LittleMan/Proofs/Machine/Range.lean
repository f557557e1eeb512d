import LittleMan.Proofs.Computer.Runs

/-! Numbers that a machine can hold: every operation keeps cells and registers in their ranges, and
a pending input instruction together with the address after it. -/
namespace LittleMan

theorem get_eq_getElem (cells : Vector Nat memorySize) (a : Address) :
    cells.get a = getElem cells a.val a.isLt := rfl

namespace Machine

variable {m : Machine} {inbox : List Int}

/-- Cells and the instruction register hold words, and the accumulator three digits and a sign. A
machine that waits has just fetched an input instruction and goes on behind it. -/
structure InRange (m : Machine) : Prop where
  memory : ∀ a : Address, m.memory.get a < 1000
  fetched : m.fetched < 1000
  accumulator : -999 ≤ m.accumulator ∧ m.accumulator ≤ 999
  waiting : ∀ resume, m.flag = .waiting resume → m.fetched = 901 ∧ resume = m.counter.next

namespace InRange

theorem blank : blank.InRange where
  memory a := by
    rw [get_eq_getElem]
    simp [Machine.blank]
  fetched := by decide
  accumulator := by decide
  waiting _ h := by simp [Machine.blank] at h

theorem load (words : List Nat) : (load words).InRange where
  memory a := by
    simp only [Machine.load, get_eq_getElem, Vector.getElem_ofFn]
    exact Word.ofInt_lt _
  fetched := blank.fetched
  accumulator := blank.accumulator
  waiting := blank.waiting

/-- Storing a word leaves the registers alone. -/
theorem set (h : m.InRange) (a : Address) (v : Int) :
    ({ m with memory := m.memory.set a.val (Word.ofInt v) a.isLt } : Machine).InRange where
  memory b := by
    have hb := h.memory b
    simp only [get_eq_getElem, Vector.getElem_set] at hb ⊢
    split
    · exact Word.ofInt_lt v
    · exact hb
  fetched := h.fetched
  accumulator := h.accumulator
  waiting := h.waiting

theorem write (h : m.InRange) (address : Nat) (v : Int) : (m.write address v).InRange :=
  h.set (Address.ofNat address) v

theorem accept (h : m.InRange) (v : Int) : (m.accept v).InRange where
  memory := h.memory
  fetched := h.fetched
  accumulator := Accumulator.ofInt_bounds v
  waiting := h.waiting

/-- While no instruction is pending the counter may be anywhere. -/
theorem moved (h : m.InRange) (a : Address) {f : Flag} (hf : ∀ resume, f ≠ .waiting resume) :
    ({ m with counter := a, flag := f } : Machine).InRange where
  memory := h.memory
  fetched := h.fetched
  accumulator := h.accumulator
  waiting resume hr := absurd hr (hf resume)

theorem jump (h : m.InRange) (address : Nat) : (m.jump address).InRange := by
  apply h.moved
  intro resume
  unfold isWaiting
  cases m.flag <;> simp

theorem finish (h : m.InRange) (resume : Address) (v : Int) : (m.finish resume v).InRange :=
  (h.accept v).moved resume (by simp)

theorem fetch (h : m.InRange) (hf : m.flag = .running) : m.fetch.InRange where
  memory := h.memory
  fetched := h.memory m.counter
  accumulator := h.accumulator
  waiting resume hr := by
    have hr' : m.flag = .waiting resume := hr
    rw [hf] at hr'
    contradiction

/-- The counter has moved on from `origin`, where the instruction was fetched. -/
theorem execute {origin : Address} {i : Instruction} (h : m.InRange) (hf : m.flag = .running)
    (ho : m.counter = origin.next) (hi : Instruction.decode m.fetched = i) :
    (m.execute origin inbox i).machine.InRange := by
  have hr : ∀ resume, m.flag ≠ .waiting resume := by simp [hf]
  cases i with
  | add a => exact h.accept _
  | subtract a => exact h.accept _
  | store a => exact h.set a _
  | load a =>
    have ha : m.memory[a] < 1000 := h.memory a
    refine ⟨h.memory, h.fetched, ?_, h.waiting⟩
    change -999 ≤ (m.memory[a] : Int) ∧ (m.memory[a] : Int) ≤ 999
    omega
  | branch a => exact h.moved a hr
  | branchZero a => exact h.moved _ hr
  | branchPositive a => exact h.moved _ hr
  | input =>
    cases inbox with
    | nil =>
      refine ⟨h.memory, h.fetched, h.accumulator, ?_⟩
      intro resume hw
      rw [← Flag.waiting.inj hw]
      exact ⟨decode_eq_input_iff.mp hi, ho⟩
    | cons v rest => exact h.accept v
  | output => exact h
  | halt => exact h.moved _ (by simp)
  | reserved w => exact h
  | invalid w => exact h.moved _ (by simp)

theorem step (h : m.InRange) (inbox : List Int) : (m.step inbox).machine.InRange := by
  cases hf : m.flag with
  | running =>
    rw [step_of_running hf]
    exact (h.fetch hf).execute hf rfl rfl
  | waiting resume =>
    cases inbox with
    | nil => rw [step_of_waiting_nil hf]; exact h
    | cons v rest => rw [step_of_waiting_cons hf]; exact h.finish resume v
  | halted => rw [step_of_halted hf]; exact h

end InRange

/-- A step emits the accumulator, or nothing. -/
theorem eq_accumulator_of_emitted {v : Int} (h : v ∈ (m.step inbox).outcome.values) :
    v = m.accumulator := by
  cases hf : m.flag with
  | running =>
    rw [step_of_running hf] at h
    cases hi : Instruction.decode m.fetch.fetched with
    | output =>
      rw [hi] at h
      exact List.mem_singleton.mp h
    | input => rw [hi] at h; cases inbox <;> simp [execute, Outcome.values] at h
    | _ => rw [hi] at h; simp [execute, Outcome.values] at h
  | waiting resume =>
    cases inbox with
    | nil => rw [step_of_waiting_nil hf] at h; simp [Outcome.values] at h
    | cons v rest => rw [step_of_waiting_cons hf] at h; simp [Outcome.values] at h
  | halted => rw [step_of_halted hf] at h; simp [Outcome.values] at h

end Machine

namespace Computer

variable {c d : Computer}

theorem newOutputs_step (c : Computer) : c.newOutputs c.step.2 = c.step.1.values :=
  newOutputs_of_append c.step_outbox

theorem Reaches.inRange (h : Reaches c d) (hc : c.machine.InRange) : d.machine.InRange := by
  induction h with
  | refl => exact hc
  | step _ ih => exact ih (hc.step _)

theorem Reaches.newOutputs_bounds (h : Reaches c d) (hc : c.machine.InRange) :
    ∀ v ∈ c.newOutputs d, -999 ≤ v ∧ v ≤ 999 := by
  induction h with
  | refl => simp
  | @step c d h ih =>
    have hs : Reaches c c.step.2 := .step (.refl _)
    intro v hv
    rw [← hs.newOutputs_append h, newOutputs_step, List.mem_append] at hv
    rcases hv with hv | hv
    · rw [Machine.eq_accumulator_of_emitted hv]
      exact hc.accumulator
    · exact ih (hc.step _) v hv

end Computer

end LittleMan
