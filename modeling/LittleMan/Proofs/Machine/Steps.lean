import LittleMan.Machine

/-! What one step can do: how it depends on the inbox, and what it leaves alone. -/
namespace LittleMan.Machine

variable {m : Machine} {inbox : List Int}

/-- A pending input instruction carried out with a value. -/
def finish (m : Machine) (resume : Address) (v : Int) : Machine :=
  { m.accept v with counter := resume, flag := .running }

/-- The instruction that the next cycle fetches. A pending input instruction has been fetched
already, and a halted machine fetches no more. -/
def next? (m : Machine) : Option Instruction :=
  match m.flag with
  | .running => some (Instruction.decode (m.memory.get m.counter))
  | .waiting _ | .halted => none

theorem next?_of_running (h : m.flag = .running) :
    m.next? = some (Instruction.decode m.fetch.fetched) := by
  unfold next?
  rw [h]
  rfl

theorem step_of_halted (h : m.flag = .halted) : m.step inbox = ⟨m, inbox, .halted⟩ := by
  unfold step
  rw [h]

theorem step_of_waiting_nil {resume : Address} (h : m.flag = .waiting resume) :
    m.step [] = ⟨m, [], .blocked⟩ := by
  unfold step
  rw [h]

theorem step_of_waiting_cons {resume : Address} (h : m.flag = .waiting resume) (v : Int)
    (rest : List Int) :
    m.step (v :: rest) =
      ⟨m.finish resume v, rest, .completed⟩ := by
  unfold step
  rw [h]
  rfl

theorem step_of_running (h : m.flag = .running) :
    m.step inbox = m.fetch.execute m.counter inbox (Instruction.decode m.fetch.fetched) := by
  unfold step
  rw [h]

/-- Two machines in the same state that fetch the same word both carry out the instruction that it
is, both finish a pending input instruction with the same value, or both stay as they are. -/
theorem step_cases_pair {m' : Machine} (hf : m'.flag = m.flag) (hc : m'.counter = m.counter)
    (hw : m.flag = .running → m'.fetch.fetched = m.fetch.fetched) (inbox : List Int) :
    (∃ i, m.next? = some i ∧ m.step inbox = m.fetch.execute m.counter inbox i ∧
        m'.step inbox = m'.fetch.execute m.counter inbox i) ∨
      (m.next? = none ∧ ∃ resume v rest, inbox = v :: rest ∧
        m.step inbox = ⟨m.finish resume v, rest, .completed⟩ ∧
        m'.step inbox = ⟨m'.finish resume v, rest, .completed⟩) ∨
      (m.next? = none ∧ ∃ o, (o = .blocked ∨ o = .halted) ∧ m.step inbox = ⟨m, inbox, o⟩ ∧
        m'.step inbox = ⟨m', inbox, o⟩) := by
  cases hm : m.flag with
  | running =>
    refine .inl ⟨_, next?_of_running hm, step_of_running hm, ?_⟩
    rw [step_of_running (hf.trans hm), hw hm, hc]
  | waiting resume =>
    have hn : m.next? = none := by simp [next?, hm]
    cases inbox with
    | nil =>
      exact .inr (.inr ⟨hn, .blocked, .inl rfl, step_of_waiting_nil hm,
        step_of_waiting_nil (hf.trans hm)⟩)
    | cons v rest =>
      exact .inr (.inl ⟨hn, resume, v, rest, rfl, step_of_waiting_cons hm v rest,
        step_of_waiting_cons (hf.trans hm) v rest⟩)
  | halted =>
    have hn : m.next? = none := by simp [next?, hm]
    exact .inr (.inr ⟨hn, .halted, .inr rfl, step_of_halted hm, step_of_halted (hf.trans hm)⟩)

@[simp] theorem isHalted_iff : m.isHalted = true ↔ m.flag = .halted := by
  simp [isHalted]

theorem decode_eq_input_iff {w : Nat} : Instruction.decode w = .input ↔ w = 901 := by
  constructor
  · intro h
    unfold Instruction.decode at h
    dsimp only at h
    split at h <;> try contradiction
    by_cases hw : w = 901
    · exact hw
    · rw [if_neg hw] at h
      split at h <;> contradiction
  · rintro rfl
    rfl

/-- Only an empty inbox blocks an instruction, and only the input instruction. -/
theorem execute_blocked {origin : Address} {i : Instruction}
    (h : (m.execute origin inbox i).outcome = .blocked) : i = .input ∧ inbox = [] := by
  cases i with
  | input =>
    cases inbox with
    | nil => exact ⟨rfl, rfl⟩
    | cons v rest => simp [execute] at h
  | _ => simp [execute] at h

theorem execute_halted {origin : Address} {i : Instruction}
    (h : (m.execute origin inbox i).outcome = .halted) :
    (m.execute origin inbox i).machine.flag = .halted := by
  cases i with
  | input => cases inbox <;> simp [execute] at h
  | halt => rfl
  | invalid w => rfl
  | _ => simp [execute] at h

/-- Values behind the inbox wait their turn. -/
theorem execute_append {origin : Address} {i : Instruction} (vs : List Int)
    (h : (m.execute origin inbox i).outcome ≠ .blocked) :
    m.execute origin (inbox ++ vs) i =
      { m.execute origin inbox i with inbox := (m.execute origin inbox i).inbox ++ vs } := by
  cases i with
  | input =>
    cases inbox with
    | nil => simp [execute] at h
    | cons v rest => rfl
  | _ => rfl

theorem step_append (vs : List Int) (h : (m.step inbox).outcome ≠ .blocked) :
    m.step (inbox ++ vs) = { m.step inbox with inbox := (m.step inbox).inbox ++ vs } := by
  cases hf : m.flag with
  | running =>
    rw [step_of_running hf] at h
    rw [step_of_running hf, step_of_running hf]
    exact execute_append vs h
  | waiting resume =>
    cases inbox with
    | nil =>
      rw [step_of_waiting_nil hf] at h
      contradiction
    | cons v rest => rw [List.cons_append, step_of_waiting_cons hf, step_of_waiting_cons hf]
  | halted => rw [step_of_halted hf, step_of_halted hf]

theorem step_halted (h : (m.step inbox).outcome = .halted) :
    (m.step inbox).machine.flag = .halted := by
  cases hf : m.flag with
  | running =>
    rw [step_of_running hf] at h ⊢
    exact execute_halted h
  | waiting resume =>
    cases inbox with
    | nil => rw [step_of_waiting_nil hf] at h; contradiction
    | cons v rest => rw [step_of_waiting_cons hf] at h; contradiction
  | halted => rw [step_of_halted hf]; exact hf

theorem execute_inbox_suffix {origin : Address} {i : Instruction} :
    (m.execute origin inbox i).inbox <:+ inbox := by
  cases i with
  | input =>
    cases inbox with
    | nil => exact List.suffix_refl []
    | cons v rest => exact List.suffix_cons v rest
  | _ => exact List.suffix_refl inbox

/-- A step takes values from the front of the inbox only. -/
theorem step_inbox_suffix : (m.step inbox).inbox <:+ inbox := by
  cases hf : m.flag with
  | running =>
    rw [step_of_running hf]
    exact execute_inbox_suffix
  | waiting resume =>
    cases inbox with
    | nil => simp [step_of_waiting_nil hf]
    | cons v rest => rw [step_of_waiting_cons hf]; exact List.suffix_cons v rest
  | halted => simp [step_of_halted hf]

/-- `b` is `m` stuck at an input instruction: the instruction register and the flag apart, nothing
has moved, and the counter is still on the instruction. -/
structure StuckAs (m b : Machine) (resume : Address) : Prop where
  machine : b = { m with fetched := b.fetched, flag := .waiting resume }
  /-- A value finishes the instruction as if it had been there at once. -/
  step_cons : ∀ v rest, m.step (v :: rest) = b.step (v :: rest)
  step_nil : m.step [] = ⟨b, [], .blocked⟩

namespace StuckAs

variable {b : Machine} {resume : Address}

theorem flag (h : StuckAs m b resume) : b.flag = .waiting resume := by
  rw [h.machine]

theorem flag_before (h : StuckAs m b resume) : m.flag ≠ .halted := by
  intro hf
  have hs := h.step_nil
  rw [step_of_halted hf] at hs
  simp at hs

theorem step_eq (h : StuckAs m b resume) (vs : List Int) : b.step vs = m.step vs := by
  cases vs with
  | nil => rw [h.step_nil, step_of_waiting_nil h.flag]
  | cons v rest => exact (h.step_cons v rest).symm

end StuckAs

theorem stuckAs_of_waiting {resume : Address} (h : m.flag = .waiting resume) :
    StuckAs m m resume where
  machine := by rw [← h]
  step_cons _ _ := rfl
  step_nil := step_of_waiting_nil h

theorem stuckAs_of_input (hf : m.flag = .running)
    (hi : Instruction.decode m.fetch.fetched = .input) :
    StuckAs m { m with fetched := m.fetch.fetched, flag := .waiting m.counter.next }
      m.counter.next where
  machine := rfl
  step_cons v rest := by
    rw [step_of_running hf, hi, step_of_waiting_cons rfl]
    unfold finish
    rw [← hf]
    rfl
  step_nil := by
    rw [step_of_running hf, hi]
    rfl

/-- A blocked step leaves a machine that is stuck, and only an empty inbox blocks one. -/
theorem step_blocked (h : (m.step inbox).outcome = .blocked) :
    inbox = [] ∧ ∃ resume, StuckAs m (m.step []).machine resume := by
  cases hf : m.flag with
  | running =>
    rw [step_of_running hf] at h
    obtain ⟨hi, rfl⟩ := execute_blocked h
    refine ⟨rfl, m.counter.next, ?_⟩
    rw [(stuckAs_of_input hf hi).step_nil]
    exact stuckAs_of_input hf hi
  | waiting resume =>
    cases inbox with
    | nil =>
      refine ⟨rfl, resume, ?_⟩
      rw [step_of_waiting_nil hf]
      exact stuckAs_of_waiting hf
    | cons v rest => rw [step_of_waiting_cons hf] at h; contradiction
  | halted => rw [step_of_halted hf] at h; contradiction

end LittleMan.Machine
