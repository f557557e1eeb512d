import LittleMan.Program
import LittleMan.Proofs.Machine.Registers

/-! Everything that can be done to a machine from outside, in any order: numbers stay in their
ranges, and nothing is looked up or computed that is not there. -/
namespace LittleMan

/-- What can be done to a machine. Numbers come in the sizes in which they are passed. -/
inductive Operation
  | load (words : List UInt16)
  | reset
  | step (inbox : List Int32)
  | run (inbox : List Int32) (outbox : Array Int) (stops : Breakpoints) (limit : UInt64)
  | write (address : UInt64) (value : Int64)
  | jump (address : UInt64)

namespace Machine

/-- A new machine, blank or with a program. -/
def fresh : Option Program → Machine
  | none => blank
  | some p => load p.words

/-- The machine after an operation, and what the operation emits. -/
def perform (m : Machine) : Operation → Machine × List Int
  | .load words => (load (words.map UInt16.toNat), [])
  | .reset => (blank, [])
  | .step inbox =>
    let s := m.step (inbox.map Int32.toInt)
    (s.machine, s.outcome.values)
  | .run inbox outbox stops limit =>
    let c : Computer := ⟨m, inbox.map Int32.toInt, outbox⟩
    let r := c.run stops limit.toNat
    (r.computer.machine, c.newOutputs r.computer)
  | .write address value => (m.write address.toNat value.toInt, [])
  | .jump address => (m.jump address.toNat, [])

def after (m : Machine) : List Operation → Machine × List Int
  | [] => (m, [])
  | op :: ops =>
    let (m', emitted) := m.perform op
    let (m'', more) := m'.after ops
    (m'', emitted ++ more)

end Machine

namespace Registers

open Decimal (Bounds signed32 signed64 unsigned64)

def perform? (r : Registers) : Operation → Option (Registers × List Int)
  | .load words => do return (← load? (words.map fun w => w.toNat), [])
  | .reset => some (blank, [])
  | .step inbox => do
    let s ← r.step? (inbox.map Int32.toInt)
    return (s.registers, s.outcome.values)
  | .run inbox _ stops limit => runOn? stops 0 limit.toNat r (inbox.map Int32.toInt)
  | .write address value => do return (← r.write? address.toNat value.toInt, [])
  | .jump address => do return (← r.jump? address.toNat, [])

def after? (r : Registers) : List Operation → Option (Registers × List Int)
  | [] => some (r, [])
  | op :: ops => do
    let (r', emitted) ← r.perform? op
    let (r'', more) ← r'.after? ops
    return (r'', emitted ++ more)

/-- The ranges of a machine that is in use, with the word and the address that a pending input
instruction goes with. -/
structure InRange (r : Registers) : Prop where
  size : r.memory.length = 100
  memory : ∀ w ∈ r.memory, 0 ≤ w ∧ w ≤ 999
  fetched : 0 ≤ r.fetched ∧ r.fetched ≤ 999
  accumulator : -999 ≤ r.accumulator ∧ r.accumulator ≤ 999
  counter : 0 ≤ r.counter ∧ r.counter ≤ 99
  waiting : ∀ resume, r.flag = .waiting resume →
    r.fetched = 901 ∧ resume = (r.counter + 1) % 100

variable {m : Machine}

theorem registers_blank : Machine.blank.registers = blank := by
  decide

theorem mapM_word? {words : List Int} (h : ∀ w ∈ words, signed64.lo ≤ w ∧ w ≤ signed64.hi) :
    words.mapM word? = some (words.map fun w => (Word.ofInt w : Int)) := by
  induction words with
  | nil => rfl
  | cons w ws ih =>
    have hw := word?_eq (h w List.mem_cons_self)
    have hws := ih fun v hv => h v (List.mem_cons_of_mem w hv)
    rw [List.mapM_cons, hw, hws]
    rfl

/-- Words behind the last cell are dropped, and cells behind the last word stay zero. -/
theorem toList_load (words : List Nat) :
    (Machine.load words).memory.toList =
      (words.take 100).map (Word.ofInt ∘ Int.ofNat) ++ List.replicate (100 - words.length) 0 := by
  apply List.ext_getElem
  · simp [memorySize]
    omega
  · intro i hi hi'
    have h100 : i < 100 := by simpa using hi
    simp only [Machine.load, Vector.getElem_toList, Vector.getElem_ofFn]
    by_cases hw : i < words.length
    · rw [List.getElem_append_left (by simp; omega)]
      simp [hw]
    · rw [List.getElem_append_right (by simp; omega)]
      simp [hw, Word.ofInt]

theorem load?_registers {words : List Nat} (h : ∀ w ∈ words, (w : Int) ≤ signed64.hi) :
    load? (words.map Int.ofNat) = some (Machine.load words).registers := by
  have hf : ∀ v ∈ (words.map Int.ofNat).take 100, signed64.lo ≤ v ∧ v ≤ signed64.hi := by
    intro v hv
    obtain ⟨w, hw, rfl⟩ := List.mem_map.mp (List.mem_of_mem_take hv)
    exact ⟨Int.le_trans (by decide) (Int.natCast_nonneg w), h w hw⟩
  have hn : 100 - min 100 words.length = 100 - words.length := by omega
  unfold load? Machine.registers
  rw [mapM_word? hf, toList_load]
  simp [hn, List.map_take, Function.comp_def, blank, Machine.load, Machine.blank]
  exact ⟨rfl, rfl⟩

theorem write?_registers {address : Nat} {v : Int} (ha : address ≤ unsigned64.hi)
    (hv : signed64.lo ≤ v ∧ v ≤ signed64.hi) :
    m.registers.write? address v = some (m.write address v).registers := by
  unfold write?
  rw [address?_eq ha, word?_eq hv]
  exact setCell?_registers m _ _

theorem jump?_registers {address : Nat} (h : address ≤ unsigned64.hi) :
    m.registers.jump? address = some (m.jump address).registers := by
  unfold jump?
  rw [address?_eq h]
  unfold Machine.jump Machine.isWaiting Machine.registers
  cases m.flag <;> rfl

theorem flag_eq_waiting {resume : Int} (h : m.registers.flag = .waiting resume) :
    ∃ a, m.flag = .waiting a ∧ (a.val : Int) = resume := by
  rw [flag_registers] at h
  cases hf : m.flag with
  | waiting a =>
    rw [hf] at h
    exact ⟨a, rfl, Flag.waiting.inj h⟩
  | running => rw [hf] at h; contradiction
  | halted => rw [hf] at h; contradiction

theorem fits_map_toInt (inbox : List Int32) : Fits (inbox.map Int32.toInt) := by
  intro v hv
  obtain ⟨w, -, rfl⟩ := List.mem_map.mp hv
  exact ⟨w.le_toInt, Int.le_of_lt_add_one w.toInt_lt⟩

theorem toNat_le_unsigned64 (n : UInt64) : (n.toNat : Int) ≤ unsigned64.hi := by
  have hn := n.toNat_lt
  simp only [unsigned64]
  omega

theorem perform?_registers (h : m.InRange) (op : Operation) :
    m.registers.perform? op = some ((m.perform op).1.registers, (m.perform op).2) := by
  cases op with
  | load words =>
    have hw : ∀ w ∈ words.map UInt16.toNat, (w : Int) ≤ signed64.hi := by
      intro w hw
      obtain ⟨u, -, rfl⟩ := List.mem_map.mp hw
      have hu := u.toNat_lt
      simp only [signed64]
      omega
    have hm : words.map (fun w => (w.toNat : Int)) = (words.map UInt16.toNat).map Int.ofNat := by
      simp
    unfold perform?
    dsimp only
    rw [hm, load?_registers hw]
    rfl
  | reset =>
    unfold perform?
    dsimp only
    rw [← registers_blank]
    rfl
  | step inbox =>
    unfold perform?
    dsimp only
    rw [step?_registers h (fits_map_toInt inbox)]
    rfl
  | run inbox outbox stops limit =>
    have hn := toNat_le_unsigned64 limit
    exact runOn?_registers (c := ⟨m, inbox.map Int32.toInt, outbox⟩) h (fits_map_toInt inbox)
      (by omega)
  | write address value =>
    have hv : signed64.lo ≤ value.toInt ∧ value.toInt ≤ signed64.hi :=
      ⟨value.le_toInt, Int.le_of_lt_add_one value.toInt_lt⟩
    unfold perform?
    dsimp only
    rw [write?_registers (toNat_le_unsigned64 address) hv]
    rfl
  | jump address =>
    unfold perform?
    dsimp only
    rw [jump?_registers (toNat_le_unsigned64 address)]
    rfl

end Registers

namespace Machine

variable {m : Machine}

theorem InRange.fresh : ∀ start : Option Program, (fresh start).InRange
  | none => .blank
  | some p => .load p.words

theorem InRange.perform (h : m.InRange) (op : Operation) : (m.perform op).1.InRange := by
  cases op with
  | load words => exact .load _
  | reset => exact .blank
  | step inbox => exact h.step _
  | run inbox outbox stops limit =>
    exact (Computer.reaches_runOn stops 0 limit.toNat ⟨m, inbox.map Int32.toInt, outbox⟩).inRange h
  | write address value => exact h.write _ _
  | jump address => exact h.jump _

theorem InRange.perform_bounds (h : m.InRange) (op : Operation) :
    ∀ v ∈ (m.perform op).2, -999 ≤ v ∧ v ≤ 999 := by
  cases op with
  | step inbox =>
    intro v hv
    rw [eq_accumulator_of_emitted hv]
    exact h.accumulator
  | run inbox outbox stops limit =>
    have hr := Computer.reaches_runOn stops 0 limit.toNat ⟨m, inbox.map Int32.toInt, outbox⟩
    exact hr.newOutputs_bounds h
  | load words => simp [Machine.perform]
  | reset => simp [Machine.perform]
  | write address value => simp [Machine.perform]
  | jump address => simp [Machine.perform]

theorem InRange.registers (h : m.InRange) : m.registers.InRange where
  size := by simp [Machine.registers, memorySize]
  memory := by
    intro v hv
    obtain ⟨w, hw, rfl⟩ := List.mem_map.mp hv
    obtain ⟨i, hi, rfl⟩ := List.getElem_of_mem hw
    have hi' : i < memorySize := by simpa using hi
    have hm : m.memory.toList[i] < 1000 := h.memory ⟨i, hi'⟩
    change (0 : Int) ≤ (m.memory.toList[i] : Nat) ∧ ((m.memory.toList[i] : Nat) : Int) ≤ 999
    omega
  fetched := by
    have hf := h.fetched
    simp only [Machine.registers]
    omega
  accumulator := h.accumulator
  counter := by
    have hc : m.counter.val < 100 := m.counter.isLt
    rw [Registers.counter_registers]
    omega
  waiting := by
    intro resume hr
    obtain ⟨a, ha, rfl⟩ := Registers.flag_eq_waiting hr
    obtain ⟨hw, rfl⟩ := h.waiting a ha
    rw [Address.val_next]
    simp [Machine.registers, hw, memorySize]

theorem InRange.after (h : m.InRange) (ops : List Operation) : (m.after ops).1.InRange := by
  induction ops generalizing m with
  | nil => exact h
  | cons op ops ih => exact ih (h.perform op)

theorem InRange.after_bounds (h : m.InRange) (ops : List Operation) :
    ∀ v ∈ (m.after ops).2, -999 ≤ v ∧ v ≤ 999 := by
  induction ops generalizing m with
  | nil => simp [Machine.after]
  | cons op ops ih =>
    intro v hv
    rcases List.mem_append.mp hv with hv | hv
    · exact h.perform_bounds op v hv
    · exact ih (h.perform op) v hv

theorem after?_registers (h : m.InRange) (ops : List Operation) :
    m.registers.after? ops = some ((m.after ops).1.registers, (m.after ops).2) := by
  induction ops generalizing m with
  | nil => rfl
  | cons op ops ih =>
    unfold Registers.after?
    rw [Registers.perform?_registers h op]
    simp only [Option.bind_eq_bind, Option.bind_some]
    rw [ih (h.perform op)]
    rfl

/-- Whatever is done to a machine, all of it fits in integers of fixed size and nothing outside of
memory is looked up: the machine on such integers never fails, and does the same. Its registers
stay in their ranges, and so do the values that come out. -/
theorem after_fresh_inRange (start : Option Program) (ops : List Operation) :
    ∃ r emitted,
      (fresh start).registers.after? ops = some (r, emitted) ∧
      r = ((fresh start).after ops).1.registers ∧ emitted = ((fresh start).after ops).2 ∧
      r.InRange ∧ ∀ v ∈ emitted, -999 ≤ v ∧ v ≤ 999 := by
  have h : (fresh start).InRange := .fresh start
  refine ⟨_, _, after?_registers h ops, rfl, rfl, ?_, ?_⟩
  · exact (h.after ops).registers
  · exact h.after_bounds ops

end Machine

end LittleMan
