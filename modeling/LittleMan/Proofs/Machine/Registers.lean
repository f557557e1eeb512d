import LittleMan.Proofs.Machine.Range

/-! The machine on integers of fixed size. Nothing is bounded by its type here: every cell that is
looked up has to be there, and every result has to fit the type it is kept in. -/
namespace LittleMan

inductive Registers.Flag
  | running
  | waiting (resume : Int)
  | halted
  deriving DecidableEq, Repr

structure Registers where
  memory : List Int
  accumulator : Int
  counter : Int
  fetched : Int
  flag : Registers.Flag
  deriving DecidableEq, Repr

namespace Registers

open Decimal (Bounds signed32 signed64 unsigned64)

def unsigned8 : Bounds := ⟨0, 255⟩

def unsigned16 : Bounds := ⟨0, 65535⟩

def signed16 : Bounds := ⟨-32768, 32767⟩

structure Step where
  registers : Registers
  inbox : List Int
  outcome : Outcome
  deriving DecidableEq, Repr

/-- The number, if it belongs to the type with these bounds. -/
def fit? (b : Bounds) (v : Int) : Option Int := if b.lo ≤ v ∧ v ≤ b.hi then some v else none

/-- The word that stands for a number of 64 bits. -/
def word? (v : Int) : Option Int := do fit? unsigned16 ((← fit? signed64 v) % 1000)

/-- The accumulator value that stands for a number of 64 bits. -/
def value? (v : Int) : Option Int := do fit? signed16 ((← fit? signed64 v).tmod 1000)

/-- The address that stands for an index. -/
def address? (v : Int) : Option Int := do fit? unsigned8 ((← fit? unsigned64 v) % 100)

def blank : Registers := ⟨List.replicate 100 0, 0, 0, 0, .running⟩

def load? (words : List Int) : Option Registers := do
  let cells ← (words.take 100).mapM word?
  return { blank with memory := cells ++ List.replicate (100 - cells.length) 0 }

def cell? (r : Registers) (a : Int) : Option Int := r.memory[a.toNat]?

def setCell? (r : Registers) (a v : Int) : Option Registers :=
  if a.toNat < r.memory.length then some { r with memory := r.memory.set a.toNat v } else none

def accept? (r : Registers) (v : Int) : Option Registers := do
  return { r with accumulator := ← value? v }

def write? (r : Registers) (address v : Int) : Option Registers := do
  r.setCell? (← address? address) (← word? v)

def jump? (r : Registers) (address : Int) : Option Registers := do
  let a ← address? address
  match r.flag with
  | .waiting _ => return { r with counter := a, flag := .running }
  | .running | .halted => return { r with counter := a }

def finish? (r : Registers) (resume v : Int) : Option Registers := do
  return { ← r.accept? v with counter := resume, flag := .running }

def fetch? (r : Registers) : Option Registers := do
  let w ← r.cell? r.counter
  return { r with fetched := w, counter := ← address? (r.counter + 1) }

def execute? (r : Registers) (origin : Int) (inbox : List Int) (i : Instruction) : Option Step :=
  match i with
  | .add a => do
    let r' ← r.accept? (r.accumulator + (← r.cell? a.val))
    return ⟨r', inbox, .completed⟩
  | .subtract a => do
    let r' ← r.accept? (r.accumulator - (← r.cell? a.val))
    return ⟨r', inbox, .completed⟩
  | .store a => do
    let r' ← r.setCell? a.val (← word? r.accumulator)
    return ⟨r', inbox, .completed⟩
  | .load a => do
    let v ← fit? signed16 (← r.cell? a.val)
    return ⟨{ r with accumulator := v }, inbox, .completed⟩
  | .branch a => do
    return ⟨{ r with counter := ← fit? unsigned8 a.val }, inbox, .completed⟩
  | .branchZero a => do
    let a ← fit? unsigned8 a.val
    return ⟨{ r with counter := if r.accumulator = 0 then a else r.counter }, inbox, .completed⟩
  | .branchPositive a => do
    let a ← fit? unsigned8 a.val
    return ⟨{ r with counter := if 0 ≤ r.accumulator then a else r.counter }, inbox, .completed⟩
  | .input =>
    match inbox with
    | [] => return ⟨{ r with counter := origin, flag := .waiting r.counter }, [], .blocked⟩
    | v :: rest => do return ⟨← r.accept? v, rest, .completed⟩
  | .output => return ⟨r, inbox, .emitted r.accumulator⟩
  | .reserved _ => return ⟨r, inbox, .completed⟩
  | .halt | .invalid _ => return ⟨{ r with flag := .halted }, inbox, .halted⟩

def step? (r : Registers) (inbox : List Int) : Option Step :=
  match r.flag with
  | .halted => some ⟨r, inbox, .halted⟩
  | .waiting resume =>
    match inbox with
    | [] => some ⟨r, [], .blocked⟩
    | v :: rest => do return ⟨← r.finish? resume v, rest, .completed⟩
  | .running => do
    let r' ← r.fetch?
    r'.execute? r.counter inbox (Instruction.decode r'.fetched.toNat)

/-- Runs on as a computer does, and collects what is emitted. The number of cycles has to fit as
well. -/
def runOn? (stops : Breakpoints) (done : Nat) :
    Nat → Registers → List Int → Option (Registers × List Int)
  | 0, r, _ => some (r, [])
  | left + 1, r, inbox =>
    if r.flag = .halted then some (r, [])
    else if 0 < done ∧ stops.contains r.counter.toNat then some (r, [])
    else do
      let s ← r.step? inbox
      match s.outcome with
      | .blocked => return (s.registers, [])
      | .halted => (fit? unsigned64 (done + 1)).map fun _ => (s.registers, [])
      | .completed | .emitted _ => do
        let _ ← fit? unsigned64 (done + 1)
        (runOn? stops (done + 1) left s.registers s.inbox).map fun p =>
          (p.1, s.outcome.values ++ p.2)

end Registers

def Flag.registers : Flag → Registers.Flag
  | running => .running
  | waiting resume => .waiting resume.val
  | halted => .halted

/-- The machine without the bounds that its types give. -/
def Machine.registers (m : Machine) : Registers :=
  ⟨m.memory.toList.map Int.ofNat, m.accumulator, m.counter.val, m.fetched, m.flag.registers⟩

def Step.registers (s : Step) : Registers.Step := ⟨s.machine.registers, s.inbox, s.outcome⟩

namespace Registers

open Decimal (Bounds signed32 signed64 unsigned64)

variable {m : Machine} {inbox : List Int}

@[simp] theorem accumulator_registers (m : Machine) : m.registers.accumulator = m.accumulator := rfl

@[simp] theorem counter_registers (m : Machine) : m.registers.counter = m.counter.val := rfl

@[simp] theorem flag_registers (m : Machine) : m.registers.flag = m.flag.registers := rfl

theorem fit?_eq_some {b : Bounds} {v : Int} (h : b.lo ≤ v ∧ v ≤ b.hi) : fit? b v = some v :=
  if_pos h

theorem word?_eq {v : Int} (h : signed64.lo ≤ v ∧ v ≤ signed64.hi) :
    word? v = some (Word.ofInt v : Int) := by
  have hw : ((Word.ofInt v : Nat) : Int) = v % 1000 := by
    unfold Word.ofInt
    omega
  have hb : unsigned16.lo ≤ v % 1000 ∧ v % 1000 ≤ unsigned16.hi := by
    simp only [unsigned16]
    omega
  unfold word?
  rw [fit?_eq_some h, hw]
  exact fit?_eq_some hb

theorem value?_eq {v : Int} (h : signed64.lo ≤ v ∧ v ≤ signed64.hi) :
    value? v = some (Accumulator.ofInt v) := by
  have hv := Accumulator.ofInt_bounds v
  have hb : signed16.lo ≤ Accumulator.ofInt v ∧ Accumulator.ofInt v ≤ signed16.hi := by
    simp only [signed16]
    omega
  unfold value?
  rw [fit?_eq_some h]
  exact fit?_eq_some hb

theorem address?_eq {n : Nat} (h : n ≤ unsigned64.hi) :
    address? n = some ((Address.ofNat n).val : Int) := by
  have hn : (0 : Int) ≤ n ∧ (n : Int) ≤ unsigned64.hi := ⟨by omega, h⟩
  have hb : unsigned8.lo ≤ (n : Int) % 100 ∧ (n : Int) % 100 ≤ unsigned8.hi := by
    simp only [unsigned8]
    omega
  unfold address?
  rw [fit?_eq_some hn, Address.val_ofNat]
  exact fit?_eq_some hb

@[simp] theorem cell?_registers (m : Machine) (a : Address) :
    m.registers.cell? a.val = some (m.memory.get a : Int) := by
  unfold cell? Machine.registers
  simp [get_eq_getElem]

@[simp] theorem setCell?_registers (m : Machine) (a : Address) (w : Nat) :
    m.registers.setCell? a.val w =
      some ({ m with memory := m.memory.set a.val w a.isLt } : Machine).registers := by
  unfold setCell? Machine.registers
  simp [Vector.toList_set, List.map_set]

theorem accept?_registers {v : Int} (h : signed64.lo ≤ v ∧ v ≤ signed64.hi) :
    m.registers.accept? v = some (m.accept v).registers := by
  unfold accept?
  rw [value?_eq h]
  rfl

@[simp] theorem fit?_address (a : Address) : fit? unsigned8 a.val = some (a.val : Int) := by
  have ha : a.val < 100 := a.isLt
  apply fit?_eq_some
  simp only [unsigned8]
  omega

/-- Sums and differences of an accumulator and a cell are far from the bounds of 64 bits. -/
theorem fits_of_inRange {v : Int} (h : -2000 ≤ v ∧ v ≤ 2000) : signed64.lo ≤ v ∧ v ≤ signed64.hi := by
  simp only [signed64]
  omega

/-- Every value has the size that a value in the inbox has. -/
def Fits (inbox : List Int) : Prop := ∀ v ∈ inbox, signed32.lo ≤ v ∧ v ≤ signed32.hi

theorem Fits.head {v : Int} (h : Fits (v :: inbox)) : signed64.lo ≤ v ∧ v ≤ signed64.hi := by
  have hv := h v List.mem_cons_self
  simp only [signed32, signed64] at hv ⊢
  omega

theorem execute?_registers {origin : Address} {i : Instruction} (h : m.InRange)
    (hi : Fits inbox) :
    m.registers.execute? origin.val inbox i = some (m.execute origin inbox i).registers := by
  have ha := h.accumulator
  cases i with
  | add a =>
    have hm := h.memory a
    have hv := accept?_registers (m := m) (fits_of_inRange
      (show -2000 ≤ m.accumulator + (m.memory.get a : Int) ∧ _ ≤ 2000 by omega))
    simp only [execute?, cell?_registers, Option.bind_eq_bind, Option.bind_some,
      accumulator_registers, hv]
    rfl
  | subtract a =>
    have hm := h.memory a
    have hv := accept?_registers (m := m) (fits_of_inRange
      (show -2000 ≤ m.accumulator - (m.memory.get a : Int) ∧ _ ≤ 2000 by omega))
    simp only [execute?, cell?_registers, Option.bind_eq_bind, Option.bind_some,
      accumulator_registers, hv]
    rfl
  | store a =>
    have hw := word?_eq (fits_of_inRange (show -2000 ≤ m.accumulator ∧ _ ≤ 2000 by omega))
    simp [execute?, hw]
    rfl
  | load a =>
    have hm := h.memory a
    have hv : fit? signed16 (m.memory.get a : Int) = some (m.memory.get a : Int) := by
      apply fit?_eq_some
      simp only [signed16]
      omega
    simp only [execute?, cell?_registers, Option.bind_eq_bind, Option.bind_some, hv]
    rfl
  | branch a =>
    simp [execute?]
    rfl
  | branchZero a =>
    by_cases hz : m.accumulator = 0
    · have hz' : m.registers.accumulator = 0 := hz
      simp only [execute?, Machine.execute, fit?_address, Option.bind_eq_bind, Option.bind_some,
        if_pos hz, if_pos hz']
      rfl
    · have hz' : ¬m.registers.accumulator = 0 := hz
      simp only [execute?, Machine.execute, fit?_address, Option.bind_eq_bind, Option.bind_some,
        if_neg hz, if_neg hz']
      rfl
  | branchPositive a =>
    by_cases hp : 0 ≤ m.accumulator
    · have hp' : 0 ≤ m.registers.accumulator := hp
      simp only [execute?, Machine.execute, fit?_address, Option.bind_eq_bind, Option.bind_some,
        if_pos hp, if_pos hp']
      rfl
    · have hp' : ¬0 ≤ m.registers.accumulator := hp
      simp only [execute?, Machine.execute, fit?_address, Option.bind_eq_bind, Option.bind_some,
        if_neg hp, if_neg hp']
      rfl
  | input =>
    cases inbox with
    | nil => rfl
    | cons v rest =>
      simp [execute?, accept?_registers hi.head]
      rfl
  | output => rfl
  | halt => rfl
  | reserved w => rfl
  | invalid w => rfl

theorem finish?_registers {v : Int} (resume : Address)
    (h : signed64.lo ≤ v ∧ v ≤ signed64.hi) :
    m.registers.finish? resume.val v = some (m.finish resume v).registers := by
  unfold finish?
  rw [accept?_registers h]
  rfl

theorem fetch?_registers (m : Machine) : m.registers.fetch? = some m.fetch.registers := by
  have hc : m.counter.val < 100 := m.counter.isLt
  have ha : address? (m.counter.val + 1 : Nat) = some (m.counter.next.val : Int) := by
    apply address?_eq
    simp only [unsigned64]
    omega
  have ha' : address? (m.registers.counter + 1) = some (m.counter.next.val : Int) := ha
  have hw : m.registers.cell? m.registers.counter = some (m.memory.get m.counter : Int) :=
    cell?_registers m m.counter
  unfold fetch?
  rw [hw, ha']
  rfl

theorem step?_registers (h : m.InRange) (hi : Fits inbox) :
    m.registers.step? inbox = some (m.step inbox).registers := by
  cases hf : m.flag with
  | running =>
    have hr : m.registers.flag = .running := by rw [flag_registers, hf]; rfl
    unfold step?
    rw [hr, Machine.step_of_running hf]
    dsimp only
    rw [fetch?_registers]
    exact execute?_registers (h.fetch hf) hi
  | waiting resume =>
    have hr : m.registers.flag = .waiting resume.val := by rw [flag_registers, hf]; rfl
    unfold step?
    rw [hr]
    cases inbox with
    | nil => rw [Machine.step_of_waiting_nil hf]; rfl
    | cons v rest =>
      rw [Machine.step_of_waiting_cons hf]
      dsimp only
      rw [finish?_registers resume hi.head]
      rfl
  | halted =>
    have hr : m.registers.flag = .halted := by rw [flag_registers, hf]; rfl
    unfold step?
    rw [hr, Machine.step_of_halted hf]
    rfl

theorem Fits.step (h : Fits inbox) : Fits (m.step inbox).inbox :=
  fun v hv => h v (m.step_inbox_suffix.subset hv)

theorem flag_eq_halted_iff (m : Machine) : m.registers.flag = .halted ↔ m.flag = .halted := by
  rw [flag_registers]
  cases m.flag <;> simp [Flag.registers]

/-- A cycle that begins asks for nothing that is not there. -/
theorem runOn?_of_begins {stops : Breakpoints} {done left : Nat} {c : Computer}
    (hg : c.Begins stops done) (h : c.machine.InRange) (hi : Fits c.inbox)
    (hd : (done + 1 : Int) ≤ unsigned64.hi) :
    runOn? stops done (left + 1) c.machine.registers c.inbox =
      match c.step.1 with
      | .blocked | .halted => some (c.step.2.machine.registers, [])
      | .completed | .emitted _ =>
        (runOn? stops (done + 1) left c.step.2.machine.registers c.step.2.inbox).map fun p =>
          (p.1, c.step.1.values ++ p.2) := by
  have hn : fit? unsigned64 (done + 1 : Int) = some (done + 1 : Int) :=
    fit?_eq_some ⟨by simp only [unsigned64]; omega, hd⟩
  have hh : ¬c.machine.registers.flag = .halted := fun hf => hg.1 ((flag_eq_halted_iff _).mp hf)
  have hb : ¬(0 < done ∧ stops.contains c.machine.registers.counter.toNat) := hg.2
  rw [runOn?, if_neg hh, if_neg hb, step?_registers h hi]
  simp only [Option.bind_eq_bind, Option.bind_some]
  have ho : (c.machine.step c.inbox).registers.outcome = c.step.1 := rfl
  rw [ho]
  cases c.step.1 with
  | blocked => rfl
  | halted => rw [hn]; rfl
  | completed => rw [hn]; rfl
  | emitted v => rw [hn]; rfl

theorem runOn?_registers {stops : Breakpoints} {done left : Nat} {c : Computer}
    (h : c.machine.InRange) (hi : Fits c.inbox) (hd : (done + left : Nat) ≤ unsigned64.hi) :
    runOn? stops done left c.machine.registers c.inbox =
      some ((c.runOn stops done left).computer.machine.registers,
        c.newOutputs (c.runOn stops done left).computer) := by
  induction left generalizing done c with
  | zero => simp [runOn?, Computer.runOn_zero]
  | succ left ih =>
    have hd' : (done + 1 : Int) ≤ unsigned64.hi := by omega
    rcases Computer.cycle_cases stops done c with ⟨hh, hc⟩ | ⟨hh, h₀, hb, hc⟩ | ⟨hg, ho, hc⟩ |
      ⟨hg, ho, hc⟩ | ⟨hg, h₁, h₂, hc⟩
    · unfold runOn?
      rw [if_pos ((flag_eq_halted_iff _).mpr hh), Computer.runOn_of_end hc]
      simp
    · unfold runOn?
      rw [if_neg (fun hf => hh ((flag_eq_halted_iff _).mp hf)), if_pos ⟨h₀, hb⟩,
        Computer.runOn_of_end hc]
      simp
    · rw [runOn?_of_begins hg h hi hd', Computer.runOn_of_end hc, Computer.newOutputs_step, ho]
      rfl
    · rw [runOn?_of_begins hg h hi hd', Computer.runOn_of_end hc, Computer.newOutputs_step, ho]
      rfl
    · have hs : Computer.Reaches c c.step.2 := .step (.refl _)
      have hd'' : ((done + 1 + left : Nat) : Int) ≤ unsigned64.hi := by omega
      have hr := ih (c := c.step.2) (h.step c.inbox) hi.step hd''
      have ho := hs.newOutputs_append (Computer.reaches_runOn stops (done + 1) left c.step.2)
      rw [Computer.newOutputs_step] at ho
      rw [runOn?_of_begins hg h hi hd', Computer.runOn_of_next hc, hr, ← ho]
      cases hv : c.step.1 with
      | blocked => exact absurd hv h₁
      | halted => exact absurd hv h₂
      | completed => rfl
      | emitted v => rfl

end Registers

end LittleMan
