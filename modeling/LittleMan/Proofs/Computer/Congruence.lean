import Mathlib.Data.Int.ModEq
import LittleMan.Proofs.Computer.Lockstep
import LittleMan.Proofs.Machine.Range

/-! Arithmetic modulo 1000. The accumulator has a sign and the cells have none, but machines with
congruent accumulators run alike for as long as no branch asks for the sign. -/
namespace LittleMan

variable {v w : Int}

theorem Accumulator.ofInt_modEq (v : Int) : Accumulator.ofInt v ≡ v [ZMOD 1000] := by
  have h : v.tmod 1000 + 1000 * v.tdiv 1000 = v := Int.tmod_add_mul_tdiv v 1000
  unfold Accumulator.ofInt Int.ModEq
  omega

theorem Word.ofInt_eq_of_modEq (h : v ≡ w [ZMOD 1000]) : Word.ofInt v = Word.ofInt w :=
  congrArg Int.toNat h

/-- Zero is alone in its class among the values of an accumulator. -/
theorem Accumulator.eq_zero_iff_of_modEq (h : v ≡ w [ZMOD 1000]) (hv : -999 ≤ v ∧ v ≤ 999)
    (hw : -999 ≤ w ∧ w ≤ 999) : v = 0 ↔ w = 0 := by
  unfold Int.ModEq at h
  omega

namespace Machine

/-- Two machines, with words in their cells, that differ in their accumulators only, and there by a
multiple of 1000. -/
structure Congruent (m m' : Machine) : Prop where
  rest : m' = { m with accumulator := m'.accumulator }
  modEq : m.accumulator ≡ m'.accumulator [ZMOD 1000]
  cells : ∀ a : Address, m.memory.get a < 1000
  bounds : -999 ≤ m.accumulator ∧ m.accumulator ≤ 999
  bounds' : -999 ≤ m'.accumulator ∧ m'.accumulator ≤ 999

namespace Congruent

variable {m m' : Machine}

theorem memory (h : Congruent m m') : m'.memory = m.memory := by rw [h.rest]

theorem counter (h : Congruent m m') : m'.counter = m.counter := by rw [h.rest]

theorem flag (h : Congruent m m') : m'.flag = m.flag := by rw [h.rest]

theorem accept (h : Congruent m m') (hv : v ≡ w [ZMOD 1000]) :
    Congruent (m.accept v) (m'.accept w) where
  rest := by
    rw [h.rest]
    rfl
  modEq := calc
    Accumulator.ofInt v ≡ v [ZMOD 1000] := Accumulator.ofInt_modEq v
    _ ≡ w [ZMOD 1000] := hv
    _ ≡ Accumulator.ofInt w [ZMOD 1000] := (Accumulator.ofInt_modEq w).symm
  cells := h.cells
  bounds := Accumulator.ofInt_bounds v
  bounds' := Accumulator.ofInt_bounds w

/-- Both go on at the same address, and in the same state. -/
theorem moved {a a' : Address} {f f' : Flag} (h : Congruent m m') (ha : a' = a) (hf : f' = f) :
    Congruent { m with counter := a, flag := f } { m' with counter := a', flag := f' } where
  rest := by rw [h.rest, ha, hf]
  modEq := h.modEq
  cells := h.cells
  bounds := h.bounds
  bounds' := h.bounds'

theorem fetch (h : Congruent m m') : Congruent m.fetch m'.fetch where
  rest := by
    rw [h.rest]
    rfl
  modEq := h.modEq
  cells := h.cells
  bounds := h.bounds
  bounds' := h.bounds'

/-- Congruent accumulators are stored as the same word. -/
theorem store (h : Congruent m m') (a : Address) :
    Congruent { m with memory := m.memory.set a (Word.ofInt m.accumulator) a.isLt }
      { m' with memory := m'.memory.set a (Word.ofInt m'.accumulator) a.isLt } where
  rest := by
    rw [h.memory, Word.ofInt_eq_of_modEq h.modEq.symm]
    rw [h.rest]
  modEq := h.modEq
  cells b := by
    have hb := h.cells b
    simp only [get_eq_getElem, Vector.getElem_set] at hb ⊢
    split
    · exact Word.ofInt_lt _
    · exact hb
  bounds := h.bounds
  bounds' := h.bounds'

theorem load (h : Congruent m m') (a : Address) :
    Congruent { m with accumulator := m.memory.get a }
      { m' with accumulator := m'.memory.get a } := by
  have hw : m.memory.get a < 1000 := h.cells a
  have hb : -999 ≤ (m.memory.get a : Int) ∧ (m.memory.get a : Int) ≤ 999 := by omega
  rw [h.rest]
  exact ⟨rfl, .refl _, h.cells, hb, hb⟩

/-- All instructions but one do the same to both. -/
theorem execute (h : Congruent m m') (origin : Address) (inbox : List Int) {i : Instruction}
    (hi : ∀ a, i ≠ .branchPositive a) :
    (m.execute origin inbox i).outcome.Alike (· ≡ · [ZMOD 1000])
        (m'.execute origin inbox i).outcome ∧
      (m'.execute origin inbox i).inbox = (m.execute origin inbox i).inbox ∧
      Congruent (m.execute origin inbox i).machine (m'.execute origin inbox i).machine := by
  cases i with
  | add a =>
    refine ⟨.completed, rfl, h.accept ?_⟩
    rw [h.memory]
    exact h.modEq.add_right _
  | subtract a =>
    refine ⟨.completed, rfl, h.accept ?_⟩
    rw [h.memory]
    exact h.modEq.sub_right _
  | store a => exact ⟨.completed, rfl, h.store a⟩
  | load a => exact ⟨.completed, rfl, h.load a⟩
  | branch a => exact ⟨.completed, rfl, h.moved rfl h.flag⟩
  | branchZero a =>
    have hz := Accumulator.eq_zero_iff_of_modEq h.modEq h.bounds h.bounds'
    refine ⟨.completed, rfl, h.moved ?_ h.flag⟩
    rw [if_congr hz.symm rfl h.counter]
  | branchPositive a => exact absurd rfl (hi a)
  | input =>
    cases inbox with
    | nil =>
      have hf : Flag.waiting m'.counter = .waiting m.counter := congrArg Flag.waiting h.counter
      exact ⟨.blocked, rfl, h.moved rfl hf⟩
    | cons v rest => exact ⟨.completed, rfl, h.accept (.refl v)⟩
  | output => exact ⟨.emitted h.modEq, rfl, h⟩
  | halt => exact ⟨.halted, rfl, h.moved h.counter rfl⟩
  | reserved w => exact ⟨.completed, rfl, h⟩
  | invalid w => exact ⟨.halted, rfl, h.moved h.counter rfl⟩

/-- A cycle that is no branch on the sign does the same to both. -/
theorem step (h : Congruent m m') (hn : ∀ a, m.next? ≠ some (.branchPositive a))
    (inbox : List Int) :
    (m.step inbox).outcome.Alike (· ≡ · [ZMOD 1000]) (m'.step inbox).outcome ∧
      (m'.step inbox).inbox = (m.step inbox).inbox ∧
      Congruent (m.step inbox).machine (m'.step inbox).machine := by
  have hw : m'.fetch.fetched = m.fetch.fetched := by
    rw [h.rest]
    rfl
  rcases step_cases_pair h.flag h.counter (fun _ => hw) inbox with
    ⟨i, hi, hs, hs'⟩ | ⟨-, resume, v, rest, rfl, hs, hs'⟩ | ⟨-, o, ho, hs, hs'⟩
  · have hb : ∀ a, i ≠ .branchPositive a := fun a ha => hn a (hi.trans (congrArg some ha))
    rw [hs, hs']
    exact h.fetch.execute m.counter inbox hb
  · rw [hs, hs']
    exact ⟨.completed, rfl, (h.accept (.refl v)).moved rfl rfl⟩
  · rw [hs, hs']
    exact ⟨.of_idle ho, rfl, h⟩

end Congruent

end Machine

namespace Computer

theorem lockstep_congruent :
    Lockstep (fun m => ∀ a, m.next? ≠ some (.branchPositive a)) (· ≡ · [ZMOD 1000])
      (fun _ => Machine.Congruent) where
  flag h := h.flag
  counter h := h.counter
  step h hn inbox := h.step hn inbox

/-- Runs from congruent machines end alike, and emit congruent values, if no cycle of the first is a
branch on the sign of the accumulator. -/
theorem run_congruent {c d : Computer} (stops : Breakpoints) (limit : Nat)
    (hm : c.machine.Congruent d.machine) (hi : d.inbox = c.inbox)
    (hn : ∀ m ∈ c.cycles (c.run stops limit), ∀ a, m.next? ≠ some (.branchPositive a)) :
    Run.Alike (· ≡ · [ZMOD 1000]) Machine.Congruent c d (c.run stops limit) (d.run stops limit) :=
  run_lockstep lockstep_congruent hm hi stops limit hn

/-- Seven and -993 count as one. The program adds three, stores the sum, emits it and halts. -/
theorem run_congruent_sum :
    let m := { Machine.load [105, 306, 902, 704, 0, 3] with accumulator := 7 }
    let m' := { m with accumulator := -993 }
    let r := Computer.run ⟨m, [], #[]⟩ .empty 9
    let r' := Computer.run ⟨m', [], #[]⟩ .empty 9
    Run.Alike (· ≡ · [ZMOD 1000]) Machine.Congruent ⟨m, [], #[]⟩ ⟨m', [], #[]⟩ r r' ∧
      r.computer.outbox = #[10] ∧ r'.computer.outbox = #[-990] := by
  intro m m' r r'
  have hm : m.Congruent m' := ⟨rfl, by decide, by decide +kernel, by decide, by decide⟩
  have hn : ∀ k ∈ Computer.cycles ⟨m, [], #[]⟩ r, ∀ a, k.next? ≠ some (.branchPositive a) := by
    decide +kernel
  exact ⟨run_congruent .empty 9 hm rfl hn, by decide +kernel, by decide +kernel⟩

end Computer

end LittleMan
