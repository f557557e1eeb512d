import LittleMan.Proofs.Debugger.Understanding
import LittleMan.Proofs.Input
import LittleMan.Proofs.Machine.Steps
import LittleMan.Proofs.Text.Trimming

/-! Input values: a line of input and a command of the debugger take the same words for values, those
that the accumulator can hold, and hand them on to the machine unchanged. -/
namespace LittleMan

/-- A value that fits goes into the accumulator as it is. -/
theorem Accumulator.ofInt_of_bounds {v : Int} (hlo : -999 ≤ v) (hhi : v ≤ 999) : ofInt v = v := by
  unfold ofInt
  rcases Int.le_total 0 v with hv | hv
  · exact Int.tmod_eq_of_lt hv (by omega)
  · have hneg : (-v).tmod 1000 = -v := Int.tmod_eq_of_lt (by omega) (by omega)
    rw [Int.neg_tmod] at hneg
    omega

namespace Machine

variable {m : Machine}

/-- The machine is at an input instruction, which may be blocked already. -/
def TakesInput (m : Machine) : Prop := m.next? = some .input ∨ m.isWaiting = true

/-- The next value goes into the accumulator, whether or not the instruction was blocked. -/
theorem step_of_takesInput (h : m.TakesInput) (v : Int) (inbox : List Int) :
    (m.step (v :: inbox)).outcome = .completed ∧ (m.step (v :: inbox)).inbox = inbox ∧
      (m.step (v :: inbox)).machine.accumulator = Accumulator.ofInt v := by
  cases hf : m.flag with
  | halted => simp [TakesInput, next?, isWaiting, hf] at h
  | waiting resume =>
    rw [step_of_waiting_cons hf]
    exact ⟨rfl, rfl, rfl⟩
  | running =>
    have hi : Instruction.decode m.fetch.fetched = .input := by
      rcases h with hn | hw
      · rw [next?_of_running hf] at hn
        exact Option.some.inj hn
      · simp [isWaiting, hf] at hw
    rw [step_of_running hf, hi]
    exact ⟨rfl, rfl, rfl⟩

end Machine

/-- A waiting value that fits ends up in the accumulator. -/
theorem Computer.step_of_takesInput {c : Computer} {v : Int} {inbox : List Int}
    (h : c.machine.TakesInput) (hi : c.inbox = v :: inbox) (hlo : -999 ≤ v) (hhi : v ≤ 999) :
    c.step.1 = .completed ∧ c.step.2.inbox = inbox ∧ c.step.2.machine.accumulator = v := by
  obtain ⟨ho, hrest, ha⟩ := Machine.step_of_takesInput h v inbox
  rw [Accumulator.ofInt_of_bounds hlo hhi] at ha
  unfold Computer.step
  rw [hi]
  exact ⟨ho, hrest, ha⟩

open Decimal

variable {t : String} {v : Int}

/-- The word is an integer in decimal, and one that the accumulator can hold. -/
structure IsValue (t : String) (v : Int) : Prop where
  written : Writes t.toList v
  lo : -999 ≤ v
  hi : v ≤ 999

/-- Bounds of 32 bits leave room for all values, and no blanks are trimmed. -/
theorem Input.value?_eq_some_iff (h : ∀ c ∈ t.toList, Text.isBlank c = false) :
    value? t = some v ↔ IsValue t v := by
  have htrimmed : Text.IsTrimmed t.toList :=
    ⟨fun c hc => h c (List.mem_of_mem_head? hc), fun c hc => h c (List.mem_of_mem_getLast? hc)⟩
  have htrim : Text.trim t = t := by
    unfold Text.trim
    rw [htrimmed.eq, String.ofList_toList]
  have hread := read?_eq_some_iff (b := signed32) (s := t) (v := v) (by decide) (by decide)
  unfold value?
  rw [htrim, Option.filter_eq_some_iff, hread, decide_eq_true_iff]
  constructor
  · rintro ⟨⟨hl, hv, -⟩, hlo, hhi⟩
    exact ⟨writes_iff.mpr ⟨hl, hv.symm⟩, hlo, hhi⟩
  · intro hv
    obtain ⟨hl, hd⟩ := writes_iff.mp hv.written
    have hlo := hv.lo
    have hhi := hv.hi
    refine ⟨⟨hl, hd.symm, ?_, ?_⟩, hlo, hhi⟩
    · simp only [signed32]
      omega
    · simp only [signed32]
      omega

namespace Debugger

theorem accepts_value_iff : Accepts .value t (.value v) ↔ IsValue t v := by
  constructor
  · rintro ⟨⟩
    next hl hlo hhi => exact ⟨writes_iff.mpr ⟨hl, rfl⟩, hlo, hhi⟩
  · rintro ⟨hw, hlo, hhi⟩
    obtain ⟨hl, rfl⟩ := writes_iff.mp hw
    exact .value hl hlo hhi

/-- The command is made of its argument alone. -/
theorem ofLine_input (hne : t ≠ "") (h : ∀ c ∈ t.toList, Text.isBlank c = false) :
    Command.ofLine ("input " ++ t) =
      ((readArgument "value" Argument.value t).map .input).mapError (.invalidArgument .input) := by
  have hwords : Text.words ("input " ++ t) = ["input"] ++ [t] := by
    have hinput : Text.words "input" = ["input"] := by decide +kernel
    have happend := Text.words_append_blank "input" t
    rwa [hinput, Text.words_of_no_blank hne h] at happend
  have hcalls : Calls ["input"] .input := .word (a := "input") (by decide) (by decide +kernel)
  unfold Command.ofLine
  rw [hwords, ofWords_of_calls hcalls]
  unfold Command.ofArguments required
  dsimp only
  cases readArgument "value" Argument.value t with
  | error e => rfl
  | ok v => rfl

theorem ofLine_input_eq_ok_iff (hne : t ≠ "") (h : ∀ c ∈ t.toList, Text.isBlank c = false) :
    Command.ofLine ("input " ++ t) = .ok (.input v) ↔ IsValue t v := by
  rw [ofLine_input hne h, ← accepts_value_iff]
  rcases understands_value "value" t hne with ⟨u, hr, ha⟩ | ⟨fault, hr, hf⟩
  · rw [hr]
    constructor
    · intro hc
      obtain rfl : u = v := by simpa [Except.map, Except.mapError] using hc
      exact ha
    · intro hv
      obtain rfl : u = v := Given.value.inj (ha.unique hv)
      rfl
  · rw [hr]
    constructor
    · intro hc
      contradiction
    · intro hv
      exact absurd hf hv.not_rejects

/-- A word is taken for a value on a line of input if and only if the debugger takes it for one.
These are the integers that the accumulator can hold, with as many digits as they are written in,
and an input instruction puts them there. -/
theorem input_values_agree (hne : t ≠ "") (h : ∀ c ∈ t.toList, Text.isBlank c = false) (v : Int) :
    (Input.value? t = some v ↔ Command.ofLine ("input " ++ t) = .ok (.input v)) ∧
    (Input.value? t = some v ↔ IsValue t v) ∧
    (Input.value? t = some v → ∀ (c : Computer) (inbox : List Int), c.machine.TakesInput →
      c.inbox = v :: inbox →
        c.step.1 = .completed ∧ c.step.2.inbox = inbox ∧ c.step.2.machine.accumulator = v) := by
  have hinput := Input.value?_eq_some_iff (v := v) h
  refine ⟨?_, hinput, ?_⟩
  · rw [hinput, ofLine_input_eq_ok_iff hne h]
  · intro hv c inbox hc hi
    have hvalue := hinput.mp hv
    exact Computer.step_of_takesInput hc hi hvalue.lo hvalue.hi

/-- More digits than 64 bits hold, nearly all of them zeros. -/
theorem input_values_agree_zeros :
    IsValue "-000000000000000000000999" (-999) ∧
      Command.ofLine "input -000000000000000000000999" = .ok (.input (-999)) ∧
      (Computer.step ⟨Machine.load [901], [-999, 5], #[]⟩).2.machine.accumulator = -999 := by
  have hall : "-000000000000000000000999".toList.all (fun c => !Text.isBlank c) = true := by
    decide +kernel
  have hblank : ∀ c ∈ "-000000000000000000000999".toList, Text.isBlank c = false := by
    simpa only [List.all_eq_true, Bool.not_eq_true'] using hall
  obtain ⟨hcommand, hvalue, hstep⟩ := input_values_agree (by decide) hblank (-999)
  have hv : Input.value? "-000000000000000000000999" = some (-999) := by decide +kernel
  have htakes : (Machine.load [901]).TakesInput := .inl (by decide +kernel)
  refine ⟨hvalue.mp hv, hcommand.mp hv, ?_⟩
  exact (hstep hv ⟨Machine.load [901], [-999, 5], #[]⟩ [5] htakes rfl).2.2

end Debugger

end LittleMan
