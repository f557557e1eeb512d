import LittleMan.Proofs.Assembly.Disassembly
import LittleMan.Proofs.Text.Decimal

/-! Literals as operands: however many digits they have, addresses are what they stand for or out of
range, and so are data words up to the bounds of 64 bits, beyond which they stay at the bounds. -/
namespace LittleMan.Assembly

open Source Decimal

variable {t : String} {s : Statement} {m : Mnemonic} {place : Span}

/-- A line of code with a literal as its operand. -/
structure HasLiteral (s : Statement) (m : Mnemonic) (t : String) (place : Span) : Prop where
  mnemonic : ∃ word, Names s word m
  operand : s.operand = some ⟨t, place⟩

/-- A mnemonic with the literal as its operand becomes the word: on its own, as a line of any text
whatever labels there are, and so in every program that has such a line. -/
structure AssemblesTo (m : Mnemonic) (t : String) (w : Nat) : Prop where
  alone : ∃ p, Program.assemble (m.name ++ " " ++ t) = .ok p ∧ p.words = [w]
  line : ∀ symbols s place, HasLiteral s m t place → encode symbols s = .ok w
  word : ∀ src p, Program.assemble src = .ok p → ∀ (i : Nat) s place,
    (statements src)[i]? = some s → HasLiteral s m t place → p.words[i]? = some w

/-- A mnemonic with the literal as its operand is an address out of range: on its own, and as a line
of any text whatever labels there are. No text with such a line becomes a program, and this is the
error if nothing else is wrong before. -/
structure IsOutOfRange (m : Mnemonic) (t : String) (v : Int) : Prop where
  alone : ∃ place, Program.assemble (m.name ++ " " ++ t) = .error (.addressOutOfRange v place)
  line : ∀ symbols s place, HasLiteral s m t place →
    encode symbols s = .error (.addressOutOfRange v place)
  text : ∀ src (i : Nat) s place, (statements src)[i]? = some s → HasLiteral s m t place →
    ∀ p, Program.assemble src ≠ .ok p
  first : ∀ src (i : Nat) s place, (statements src)[i]? = some s → HasLiteral s m t place →
    Clean (DraftFault (statements src)) → (∀ k < i, ∀ e, ¬EncodeFault (statements src) k e) →
      Program.assemble src = .error (.addressOutOfRange v place)

/-- The word for a literal as data. -/
def dataWord (t : String) : Nat := (signed64.nearest (denoted t) % 1000).toNat

/-- What a literal stands for is an address. -/
def IsAddress (t : String) : Prop := 0 ≤ denoted t ∧ denoted t ≤ 99

theorem nearest_of_isAddress (h : IsAddress t) : signed64.nearest (denoted t) = denoted t := by
  obtain ⟨hlo, hhi⟩ := h
  have hholds : signed64.Holds (denoted t) := by
    constructor
    · simp only [signed64]
      omega
    · simp only [signed64]
      omega
  exact hholds.nearest

/-- Values do not get into the range of addresses when they are brought within the bounds. -/
theorem isAddress_iff :
    IsAddress t ↔ 0 ≤ signed64.nearest (denoted t) ∧ signed64.nearest (denoted t) ≤ 99 := by
  unfold IsAddress Bounds.nearest
  simp only [signed64]
  omega

theorem operandValue_literal (h : isLiteral t = true) (symbols : SymbolTable) (place : Span) :
    operandValue symbols (some ⟨t, place⟩) = .ok (signed64.nearest (denoted t)) := by
  have hv : literal? t = some (signed64.nearest (denoted t)) := literal?_eq_some_iff.mpr ⟨h, rfl⟩
  unfold operandValue
  dsimp only
  rw [hv]

theorem encode_data (h : isLiteral t = true) (symbols : SymbolTable)
    (hs : HasLiteral s .data t place) : encode symbols s = .ok (dataWord t) := by
  obtain ⟨word, hn⟩ := hs.mnemonic
  rw [encode_of_names hn, encodeAs_data, hs.operand, operandValue_literal h]
  rfl

theorem encode_address (h : isLiteral t = true) (symbols : SymbolTable) (hm : m.takesAddress)
    (hs : HasLiteral s m t place) (ha : IsAddress t) :
    encode symbols s = .ok (m.base + (denoted t).toNat) := by
  obtain ⟨word, hn⟩ := hs.mnemonic
  rw [encode_of_names hn, encodeAs_address _ _ _ hm, hs.operand, operandValue_literal h,
    nearest_of_isAddress ha]
  exact if_pos ha

theorem encode_out_of_range (h : isLiteral t = true) (symbols : SymbolTable) (hm : m.takesAddress)
    (hs : HasLiteral s m t place) (ha : ¬IsAddress t) :
    encode symbols s = .error (.addressOutOfRange (signed64.nearest (denoted t)) place) := by
  obtain ⟨word, hn⟩ := hs.mnemonic
  rw [encode_of_names hn, encodeAs_address _ _ _ hm, hs.operand, operandValue_literal h]
  exact if_neg (isAddress_iff.not.mp ha)

theorem plain_literal (h : isLiteral t = true) : PlainWord t := by
  obtain ⟨hne, hdigits⟩ := isLiteral_iff.mp h
  have hblank : Text.isBlank '+' = false ∧ Text.isBlank '-' = false := by decide
  constructor
  · rintro rfl
    exact hne rfl
  · intro c hc
    rcases sign_or_mem_dropSign hc with rfl | rfl | hc
    · exact ⟨hblank.1, by decide⟩
    · exact ⟨hblank.2, by decide⟩
    · refine ⟨isBlank_of_isDigit (hdigits c hc), ?_⟩
      rintro rfl
      have hd := hdigits ';' hc
      contradiction

/-- A mnemonic and a literal, put side by side, are a line of code on their own. -/
theorem statements_literal (h : isLiteral t = true) (m : Mnemonic) :
    ∃ s place, statements (m.name ++ " " ++ t) = [s] ∧ s.label = none ∧ HasLiteral s m t place := by
  have hplain : ∀ u ∈ [m.name, t], PlainWord u := by
    simpa using ⟨plain_name m, plain_literal h⟩
  obtain ⟨hn, hs, hwords⟩ := words_of_plainWords hplain
  have hrow : " ".intercalate [m.name, t] = m.name ++ " " ++ t := by
    rw [String.intercalate_cons_cons, String.intercalate_singleton]
  rw [hrow] at hn hs hwords
  have htexts : lineTexts ("\n".intercalate [m.name ++ " " ++ t]) = [[m.name, t]] := by
    rw [lineTexts_intercalate (by simpa using hn) (by simpa using hs) (by simp [hwords])]
    simp [hwords]
  rw [String.intercalate_singleton, lineTexts] at htexts
  obtain ⟨⟨first, rest⟩, hline, hl⟩ := List.map_eq_singleton_iff.mp htexts
  have hfirst : first.text = m.name := (List.cons.inj hl).1
  obtain ⟨o, rfl, ho⟩ := List.map_eq_singleton_iff.mp (List.cons.inj hl).2
  have hm : Mnemonic.ofName? first.text = some m := by
    rw [hfirst]
    exact Mnemonic.ofName?_name m
  refine ⟨⟨none, some first, some o, (Line.mk first [o]).span⟩, o.span, ?_, rfl,
    ⟨⟨first, rfl, hm⟩, ?_⟩⟩
  · rw [statements, hline, List.map_singleton, statement_of_mnemonic hm]
    rfl
  · rw [← ho]

theorem dataWord_of_holds (h : signed64.Holds (denoted t)) :
    dataWord t = (denoted t % 1000).toNat := by
  rw [dataWord, h.nearest]

theorem dataWord_of_gt (h : signed64.hi < denoted t) : dataWord t = 807 := by
  rw [dataWord, Bounds.nearest_of_gt (by decide) h]
  rfl

theorem dataWord_of_lt (h : denoted t < signed64.lo) : dataWord t = 192 := by
  rw [dataWord, Bounds.nearest_of_lt h]
  rfl

theorem AssemblesTo.of_encode {w : Nat} (h : isLiteral t = true)
    (he : ∀ symbols s place, HasLiteral s m t place → encode symbols s = .ok w) :
    AssemblesTo m t w where
  alone := by
    obtain ⟨s, place, hs, hl, hliteral⟩ := statements_literal h m
    have ha := assemble_single hs hl
    rw [he .empty s place hliteral] at ha
    cases hp : Program.assemble (m.name ++ " " ++ t) with
    | error e =>
      rw [hp] at ha
      contradiction
    | ok p =>
      rw [hp] at ha
      exact ⟨p, rfl, Except.ok.inj ha⟩
  line := he
  word := by
    intro src p hp i s place hs hliteral
    obtain ⟨w', hw, hencode⟩ := encode_of_accepted (accepted_of_assemble hp) hs
    rw [he _ s place hliteral] at hencode
    rw [hw, Except.ok.inj hencode]

theorem IsOutOfRange.of_encode {v : Int} (h : isLiteral t = true)
    (he : ∀ symbols s place, HasLiteral s m t place →
      encode symbols s = .error (.addressOutOfRange v place)) : IsOutOfRange m t v where
  alone := by
    obtain ⟨s, place, hs, hl, hliteral⟩ := statements_literal h m
    have ha := assemble_single hs hl
    rw [he .empty s place hliteral] at ha
    cases hp : Program.assemble (m.name ++ " " ++ t) with
    | error e =>
      rw [hp] at ha
      exact ⟨place, congrArg Except.error (Except.error.inj ha)⟩
    | ok p =>
      rw [hp] at ha
      contradiction
  line := he
  text := by
    intro src i s place hs hliteral p hp
    obtain ⟨w, -, hencode⟩ := encode_of_accepted (accepted_of_assemble hp) hs
    rw [he _ s place hliteral] at hencode
    contradiction
  first := by
    intro src i s place hs hliteral hc hbefore
    have hfault := (encode_error_iff (distinct_of_clean hc) hs).mp (he _ s place hliteral)
    exact assemble_of_rejected (.inr ⟨hc, i, hfault, hbefore⟩)

/-- Literals mean what they stand for. As data this is taken modulo 1000, or else the bound that is
nearest to it if it is beyond the bounds of 64 bits. As an address it is added to the base of the
instruction, and what is not the address of a cell is out of range, however far. -/
theorem literal_operand (h : isLiteral t = true) :
    (signed64.Holds (denoted t) → AssemblesTo .data t (denoted t % 1000).toNat) ∧
    (signed64.hi < denoted t → AssemblesTo .data t 807) ∧
    (denoted t < signed64.lo → AssemblesTo .data t 192) ∧
    ∀ m, m.takesAddress →
      (0 ≤ denoted t ∧ denoted t ≤ 99 → AssemblesTo m t (m.base + (denoted t).toNat)) ∧
      (¬(0 ≤ denoted t ∧ denoted t ≤ 99) → IsOutOfRange m t (signed64.nearest (denoted t))) := by
  have hdata : AssemblesTo .data t (dataWord t) :=
    .of_encode h fun symbols s place hs => encode_data h symbols hs
  refine ⟨fun hb => ?_, fun hb => ?_, fun hb => ?_, fun m hm => ⟨fun ha => ?_, fun ha => ?_⟩⟩
  · rw [← dataWord_of_holds hb]
    exact hdata
  · rw [← dataWord_of_gt hb]
    exact hdata
  · rw [← dataWord_of_lt hb]
    exact hdata
  · exact .of_encode h fun symbols s place hs => encode_address h symbols hm hs ha
  · exact .of_encode h fun symbols s place hs => encode_out_of_range h symbols hm hs ha

theorem literal_operand_zeros :
    AssemblesTo .data "+0000000000000000000000042" 42 ∧
      AssemblesTo .load "+0000000000000000000000042" 542 ∧
      IsOutOfRange .load "-99999999999999999999" (-9223372036854775808) := by
  have hliteral : isLiteral "+0000000000000000000000042" = true := by decide
  have hvalue : denoted "+0000000000000000000000042" = 42 := by decide
  have hfar : isLiteral "-99999999999999999999" = true := by decide
  have hbeyond : denoted "-99999999999999999999" = -99999999999999999999 := by decide
  obtain ⟨hdata, -, -, haddress⟩ := literal_operand hliteral
  obtain ⟨-, -, -, hrange⟩ := literal_operand hfar
  rw [hvalue] at hdata haddress
  rw [hbeyond] at hrange
  refine ⟨hdata ⟨by decide, by decide⟩, ?_, ?_⟩
  · exact (haddress .load rfl).1 ⟨by decide, by decide⟩
  · exact (hrange .load rfl).2 (by decide)

/-- Beyond the bounds data is no longer what the literal stands for. -/
theorem data_beyond_bounds :
    isLiteral "99999999999999999999" = true ∧
      (denoted "99999999999999999999" % 1000).toNat = 999 ∧
      ∃ p, Program.assemble "DAT 99999999999999999999" = .ok p ∧ p.words = [807] := by
  refine ⟨by decide, by decide, ⟨[807], .empty, [⟨0, 24⟩]⟩, ?_, rfl⟩
  decide +kernel

end LittleMan.Assembly
