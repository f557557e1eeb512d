import LittleMan.Proofs.Assembly.FirstPass

/-! The second pass stops at the leftmost fault as well, or else it has a word for every line. With
both passes together it is settled what becomes of a source text. -/
namespace LittleMan.Assembly

open Source

variable {L : List Statement} {s : Statement} {o : Option Lexeme} {e e' : Error}

theorem get?_tableOf_none (name : String) :
    (tableOf L).get? name = none ↔
      ∀ j label, labelAt L j = some label → label.text ≠ stripColon name :=
  find?_tableOf_none

theorem get?_tableOf (hL : Distinct L) {name : String} {j : Nat} :
    (tableOf L).get? name = some j ↔
      ∃ label, labelAt L j = some label ∧ label.text = stripColon name :=
  find?_tableOf hL

theorem operandValue_of (hL : Distinct L) {v : Int} (h : OperandValue L o v) :
    operandValue (tableOf L) o = .ok v := by
  unfold operandValue
  cases h with
  | missing => rfl
  | literal hl =>
    dsimp only
    rw [hl]
  | label hl ha he =>
    dsimp only
    rw [hl, (get?_tableOf hL).mpr ⟨_, ha, he⟩]

theorem operandValue_of_undefined {operand : Lexeme} (h : UndefinedOperand L operand) :
    operandValue (tableOf L) (some operand) =
      .error (.undefinedLabel operand.text operand.span) := by
  unfold operandValue
  dsimp only
  rw [h.literal, (get?_tableOf_none _).mpr h.label]

/-- An operand has a value, or else it is a word that means nothing. -/
theorem operandValue_cases (hL : Distinct L) (o : Option Lexeme) :
    (∃ v, OperandValue L o v) ∨ ∃ operand, o = some operand ∧ UndefinedOperand L operand := by
  cases o with
  | none => exact .inl ⟨0, .missing⟩
  | some operand =>
    cases hl : Decimal.literal? operand.text with
    | some v => exact .inl ⟨v, .literal hl⟩
    | none =>
      cases hg : (tableOf L).get? operand.text with
      | none => exact .inr ⟨operand, rfl, hl, (get?_tableOf_none _).mp hg⟩
      | some j =>
        obtain ⟨label, ha, he⟩ := (get?_tableOf hL).mp hg
        exact .inl ⟨j, .label hl ha he⟩

theorem mnemonic_kinds (m : Mnemonic) :
    m = .data ∨ m.takesAddress ∨ m = .input ∨ m = .output ∨ m = .halt := by
  cases m <;> decide

theorem encode_of_names {symbols : SymbolTable} {word : Lexeme} {m : Mnemonic}
    (h : Names s word m) : encode symbols s = encodeAs symbols m word.span s.operand := by
  unfold encode
  rw [h.1]
  dsimp only
  rw [h.2]

theorem encodeAs_data (symbols : SymbolTable) (place : Span) (o : Option Lexeme) :
    encodeAs symbols .data place o = (operandValue symbols o).map Word.ofInt := by
  unfold encodeAs
  rw [if_pos rfl]
  cases operandValue symbols o <;> rfl

theorem encodeAs_address {m : Mnemonic} (symbols : SymbolTable) (place : Span) (o : Option Lexeme)
    (hm : m.takesAddress) :
    encodeAs symbols m place o =
      (operandValue symbols o).bind fun v =>
        if 0 ≤ v ∧ v ≤ 99 then .ok (m.base + v.toNat)
        else .error (.addressOutOfRange v ((o.map (·.span)).getD place)) := by
  have hd : m ≠ .data := by
    rintro rfl
    contradiction
  have hv : ∀ v : Int, v < memorySize ↔ v ≤ 99 := by
    intro v
    simp only [memorySize]
    omega
  unfold encodeAs
  rw [if_neg hd, if_pos hm]
  simp only [hv]
  rfl

theorem encode_of_wordOf (hL : Distinct L) {w : Nat} (h : WordOf L s w) :
    encode (tableOf L) s = .ok w := by
  cases h with
  | labelOnly hm =>
    unfold encode
    rw [hm]
  | data hw hv =>
    rw [encode_of_names hw, encodeAs_data, operandValue_of hL hv]
    rfl
  | address hw hb hv hr =>
    obtain ⟨ha, rfl⟩ := mem_bases.mp hb
    rw [encode_of_names hw, encodeAs_address _ _ _ ha, operandValue_of hL hv]
    exact if_pos ⟨by omega, by omega⟩
  | input hw => rw [encode_of_names hw]; rfl
  | output hw => rw [encode_of_names hw]; rfl
  | halt hw => rw [encode_of_names hw]; rfl

theorem encode_of_encodeFault (hL : Distinct L) {i : Nat} (hs : L[i]? = some s)
    (h : EncodeFault L i e) : encode (tableOf L) s = .error e := by
  cases h with
  | unknownMnemonic hs' hw hn =>
    obtain rfl := Option.some.inj (hs.symm.trans hs')
    unfold encode
    rw [hw]
    dsimp only
    rw [hn]
  | undefinedLabel hs' hw hm ho hu =>
    obtain rfl := Option.some.inj (hs.symm.trans hs')
    rw [encode_of_names hw, ho]
    rcases hm with rfl | ha
    · rw [encodeAs_data, operandValue_of_undefined hu]
      rfl
    · rw [encodeAs_address _ _ _ ha, operandValue_of_undefined hu]
      rfl
  | addressOutOfRange hs' hw ha hv hr =>
    obtain rfl := Option.some.inj (hs.symm.trans hs')
    rw [encode_of_names hw, encodeAs_address _ _ _ ha, operandValue_of hL hv]
    exact if_neg hr

/-- A line stands for a word, or something is wrong with it. -/
theorem encode_cases (hL : Distinct L) {i : Nat} (hs : L[i]? = some s) :
    (∃ w, WordOf L s w) ∨ ∃ e, EncodeFault L i e := by
  cases hm : s.mnemonic with
  | none => exact .inl ⟨0, .labelOnly hm⟩
  | some word =>
    cases hn : Mnemonic.ofName? word.text with
    | none => exact .inr ⟨_, .unknownMnemonic hs hm hn⟩
    | some m =>
      have hw : Names s word m := ⟨hm, hn⟩
      have hv := operandValue_cases hL s.operand
      rcases mnemonic_kinds m with rfl | ha | rfl | rfl | rfl
      · rcases hv with ⟨v, hv⟩ | ⟨operand, ho, hu⟩
        · exact .inl ⟨_, .data hw hv⟩
        · exact .inr ⟨_, .undefinedLabel hs hw (.inl rfl) ho hu⟩
      · rcases hv with ⟨v, hv⟩ | ⟨operand, ho, hu⟩
        · by_cases hr : 0 ≤ v ∧ v ≤ 99
          · obtain ⟨a, rfl⟩ := Int.eq_ofNat_of_zero_le hr.1
            exact .inl ⟨_, .address hw (mem_bases.mpr ⟨ha, rfl⟩) hv (by omega)⟩
          · exact .inr ⟨_, .addressOutOfRange hs hw ha hv hr⟩
        · exact .inr ⟨_, .undefinedLabel hs hw (.inr ha) ho hu⟩
      · exact .inl ⟨_, .input hw⟩
      · exact .inl ⟨_, .output hw⟩
      · exact .inl ⟨_, .halt hw⟩

theorem encode_ok_iff (hL : Distinct L) {i w : Nat} (hs : L[i]? = some s) :
    encode (tableOf L) s = .ok w ↔ WordOf L s w := by
  constructor
  · intro h
    rcases encode_cases hL hs with ⟨w', hw⟩ | ⟨e, he⟩
    · rw [encode_of_wordOf hL hw] at h
      rw [← Except.ok.inj h]
      exact hw
    · rw [encode_of_encodeFault hL hs he] at h
      contradiction
  · exact encode_of_wordOf hL

theorem encode_error_iff (hL : Distinct L) {i : Nat} (hs : L[i]? = some s) :
    encode (tableOf L) s = .error e ↔ EncodeFault L i e := by
  constructor
  · intro h
    rcases encode_cases hL hs with ⟨w, hw⟩ | ⟨e', he⟩
    · rw [encode_of_wordOf hL hw] at h
      contradiction
    · rw [encode_of_encodeFault hL hs he] at h
      rw [← Except.error.inj h]
      exact he
  · exact encode_of_encodeFault hL hs

end LittleMan.Assembly
