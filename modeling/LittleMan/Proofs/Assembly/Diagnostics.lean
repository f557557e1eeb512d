import LittleMan.Proofs.Assembly.Outcome
import LittleMan.Proofs.Source.LineSpans
import LittleMan.Proofs.Source.Statements

/-! Diagnostics point at what they talk about: what the message quotes is found at the places that
are marked in the text. -/
namespace LittleMan.Assembly

open Source

variable {src : String} {s : Statement} {l : Line} {word o : Lexeme} {i : Nat} {e : Error}

/-- What an error says about the text, and where in the text that is found. -/
inductive PointsAt (src : String) : Error → Prop
  | duplicateLabel {name written writtenAgain : String} {first again : Span}
      (hm : (Error.duplicateLabel name (some first) again).message =
        "Duplicate label `" ++ name ++ "`")
      (hfirst : Covers src first written) (hw : Spells written name)
      (hagain : Covers src again writtenAgain) (hw' : Spells writtenAgain name)
      (hbefore : first.stop < again.offset) : PointsAt src (.duplicateLabel name (some first) again)
  | programTooLong {l : Line} {code : String} (hl : (lines src)[100]? = some l)
      (hc : IsCode code) (hw : Text.words code = l.words.map (·.text))
      (h : Covers src l.span code) : PointsAt src (.programTooLong l.span)
  | unknownMnemonic {word : String} {place : Span}
      (hm : (Error.unknownMnemonic word place).message = "Unknown mnemonic `" ++ word ++ "`")
      (h : Covers src place word) : PointsAt src (.unknownMnemonic word place)
  | addressOutOfRange {t : String} {v : Int} {place : Span}
      (hm : (Error.addressOutOfRange v place).message =
        "Address " ++ Decimal.text v ++ " is out of range")
      (h : Covers src place t) (hv : Decimal.literal? t = some v) :
      PointsAt src (.addressOutOfRange v place)
  | undefinedLabel {name : String} {place : Span}
      (hm : (Error.undefinedLabel name place).message = "Undefined label `" ++ name ++ "`")
      (h : Covers src place name) : PointsAt src (.undefinedLabel name place)

/-- The places that an error tells of. -/
def Error.places : Error → List Span
  | duplicateLabel _ first again => first.toList ++ [again]
  | programTooLong place | unknownMnemonic _ place | addressOutOfRange _ place
  | undefinedLabel _ place => [place]

/-- These are marked, and nothing else. -/
theorem Error.places_labels (e : Error) : e.diagnostic.labels.map (·.2) = e.places := by
  cases e with
  | duplicateLabel label first again => cases first <;> rfl
  | _ => rfl

theorem PointsAt.covers (h : PointsAt src e) : ∀ place ∈ e.places, ∃ t, Covers src place t := by
  intro place hplace
  cases h with
  | duplicateLabel _ hfirst _ hagain _ _ =>
    rcases List.mem_pair.mp hplace with rfl | rfl
    · exact ⟨_, hfirst⟩
    · exact ⟨_, hagain⟩
  | programTooLong _ _ _ h =>
    obtain rfl := List.mem_singleton.mp hplace
    exact ⟨_, h⟩
  | unknownMnemonic _ h | addressOutOfRange _ h _ | undefinedLabel _ h =>
    obtain rfl := List.mem_singleton.mp hplace
    exact ⟨_, h⟩

theorem covers_mnemonic (hs : (statements src)[i]? = some s) (h : s.mnemonic = some word) :
    Covers src word.span word.text := by
  obtain ⟨l, hl, rfl⟩ := exists_line_of_statements hs
  exact covers_of_mem_words (List.mem_of_getElem? hl) (l.mem_words_of_mnemonic h)

theorem covers_operand (hs : (statements src)[i]? = some s) (h : s.operand = some o) :
    Covers src o.span o.text := by
  obtain ⟨l, hl, rfl⟩ := exists_line_of_statements hs
  exact covers_of_mem_words (List.mem_of_getElem? hl) (l.mem_words_of_operand h)

/-- A line covers nothing but code, which holds its words. -/
theorem covers_line (hl : (lines src)[i]? = some l) :
    ∃ code, IsCode code ∧ Text.words code = l.words.map (·.text) ∧ Covers src l.span code := by
  have hslices := congrArg (·[i]?) (slices_lines src)
  simp only [List.getElem?_map, hl, Option.map_some] at hslices
  obtain ⟨code, hcode, hslice⟩ := Option.map_eq_some_iff.mp hslices.symm
  have hiscode := isCode_of_mem_codeLines (List.mem_of_getElem? hcode)
  have hwords := congrArg (·[i]?) (lineTexts_eq_words src)
  simp only [lineTexts, List.getElem?_map, hl, hcode, Option.map_some] at hwords
  have hne : code ≠ "" := by
    have hcs := hiscode.ne_nil
    simpa using hcs
  exact ⟨code, hiscode, (Option.some.inj hwords).symm, covers_iff.mpr ⟨hne, hslice.symm⟩⟩

theorem DraftFault.pointsAt (h : DraftFault (statements src) i e) : PointsAt src e := by
  cases h with
  | duplicateLabel h =>
    obtain ⟨j, hj, hfirst⟩ := h.earlier
    obtain ⟨l, hl, hlabel⟩ := exists_line_of_labelAt hfirst
    obtain ⟨l', hl', hlabel'⟩ := exists_line_of_labelAt h.here
    obtain ⟨t, ht, hw⟩ := covers_label (List.mem_of_getElem? hl) hlabel
    obtain ⟨t', ht', hw'⟩ := covers_label (List.mem_of_getElem? hl') hlabel'
    rw [h.text] at hw
    refine .duplicateLabel rfl ht hw ht' hw' ?_
    obtain ⟨-, rfl⟩ := l.label_statement hlabel
    obtain ⟨-, rfl⟩ := l'.label_statement hlabel'
    exact stop_first_lt hj hl hl'
  | programTooLong hs hi hn =>
    subst hi
    obtain ⟨l, hl, rfl⟩ := exists_line_of_statements hs
    obtain ⟨code, hcode, hwords, hc⟩ := covers_line hl
    rw [l.span_statement]
    exact .programTooLong hl hcode hwords hc

/-- Labels are in range, so only a literal can be out of it. -/
theorem literal_of_out_of_range {L : List Statement} {op : Option Lexeme} {v : Int}
    (hL : Clean (DraftFault L)) (h : OperandValue L op v) (hr : ¬(0 ≤ v ∧ v ≤ 99)) :
    ∃ o, op = some o ∧ Decimal.literal? o.text = some v := by
  cases h with
  | missing => omega
  | literal h => exact ⟨_, rfl, h⟩
  | label _ hlabel _ =>
    have hlt := lt_length_of_labelAt hlabel
    have hle := length_le_of_clean hL
    omega

theorem EncodeFault.pointsAt (hc : Clean (DraftFault (statements src)))
    (h : EncodeFault (statements src) i e) : PointsAt src e := by
  cases h with
  | unknownMnemonic hs hw _ => exact .unknownMnemonic rfl (covers_mnemonic hs hw)
  | undefinedLabel hs _ _ ho _ => exact .undefinedLabel rfl (covers_operand hs ho)
  | addressOutOfRange hs _ _ hv hr =>
    obtain ⟨o, ho, hliteral⟩ := literal_of_out_of_range hc hv hr
    rw [ho]
    exact .addressOutOfRange rfl (covers_operand hs ho) hliteral

theorem Rejected.pointsAt (h : Rejected (statements src) e) : PointsAt src e := by
  rcases h with ⟨i, hi, -⟩ | ⟨hc, i, hi, -⟩
  · exact hi.pointsAt
  · exact hi.pointsAt hc

theorem undefined_of_operandValue {symbols : SymbolTable} {op : Option Lexeme}
    (h : operandValue symbols op = .error e) :
    ∃ o, op = some o ∧ e = .undefinedLabel o.text o.span := by
  cases op with
  | none => contradiction
  | some o =>
    refine ⟨o, rfl, ?_⟩
    unfold operandValue at h
    dsimp only at h
    cases hl : Decimal.literal? o.text with
    | some v =>
      rw [hl] at h
      contradiction
    | none =>
      rw [hl] at h
      dsimp only at h
      cases hg : symbols.get? o.text with
      | some a =>
        rw [hg] at h
        contradiction
      | none =>
        rw [hg] at h
        exact (Except.error.inj h).symm

/-- Without an operand the address is 0, which is in range. -/
theorem place_of_out_of_range {symbols : SymbolTable} {m : Mnemonic} {op : Option Lexeme}
    {v : Int} {fallback place : Span}
    (h : encodeAs symbols m fallback op = .error (.addressOutOfRange v place)) :
    ∃ o, op = some o ∧ place = o.span := by
  rcases mnemonic_kinds m with rfl | hm | rfl | rfl | rfl
  · rw [encodeAs_data] at h
    cases hv : operandValue symbols op with
    | ok u =>
      rw [hv] at h
      contradiction
    | error e =>
      obtain ⟨o, -, rfl⟩ := undefined_of_operandValue hv
      rw [hv] at h
      have he := Except.error.inj h
      contradiction
  · rw [encodeAs_address _ _ _ hm] at h
    cases hv : operandValue symbols op with
    | error e =>
      obtain ⟨o, -, rfl⟩ := undefined_of_operandValue hv
      rw [hv] at h
      have he := Except.error.inj h
      contradiction
    | ok u =>
      rw [hv] at h
      change (if 0 ≤ u ∧ u ≤ 99 then _ else _) = _ at h
      by_cases hu : 0 ≤ u ∧ u ≤ 99
      · rw [if_pos hu] at h
        contradiction
      · rw [if_neg hu] at h
        obtain ⟨rfl, rfl⟩ := Error.addressOutOfRange.inj (Except.error.inj h)
        cases op with
        | none =>
          obtain rfl := Except.ok.inj hv
          exact absurd ⟨by decide, by decide⟩ hu
        | some o => exact ⟨o, rfl, rfl⟩
  · contradiction
  · contradiction
  · contradiction

/-- Whatever is wrong with a text, just the places that the error tells of are marked, each of them
covers a part of the text that is not empty, and what the message says is found there: the word or
the label that it quotes, a literal with the value that it quotes, or all the words of the first
line that does not fit. A label that is defined again has been defined before, in front of that
place. An address that is out of range is always that of an operand. -/
theorem assemble_error_pointsAt :
    (∀ src e, Program.assemble src = .error e →
      e.diagnostic.labels.map (·.2) = e.places ∧
      (∀ r ∈ e.diagnostic.labels, ∃ t, Covers src r.2 t) ∧ PointsAt src e) ∧
    ∀ symbols m mnemonicPlace operand v place,
      encodeAs symbols m mnemonicPlace operand = .error (.addressOutOfRange v place) →
        ∃ o, operand = some o ∧ place = o.span := by
  constructor
  · intro src e h
    have hp := (rejected_of_assemble h).pointsAt
    refine ⟨e.places_labels, ?_, hp⟩
    intro r hr
    apply hp.covers
    rw [← e.places_labels]
    exact List.mem_map_of_mem hr
  · intro symbols m mnemonicPlace operand v place h
    exact place_of_out_of_range h

theorem assemble_error_pointsAt_accents :
    Program.assemble "é: IN ;x\r\n\u3000é DAT" =
        .error (.duplicateLabel "é" (some ⟨0, 3⟩) ⟨14, 2⟩) ∧
      (Error.duplicateLabel "é" (some ⟨0, 3⟩) ⟨14, 2⟩).diagnostic.labels.map (·.2) =
        [⟨0, 3⟩, ⟨14, 2⟩] ∧
      PointsAt "é: IN ;x\r\n\u3000é DAT" (.duplicateLabel "é" (some ⟨0, 3⟩) ⟨14, 2⟩) := by
  have he : Program.assemble "é: IN ;x\r\n\u3000é DAT" =
      .error (.duplicateLabel "é" (some ⟨0, 3⟩) ⟨14, 2⟩) := by decide +kernel
  obtain ⟨hp, -⟩ := assemble_error_pointsAt
  obtain ⟨hlabels, -, hpoints⟩ := hp _ _ he
  exact ⟨he, hlabels, hpoints⟩

end LittleMan.Assembly
