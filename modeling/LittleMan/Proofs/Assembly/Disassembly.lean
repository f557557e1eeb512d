import Mathlib.Data.List.Forall2
import LittleMan.Proofs.Assembly.Outcome
import LittleMan.Proofs.Source.Rows
import LittleMan.Proofs.Text.Decimal

/-! Encoding and decoding belong together: a line of code is encoded as a word that decodes to what
the line says, and words written as lines of code are assembled into themselves. -/
namespace LittleMan

namespace Mnemonic

variable {m : Mnemonic} {a : Address}

/-- The instruction that a mnemonic stands for. Not all of them have a use for the address. -/
def instruction? (m : Mnemonic) (a : Address) : Option Instruction :=
  match m with
  | add => some (.add a)
  | subtract => some (.subtract a)
  | store => some (.store a)
  | load => some (.load a)
  | branch => some (.branch a)
  | branchZero => some (.branchZero a)
  | branchPositive => some (.branchPositive a)
  | input => some .input
  | output => some .output
  | halt => some .halt
  | data => none

/-- The hundreds of a word tell the mnemonic, and what is left is the address. -/
theorem instruction?_of_takesAddress (hm : m.takesAddress) (a : Address) :
    m.instruction? a = some (Instruction.decode (m.base + a.val)) := by
  have ha : a.val < 100 := a.isLt
  have hd : ∀ k, (100 * k + a.val) / 100 = k := by
    intro k
    omega
  have hr : ∀ k, Address.ofNat (100 * k + a.val) = a := by
    intro k
    apply Fin.ext
    change (100 * k + a.val) % 100 = a.val
    omega
  unfold Instruction.decode
  cases m with
  | add => simp [instruction?, base, hd 1, hr 1]
  | subtract => simp [instruction?, base, hd 2, hr 2]
  | store => simp [instruction?, base, hd 3, hr 3]
  | load => simp [instruction?, base, hd 5, hr 5]
  | branch => simp [instruction?, base, hd 6, hr 6]
  | branchZero => simp [instruction?, base, hd 7, hr 7]
  | branchPositive => simp [instruction?, base, hd 8, hr 8]
  | input | output | halt | data => contradiction

theorem mnemonic?_of_instruction? {i : Instruction} (h : m.instruction? a = some i) :
    i.mnemonic? = some m := by
  cases m with
  | data => contradiction
  | _ =>
    obtain rfl := Option.some.inj h
    rfl

theorem address?_of_instruction? {i : Instruction} (hm : m.takesAddress)
    (h : m.instruction? a = some i) : i.address? = some a := by
  cases m with
  | input | output | halt | data => contradiction
  | _ =>
    obtain rfl := Option.some.inj h
    rfl

end Mnemonic

namespace Instruction

variable {w : Nat}

theorem decode_of_four (h : w / 100 = 4) : decode w = invalid w := by
  unfold decode
  rw [h]
  rfl

theorem decode_of_nine (h : w / 100 = 9) :
    decode w = if w = 901 then input else if w = 902 then output else reserved w := by
  unfold decode
  rw [h]
  rfl

/-- The words that stand for instructions with an address fill all hundreds but three. -/
theorem word_cases (hw : w < 1000) :
    (∃ (m : Mnemonic) (a : Address), m.takesAddress = true ∧ w = m.base + a.val) ∨
      w < 100 ∨ w / 100 = 4 ∨ w / 100 = 9 := by
  have hr : w % 100 < memorySize := Nat.mod_lt w (by decide)
  have hm : ∀ (k : Nat) (m : Mnemonic), m.takesAddress = true → m.base = 100 * k → w / 100 = k →
      ∃ (m : Mnemonic) (a : Address), m.takesAddress = true ∧ w = m.base + a.val := by
    intro k m ht hb hk
    refine ⟨m, ⟨w % 100, hr⟩, ht, ?_⟩
    change w = m.base + w % 100
    omega
  have hk : w / 100 = 0 ∨ w / 100 = 1 ∨ w / 100 = 2 ∨ w / 100 = 3 ∨ w / 100 = 4 ∨ w / 100 = 5 ∨
      w / 100 = 6 ∨ w / 100 = 7 ∨ w / 100 = 8 ∨ w / 100 = 9 := by omega
  rcases hk with h | h | h | h | h | h | h | h | h | h
  · exact .inr (.inl (by omega))
  · exact .inl (hm 1 .add rfl rfl h)
  · exact .inl (hm 2 .subtract rfl rfl h)
  · exact .inl (hm 3 .store rfl rfl h)
  · exact .inr (.inr (.inl h))
  · exact .inl (hm 5 .load rfl rfl h)
  · exact .inl (hm 6 .branch rfl rfl h)
  · exact .inl (hm 7 .branchZero rfl rfl h)
  · exact .inl (hm 8 .branchPositive rfl rfl h)
  · exact .inr (.inr (.inr h))

end Instruction

namespace Program

/-- A line of code for a word: the text of its instruction, or plain data where there is none or the
instruction would be encoded as another word. -/
def wordLine (w : Nat) : String :=
  if (Instruction.decode w).mnemonic?.isSome ∧ ¬(1 ≤ w ∧ w ≤ 99) then (Instruction.decode w).text
  else "DAT " ++ Decimal.text w

/-- A source text for words, a line for each. -/
def disassembly (ws : List Nat) : String := "\n".intercalate (ws.map wordLine)

end Program

namespace Assembly

open Source Program

variable {w : Nat} {L : List Statement}

/-- The words of such a line. -/
inductive WrittenAs (w : Nat) : List String → Prop
  | address {m : Mnemonic} {a : Address} (hm : m.takesAddress = true) (hw : w = m.base + a.val) :
      WrittenAs w [m.name, Decimal.zeroPadded 2 a.val]
  | plain {m : Mnemonic} (hm : m = .input ∨ m = .output ∨ m = .halt) (hw : w = m.base) :
      WrittenAs w [m.name]
  | data : WrittenAs w [Mnemonic.data.name, Decimal.text w]

theorem wordLine_eq (hw : w < 1000) :
    ∃ ts, WrittenAs w ts ∧ wordLine w = " ".intercalate ts := by
  have hdata : ∀ hi : ¬((Instruction.decode w).mnemonic?.isSome ∧ ¬(1 ≤ w ∧ w ≤ 99)),
      ∃ ts, WrittenAs w ts ∧ wordLine w = " ".intercalate ts := by
    intro hi
    refine ⟨_, .data, ?_⟩
    rw [wordLine, if_neg hi]
    rfl
  have hplain : ∀ m : Mnemonic, (m = .input ∨ m = .output ∨ m = .halt) → w = m.base →
      (Instruction.decode w).mnemonic? = some m → (Instruction.decode w).address? = none →
      ∃ ts, WrittenAs w ts ∧ wordLine w = " ".intercalate ts := by
    intro m hm hb hi ha
    have hr : ¬(1 ≤ w ∧ w ≤ 99) := by
      rcases hm with rfl | rfl | rfl <;> simp [Mnemonic.base] at hb <;> omega
    refine ⟨_, .plain hm hb, ?_⟩
    rw [wordLine, if_pos ⟨by rw [hi]; rfl, hr⟩, Instruction.text, hi, ha]
    rfl
  rcases Instruction.word_cases hw with ⟨m, a, hm, rfl⟩ | hlt | h4 | h9
  · have hi := Mnemonic.instruction?_of_takesAddress hm a
    have hr : ¬(1 ≤ m.base + a.val ∧ m.base + a.val ≤ 99) := by
      have hb : 100 ≤ m.base := by cases m <;> first | contradiction | decide
      omega
    have hs := Mnemonic.mnemonic?_of_instruction? hi
    refine ⟨_, .address hm rfl, ?_⟩
    rw [wordLine, if_pos ⟨by rw [hs]; rfl, hr⟩, Instruction.text, hs,
      Mnemonic.address?_of_instruction? hm hi]
    rfl
  · by_cases hz : w = 0
    · subst hz
      exact hplain .halt (.inr (.inr rfl)) rfl rfl rfl
    · exact hdata fun h => h.2 ⟨by omega, by omega⟩
  · apply hdata
    rw [Instruction.decode_of_four h4]
    simp [Instruction.mnemonic?]
  · by_cases hi : w = 901
    · subst hi
      exact hplain .input (.inl rfl) rfl rfl rfl
    by_cases ho : w = 902
    · subst ho
      exact hplain .output (.inr (.inl rfl)) rfl rfl rfl
    · apply hdata
      rw [Instruction.decode_of_nine h9, if_neg hi, if_neg ho]
      simp [Instruction.mnemonic?]

theorem plain_digits {ds : List Char} (hn : ds ≠ []) (hd : ∀ c ∈ ds, c.isDigit = true) :
    PlainWord (String.ofList ds) where
  ne_empty := by simpa using hn
  plain := by
    intro c hc
    rw [String.toList_ofList] at hc
    refine ⟨Decimal.isBlank_of_isDigit (hd c hc), ?_⟩
    rintro rfl
    have hs := hd ';' hc
    contradiction

theorem plain_name (m : Mnemonic) : PlainWord m.name := by
  cases m <;> decide

theorem WrittenAs.plainWord {ts : List String} (h : WrittenAs w ts) : ∀ t ∈ ts, PlainWord t := by
  cases h with
  | @address m a _ _ =>
    have hd : PlainWord (Decimal.zeroPadded 2 a.val) :=
      plain_digits (Decimal.paddedDigits_ne_nil 2 a.val)
        fun _ => Decimal.isDigit_of_mem_paddedDigits
    simpa using ⟨plain_name m, hd⟩
  | @plain m _ _ => simpa using plain_name m
  | data =>
    have hd : PlainWord (Decimal.text w) :=
      plain_digits (Decimal.digits_ne_nil w) fun _ => Decimal.isDigit_of_mem_digits
    simpa using ⟨plain_name .data, hd⟩

theorem WrittenAs.ne_nil {ts : List String} (h : WrittenAs w ts) : ts ≠ [] := by
  cases h <;> simp

/-- The lines of a disassembly are found again, in order. -/
theorem writtenAs_lineTexts {ws : List Nat} (h : ∀ w ∈ ws, w < 1000) :
    List.Forall₂ WrittenAs ws (lineTexts (disassembly ws)) := by
  have hrow : ∀ w ∈ ws, '\n' ∉ (wordLine w).toList ∧ ';' ∉ (wordLine w).toList ∧
      WrittenAs w (Text.words (wordLine w)) := by
    intro w hw
    obtain ⟨ts, hts, hl⟩ := wordLine_eq (h w hw)
    obtain ⟨hn, hs, hwords⟩ := words_of_plainWords hts.plainWord
    rw [hl, hwords]
    exact ⟨hn, hs, hts⟩
  have hn : ∀ row ∈ ws.map wordLine, '\n' ∉ row.toList := by
    intro row hr
    obtain ⟨w, hw, rfl⟩ := List.mem_map.mp hr
    exact (hrow w hw).1
  have hs : ∀ row ∈ ws.map wordLine, ';' ∉ row.toList := by
    intro row hr
    obtain ⟨w, hw, rfl⟩ := List.mem_map.mp hr
    exact (hrow w hw).2.1
  have hne : ∀ row ∈ ws.map wordLine, Text.words row ≠ [] := by
    intro row hr
    obtain ⟨w, hw, rfl⟩ := List.mem_map.mp hr
    exact (hrow w hw).2.2.ne_nil
  rw [disassembly, lineTexts_intercalate hn hs hne, List.map_map, List.forall₂_map_right_iff,
    List.forall₂_same]
  exact fun w hw => (hrow w hw).2.2

/-- A line that starts with a mnemonic has no label. -/
theorem statement_of_mnemonic {first : Lexeme} {rest : List Lexeme} {m : Mnemonic}
    (h : Mnemonic.ofName? first.text = some m) :
    (Line.mk first rest).statement = ⟨none, some first, rest[0]?, (Line.mk first rest).span⟩ := by
  have hl : isLabel first.text = false := by
    rw [isLabel, h]
    exact Bool.and_false _
  unfold Line.statement
  rw [if_neg (by rw [hl]; exact Bool.false_ne_true)]

theorem literal?_text (hw : w < 1000) : Decimal.literal? (Decimal.text w) = some (w : Int) := by
  have hv := Decimal.valueOf_digits w
  have hl := Decimal.literal?_digits (Decimal.digits_ne_nil w)
    (fun _ => Decimal.isDigit_of_mem_digits) (by rw [hv]; simp only [Decimal.signed64]; omega)
  rwa [hv] at hl

/-- A line that is written for a word stands for that word, and has no label. -/
theorem WrittenAs.statement {l : Line} (h : WrittenAs w (l.words.map (·.text))) (hw : w < 1000) :
    l.statement.label = none ∧ WordOf L l.statement w := by
  obtain ⟨first, rest⟩ := l
  have hstart : ∀ {m : Mnemonic}, first.text = m.name → Mnemonic.ofName? first.text = some m := by
    intro m hf
    rw [hf]
    exact Mnemonic.ofName?_name m
  generalize hts : (Line.mk first rest).words.map (·.text) = ts at h
  cases h with
  | @address m a hm hb =>
    have hf : first.text = m.name := (List.cons.inj hts).1
    have hr : rest.map (·.text) = [Decimal.zeroPadded 2 a.val] := (List.cons.inj hts).2
    obtain ⟨operand, rfl, ho⟩ := List.map_eq_singleton_iff.mp hr
    have ha : a.val ≤ 99 := Nat.le_of_lt_succ a.isLt
    have hv : OperandValue L (some operand) (a.val : Int) := by
      apply OperandValue.literal
      rw [ho]
      exact Decimal.literal?_zeroPadded 2 (by simp only [Decimal.signed64]; omega)
    rw [statement_of_mnemonic (hstart hf), hb]
    exact ⟨rfl, .address ⟨rfl, hstart hf⟩ (mem_bases.mpr ⟨hm, rfl⟩) hv ha⟩
  | @plain m hm hb =>
    have hf : first.text = m.name := (List.cons.inj hts).1
    rw [statement_of_mnemonic (hstart hf), hb]
    refine ⟨rfl, ?_⟩
    rcases hm with rfl | rfl | rfl
    · exact .input ⟨rfl, hstart hf⟩
    · exact .output ⟨rfl, hstart hf⟩
    · exact .halt ⟨rfl, hstart hf⟩
  | data =>
    have hf : first.text = Mnemonic.data.name := (List.cons.inj hts).1
    have hr : rest.map (·.text) = [Decimal.text w] := (List.cons.inj hts).2
    obtain ⟨operand, rfl, ho⟩ := List.map_eq_singleton_iff.mp hr
    have hv : OperandValue L (some operand) (w : Int) := by
      apply OperandValue.literal
      rw [ho]
      exact literal?_text hw
    have hd : ((w : Int) % 1000).toNat = w := Word.ofInt_natCast hw
    rw [statement_of_mnemonic (hstart hf)]
    refine ⟨rfl, ?_⟩
    conv => rhs; rw [← hd]
    exact .data ⟨rfl, hstart hf⟩ hv

/-- Without labels nothing but the number of lines can be wrong in the first pass. -/
theorem clean_of_no_labels (hl : ∀ s ∈ L, s.label = none) (hn : L.length ≤ 100) :
    Clean (DraftFault L) ∧ definitions L = [] := by
  have ha : ∀ i, labelAt L i = none := by
    intro i
    unfold labelAt
    cases hs : L[i]? with
    | none => rfl
    | some s => exact hl s (List.mem_of_getElem? hs)
  constructor
  · intro i e h
    cases h with
    | duplicateLabel h =>
      have hh := h.here
      rw [ha] at hh
      contradiction
    | programTooLong hs hi _ =>
      have hlt := (List.getElem?_eq_some_iff.mp hs).1
      omega
  · rw [definitions, List.filterMap_eq_nil_iff]
    rintro ⟨s, i⟩ hs
    rw [hl s (List.fst_mem_of_mem_zipIdx hs)]
    rfl

/-- Lines that are written for words are accepted as those words. -/
theorem accepted_of_writtenAs {src : String} {ws : List Nat}
    (hw : ∀ w ∈ ws, w < 1000) (hn : ws.length ≤ 100)
    (h : List.Forall₂ WrittenAs ws (lineTexts src)) :
    ∃ p, Program.assemble src = .ok p ∧ p.words = ws ∧ p.symbols = .empty := by
  rw [lineTexts, List.forall₂_map_right_iff] at h
  have hlen : ws.length = (statements src).length := by
    rw [statements, List.length_map]
    exact h.length_eq
  have hline : ∀ (i : Nat) s w, (statements src)[i]? = some s → ws[i]? = some w →
      s.label = none ∧ WordOf (statements src) s w := by
    intro i s w hs hws
    obtain ⟨hi, rfl⟩ := List.getElem?_eq_some_iff.mp hws
    rw [statements, List.getElem?_map] at hs
    obtain ⟨l, hl, rfl⟩ := Option.map_eq_some_iff.mp hs
    obtain ⟨hi', rfl⟩ := List.getElem?_eq_some_iff.mp hl
    exact (h.get hi hi').statement (hw _ (List.getElem_mem hi))
  have hlabel : ∀ s ∈ statements src, s.label = none := by
    intro s hs
    obtain ⟨i, hi⟩ := List.mem_iff_getElem?.mp hs
    have hlt : i < ws.length := by
      rw [hlen]
      exact (List.getElem?_eq_some_iff.mp hi).1
    exact (hline i s ws[i] hi (List.getElem?_eq_getElem hlt)).1
  obtain ⟨hc, hd⟩ := clean_of_no_labels hlabel (by omega)
  have ha := accepted_of_wordOf hc hlen fun i s w hs hws => (hline i s w hs hws).2
  exact ⟨_, assemble_of_accepted ha, rfl, congrArg SymbolTable.mk hd⟩

/-- A word that stands for a line with a mnemonic is decoded as what the line says. -/
theorem WordOf.decode {s : Statement} {word : Lexeme} (h : WordOf L s w)
    (hm : s.mnemonic = some word) :
    ∃ m, Mnemonic.ofName? word.text = some m ∧ (m ≠ .data →
      ∃ a, m.instruction? a = some (Instruction.decode w) ∧
        (m.takesAddress → OperandValue L s.operand a.val)) := by
  have hword : ∀ {word' m}, Names s word' m → Mnemonic.ofName? word.text = some m := by
    intro word' m hn
    rw [Option.some.inj (hm.symm.trans hn.1)]
    exact hn.2
  cases h with
  | labelOnly hn =>
    rw [hn] at hm
    contradiction
  | data hn _ => exact ⟨_, hword hn, fun hd => absurd rfl hd⟩
  | @address _ m b a hn hb hv ha =>
    obtain ⟨ht, rfl⟩ := mem_bases.mp hb
    have hi := Mnemonic.instruction?_of_takesAddress ht ⟨a, Nat.lt_succ_of_le ha⟩
    exact ⟨m, hword hn, fun _ => ⟨_, hi, fun _ => hv⟩⟩
  -- these three have no use for an address, so any will do
  | input hn => exact ⟨_, hword hn, fun _ => ⟨.ofNat 0, rfl, fun ht => absurd ht (by decide)⟩⟩
  | output hn => exact ⟨_, hword hn, fun _ => ⟨.ofNat 0, rfl, fun ht => absurd ht (by decide)⟩⟩
  | halt hn => exact ⟨_, hword hn, fun _ => ⟨.ofNat 0, rfl, fun ht => absurd ht (by decide)⟩⟩

/-- Every line of a source text with a mnemonic other than the one for data is encoded as a word
that is decoded as its instruction. The other way round, up to a hundred words written as lines of
code are assembled into themselves, with no labels, whether or not the last line is ended. -/
theorem encoding_inverse :
    (∀ src p, Program.assemble src = .ok p → ∀ (i : Nat) s word, (statements src)[i]? = some s →
      s.mnemonic = some word → ∃ m, Mnemonic.ofName? word.text = some m ∧ (m ≠ .data →
        ∃ w a, p.words[i]? = some w ∧ m.instruction? a = some (Instruction.decode w) ∧
          (m.takesAddress → OperandValue (statements src) s.operand a.val))) ∧
    ∀ ws : List Nat, ws.length ≤ 100 → (∀ w ∈ ws, w < 1000) →
      ∀ src ∈ [disassembly ws, disassembly ws ++ "\n"],
        ∃ p, Program.assemble src = .ok p ∧ p.words = ws ∧ p.symbols = .empty := by
  constructor
  · intro src p hp i s word hs hm
    have ha := accepted_of_assemble hp
    have hi : i < p.words.length := by
      rw [ha.length]
      exact (List.getElem?_eq_some_iff.mp hs).1
    have hw : p.words[i]? = some p.words[i] := List.getElem?_eq_getElem hi
    obtain ⟨m, hn, hd⟩ := (ha.word i s _ hs hw).decode hm
    refine ⟨m, hn, fun hne => ?_⟩
    obtain ⟨a, hd⟩ := hd hne
    exact ⟨p.words[i], a, hw, hd⟩
  · intro ws hn hw src hsrc
    have ht : lineTexts src = lineTexts (disassembly ws) := by
      rcases List.mem_pair.mp hsrc with rfl | rfl
      · rfl
      · exact lineTexts_append_newline _
    apply accepted_of_writtenAs hw hn
    rw [ht]
    exact writtenAs_lineTexts hw

/-- Counts down from a number in its last cell, and stays there. -/
def countdown : String := "LDA n\nl: OUT\nSUB 5 ; one\nBRP l\nHLT\nDAT 1\nn DAT 3"

theorem encoding_inverse_countdown :
    (∃ w a, [506, 902, 205, 801, 0, 1, 3][3]? = some w ∧
      Mnemonic.branchPositive.instruction? a = some (Instruction.decode w) ∧
      OperandValue (statements countdown) (some ⟨"l", ⟨29, 1⟩⟩) a.val) ∧
    ∃ p, Program.assemble "LDA 06\nOUT\nDAT 450\nDAT 42\nHLT\nDAT 905\nIN" = .ok p ∧
      p.words = [506, 902, 450, 42, 0, 905, 901] ∧ p.symbols = .empty := by
  obtain ⟨hdecode, hassemble⟩ := encoding_inverse
  constructor
  · have hp : (Program.assemble countdown).toOption.map (·.words) =
        some [506, 902, 205, 801, 0, 1, 3] := by decide +kernel
    obtain ⟨p, ha, hw⟩ := Option.map_eq_some_iff.mp hp
    have hs : (statements countdown)[3]? =
        some ⟨none, some ⟨"BRP", ⟨25, 3⟩⟩, some ⟨"l", ⟨29, 1⟩⟩, ⟨25, 5⟩⟩ := by decide +kernel
    obtain ⟨m, hm, hd⟩ := hdecode countdown p (ok_of_toOption ha) 3 _ _ hs rfl
    obtain rfl := Option.some.inj (hm.symm.trans (by decide : _ = some Mnemonic.branchPositive))
    obtain ⟨w, a, hw', hi, hv⟩ := hd (by decide)
    rw [hw] at hw'
    exact ⟨w, a, hw', hi, hv rfl⟩
  · have hd : disassembly [506, 902, 450, 42, 0, 905, 901] =
        "LDA 06\nOUT\nDAT 450\nDAT 42\nHLT\nDAT 905\nIN" := by decide +kernel
    rw [← hd]
    exact hassemble _ (by decide) (by decide) _ List.mem_cons_self

end Assembly

end LittleMan
