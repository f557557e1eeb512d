import LittleMan.Program
import LittleMan.Proofs.Assembly.Labels

/-! What a source text means, line by line: the faults that it may have in either pass, and the words
and the table that it stands for. Nothing here goes through the lines in order. -/
namespace LittleMan.Assembly

open Source

variable {fault : Nat → Error → Prop} {e e' : Error}

/-- `e` is wrong with some line, and nothing is wrong with the lines before. -/
def Leftmost (fault : Nat → Error → Prop) (e : Error) : Prop :=
  ∃ i, fault i e ∧ ∀ k < i, ∀ e', ¬fault k e'

def Clean (fault : Nat → Error → Prop) : Prop := ∀ i e, ¬fault i e

theorem Leftmost.not_clean (h : Leftmost fault e) : ¬Clean fault := by
  obtain ⟨i, hi, -⟩ := h
  exact fun hc => hc i e hi

/-- The leftmost fault is one and the same, if a line on its own cannot have two. -/
theorem Leftmost.unique
    (hf : ∀ i e e', fault i e → fault i e' → (∀ k < i, ∀ e, ¬fault k e) → e = e')
    (h : Leftmost fault e) (h' : Leftmost fault e') : e = e' := by
  obtain ⟨i, hi, hb⟩ := h
  obtain ⟨j, hj, hb'⟩ := h'
  have hij : i = j := by
    rcases Nat.lt_trichotomy i j with hlt | heq | hgt
    · exact absurd hi (hb' i hlt e)
    · exact heq
    · exact absurd hj (hb j hgt e')
  subst hij
  exact hf i e e' hi hj hb

/-- The label of a line has been the label of an earlier one. -/
structure Repeats (L : List Statement) (i : Nat) (label first : Lexeme) : Prop where
  here : labelAt L i = some label
  earlier : ∃ j < i, labelAt L j = some first
  text : first.text = label.text

/-- What the first pass finds wrong with a line. A repeated label is worse than a line too many. -/
inductive DraftFault (L : List Statement) (i : Nat) : Error → Prop
  | duplicateLabel {label first : Lexeme} (h : Repeats L i label first) :
      DraftFault L i (.duplicateLabel label.text (some first.span) label.span)
  | programTooLong {s : Statement} (hs : L[i]? = some s) (hi : i = 100)
      (hn : ∀ label first, ¬Repeats L i label first) : DraftFault L i (.programTooLong s.span)

/-- The values of operands. Labels may stand on any line. -/
inductive OperandValue (L : List Statement) : Option Lexeme → Int → Prop
  | missing : OperandValue L none 0
  | literal {operand : Lexeme} {v : Int} (h : Decimal.literal? operand.text = some v) :
      OperandValue L (some operand) v
  | label {operand label : Lexeme} {j : Nat} (h : Decimal.literal? operand.text = none)
      (hl : labelAt L j = some label) (he : label.text = stripColon operand.text) :
      OperandValue L (some operand) j

/-- A word that is neither a literal nor, but for a colon, a label of any line. -/
structure UndefinedOperand (L : List Statement) (operand : Lexeme) : Prop where
  literal : Decimal.literal? operand.text = none
  label : ∀ j label, labelAt L j = some label → label.text ≠ stripColon operand.text

/-- Words that name a mnemonic, in letters of any case. -/
def Names (s : Statement) (word : Lexeme) (m : Mnemonic) : Prop :=
  s.mnemonic = some word ∧ Mnemonic.ofName? word.text = some m

/-- The mnemonics that take an address, with the words that addresses are added to. -/
def bases : List (Mnemonic × Nat) :=
  [(.add, 100), (.subtract, 200), (.store, 300), (.load, 500), (.branch, 600), (.branchZero, 700),
   (.branchPositive, 800)]

theorem mem_bases {m : Mnemonic} {b : Nat} : (m, b) ∈ bases ↔ m.takesAddress ∧ b = m.base := by
  cases m <;> simp [bases, Mnemonic.takesAddress, Mnemonic.base]

/-- The words that lines stand for. -/
inductive WordOf (L : List Statement) (s : Statement) : Nat → Prop
  | labelOnly (h : s.mnemonic = none) : WordOf L s 0
  | data {word : Lexeme} {v : Int} (h : Names s word .data) (hv : OperandValue L s.operand v) :
      WordOf L s (v % 1000).toNat
  | address {word : Lexeme} {m : Mnemonic} {b a : Nat} (h : Names s word m) (hb : (m, b) ∈ bases)
      (hv : OperandValue L s.operand a) (ha : a ≤ 99) : WordOf L s (b + a)
  | input {word : Lexeme} (h : Names s word .input) : WordOf L s 901
  | output {word : Lexeme} (h : Names s word .output) : WordOf L s 902
  | halt {word : Lexeme} (h : Names s word .halt) : WordOf L s 0

/-- What the second pass finds wrong with a line. -/
inductive EncodeFault (L : List Statement) (i : Nat) : Error → Prop
  | unknownMnemonic {s : Statement} {word : Lexeme} (hs : L[i]? = some s)
      (hw : s.mnemonic = some word) (hn : Mnemonic.ofName? word.text = none) :
      EncodeFault L i (.unknownMnemonic word.text word.span)
  | undefinedLabel {s : Statement} {word operand : Lexeme} {m : Mnemonic} (hs : L[i]? = some s)
      (h : Names s word m) (hm : m = .data ∨ m.takesAddress) (ho : s.operand = some operand)
      (hu : UndefinedOperand L operand) :
      EncodeFault L i (.undefinedLabel operand.text operand.span)
  | addressOutOfRange {s : Statement} {word : Lexeme} {m : Mnemonic} {v : Int} (hs : L[i]? = some s)
      (h : Names s word m) (hm : m.takesAddress) (hv : OperandValue L s.operand v)
      (hr : ¬(0 ≤ v ∧ v ≤ 99)) :
      EncodeFault L i (.addressOutOfRange v ((s.operand.map (·.span)).getD word.span))

/-- The error that a text is rejected with. The second pass only looks at what the first one has let
through. -/
def Rejected (L : List Statement) (e : Error) : Prop :=
  Leftmost (DraftFault L) e ∨ (Clean (DraftFault L) ∧ Leftmost (EncodeFault L) e)

/-- The program that a text stands for: a word for every line, and every label at its line. -/
structure Accepted (L : List Statement) (p : Program) : Prop where
  draft : Clean (DraftFault L)
  encode : Clean (EncodeFault L)
  length : p.words.length = L.length
  word : ∀ (i : Nat) s w, L[i]? = some s → p.words[i]? = some w → WordOf L s w
  symbols : p.symbols.entries = definitions L
  spans : p.spans = L.map (·.span)

end LittleMan.Assembly
