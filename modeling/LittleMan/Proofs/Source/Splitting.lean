import Mathlib.Data.List.Forall2
import LittleMan.Proofs.Source.LineSpans
import LittleMan.Proofs.Source.Statements
import LittleMan.Proofs.Text.Decimal

/-! Lines of code split into label, mnemonic and operand, said word by word: which words can be
labels, what they name, and what follows them. This leaves no choice, and statements are the
result. -/
namespace LittleMan

namespace Mnemonic

variable {t : String} {m : Mnemonic}

/-- The words for mnemonics, in capital letters. -/
def spellings : List (String × Mnemonic) :=
  [("ADD", .add), ("SUB", .subtract), ("STA", .store), ("LDA", .load), ("BRA", .branch),
   ("BRZ", .branchZero), ("BRP", .branchPositive), ("IN", .input), ("OUT", .output),
   ("HLT", .halt), ("DAT", .data)]

/-- A word that is the one for a mnemonic when its letters are made capitals. -/
def SpelledBy (t : String) (m : Mnemonic) : Prop :=
  ∃ capitals, (capitals, m) ∈ spellings ∧ t.toList.map Char.toUpper = capitals.toList

theorem mem_spellings {capitals : String} : (capitals, m) ∈ spellings ↔ capitals = m.name := by
  cases m <;> simp [spellings, name]

theorem toUpper_name (m : Mnemonic) : m.name.toList.map Char.toUpper = m.name.toList := by
  cases m <;> decide

theorem ofName?_eq_some_iff : ofName? t = some m ↔ SpelledBy t m := by
  constructor
  · intro h
    have hsame := List.find?_some h
    rw [Text.sameLetters, beq_iff_eq, toUpper_name] at hsame
    exact ⟨m.name, mem_spellings.mpr rfl, hsame.symm⟩
  · rintro ⟨capitals, hmem, ht⟩
    obtain rfl := mem_spellings.mp hmem
    have hsame : ∀ s, Text.sameLetters s t = Text.sameLetters s m.name := by
      intro s
      rw [Text.sameLetters, Text.sameLetters, ht, toUpper_name]
    rw [← ofName?_name m]
    unfold ofName?
    simp only [hsame]

end Mnemonic

namespace Source

variable {src t name : String} {l : Line} {ls : List Line} {L L' : List Statement} {s : Statement}
variable {words : List Lexeme} {mnemonic operand : Option Lexeme}

/-- A word that may be a label: it writes no number and spells no mnemonic. -/
structure BeginsLabel (t : String) : Prop where
  number : ∀ v, ¬Decimal.Writes t.toList v
  mnemonic : ∀ m, ¬Mnemonic.SpelledBy t m

theorem isLabel_iff : isLabel t = true ↔ BeginsLabel t := by
  have hnumber : Decimal.isLiteral t = false ↔ ∀ v, ¬Decimal.Writes t.toList v := by
    simp [Decimal.writes_iff]
  have hmnemonic : Mnemonic.ofName? t = none ↔ ∀ m, ¬Mnemonic.SpelledBy t m := by
    simp [Option.eq_none_iff_forall_ne_some, Mnemonic.ofName?_eq_some_iff]
  rw [isLabel, Bool.and_eq_true, Bool.not_eq_true', Option.isNone_iff_eq_none, hnumber, hmnemonic]
  exact ⟨fun h => ⟨h.1, h.2⟩, fun h => ⟨h.number, h.mnemonic⟩⟩

/-- What a word names as a label: itself, but for one colon at its end. -/
inductive NameOf : String → String → Prop
  | colon (name : String) : NameOf (name ++ ":") name
  | bare {name : String} (h : ∀ u, name ≠ u ++ ":") : NameOf name name

theorem nameOf_iff : NameOf t name ↔ stripColon t = name := by
  constructor
  · intro h
    cases h with
    | colon => exact stripColon_append name
    | bare h => exact (stripColon_cases t).resolve_right (h _)
  · rintro rfl
    by_cases h : ∃ u, t = u ++ ":"
    · obtain ⟨u, rfl⟩ := h
      rw [stripColon_append]
      exact .colon u
    · have hbare : ∀ u, t ≠ u ++ ":" := fun u hu => h ⟨u, hu⟩
      rw [(stripColon_cases t).resolve_right (hbare _)]
      exact .bare hbare

/-- A mnemonic and its operand, if they are there, in front of words without a meaning. -/
inductive Instructs : List Lexeme → Option Lexeme → Option Lexeme → Prop
  | nothing : Instructs [] none none
  | mnemonic (m : Lexeme) : Instructs [m] (some m) none
  | operand (m o : Lexeme) (ignored : List Lexeme) : Instructs (m :: o :: ignored) (some m) (some o)

theorem instructs_iff :
    Instructs words mnemonic operand ↔ mnemonic = words[0]? ∧ operand = words[1]? := by
  constructor
  · intro h
    cases h <;> exact ⟨rfl, rfl⟩
  · rintro ⟨rfl, rfl⟩
    match words with
    | [] => exact .nothing
    | [m] => exact .mnemonic m
    | m :: o :: ignored => exact .operand m o ignored

/-- The words of a line as label, mnemonic and operand. Nothing is said of the place of the line. -/
inductive Splits : List Lexeme → Statement → Prop
  | labelled {w : Lexeme} {ws : List Lexeme} {name : String} {mnemonic operand : Option Lexeme}
      {span : Span} (hw : BeginsLabel w.text) (hn : NameOf w.text name)
      (h : Instructs ws mnemonic operand) :
      Splits (w :: ws) ⟨some ⟨name, w.span⟩, mnemonic, operand, span⟩
  | plain {w : Lexeme} {ws : List Lexeme} {mnemonic operand : Option Lexeme} {span : Span}
      (hw : ¬BeginsLabel w.text) (h : Instructs (w :: ws) mnemonic operand) :
      Splits (w :: ws) ⟨none, mnemonic, operand, span⟩

theorem splits_statement (l : Line) : Splits l.words l.statement := by
  unfold Line.statement
  split
  · next h => exact .labelled (isLabel_iff.mp h) (nameOf_iff.mpr rfl) (instructs_iff.mpr ⟨rfl, rfl⟩)
  · next h => exact .plain (mt isLabel_iff.mpr h) (instructs_iff.mpr ⟨rfl, rfl⟩)

/-- But for its place a line is split in one way only. -/
theorem Splits.eq_statement (h : Splits l.words s) (hs : s.span = l.span) : s = l.statement := by
  unfold Line.words at h
  unfold Line.statement
  cases h with
  | labelled hw hn h =>
    obtain rfl : _ = l.span := hs
    obtain ⟨rfl, rfl⟩ := instructs_iff.mp h
    rw [if_pos (isLabel_iff.mpr hw), nameOf_iff.mp hn]
  | plain hw h =>
    obtain rfl : _ = l.span := hs
    obtain ⟨rfl, rfl⟩ := instructs_iff.mp h
    rw [if_neg (mt isLabel_iff.mp hw)]
    rfl

/-- The lines of code in a text, each split into its words. They stand in order, and each takes up
the code of its row. -/
structure SplitInto (src : String) (L : List Statement) : Prop where
  words : List.Forall₂ Splits ((cleaned Prod.snd (placed 0 src.toList)).map (List.map lexemeOf)) L
  places : L.map (·.span) = codePlaces 0 (src.toList.splitOnP (· == '\n'))

theorem eq_map_statement (h : List.Forall₂ Splits (ls.map Line.words) L)
    (hs : L.map (·.span) = ls.map Line.span) : L = ls.map Line.statement := by
  induction ls generalizing L with
  | nil => exact List.forall₂_nil_left_iff.mp h
  | cons l ls ih =>
    obtain ⟨s, L', hsplit, hrest, rfl⟩ := List.forall₂_cons_left_iff.mp h
    obtain ⟨hspan, hspans⟩ := List.cons.inj hs
    rw [hsplit.eq_statement hspan, ih hrest hspans]
    rfl

/-- A text is split into its statements, and into nothing else. -/
theorem splitInto_iff : SplitInto src L ↔ L = statements src := by
  constructor
  · rintro ⟨hwords, hplaces⟩
    rw [← map_words_lines] at hwords
    rw [← map_span_lines] at hplaces
    exact eq_map_statement hwords hplaces
  · rintro rfl
    constructor
    · rw [← map_words_lines, statements, List.forall₂_map_left_iff, List.forall₂_map_right_iff,
        List.forall₂_same]
      exact fun l _ => splits_statement l
    · rw [← map_span_lines, statements, List.map_map]
      exact List.map_congr_left fun l _ => l.span_statement

example : SplitInto "x: lda x: y;z\n7 8"
    [⟨some ⟨"x", ⟨0, 2⟩⟩, some ⟨"lda", ⟨3, 3⟩⟩, some ⟨"x:", ⟨7, 2⟩⟩, ⟨0, 11⟩⟩,
     ⟨none, some ⟨"7", ⟨14, 1⟩⟩, some ⟨"8", ⟨16, 1⟩⟩, ⟨14, 3⟩⟩] :=
  splitInto_iff.mpr (by decide +kernel)

end Source

end LittleMan
