import LittleMan.Proofs.Assembly.Outcome
import LittleMan.Proofs.Source.Statements

/-! Names of labels. The first word of a line is looked at with its colon, but entered without, so
that literals and mnemonics can be labels, though only where a colon follows. -/
namespace LittleMan

namespace Decimal

/-- A literal ends with a digit. -/
theorem isLiteral_colon (name : String) : isLiteral (name ++ ":") = false := by
  have hl : (name ++ ":").toList = name.toList ++ [':'] := String.toList_append
  have hmem : ':' ∈ dropSign (name.toList ++ [':']) := by
    cases name.toList with
    | nil => decide
    | cons c cs =>
      rw [List.cons_append, dropSign]
      split <;> simp
  unfold isLiteral
  rw [hl, Bool.and_eq_false_iff]
  right
  rw [List.all_eq_false]
  exact ⟨':', hmem, by decide⟩

end Decimal

namespace Mnemonic

/-- No mnemonic ends with a colon. -/
theorem ofName?_colon (name : String) : ofName? (name ++ ":") = none := by
  have hl : (name ++ ":").toList = name.toList ++ [':'] := String.toList_append
  have hlast : ∀ m : Mnemonic, (m.name.toList.map Char.toUpper).getLast? ≠ some ':' := by
    intro m
    cases m <;> decide
  unfold ofName?
  rw [List.find?_eq_none]
  intro m _ hsame
  unfold Text.sameLetters at hsame
  rw [beq_iff_eq, hl, List.map_append] at hsame
  apply hlast m
  rw [hsame, List.map_singleton, List.getLast?_concat]
  rfl

end Mnemonic

namespace Assembly

open Source

variable {src name : String} {label : Lexeme} {i : Nat}

/-- Names that would be taken for something else where a line begins, or for nothing. -/
inductive Reserved : String → Prop
  | empty : Reserved ""
  | literal {name : String} (h : Decimal.isLiteral name = true) : Reserved name
  | mnemonic {name : String} {m : Mnemonic} (h : Mnemonic.ofName? name = some m) : Reserved name

/-- After the lines that come first, the next one enters its label, if it has one, and the table has
the name with the address. -/
def Enters (src name : String) (address : Nat) : Prop :=
  ∃ k d s t, Draft.empty.addAll ((statements src).take k) = .ok d ∧ (statements src)[k]? = some s ∧
    d.bind s = .ok t ∧ (name, address) ∈ t.entries

/-- The line at the address begins with the name, which is not reserved unless a colon follows it
there. -/
def NamedAt (src name : String) (address : Nat) : Prop :=
  ∃ l, (lines src)[address]? = some l ∧ isLabel l.first.text = true ∧ Spells l.first.text name ∧
    (Reserved name → l.first.text = name ++ ":")

theorem Reserved.not_isLabel (h : Reserved name) (hne : name ≠ "") : isLabel name = false := by
  unfold isLabel
  cases h with
  | empty => contradiction
  | literal h =>
    rw [h]
    rfl
  | mnemonic h =>
    rw [h]
    exact Bool.and_false _

theorem namedAt_of_labelAt (h : labelAt (statements src) i = some label) :
    NamedAt src label.text i := by
  obtain ⟨l, hl, hlabel⟩ := exists_line_of_labelAt h
  obtain ⟨hfirst, rfl⟩ := l.label_statement hlabel
  have hcovers := covers_of_mem_words (List.mem_of_getElem? hl) (List.mem_cons_self (a := l.first))
  have hspells : Spells l.first.text (stripColon l.first.text) := spells_stripColon _
  refine ⟨l, hl, hfirst, hspells, ?_⟩
  intro hr
  rcases hspells with hs | hs
  · rw [← hs] at hr
    have hn := hr.not_isLabel hcovers.ne_empty
    rw [hfirst] at hn
    contradiction
  · exact hs

/-- Every table that the first pass goes through has the labels of the lines so far. -/
theorem labelAt_of_enters (h : Enters src name i) :
    ∃ label, labelAt (statements src) i = some label ∧ label.text = name := by
  obtain ⟨k, d, s, t, hd, hs, ht, hn⟩ := h
  obtain ⟨hk, rfl⟩ := List.getElem?_eq_some_iff.mp hs
  have hnext : (statements src).take k ++ [(statements src)[k]] = (statements src).take (k + 1) :=
    List.take_append_getElem hk
  rcases addAll_draftOf clean_nil ((statements src).take k) with ⟨e, he, -⟩ | ⟨hdraft, hclean⟩
  · rw [show draftOf [] = Draft.empty from rfl, hd] at he
    contradiction
  · rw [show draftOf [] = Draft.empty from rfl, hd] at hdraft
    obtain rfl := Except.ok.inj hdraft
    rw [List.nil_append] at ht hclean
    have hentries : t = tableOf ((statements src).take (k + 1)) := by
      by_cases hr : ∃ label first, Repeats ((statements src).take k ++ [(statements src)[k]])
          ((statements src).take k).length label first
      · obtain ⟨label, first, hr⟩ := hr
        rw [bind_of_repeats hclean hr] at ht
        contradiction
      · rw [bind_of_not_repeats fun label first h => hr ⟨label, first, h⟩, hnext] at ht
        exact (Except.ok.inj ht).symm
    rw [hentries] at hn
    obtain ⟨label, hlabel, hname⟩ := mem_definitions.mp hn
    refine ⟨label, ?_, hname⟩
    rw [← List.take_append_drop (k + 1) (statements src),
      labelAt_append_left (lt_length_of_labelAt hlabel)]
    exact hlabel

/-- Nothing keeps the label of the first line out of the table. -/
theorem enters_first {s : Statement} (hs : (statements src)[0]? = some s)
    (hl : s.label = some label) : Enters src label.text 0 := by
  refine ⟨0, .empty, s, ⟨[(label.text, 0)]⟩, rfl, hs, ?_, List.mem_cons_self⟩
  rw [Draft.bind, hl]
  rfl

theorem isLabel_colon (name : String) : isLabel (name ++ ":") = true := by
  rw [isLabel, Decimal.isLiteral_colon, Mnemonic.ofName?_colon]
  rfl

/-- Labels are named as the lines that they stand for begin. Their names are not reserved unless the
lines have them with a colon, and in front of a colon every name can be a label. This holds of all
tables that the first pass goes through, and of the table of a program. -/
theorem label_names (src : String) :
    (∀ name address, Enters src name address → NamedAt src name address) ∧
    (∀ p, Program.assemble src = .ok p →
      ∀ name address, (name, address) ∈ p.symbols.entries → NamedAt src name address) ∧
    ∀ name, isLabel (name ++ ":") = true := by
  refine ⟨?_, ?_, isLabel_colon⟩
  · intro name address h
    obtain ⟨label, hlabel, rfl⟩ := labelAt_of_enters h
    exact namedAt_of_labelAt hlabel
  · intro p hp name address h
    rw [(accepted_of_assemble hp).symbols] at h
    obtain ⟨label, hlabel, rfl⟩ := mem_definitions.mp h
    exact namedAt_of_labelAt hlabel

/-- A mnemonic, a literal and no name at all, each of them entered as a label. -/
theorem label_names_colon :
    (Enters "DAT: HLT" "DAT" 0 ∧ Reserved "DAT") ∧ (Enters "5: HLT" "5" 0 ∧ Reserved "5") ∧
      Enters ": HLT" "" 0 ∧ Reserved "" := by
  have hdata : (statements "DAT: HLT")[0]? =
      some ⟨some ⟨"DAT", ⟨0, 4⟩⟩, some ⟨"HLT", ⟨5, 3⟩⟩, none, ⟨0, 8⟩⟩ := by decide +kernel
  have hfive : (statements "5: HLT")[0]? =
      some ⟨some ⟨"5", ⟨0, 2⟩⟩, some ⟨"HLT", ⟨3, 3⟩⟩, none, ⟨0, 6⟩⟩ := by decide +kernel
  have hempty : (statements ": HLT")[0]? =
      some ⟨some ⟨"", ⟨0, 1⟩⟩, some ⟨"HLT", ⟨2, 3⟩⟩, none, ⟨0, 5⟩⟩ := by decide +kernel
  refine ⟨⟨enters_first hdata rfl, ?_⟩, ⟨enters_first hfive rfl, ?_⟩, enters_first hempty rfl, ?_⟩
  · exact .mnemonic (Mnemonic.ofName?_name .data)
  · exact .literal (by decide)
  · exact .empty

end Assembly

end LittleMan
