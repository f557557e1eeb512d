import LittleMan.Proofs.Assembly.Respelling
import LittleMan.Proofs.Source.Lexing
import LittleMan.Proofs.Source.Rows

/-! Labels may be called anything: a source text in which they are renamed one to one is assembled
into the same words, or has the same fault on the same line. -/
namespace LittleMan

namespace Source

/-- What the next word of a line will be. -/
inductive Slot
  | first
  | mnemonic
  | operand
  | ignored

namespace Slot

def next : Slot → String → Slot
  | first, w => if isLabel w then mnemonic else operand
  | mnemonic, _ => operand
  | operand, _ | ignored, _ => ignored

/-- The name that a word stands for, if it stands for one. -/
def name? : Slot → String → Option String
  | first, w => if isLabel w then some (stripColon w) else none
  | operand, w => if Decimal.isLiteral w then none else some (stripColon w)
  | mnemonic, _ | ignored, _ => none

def renamed (r : String → String) (slot : Slot) (w : String) : String :=
  ((slot.name? w).map r).getD w

end Slot

section

variable (r : String → String)

/-- Tokens with names replaced, still at their old places. -/
def renamedTokens : Slot → List Token → List Token
  | _, [] => []
  | slot, t :: ts =>
    match t.kind with
    | .word => { t with text := slot.renamed r t.text } :: renamedTokens (slot.next t.text) ts
    | .newline => t :: renamedTokens .first ts
    | .comment | .blank => t :: renamedTokens slot ts

/-- The text with the name of every label and every operand replaced, colons included, and all else
left as it is. -/
def renamed (src : String) : String :=
  String.ofList (characters (renamedTokens r .first (tokens src)))

/-- Words of a line with names replaced, still at their old places. -/
def renamedWords : Slot → List Lexeme → List Lexeme
  | _, [] => []
  | slot, w :: ws =>
    { w with text := slot.renamed r w.text } :: renamedWords (slot.next w.text) ws

end

/-- A word that can name a label as it stands. -/
structure ProperName (n : String) : Prop where
  plain : PlainWord n
  literal : Decimal.isLiteral n = false
  mnemonic : Mnemonic.ofName? n = none
  colon : n.toList.getLast? ≠ some ':'

variable {n : String} {r : String → String} {slot : Slot} {ts : List Token} {t : Token}

theorem ProperName.isLabel (h : ProperName n) : isLabel n = true := by
  unfold Source.isLabel
  rw [h.literal, h.mnemonic]
  rfl

theorem ProperName.stripColon (h : ProperName n) : stripColon n = n := if_neg h.colon

theorem ProperName.literal? (h : ProperName n) : Decimal.literal? n = none := by
  unfold Decimal.literal?
  rw [h.literal]
  rfl

/-- The names that words stand for. -/
def namesFrom : Slot → List Lexeme → List String
  | _, [] => []
  | slot, w :: ws => (slot.name? w.text).toList ++ namesFrom (slot.next w.text) ws

/-- Rows of words, the first of which has begun already. -/
def renamedRows (r : String → String) (slot : Slot) : List (List Lexeme) → List (List Lexeme)
  | [] => []
  | row :: rows => renamedWords r slot row :: rows.map (renamedWords r .first)

def namesInRows (slot : Slot) : List (List Lexeme) → List String
  | [] => []
  | row :: rows => namesFrom slot row ++ rows.flatMap (namesFrom .first)

theorem renamedRows_first (r : String → String) (rows : List (List Lexeme)) :
    renamedRows r .first rows = rows.map (renamedWords r .first) := by
  cases rows <;> rfl

theorem namesInRows_first (rows : List (List Lexeme)) :
    namesInRows .first rows = rows.flatMap (namesFrom .first) := by
  cases rows <;> rfl

theorem renamedRows_consFirst (r : String → String) (slot : Slot) (w : Lexeme)
    (rows : List (List Lexeme)) :
    renamedRows r slot (Text.consFirst w rows) =
      Text.consFirst { w with text := slot.renamed r w.text }
        (renamedRows r (slot.next w.text) rows) := by
  cases rows <;> rfl

theorem namesInRows_consFirst (slot : Slot) (w : Lexeme) (rows : List (List Lexeme)) :
    namesInRows slot (Text.consFirst w rows) =
      (slot.name? w.text).toList ++ namesInRows (slot.next w.text) rows := by
  cases rows with
  | nil => exact List.append_nil _
  | cons row rows => exact List.append_assoc _ _ _

theorem wordRows_renamedTokens (r : String → String) (slot : Slot) (ts : List Token) :
    wordRows (renamedTokens r slot ts) = renamedRows r slot (wordRows ts) := by
  induction ts generalizing slot with
  | nil => rfl
  | cons t ts ih =>
    rw [renamedTokens, wordRows]
    cases hk : t.kind with
    | word =>
      dsimp only
      rw [wordRows, renamedRows_consFirst, ih]
    | newline =>
      dsimp only
      rw [wordRows, hk, ih, renamedRows_first]
      rfl
    | comment | blank =>
      dsimp only
      rw [wordRows, hk, ih]

theorem rel_renamedTokens (r : String → String) (slot : Slot) (ts : List Token) :
    List.Forall₂ (fun t u => u.kind = t.kind ∧ u.span = t.span) ts (renamedTokens r slot ts) := by
  induction ts generalizing slot with
  | nil => exact .nil
  | cons t ts ih =>
    rw [renamedTokens]
    cases hk : t.kind with
    | word => exact .cons ⟨hk.symm, rfl⟩ (ih _)
    | newline => exact .cons ⟨rfl, rfl⟩ (ih _)
    | comment | blank => exact .cons ⟨rfl, rfl⟩ (ih _)

theorem kinds_eq_of_rel {us : List Token} {S : Token → Token → Prop}
    (h : List.Forall₂ (fun t u => u.kind = t.kind ∧ S t u) ts us) :
    us.map (·.kind) = ts.map (·.kind) := by
  induction h with
  | nil => rfl
  | cons h _ ih => rw [List.map_cons, List.map_cons, ih, h.1]

theorem whole_word {t : Token} (hk : t.kind = .word) (h : PlainWord t.text) : t.Whole := by
  have hn : t.text.toList ≠ [] := by
    intro hnil
    exact h.ne_empty (String.toList_eq_nil_iff.mp hnil)
  obtain ⟨c, cs, hcs⟩ := List.exists_cons_of_ne_nil hn
  have hplain := h.plain
  rw [hcs] at hplain
  refine ⟨c, cs, hcs, ?_, ?_⟩
  · obtain ⟨hb, hs⟩ := hplain c List.mem_cons_self
    have hnl : c ≠ '\n' := by
      rintro rfl
      contradiction
    rw [hk, TokenKind.ofFirst, if_neg hs, if_neg hnl, hb]
    rfl
  · intro a ha
    obtain ⟨hb, hs⟩ := hplain a (List.mem_cons_of_mem c ha)
    rw [hk]
    simp [TokenKind.extendsOver, hb, hs]

/-- Names are replaced by whole words. -/
theorem whole_renamedTokens (hw : ∀ t ∈ ts, t.Whole)
    (hr : ∀ n ∈ namesInRows slot (wordRows ts), PlainWord (r n)) :
    ∀ t ∈ renamedTokens r slot ts, t.Whole := by
  induction ts generalizing slot with
  | nil => exact hw
  | cons t ts ih =>
    have ht : t.Whole := hw t List.mem_cons_self
    have hts : ∀ u ∈ ts, u.Whole := fun u hu => hw u (List.mem_cons_of_mem t hu)
    rw [wordRows] at hr
    rw [renamedTokens]
    cases hk : t.kind with
    | word =>
      rw [hk] at hr
      dsimp only at hr ⊢
      rw [namesInRows_consFirst] at hr
      intro u hu
      rcases List.mem_cons.mp hu with rfl | hu
      · cases hn : slot.name? t.text with
        | none =>
          have hs : slot.renamed r t.text = t.text := by rw [Slot.renamed, hn]; rfl
          rw [hs, ← hk]
          exact ht
        | some n =>
          have hs : slot.renamed r t.text = r n := by rw [Slot.renamed, hn]; rfl
          apply whole_word rfl
          dsimp only
          rw [hs]
          exact hr n (List.mem_append_left _ (by rw [hn]; exact List.mem_cons_self))
      · exact ih hts (fun n hn => hr n (List.mem_append_right _ hn)) u hu
    | newline =>
      rw [hk] at hr
      have hr' : ∀ n ∈ namesInRows .first (wordRows ts), PlainWord (r n) := by
        rw [namesInRows_first]
        exact hr
      intro u hu
      rcases List.mem_cons.mp hu with rfl | hu
      · exact ht
      · exact ih hts hr' u hu
    | comment | blank =>
      rw [hk] at hr
      intro u hu
      rcases List.mem_cons.mp hu with rfl | hu
      · exact ht
      · exact ih hts hr u hu

/-- The text in which names are replaced is taken apart into the same tokens, on the same lines, but
for the names. -/
theorem rel_tokens_renamed {src : String}
    (hr : ∀ n ∈ (wordRows (tokens src)).flatMap (namesFrom .first), PlainWord (r n)) :
    List.Forall₂ (fun t u => u.kind = t.kind ∧
        u.text = t.text ∧ SameLine src (renamed r src) t.span u.span)
      (renamedTokens r .first (tokens src)) (tokens (renamed r src)) := by
  have hspans := rel_renamedTokens r .first (tokens src)
  have hkinds := kinds_eq_of_rel hspans
  have hwhole : ∀ t ∈ renamedTokens r .first (tokens src), t.Whole := by
    apply whole_renamedTokens (fun t ht => whole_of_mem_tokensFrom ht)
    rw [namesInRows_first]
    exact hr
  have hl : (renamed r src).toList = characters (renamedTokens r .first (tokens src)) :=
    String.toList_ofList
  have hrel := tokensFrom_characters hwhole ((apart_tokensFrom 0 src.toList).congr hkinds) 0
  rw [← hl] at hrel
  change List.Forall₂ _ _ (tokens (renamed r src)) at hrel
  have hsame : (tokens src).map (·.kind) = (tokens (renamed r src)).map (·.kind) := by
    rw [kinds_eq_of_rel hrel, hkinds]
  rw [List.forall₂_iff_get] at hrel ⊢
  refine ⟨hrel.1, fun i h h' => ⟨(hrel.2 i h h').1, (hrel.2 i h h').2, ?_⟩⟩
  have hi : i < (tokens src).length := by
    rw [hspans.length_eq]
    exact h
  have hspan := (hspans.get hi h).2
  rw [hspan]
  exact sameLine_of_kinds hsame (List.getElem?_eq_getElem hi) (List.getElem?_eq_getElem h')

end Source

namespace Assembly

open Source

variable {r : String → String} {place : Span → Span → Prop} {l l' : Line} {src : String}

/-- Labels and operands under their new names. Literals stay as they are. -/
def Respelling.ofNames (r : String → String) : Respelling := ⟨r, Slot.operand.renamed r⟩

theorem namesFrom_ignored (ws : List Lexeme) : namesFrom .ignored ws = [] := by
  induction ws with
  | nil => rfl
  | cons w ws ih => exact ih

theorem namesFrom_operand (ws : List Lexeme) :
    namesFrom .operand ws =
      ((ws[0]?.map (·.text)).filter (Decimal.literal? · = none)).toList.map stripColon := by
  cases ws with
  | nil => rfl
  | cons w ws =>
    have hl : Decimal.literal? w.text = none ↔ Decimal.isLiteral w.text = false := by
      simp [Decimal.literal?]
    have hw : namesFrom .operand (w :: ws) = (Slot.operand.name? w.text).toList := by
      rw [namesFrom, Slot.next, namesFrom_ignored, List.append_nil]
    rw [hw, Slot.name?]
    cases h : Decimal.isLiteral w.text <;> simp [Option.filter, hl, h]

theorem namesFrom_mnemonic (ws : List Lexeme) :
    namesFrom .mnemonic ws =
      ((ws[1]?.map (·.text)).filter (Decimal.literal? · = none)).toList.map stripColon := by
  cases ws with
  | nil => rfl
  | cons w ws => exact namesFrom_operand ws

theorem namesFrom_words (l : Line) : namesFrom .first l.words = namesOf l.statement := by
  obtain ⟨first, rest⟩ := l
  rw [Line.words, namesFrom, Slot.name?, Slot.next, Line.statement]
  by_cases h : isLabel first.text = true
  · simp only [if_pos h]
    rw [namesFrom_mnemonic]
    rfl
  · simp only [if_neg h]
    rw [namesFrom_operand]
    rfl

theorem namesFrom_wordRows (src : String) :
    (wordRows (tokens src)).flatMap (namesFrom .first) = (statements src).flatMap namesOf := by
  unfold statements lines
  induction wordRows (tokens src) with
  | nil => rfl
  | cons row rows ih =>
    cases row with
    | nil => exact ih
    | cons w ws =>
      have hw : namesFrom .first (w :: ws) = namesOf (Line.mk w ws).statement :=
        namesFrom_words ⟨w, ws⟩
      rw [List.flatMap_cons, ih, hw]
      rfl

theorem rel_getLast {α β : Type} {R : α → β → Prop} {a : α} {b : β} {as : List α} {bs : List β}
    (h : R a b) (hs : List.Forall₂ R as bs) :
    R ((a :: as).getLast (List.cons_ne_nil a as)) ((b :: bs).getLast (List.cons_ne_nil b bs)) := by
  induction hs generalizing a b with
  | nil => exact h
  | cons h' _ ih =>
    rw [List.getLast_cons_cons, List.getLast_cons_cons]
    exact ih h'

theorem spans_of_renamedWords {slot : Slot} {ws ws' : List Lexeme}
    (h : List.Forall₂ (Respelled id place) (renamedWords r slot ws) ws') :
    List.Forall₂ (fun a b => place a.span b.span) ws ws' := by
  induction ws generalizing slot ws' with
  | nil =>
    cases h
    exact .nil
  | cons w ws ih =>
    cases h with
    | cons hw h => exact .cons hw.2 (ih h)

theorem rel_operand {ws ws' : List Lexeme}
    (h : List.Forall₂ (Respelled id place) (renamedWords r .operand ws) ws') :
    Option.Rel (Respelled (Slot.operand.renamed r) place) ws[0]? ws'[0]? := by
  cases ws with
  | nil =>
    cases h
    exact .none
  | cons w ws =>
    cases h with
    | cons hw h => exact .some hw

theorem rel_mnemonic {ws ws' : List Lexeme}
    (h : List.Forall₂ (Respelled id place) (renamedWords r .mnemonic ws) ws') :
    Option.Rel (Respelled id place) ws[0]? ws'[0]? ∧
      Option.Rel (Respelled (Slot.operand.renamed r) place) ws[1]? ws'[1]? := by
  cases ws with
  | nil =>
    cases h
    exact ⟨.none, .none⟩
  | cons w ws =>
    cases h with
    | cons hw h => exact ⟨.some hw, rel_operand h⟩

/-- Lines with the same words but for the names hold the same statement but for the names. -/
theorem alike_statement
    (hj : ∀ {a a' b b'}, place a a' → place b b' → place (a.join b) (a'.join b'))
    (hr : ∀ n ∈ namesFrom .first l.words, ProperName (r n))
    (h : List.Forall₂ (Respelled id place) (renamedWords r .first l.words) l'.words) :
    Alike (.ofNames r) place l.statement l'.statement := by
  have hspans := spans_of_renamedWords h
  obtain ⟨first, rest⟩ := l
  obtain ⟨first', rest'⟩ := l'
  have hspan : place (Line.mk first rest).span (Line.mk first' rest').span := by
    obtain ⟨hfirst, hrest⟩ := List.forall₂_cons.mp hspans
    exact hj hfirst (rel_getLast (R := fun a b : Lexeme => place a.span b.span) hfirst hrest)
  obtain ⟨⟨htext, hfirst⟩, hrest⟩ := List.forall₂_cons.mp h
  change first'.text = Slot.first.renamed r first.text at htext
  change place first.span first'.span at hfirst
  unfold Line.statement
  by_cases hl : isLabel first.text = true
  · have hn : Slot.first.name? first.text = some (stripColon first.text) := if_pos hl
    have hp : ProperName (r (stripColon first.text)) := by
      apply hr
      rw [Line.words, namesFrom, hn]
      exact List.mem_cons_self
    have hnext : Slot.first.next first.text = .mnemonic := if_pos hl
    rw [Slot.renamed, hn] at htext
    change first'.text = r (stripColon first.text) at htext
    rw [hnext] at hrest
    obtain ⟨hm, ho⟩ := rel_mnemonic hrest
    rw [if_pos hl, if_pos (by rw [htext]; exact hp.isLabel)]
    exact ⟨.some ⟨by dsimp only; rw [htext]; exact hp.stripColon, hfirst⟩, hm, ho, hspan⟩
  · have hn : Slot.first.name? first.text = none := if_neg hl
    have hnext : Slot.first.next first.text = .operand := if_neg hl
    rw [Slot.renamed, hn] at htext
    change first'.text = first.text at htext
    rw [hnext] at hrest
    rw [if_neg hl, if_neg (by rw [htext]; exact hl)]
    exact ⟨.none, .some ⟨htext, hfirst⟩, rel_operand hrest, hspan⟩

/-- New names for those in a text: different names for different ones, and such as may stand
there. -/
structure Renaming (r : String → String) (src : String) : Prop where
  proper : ∀ n ∈ (statements src).flatMap namesOf, ProperName (r n)
  injective : ∀ a ∈ (statements src).flatMap namesOf, ∀ b ∈ (statements src).flatMap namesOf,
    r a = r b → a = b

theorem Renaming.keeps (h : Renaming r src) : (Respelling.ofNames r).Keeps (statements src) := by
  have hcases : ∀ s ∈ statements src, ∀ o ∈ s.operand,
      (Slot.operand.renamed r o.text = o.text ∧ Decimal.literal? o.text ≠ none) ∨
        (Slot.operand.renamed r o.text = r (stripColon o.text) ∧
          Decimal.literal? o.text = none ∧ ProperName (r (stripColon o.text))) := by
    intro s hs o ho
    by_cases hl : Decimal.isLiteral o.text = true
    · have hn : Slot.operand.name? o.text = none := if_pos hl
      refine .inl ⟨by rw [Slot.renamed, hn]; rfl, ?_⟩
      simp [Decimal.literal?, hl]
    · have hn : Slot.operand.name? o.text = some (stripColon o.text) := if_neg hl
      have hl' : Decimal.literal? o.text = none := if_neg hl
      exact .inr ⟨by rw [Slot.renamed, hn]; rfl, hl', h.proper _ (mem_names_of_operand hs ho hl')⟩
  refine ⟨?_, ?_, h.injective⟩
  · intro s hs o ho
    change Decimal.literal? (Slot.operand.renamed r o.text) = _
    rcases hcases s hs o ho with ⟨ht, -⟩ | ⟨ht, hn, hp⟩
    · rw [ht]
    · rw [ht, hn]
      exact hp.literal?
  · intro s hs o ho hn
    change stripColon (Slot.operand.renamed r o.text) = r (stripColon o.text)
    rcases hcases s hs o ho with ⟨-, hl⟩ | ⟨ht, -, hp⟩
    · exact absurd hn hl
    · rw [ht]
      exact hp.stripColon

theorem rel_ofWords? {row row' : List Lexeme}
    (h : List.Forall₂ (Respelled id place) (renamedWords r .first row) row') :
    Option.Rel
      (fun l l' => List.Forall₂ (Respelled id place) (renamedWords r .first l.words) l'.words)
      (Line.ofWords? row) (Line.ofWords? row') := by
  cases row with
  | nil =>
    cases h
    exact .none
  | cons w ws =>
    cases row' with
    | nil => contradiction
    | cons w' ws' => exact .some h

theorem rel_statements_renamed (h : Renaming r src) :
    List.Forall₂ (Alike (.ofNames r) (SameLine src (renamed r src))) (statements src)
      (statements (renamed r src)) := by
  have hnames : ∀ n ∈ (wordRows (tokens src)).flatMap (namesFrom .first), ProperName (r n) := by
    rw [namesFrom_wordRows]
    exact h.proper
  have htokens := rel_tokens_renamed fun n hn => (hnames n hn).plain
  have hrows := rel_wordRows (R := Respelled id (SameLine src (renamed r src))) htokens
  rw [wordRows_renamedTokens, renamedRows_first, List.forall₂_map_left_iff] at hrows
  have hlines : List.Forall₂ _ (lines src) (lines (renamed r src)) :=
    List.rel_filterMap (fun _ _ h => rel_ofWords? h) hrows
  have hproper : ∀ l ∈ lines src, ∀ n ∈ namesFrom .first l.words, ProperName (r n) := by
    intro l hl n hn
    rw [namesFrom_words] at hn
    exact h.proper n (List.mem_flatMap.mpr ⟨l.statement, List.mem_map_of_mem hl, hn⟩)
  have hboth := (List.forall₂_and_left _ _).mpr ⟨hproper, hlines⟩
  exact List.rel_map (fun _ _ hl => alike_statement SameLine.join hl.1 hl.2) hboth

/-- A text and the one in which its names are replaced are assembled into the same words, with every
label at the same address under its new name and in the same order, or the same is wrong with them
on the same lines. -/
theorem assemble_renamed (h : Renaming r src) :
    Agree (AlikeError (.ofNames r) (SameLine src (renamed r src)))
      (fun p p' => p'.words = p.words ∧
        p'.symbols.entries = p.symbols.entries.map fun d => (r d.1, d.2))
      (Program.assemble src) (Program.assemble (renamed r src)) :=
  agree_of_alike (rel_statements_renamed h) h.keeps

/-- Its labels are called like a number and like a mnemonic. -/
def misleading : String := "5: LDA x:\nBRA ADD:\nADD: OUT\nx DAT 5 ; x"

theorem assemble_renamed_misleading :
    renamed ("_" ++ ·) misleading = "_5 LDA _x\nBRA _ADD\n_ADD OUT\n_x DAT 5 ; x" ∧
      Agree (AlikeError (.ofNames ("_" ++ ·))
          (SameLine misleading (renamed ("_" ++ ·) misleading)))
        (fun p p' => p'.words = p.words ∧
          p'.symbols.entries = p.symbols.entries.map fun d => ("_" ++ d.1, d.2))
        (Program.assemble misleading) (Program.assemble (renamed ("_" ++ ·) misleading)) := by
  have hnames : (statements misleading).flatMap namesOf = ["5", "x", "ADD", "ADD", "x"] := by
    decide +kernel
  have hproper : ∀ n ∈ ["5", "x", "ADD", "ADD", "x"], ProperName ("_" ++ n) := by
    simp only [List.mem_cons, List.not_mem_nil, or_false]
    rintro n (rfl | rfl | rfl | rfl | rfl) <;>
      exact ⟨by decide, by decide, by decide, by decide⟩
  refine ⟨by decide +kernel, assemble_renamed ⟨?_, ?_⟩⟩
  · rw [hnames]
    exact hproper
  · rw [hnames]
    decide

end Assembly

end LittleMan
