import LittleMan.Proofs.Assembly.Respelling
import LittleMan.Proofs.Source.LineSpans
import LittleMan.Proofs.Source.Statements

/-! Layout: how a text is laid out does not matter, only the words on its lines of code. The spans of
a program are all that is needed of its text. -/
namespace LittleMan.Assembly

open Source

variable {src src' : String} {l l' : Line} {e e' : Error} {p q : Program}

/-- The same fault, wherever it is in either text. -/
structure SameFault (e e' : Error) : Prop where
  kind : AlikeError ⟨id, id⟩ (fun _ _ => True) e e'
  code : e'.diagnostic.code = e.diagnostic.code
  message : e'.message = e.message

/-- The same program, wherever its lines are. -/
structure SameProgram (p q : Program) : Prop where
  words : q.words = p.words
  symbols : q.symbols = p.symbols

/-- What is wrong is worded without the places in the text. -/
theorem SameFault.of_alike (h : AlikeError ⟨id, id⟩ (fun _ _ => True) e e') : SameFault e e' where
  kind := h
  code := by cases h <;> rfl
  message := by cases h <;> rfl

theorem rel_of_map_eq {α β : Type} {f : α → β} {as bs : List α} (h : bs.map f = as.map f) :
    List.Forall₂ (fun a b => f b = f a) as bs := by
  have heq : List.Forall₂ (fun x y => y = x) (as.map f) (bs.map f) := by
    rw [h]
    exact List.forall₂_same.mpr fun _ _ => rfl
  rwa [List.forall₂_map_left_iff, List.forall₂_map_right_iff] at heq

theorem rel_texts {ws ws' : List Lexeme} (h : ws'.map (·.text) = ws.map (·.text)) (i : Nat) :
    Option.Rel (Respelled id fun _ _ => True) ws[i]? ws'[i]? := by
  apply rel_getElem?
  exact (rel_of_map_eq h).imp fun _ _ ht => ⟨ht, trivial⟩

/-- Lines with the same words hold the same statement. -/
theorem alike_of_texts (h : l'.words.map (·.text) = l.words.map (·.text)) :
    Alike ⟨id, id⟩ (fun _ _ => True) l.statement l'.statement := by
  obtain ⟨first, rest⟩ := l
  obtain ⟨first', rest'⟩ := l'
  have hcons : first'.text :: rest'.map (·.text) = first.text :: rest.map (·.text) := h
  obtain ⟨hfirst, hrest⟩ := List.cons.inj hcons
  have hrel := rel_texts hrest
  unfold Line.statement
  dsimp only
  rw [hfirst]
  by_cases hl : isLabel first.text = true
  · rw [if_pos hl, if_pos hl]
    exact ⟨.some ⟨rfl, trivial⟩, hrel 0, hrel 1, trivial⟩
  · rw [if_neg hl, if_neg hl]
    exact ⟨.none, .some ⟨hfirst, trivial⟩, hrel 0, trivial⟩

theorem rel_statements_of_lineTexts (h : lineTexts src' = lineTexts src) :
    List.Forall₂ (Alike ⟨id, id⟩ fun _ _ => True) (statements src) (statements src') :=
  List.rel_map (fun _ _ hl => alike_of_texts hl) (rel_of_map_eq h)

theorem keeps_id (L : List Statement) : Respelling.Keeps ⟨id, id⟩ L where
  literal := fun _ _ _ _ => rfl
  name := fun _ _ _ _ _ => rfl
  injective := fun _ _ _ _ h => h

theorem Agree.imp {errors errors' : Error → Error → Prop}
    {programs programs' : Program → Program → Prop} {x x' : Except Error Program} (h : Agree errors programs x x')
    (he : ∀ e e', errors e e' → errors' e e') (hp : ∀ p p', programs p p' → programs' p p') :
    Agree errors' programs' x x' := by
  cases x with
  | error e =>
    cases x' with
    | error e' => exact he e e' h
    | ok p' => exact h
  | ok p =>
    cases x' with
    | error e' => exact h
    | ok p' => exact hp p p' h

/-- Texts with the same words on their lines of code become the same program, or the same is wrong
with them. -/
theorem agree_of_lineTexts (h : lineTexts src' = lineTexts src) :
    Agree SameFault SameProgram (Program.assemble src) (Program.assemble src') := by
  have hagree := agree_of_alike (rel_statements_of_lineTexts h) (keeps_id (statements src))
  apply hagree.imp
  · exact fun e e' he => .of_alike he
  · rintro p p' ⟨hw, hs⟩
    refine ⟨hw, ?_⟩
    have hentries : p'.symbols.entries = p.symbols.entries := by simpa using hs
    exact congrArg SymbolTable.mk hentries

theorem spans_of_assemble (h : Program.assemble src = .ok p) :
    p.spans = (lines src).map Line.span := by
  rw [(accepted_of_assemble h).spans, statements, List.map_map]
  exact List.map_congr_left fun l _ => l.span_statement

/-- Every word has a span, and there are no others. -/
theorem isSome_span?_iff (h : Program.assemble src = .ok p) (i : Nat) :
    (p.span? i).isSome = true ↔ i < p.size := by
  have hp := accepted_of_assemble h
  have hlen : p.spans.length = p.size := by
    rw [hp.spans, List.length_map, Program.size, hp.length]
  rw [Program.span?, ← hlen]
  simp

/-- Layout carries no meaning: texts with the same words on their lines of code are assembled into the
same words and symbols, or the same is wrong with them. And spans lose nothing: every word of a
program has one, they lie one behind the other, and what they cover of the text are rows of nothing
but code, which make up a text with the same words on its lines and the same program. -/
theorem assemble_layout (src : String) :
    (∀ src', lineTexts src' = lineTexts src →
      Agree SameFault SameProgram (Program.assemble src) (Program.assemble src')) ∧
    ∀ p, Program.assemble src = .ok p →
      (∀ i, (p.span? i).isSome = true ↔ i < p.size) ∧
      p.spans.Pairwise (fun a b => a.stop < b.offset) ∧
      ∃ rows : List String, p.spans.map (slice? src) = rows.map some ∧ (∀ row ∈ rows, IsCode row) ∧
        lineTexts ("\n".intercalate rows) = lineTexts src ∧
        ∃ q, Program.assemble ("\n".intercalate rows) = .ok q ∧ SameProgram p q ∧
          q.spans.map (slice? ("\n".intercalate rows)) = rows.map some := by
  refine ⟨fun src' h => agree_of_lineTexts h, ?_⟩
  intro p hp
  have hspans := spans_of_assemble hp
  have hcode : ∀ row ∈ codeLines src, IsCode row := fun row hrow => isCode_of_mem_codeLines hrow
  have hsame := codeLines_intercalate hcode
  have htexts : lineTexts ("\n".intercalate (codeLines src)) = lineTexts src := by
    rw [lineTexts_eq_words, hsame, ← lineTexts_eq_words]
  have hagree := agree_of_lineTexts htexts
  rw [hp] at hagree
  refine ⟨isSome_span?_iff hp, ?_, codeLines src, ?_, hcode, htexts, ?_⟩
  · rw [hspans, map_span_lines]
    exact pairwise_codePlaces 0 _
  · rw [hspans, slices_lines]
  · cases hq : Program.assemble ("\n".intercalate (codeLines src)) with
    | error e =>
      rw [hq] at hagree
      exact hagree.elim
    | ok q =>
      rw [hq] at hagree
      refine ⟨q, rfl, hagree, ?_⟩
      rw [spans_of_assemble hq, slices_lines, hsame]

end LittleMan.Assembly
