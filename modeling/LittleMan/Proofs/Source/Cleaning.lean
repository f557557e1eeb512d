import LittleMan.Proofs.Source.Tokens
import LittleMan.Source.Line

/-! Lines of code by what they are: what is left of the lines of a text when comments and blanks are
taken out of them, each word at its own place in the text. -/
namespace LittleMan

namespace Source

section

variable {α : Type} {char : α → Char} {t l : List α}

/-- The runs without blanks in a line, up to its first semicolon. -/
def runs (char : α → Char) (row : List α) : List (List α) :=
  ((row.takeWhile (char · != ';')).splitOnP (fun a => Text.isBlank (char a))).filter (· ≠ [])

/-- The runs of all lines that have any. -/
def cleaned (char : α → Char) (l : List α) : List (List (List α)) :=
  ((l.splitOnP (char · == '\n')).map (runs char)).filter (· ≠ [])

theorem runs_nil : runs char [] = [] := rfl

theorem runs_of_semicolon (char : α → Char) {a : α} (h : char a = ';') (l : List α) :
    runs char (a :: l) = [] := by
  unfold runs
  rw [List.takeWhile_cons_of_neg (by simp [h])]
  rfl

theorem runs_append_of_blank (h : ∀ a ∈ t, Text.isBlank (char a) = true) (l : List α) :
    runs char (t ++ l) = runs char l := by
  have ht : ∀ a ∈ t, (char a != ';') = true := by
    intro a ha
    rw [bne_iff_ne]
    intro hc
    have hb := h a ha
    rw [hc] at hb
    contradiction
  unfold runs
  rw [List.takeWhile_append_of_pos ht, Text.filter_splitOnP_append h]

theorem runs_append_of_word (ht : t ≠ [])
    (h : ∀ a ∈ t, Text.isBlank (char a) = false ∧ char a ≠ ';')
    (hl : ∀ a ∈ l.head?, Text.isBlank (char a) = true ∨ char a = ';') :
    runs char (t ++ l) = t :: runs char l := by
  have hs : ∀ a ∈ t, (char a != ';') = true := fun a ha => bne_iff_ne.mpr (h a ha).2
  have hb : ∀ a ∈ t, Text.isBlank (char a) = false := fun a ha => (h a ha).1
  have hh : ∀ a ∈ (l.takeWhile (char · != ';')).head?, Text.isBlank (char a) = true := by
    intro a ha
    cases l with
    | nil => contradiction
    | cons b l =>
      rcases hl b rfl with hb | hb
      · rw [List.takeWhile_cons] at ha
        split at ha
        · obtain rfl := Option.some.inj ha
          exact hb
        · contradiction
      · rw [List.takeWhile_cons_of_neg (by simp [hb])] at ha
        contradiction
  obtain ⟨ps, hp⟩ := Text.exists_splitOnP_of_head? hh
  unfold runs
  rw [List.takeWhile_append_of_pos hs, Text.splitOnP_append hb, hp, List.modifyHead_cons,
    List.append_nil, List.filter_cons_of_pos (by simpa using ht), List.filter_cons_of_neg (by simp)]

theorem filter_map_ne_nil {β : Type} (f : α → β) (ls : List (List α)) :
    (ls.map (List.map f)).filter (· ≠ []) = (ls.filter (· ≠ [])).map (List.map f) := by
  rw [List.filter_map]
  congr 2
  funext l
  simp

theorem runs_map {β : Type} (f : β → α) (row : List β) :
    runs char (row.map f) = (runs (fun b => char (f b)) row).map (List.map f) := by
  unfold runs
  rw [List.takeWhile_map, Text.splitOnP_map, filter_map_ne_nil]
  rfl

theorem cleaned_map {β : Type} (f : β → α) (l : List β) :
    cleaned char (l.map f) =
      (cleaned (fun b => char (f b)) l).map (List.map (List.map f)) := by
  unfold cleaned
  rw [Text.splitOnP_map, List.map_map, ← filter_map_ne_nil, List.map_map]
  congr 2
  funext row
  exact runs_map f row

end

/-- The characters of a text and the bytes they start at. -/
def placed (offset : Nat) : List Char → List (Nat × Char)
  | [] => []
  | c :: cs => (offset, c) :: placed (offset + c.utf8Size) cs

theorem placed_append (offset : Nat) (l r : List Char) :
    placed offset (l ++ r) = placed offset l ++ placed (offset + Text.byteLength l) r := by
  induction l generalizing offset with
  | nil => rfl
  | cons c l ih =>
    rw [List.cons_append, placed, ih, Text.byteLength_cons, Nat.add_assoc]
    rfl

theorem map_snd_placed (offset : Nat) (cs : List Char) : (placed offset cs).map (·.2) = cs := by
  induction cs generalizing offset with
  | nil => rfl
  | cons c cs ih => rw [placed, List.map_cons, ih]

theorem mem_of_mem_placed {offset : Nat} {cs : List Char} {a : Nat × Char}
    (h : a ∈ placed offset cs) : a.2 ∈ cs := by
  have hm : a.2 ∈ (placed offset cs).map (·.2) := List.mem_map_of_mem h
  rwa [map_snd_placed] at hm

theorem mem_head?_of_placed {offset : Nat} {cs : List Char} {a : Nat × Char}
    (h : a ∈ (placed offset cs).head?) : a.2 ∈ cs.head? := by
  cases cs with
  | nil => contradiction
  | cons c cs =>
    obtain rfl := Option.some.inj h
    rfl

/-- Characters as a word, at the place of the first of them. -/
def lexemeOf (run : List (Nat × Char)) : Lexeme :=
  ⟨String.ofList (run.map (·.2)),
    ⟨(run.head?.map (·.1)).getD 0, Text.byteLength (run.map (·.2))⟩⟩

theorem lexemeOf_placed {offset : Nat} {cs : List Char} (h : cs ≠ []) :
    lexemeOf (placed offset cs) = ⟨String.ofList cs, ⟨offset, Text.byteLength cs⟩⟩ := by
  unfold lexemeOf
  rw [map_snd_placed]
  cases cs with
  | nil => contradiction
  | cons c cs => rfl

/-- The lines of a text, character by character. -/
def rows (offset : Nat) (cs : List Char) : List (List (Nat × Char)) :=
  (placed offset cs).splitOnP (·.2 == '\n')

/-- A token inside a line belongs to the same line as what follows it. -/
theorem rows_cons (offset : Nat) (c : Char) (cs : List Char) (h : '\n' ∉ firstTaken c cs) :
    ∃ r rs, rows (offset + Text.byteLength (firstTaken c cs)) (behindFirst c cs) = r :: rs ∧
      rows offset (c :: cs) = (placed offset (firstTaken c cs) ++ r) :: rs ∧
      ∀ a ∈ r.head?, (TokenKind.ofFirst c).extendsOver a.2 = false ∧ a.2 ≠ '\n' := by
  have hn : ∀ a ∈ placed offset (firstTaken c cs), (a.2 == '\n') = false := by
    intro a ha
    rw [beq_eq_false_iff_ne]
    intro hc
    have hm := mem_of_mem_placed ha
    rw [hc] at hm
    exact h hm
  have hs : rows offset (c :: cs) =
      (rows (offset + Text.byteLength (firstTaken c cs)) (behindFirst c cs)).modifyHead
        (placed offset (firstTaken c cs) ++ ·) := by
    unfold rows
    rw [← firstTaken_append c cs, placed_append, Text.splitOnP_append hn]
  cases hr : rows (offset + Text.byteLength (firstTaken c cs)) (behindFirst c cs) with
  | nil => exact absurd hr (List.splitOnP_ne_nil _ _)
  | cons r rs =>
    rw [hr, List.modifyHead_cons] at hs
    refine ⟨r, rs, rfl, hs, fun a ha => ?_⟩
    obtain ⟨hb, hc⟩ := Text.head?_of_splitOnP hr ha
    exact ⟨head?_behindFirst (mem_head?_of_placed hb), beq_eq_false_iff_ne.mp hc⟩

/-- The runs of each line as words. -/
def rowLexemes (offset : Nat) (cs : List Char) : List (List Lexeme) :=
  (rows offset cs).map fun row => (runs Prod.snd row).map lexemeOf

variable {c : Char}

theorem rowLexemes_of_comment (h : TokenKind.ofFirst c = .comment) (offset : Nat)
    (cs : List Char) :
    rowLexemes offset (c :: cs) =
      rowLexemes (offset + Text.byteLength (firstTaken c cs)) (behindFirst c cs) := by
  obtain rfl : c = ';' := TokenKind.startsWith_of_ofFirst h
  have ht : '\n' ∉ firstTaken ';' cs := by
    intro hn
    rcases mem_firstTaken hn with hn | hn
    · contradiction
    · rw [h] at hn
      contradiction
  obtain ⟨r, rs, hr, hrows, hh⟩ := rows_cons offset ';' cs ht
  -- nothing but a newline comes behind a comment
  have hnil : r = [] := by
    rw [← List.head?_eq_none_iff, Option.eq_none_iff_forall_not_mem]
    intro a ha
    obtain ⟨he, hne⟩ := hh a ha
    rw [h] at he
    exact hne (by simpa [TokenKind.extendsOver] using he)
  have hs : runs Prod.snd (placed offset (firstTaken ';' cs) ++ []) = [] :=
    runs_of_semicolon Prod.snd rfl _
  unfold rowLexemes
  rw [hr, hrows, hnil, List.map_cons, List.map_cons, hs, runs_nil]

/-- A newline is a token of its own. -/
theorem firstTaken_newline (cs : List Char) : firstTaken '\n' cs = ['\n'] := by
  have hk : TokenKind.ofFirst '\n' = .newline := by decide
  unfold firstTaken
  rw [hk, List.takeWhile_eq_nil_iff.mpr (fun _ => by simp [TokenKind.extendsOver])]

theorem rowLexemes_of_newline (h : TokenKind.ofFirst c = .newline) (offset : Nat)
    (cs : List Char) :
    rowLexemes offset (c :: cs) =
      [] :: rowLexemes (offset + Text.byteLength (firstTaken c cs)) (behindFirst c cs) := by
  obtain rfl : c = '\n' := TokenKind.startsWith_of_ofFirst h
  have hc := firstTaken_append '\n' cs
  rw [firstTaken_newline] at hc ⊢
  unfold rowLexemes rows
  rw [← hc, placed_append]
  rfl

theorem rowLexemes_of_blank (h : TokenKind.ofFirst c = .blank) (offset : Nat) (cs : List Char) :
    rowLexemes offset (c :: cs) =
      rowLexemes (offset + Text.byteLength (firstTaken c cs)) (behindFirst c cs) := by
  have ht : ∀ a ∈ firstTaken c cs, a ≠ '\n' ∧ Text.isBlank a = true := by
    intro a ha
    rcases mem_firstTaken ha with rfl | ha
    · exact TokenKind.startsWith_of_ofFirst h
    · rw [h] at ha
      simpa [TokenKind.extendsOver] using ha
  obtain ⟨r, rs, hr, hrows, -⟩ := rows_cons offset c cs fun hn => (ht _ hn).1 rfl
  have hblank : ∀ a ∈ placed offset (firstTaken c cs), Text.isBlank a.2 = true :=
    fun a ha => (ht _ (mem_of_mem_placed ha)).2
  unfold rowLexemes
  rw [hr, hrows, List.map_cons, List.map_cons, runs_append_of_blank hblank]

theorem rowLexemes_of_word (h : TokenKind.ofFirst c = .word) (offset : Nat) (cs : List Char) :
    rowLexemes offset (c :: cs) =
      Text.consFirst (firstToken offset c cs).toLexeme
        (rowLexemes (offset + Text.byteLength (firstTaken c cs)) (behindFirst c cs)) := by
  have ht : ∀ a ∈ firstTaken c cs, Text.isBlank a = false ∧ a ≠ ';' := by
    intro a ha
    rcases mem_firstTaken ha with rfl | ha
    · exact TokenKind.startsWith_of_ofFirst h
    · rw [h] at ha
      simpa [TokenKind.extendsOver] using ha
  have hn : '\n' ∉ firstTaken c cs := by
    intro hn
    have hb := (ht _ hn).1
    contradiction
  obtain ⟨r, rs, hr, hrows, hh⟩ := rows_cons offset c cs hn
  have hword : ∀ a ∈ placed offset (firstTaken c cs), Text.isBlank a.2 = false ∧ a.2 ≠ ';' :=
    fun a ha => ht _ (mem_of_mem_placed ha)
  have hbehind : ∀ a ∈ r.head?, Text.isBlank a.2 = true ∨ a.2 = ';' := by
    intro a ha
    have he := (hh a ha).1
    rw [h] at he
    by_cases hb : Text.isBlank a.2 = true
    · exact .inl hb
    · right
      simpa [TokenKind.extendsOver, hb] using he
  have hne : firstTaken c cs ≠ [] := List.cons_ne_nil _ _
  have hne' : placed offset (firstTaken c cs) ≠ [] := List.cons_ne_nil _ _
  unfold rowLexemes
  rw [hr, hrows, List.map_cons, List.map_cons, runs_append_of_word hne' hword hbehind,
    List.map_cons, lexemeOf_placed hne]
  rfl

/-- The words between newlines are the runs without blanks, up to the first semicolon. -/
theorem wordRows_tokensFrom (offset : Nat) (cs : List Char) :
    wordRows (tokensFrom offset cs) = rowLexemes offset cs := by
  induction offset, cs using tokens_induction with
  | nil offset => rw [tokensFrom]; rfl
  | cons offset c cs ih =>
    rw [tokensFrom_cons, wordRows, ih]
    have hkind : (firstToken offset c cs).kind = TokenKind.ofFirst c := rfl
    rw [hkind]
    cases hk : TokenKind.ofFirst c with
    | word => exact (rowLexemes_of_word hk offset cs).symm
    | comment => exact (rowLexemes_of_comment hk offset cs).symm
    | blank => exact (rowLexemes_of_blank hk offset cs).symm
    | newline => exact (rowLexemes_of_newline hk offset cs).symm

theorem map_words_filterMap (rows : List (List Lexeme)) :
    (rows.filterMap Line.ofWords?).map Line.words = rows.filter (· ≠ []) := by
  induction rows with
  | nil => rfl
  | cons row rows ih =>
    cases row with
    | nil => exact ih
    | cons w ws => exact congrArg ((w :: ws) :: ·) ih

theorem map_words_lines (src : String) :
    (lines src).map Line.words =
      (cleaned Prod.snd (placed 0 src.toList)).map (List.map lexemeOf) := by
  unfold lines tokens
  rw [wordRows_tokensFrom, map_words_filterMap]
  unfold rowLexemes rows cleaned
  rw [← filter_map_ne_nil, List.map_map]
  rfl

theorem map_texts_lines (src : String) :
    (lines src).map (fun l => l.words.map (·.text)) =
      (cleaned id src.toList).map (List.map String.ofList) := by
  have hw := congrArg (List.map (List.map Lexeme.text)) (map_words_lines src)
  have hc : cleaned id ((placed 0 src.toList).map (·.2)) = _ := cleaned_map Prod.snd _
  rw [map_snd_placed] at hc
  rw [List.map_map] at hw
  rw [hc]
  apply hw.trans
  rw [List.map_map, List.map_map]
  refine List.map_congr_left fun ws _ => ?_
  change (ws.map lexemeOf).map Lexeme.text = (ws.map (List.map Prod.snd)).map String.ofList
  rw [List.map_map, List.map_map]
  rfl

theorem exists_token_of_mem_wordRows {ts : List Token} {row : List Lexeme} {w : Lexeme}
    (hr : row ∈ wordRows ts) (hw : w ∈ row) : ∃ t ∈ ts, t.toLexeme = w := by
  induction ts generalizing row with
  | nil =>
    obtain rfl := List.mem_singleton.mp hr
    contradiction
  | cons t ts ih =>
    have ih' : ∀ row ∈ wordRows ts, w ∈ row → ∃ t' ∈ t :: ts, t'.toLexeme = w := by
      intro row hr hw
      obtain ⟨t', ht, he⟩ := ih hr hw
      exact ⟨t', List.mem_cons_of_mem t ht, he⟩
    rw [wordRows] at hr
    split at hr
    · rcases List.mem_cons.mp hr with rfl | hr
      · contradiction
      · exact ih' row hr hw
    · cases hs : wordRows ts with
      | nil =>
        rw [hs] at hr
        obtain rfl := List.mem_singleton.mp hr
        obtain rfl := List.mem_singleton.mp hw
        exact ⟨t, List.mem_cons_self, rfl⟩
      | cons r rs =>
        rw [hs] at hr ih'
        rcases List.mem_cons.mp hr with rfl | hr
        · rcases List.mem_cons.mp hw with rfl | hw
          · exact ⟨t, List.mem_cons_self, rfl⟩
          · exact ih' r List.mem_cons_self hw
        · exact ih' row (List.mem_cons_of_mem r hr) hw
    · exact ih' row hr hw
    · exact ih' row hr hw

theorem exists_token_of_mem_words {src : String} {l : Line} {w : Lexeme} (hl : l ∈ lines src)
    (hw : w ∈ l.words) : ∃ t ∈ tokens src, t.toLexeme = w := by
  obtain ⟨row, hr, ho⟩ := List.mem_filterMap.mp hl
  have hrow : row = l.words := by
    cases row with
    | nil => contradiction
    | cons v vs =>
      obtain rfl := Option.some.inj ho
      rfl
  exact exists_token_of_mem_wordRows hr (hrow ▸ hw)

theorem slice?_of_mem_words {src : String} {l : Line} {w : Lexeme} (hl : l ∈ lines src)
    (hw : w ∈ l.words) : slice? src w.span = some w.text := by
  obtain ⟨t, ht, rfl⟩ := exists_token_of_mem_words hl hw
  exact (slice?_of_mem_tokens ht).1

/-- The lines of code in a text are its lines without comments and blanks, those left out of which
nothing is left, and each word covers the bytes where it stands. The tokens they are found by are
not empty and lie side by side from the first byte of the text to its last, so that together they
give the text back, and there are no more of them than characters. -/
theorem lines_cleaned (src : String) :
    (lines src).map (fun l => l.words.map (·.text)) =
        (cleaned id src.toList).map (List.map String.ofList) ∧
      (lines src).map Line.words =
        (cleaned Prod.snd (placed 0 src.toList)).map (List.map lexemeOf) ∧
      (∀ l ∈ lines src, ∀ w ∈ l.words, slice? src w.span = some w.text) ∧
      (∀ t ∈ tokens src, t.text ≠ "" ∧ slice? src t.span = some t.text) ∧
      Tiles 0 (tokens src) src.utf8ByteSize ∧
      String.join ((tokens src).map (·.text)) = src ∧
      (tokens src).length ≤ src.length := by
  refine ⟨map_texts_lines src, map_words_lines src, ?_, ?_, ?_, ?_, ?_⟩
  · exact fun l hl w hw => slice?_of_mem_words hl hw
  · exact fun t ht => (slice?_of_mem_tokens ht).symm
  · have ht := tiles_tokensFrom 0 src.toList
    rw [Nat.zero_add, Text.byteLength_toList] at ht
    exact ht
  · rw [← String.toList_inj, String.toList_join, List.flatMap_map]
    exact flatMap_tokensFrom 0 src.toList
  · rw [← String.length_toList]
    exact length_tokensFrom_le 0 src.toList

end Source

end LittleMan
