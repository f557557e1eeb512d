import LittleMan.Proofs.Source.Rows
import LittleMan.Proofs.Text.Trimming

/-! Where the lines of code stand: each covers its row of the text, but for blanks around it and a
comment behind it. -/
namespace LittleMan.Source

variable {row : List Char} {offset : Nat} {src : String}

/-- The code in a row: what stands in front of a comment, without the blanks around it. -/
def codeOf (row : List Char) : List Char := Text.trimmed (row.takeWhile (· != ';'))

/-- The place of that code, if the row begins at the byte. -/
def codePlace (offset : Nat) (row : List Char) : Span :=
  ⟨offset + Text.byteLength (row.takeWhile Text.isBlank), Text.byteLength (codeOf row)⟩

/-- The rows of a text that hold code, with nothing but the code in them. -/
def codeRows (rows : List (List Char)) : List (List Char) := (rows.map codeOf).filter (· ≠ [])

/-- The places of the code in rows, the first of which begins at the byte. -/
def codePlaces (offset : Nat) : List (List Char) → List Span
  | [] => []
  | row :: rows =>
    (if codeOf row = [] then [] else [codePlace offset row]) ++
      codePlaces (offset + Text.byteLength row + 1) rows

theorem takeWhile_isBlank_of_code (row : List Char) :
    (row.takeWhile (· != ';')).takeWhile Text.isBlank = row.takeWhile Text.isBlank := by
  rw [List.takeWhile_takeWhile]
  congr 1
  funext c
  have hs : Text.isBlank ';' = false := by decide
  by_cases hc : c = ';' <;> simp [hc, hs]

/-- A row consists of blanks, code, more blanks and a comment. -/
theorem exists_row (row : List Char) :
    ∃ trail comment, row = row.takeWhile Text.isBlank ++ codeOf row ++ (trail ++ comment) ∧
      row.takeWhile (· != ';') = row.takeWhile Text.isBlank ++ codeOf row ++ trail ∧
      ∀ c ∈ trail, Text.isBlank c = true := by
  obtain ⟨trail, hcode, htrail⟩ := Text.exists_trimmed (row.takeWhile (· != ';'))
  rw [takeWhile_isBlank_of_code] at hcode
  refine ⟨trail, row.dropWhile (· != ';'), ?_, hcode, htrail⟩
  calc
    row = row.takeWhile (· != ';') ++ row.dropWhile (· != ';') :=
      List.takeWhile_append_dropWhile.symm
    _ = row.takeWhile Text.isBlank ++ codeOf row ++ trail ++ row.dropWhile (· != ';') := by
      rw [hcode]
      rfl
    _ = _ := List.append_assoc _ _ _

theorem isTrimmed_codeOf (row : List Char) : Text.IsTrimmed (codeOf row) :=
  Text.isTrimmed_trimmed _

theorem placed_takeWhile (f : Char → Bool) (offset : Nat) (cs : List Char) :
    (placed offset cs).takeWhile (f ·.2) = placed offset (cs.takeWhile f) := by
  induction cs generalizing offset with
  | nil => rfl
  | cons c cs ih =>
    rw [placed, List.takeWhile_cons, List.takeWhile_cons, ih]
    split <;> rfl

/-- Parts of a text that stands at a place stand at places of their own. -/
theorem placed_eq_append {cs : List Char} {l r : List (Nat × Char)}
    (h : placed offset cs = l ++ r) :
    ∃ cs₁ cs₂, cs = cs₁ ++ cs₂ ∧ l = placed offset cs₁ ∧
      r = placed (offset + Text.byteLength cs₁) cs₂ := by
  induction l generalizing offset cs with
  | nil => exact ⟨[], cs, rfl, rfl, h.symm⟩
  | cons a l ih =>
    cases cs with
    | nil => contradiction
    | cons c cs =>
      obtain ⟨rfl, hrest⟩ := List.cons.inj h
      obtain ⟨cs₁, cs₂, rfl, rfl, rfl⟩ := ih hrest
      refine ⟨c :: cs₁, cs₂, rfl, rfl, ?_⟩
      rw [Text.byteLength_cons, Nat.add_assoc]

/-- The words of a row are those of its code. -/
theorem runs_placed (offset : Nat) (row : List Char) :
    runs Prod.snd (placed offset row) =
      ((placed (codePlace offset row).offset (codeOf row)).splitOnP (Text.isBlank ·.2)).filter
        (· ≠ []) := by
  obtain ⟨trail, comment, -, hcode, htrail⟩ := exists_row row
  have hlead : ∀ a ∈ placed offset (row.takeWhile Text.isBlank), Text.isBlank a.2 = true :=
    fun a ha => List.mem_takeWhile_imp (mem_of_mem_placed ha)
  unfold runs
  rw [placed_takeWhile (· != ';'), hcode, placed_append, placed_append, List.append_assoc,
    Text.filter_splitOnP_append hlead, Text.filter_splitOnP_append_right]
  · rfl
  · exact fun a ha => htrail _ (mem_of_mem_placed ha)

theorem mem_getLast?_of_placed {cs : List Char} {a : Nat × Char}
    (h : a ∈ (placed offset cs).getLast?) : a.2 ∈ cs.getLast? := by
  have hlast : (placed offset cs).getLast? = some a := h
  rw [← map_snd_placed offset cs, List.getLast?_map, hlast]
  rfl

theorem runs_id (row : List Char) :
    runs id row = ((codeOf row).splitOnP Text.isBlank).filter (· ≠ []) := by
  rw [codeOf, Text.filter_splitOnP_trimmed]
  rfl

/-- There are words in a row if there is code in it. -/
theorem runs_eq_nil_iff : runs id row = [] ↔ codeOf row = [] := by
  rw [runs_id, Text.filter_splitOnP_eq_nil_iff]
  constructor
  · exact (isTrimmed_codeOf row).eq_nil
  · intro h
    simp [h]

/-- From the first word to the last a line covers the code of its row. -/
theorem span_of_runs {r : List (Nat × Char)} {rs : List (List (Nat × Char))}
    (h : runs Prod.snd (placed offset row) = r :: rs) :
    (Line.mk (lexemeOf r) (rs.map lexemeOf)).span = codePlace offset row := by
  have htrimmed := isTrimmed_codeOf row
  have hne : ∀ q ∈ r :: rs, q ≠ [] := by
    intro q hq
    rw [← h] at hq
    simpa using (List.mem_filter.mp hq).2
  rw [runs_placed] at h
  obtain ⟨t, ht⟩ :=
    Text.exists_append_of_head (fun a ha => htrimmed.head _ (mem_head?_of_placed ha)) h
  obtain ⟨t', ht'⟩ :=
    Text.exists_append_of_getLast (fun a ha => htrimmed.last _ (mem_getLast?_of_placed ha)) h
  obtain ⟨first, back, hfront, hr, -⟩ := placed_eq_append ht
  obtain ⟨front, last, hback, -, hq⟩ := placed_eq_append ht'
  have hfirst : first ≠ [] := by
    rintro rfl
    exact hne r List.mem_cons_self hr
  have hlast : last ≠ [] := by
    rintro rfl
    exact hne _ (List.getLast_mem _) hq
  have hb := congrArg Text.byteLength hback
  have hf := congrArg Text.byteLength hfront
  rw [Text.byteLength_append] at hb hf
  have hspan : (Line.mk (lexemeOf r) (rs.map lexemeOf)).span =
      (lexemeOf r).span.join
        (lexemeOf ((r :: rs).getLast (List.cons_ne_nil r rs))).span := by
    rw [← List.getLast_map (f := lexemeOf) (h := by simp)]
    rfl
  have hplace : codePlace offset row =
      ⟨(codePlace offset row).offset, Text.byteLength (codeOf row)⟩ := rfl
  -- the first word begins where the code does, and the last one ends where it ends
  rw [hspan, hq, hr, lexemeOf_placed hfirst, lexemeOf_placed hlast, hplace]
  simp only [Span.join, Span.stop, Span.mk.injEq]
  omega

/-- A row adds its line if there is code in it. -/
theorem map_span_filterMap_cons (offset : Nat) (row : List Char) (ls : List (List Lexeme)) :
    (((runs Prod.snd (placed offset row)).map lexemeOf :: ls).filterMap Line.ofWords?).map
        Line.span =
      (if codeOf row = [] then [] else [codePlace offset row]) ++
        (ls.filterMap Line.ofWords?).map Line.span := by
  have hruns : runs id row = (runs Prod.snd (placed offset row)).map (List.map Prod.snd) := by
    have hmap : runs id ((placed offset row).map (·.2)) = _ := runs_map Prod.snd _
    rw [map_snd_placed] at hmap
    exact hmap
  cases h : runs Prod.snd (placed offset row) with
  | nil =>
    have hcode : codeOf row = [] := by
      rw [← runs_eq_nil_iff, hruns, h]
      rfl
    rw [if_pos hcode]
    rfl
  | cons r rs =>
    have hcode : codeOf row ≠ [] := by
      rw [← runs_eq_nil_iff.ne, hruns, h]
      simp
    rw [if_neg hcode, ← span_of_runs h]
    rfl

theorem rowLexemes_of_no_newline {cs : List Char} (h : ∀ c ∈ cs, (c == '\n') = false)
    (offset : Nat) : rowLexemes offset cs = [(runs Prod.snd (placed offset cs)).map lexemeOf] := by
  have hp : ∀ a ∈ placed offset cs, (a.2 == '\n') = false := fun a ha => h _ (mem_of_mem_placed ha)
  rw [rowLexemes, rows, List.splitOnP_eq_singleton hp, List.map_singleton]

theorem rowLexemes_append_newline {row : List Char} (h : ∀ c ∈ row, (c == '\n') = false)
    (offset : Nat) (cs : List Char) :
    rowLexemes offset (row ++ '\n' :: cs) =
      (runs Prod.snd (placed offset row)).map lexemeOf ::
        rowLexemes (offset + Text.byteLength row + 1) cs := by
  have hp : ∀ a ∈ placed offset row, (a.2 == '\n') = false := fun a ha => h _ (mem_of_mem_placed ha)
  have hn : Char.utf8Size '\n' = 1 := by decide
  rw [rowLexemes, rows, placed_append, placed, hn,
    List.splitOnP_append_cons_of_forall_mem hp _ (by simp), List.map_cons]
  rfl

theorem map_span_rowLexemes (offset : Nat) (cs : List Char) :
    ((rowLexemes offset cs).filterMap Line.ofWords?).map Line.span =
      codePlaces offset (cs.splitOnP (· == '\n')) := by
  induction cs using Text.splitOnP_induction (· == '\n') generalizing offset with
  | piece row hrow =>
    rw [rowLexemes_of_no_newline hrow, List.splitOnP_eq_singleton hrow, map_span_filterMap_cons]
    rfl
  | cons row d cs hrow hd ih =>
    obtain rfl : d = '\n' := by simpa using hd
    rw [rowLexemes_append_newline hrow, List.splitOnP_append_cons_of_forall_mem hrow _ hd,
      map_span_filterMap_cons, ih]
    rfl

/-- Lines of code stand where the code of the rows of a text stands. -/
theorem map_span_lines (src : String) :
    (lines src).map Line.span = codePlaces 0 (src.toList.splitOnP (· == '\n')) := by
  rw [lines, tokens, wordRows_tokensFrom, map_span_rowLexemes]

example : (lines " LDA é;z\n\nHLT").map Line.span = [⟨1, 6⟩, ⟨11, 3⟩] := by decide +kernel

theorem slice?_codePlace (before row behind : List Char) :
    slice? (String.ofList (before ++ row ++ behind)) (codePlace (Text.byteLength before) row) =
      some (String.ofList (codeOf row)) := by
  obtain ⟨trail, comment, hrow, -, -⟩ := exists_row row
  have hparts : before ++ row ++ behind =
      before ++ row.takeWhile Text.isBlank ++ codeOf row ++ (trail ++ comment ++ behind) := by
    conv_lhs => rw [hrow]
    simp
  rw [hparts, codePlace, ← Text.byteLength_append]
  exact slice?_append _ _ _

theorem le_offset_of_mem_codePlaces {rows : List (List Char)} {s : Span}
    (h : s ∈ codePlaces offset rows) : offset ≤ s.offset := by
  induction rows generalizing offset with
  | nil => contradiction
  | cons row rows ih =>
    rcases List.mem_append.mp h with h | h
    · have hs : s = codePlace offset row := by
        split at h
        · contradiction
        · exact List.mem_singleton.mp h
      rw [hs]
      exact Nat.le_add_right _ _
    · have := ih h
      omega

theorem stop_codePlace_le (offset : Nat) (row : List Char) :
    (codePlace offset row).stop ≤ offset + Text.byteLength row := by
  obtain ⟨trail, comment, hrow, -, -⟩ := exists_row row
  have hb := congrArg Text.byteLength hrow
  rw [Text.byteLength_append, Text.byteLength_append] at hb
  unfold codePlace Span.stop
  dsimp only
  omega

/-- There is a newline at least between one line of code and the next. -/
theorem pairwise_codePlaces (offset : Nat) (rows : List (List Char)) :
    (codePlaces offset rows).Pairwise fun a b => a.stop < b.offset := by
  induction rows generalizing offset with
  | nil => exact .nil
  | cons row rows ih =>
    rw [codePlaces]
    split
    · exact ih _
    · refine .cons ?_ (ih _)
      intro b hb
      have hstop := stop_codePlace_le offset row
      have hoffset := le_offset_of_mem_codePlaces hb
      omega

/-- The first word of a line ends before the first word of a later one begins. -/
theorem stop_first_lt {i j : Nat} {l l' : Line} (hij : i < j) (hl : (lines src)[i]? = some l)
    (hl' : (lines src)[j]? = some l') : l.first.span.stop < l'.first.span.offset := by
  have hpairs := pairwise_codePlaces 0 (src.toList.splitOnP (· == '\n'))
  rw [← map_span_lines, List.pairwise_map, List.pairwise_iff_getElem] at hpairs
  obtain ⟨hi, rfl⟩ := List.getElem?_eq_some_iff.mp hl
  obtain ⟨hj, rfl⟩ := List.getElem?_eq_some_iff.mp hl'
  have hlt := hpairs i j hi hj hij
  have hstop : (lines src)[i].first.span.stop ≤ (lines src)[i].span.stop := by
    rw [Line.span, Span.stop_join]
    exact Nat.le_max_left _ _
  have hoffset : (lines src)[j].span.offset ≤ (lines src)[j].first.span.offset :=
    Nat.min_le_left _ _
  omega

theorem codeRows_cons (row : List Char) (rows : List (List Char)) :
    codeRows (row :: rows) = (if codeOf row = [] then [] else [codeOf row]) ++ codeRows rows := by
  unfold codeRows
  rw [List.map_cons, List.filter_cons]
  by_cases h : codeOf row = [] <;> simp [h]

theorem map_slice?_row (before row behind : List Char) :
    (if codeOf row = [] then [] else [codePlace (Text.byteLength before) row]).map
        (slice? (String.ofList (before ++ row ++ behind))) =
      (if codeOf row = [] then [] else [codeOf row]).map fun row => some (String.ofList row) := by
  split
  · rfl
  · rw [List.map_singleton, List.map_singleton, slice?_codePlace]

/-- Behind any other text the places of code cover the code. -/
theorem map_slice?_codePlaces (before cs : List Char) :
    (codePlaces (Text.byteLength before) (cs.splitOnP (· == '\n'))).map
        (slice? (String.ofList (before ++ cs))) =
      (codeRows (cs.splitOnP (· == '\n'))).map fun row => some (String.ofList row) := by
  induction cs using Text.splitOnP_induction (· == '\n') generalizing before with
  | piece row hrow =>
    have hslice := map_slice?_row before row []
    rw [List.append_nil] at hslice
    rw [List.splitOnP_eq_singleton hrow, codePlaces, codeRows_cons, List.map_append,
      List.map_append, hslice]
    rfl
  | cons row d cs hrow hd ih =>
    obtain rfl : d = '\n' := by simpa using hd
    have hn : Char.utf8Size '\n' = 1 := by decide
    have hslice := map_slice?_row before row ('\n' :: cs)
    have hrest := ih (before ++ row ++ ['\n'])
    have hlength : Text.byteLength (before ++ row ++ ['\n']) =
        Text.byteLength before + Text.byteLength row + 1 := by
      rw [Text.byteLength_append, Text.byteLength_append, Text.byteLength_cons, hn]
      rfl
    have htext : before ++ row ++ ['\n'] ++ cs = before ++ (row ++ '\n' :: cs) := by simp
    rw [hlength, htext] at hrest
    rw [List.append_assoc] at hslice
    rw [List.splitOnP_append_cons_of_forall_mem hrow _ hd, codePlaces, codeRows_cons,
      List.map_append, List.map_append, hslice, hrest]

/-- The code of a text, row by row. -/
def codeLines (src : String) : List String :=
  (codeRows (src.toList.splitOnP (· == '\n'))).map String.ofList

/-- Each line of code covers the code of its row. -/
theorem slices_lines (src : String) :
    ((lines src).map Line.span).map (slice? src) = (codeLines src).map some := by
  have h := map_slice?_codePlaces [] src.toList
  rw [List.nil_append, String.ofList_toList] at h
  rw [map_span_lines, codeLines, List.map_map]
  exact h

/-- A row of nothing but code. -/
structure IsCode (row : String) : Prop where
  first : ∃ c, row.toList.head? = some c ∧ Text.isBlank c = false
  last : ∃ c, row.toList.getLast? = some c ∧ Text.isBlank c = false
  newline : '\n' ∉ row.toList
  semicolon : ';' ∉ row.toList

theorem mem_of_mem_codeOf {c : Char} (h : c ∈ codeOf row) : c ∈ row ∧ c ≠ ';' := by
  obtain ⟨trail, comment, hrow, hcode, -⟩ := exists_row row
  constructor
  · rw [hrow]
    simp [h]
  · have hmem : c ∈ row.takeWhile (· != ';') := by
      rw [hcode]
      simp [h]
    simpa using List.mem_takeWhile_imp hmem

theorem isCode_of_mem_codeLines {code : String} (h : code ∈ codeLines src) : IsCode code := by
  obtain ⟨cs, hcs, rfl⟩ := List.mem_map.mp h
  obtain ⟨hmem, hne⟩ := List.mem_filter.mp hcs
  obtain ⟨row, hrow, rfl⟩ := List.mem_map.mp hmem
  have hne' : codeOf row ≠ [] := by simpa using hne
  have htrimmed := isTrimmed_codeOf row
  have hhead := List.head?_eq_some_head hne'
  have hlast := List.getLast?_eq_some_getLast hne'
  constructor
  · exact ⟨_, by rw [String.toList_ofList, hhead], htrimmed.head _ hhead⟩
  · exact ⟨_, by rw [String.toList_ofList, hlast], htrimmed.last _ hlast⟩
  · intro hn
    rw [String.toList_ofList] at hn
    have hcut := (Text.of_mem_splitOnP hrow _ (mem_of_mem_codeOf hn).1).2
    contradiction
  · intro hs
    rw [String.toList_ofList] at hs
    exact (mem_of_mem_codeOf hs).2 rfl

theorem IsCode.codeOf {code : String} (h : IsCode code) : codeOf code.toList = code.toList := by
  have hcode : code.toList.takeWhile (· != ';') = code.toList := by
    rw [List.takeWhile_eq_self_iff]
    intro c hc
    rw [bne_iff_ne]
    rintro rfl
    exact h.semicolon hc
  obtain ⟨a, ha, hfirst⟩ := h.first
  obtain ⟨b, hb, hlast⟩ := h.last
  have htrimmed : Text.IsTrimmed code.toList := by
    constructor
    · rw [ha]
      simpa using hfirst
    · rw [hb]
      simpa using hlast
  rw [Source.codeOf, hcode, htrimmed.eq]

theorem IsCode.ne_nil {code : String} (h : IsCode code) : code.toList ≠ [] := by
  obtain ⟨c, hc, -⟩ := h.first
  intro hnil
  rw [hnil] at hc
  contradiction

/-- Rows of code are the code of the text that they make up. -/
theorem codeLines_intercalate {codes : List String} (h : ∀ code ∈ codes, IsCode code) :
    codeLines ("\n".intercalate codes) = codes := by
  by_cases hn : codes = []
  · subst hn
    decide
  · have hd : "\n".toList = ['\n'] := by decide
    have hc : ('\n' == '\n') = true := by decide
    have hrows : ∀ code ∈ codes, ∀ c ∈ code.toList, (c == '\n') = false := by
      intro code hcode c hmem
      rw [beq_eq_false_iff_ne]
      rintro rfl
      exact (h code hcode).newline hmem
    have hcodes : codeRows (codes.map String.toList) = codes.map String.toList := by
      have hmap : (codes.map String.toList).map Source.codeOf = codes.map String.toList := by
        rw [List.map_map]
        exact List.map_congr_left fun code hcode => (h code hcode).codeOf
      rw [codeRows, hmap, List.filter_eq_self]
      intro row hrow
      obtain ⟨code, hcode, rfl⟩ := List.mem_map.mp hrow
      simpa using (h code hcode).ne_nil
    rw [codeLines, Text.splitOnP_intercalate (· == '\n') hd hc hn hrows, hcodes, List.map_map]
    simp

/-- The words of a text are the words of its code. -/
theorem lineTexts_eq_words (src : String) : lineTexts src = (codeLines src).map Text.words := by
  have hrows : ∀ rows : List (List Char), (rows.map (runs id)).filter (· ≠ []) =
      (codeRows rows).map fun code => (code.splitOnP Text.isBlank).filter (· ≠ []) := by
    intro rows
    induction rows with
    | nil => rfl
    | cons row rows ih =>
      rw [codeRows_cons, List.map_append, ← ih, List.map_cons, List.filter_cons]
      by_cases hcode : codeOf row = []
      · simp [hcode, runs_eq_nil_iff.mpr hcode]
      · have hruns : runs id row ≠ [] := mt runs_eq_nil_iff.mp hcode
        simp only [hcode, if_false, List.map_singleton, ← runs_id]
        simp [hruns]
  have hcleaned : cleaned id src.toList = _ := hrows (src.toList.splitOnP (· == '\n'))
  rw [lineTexts_eq, hcleaned, codeLines, List.map_map, List.map_map]
  apply List.map_congr_left
  intro code _
  simp [Text.words_eq]

end LittleMan.Source
