import LittleMan.Text.Pieces

/-! Texts cut at delimiters: pieces are the library's, a run without delimiters belongs to the piece
that it begins, and words are found again when they are put side by side. -/
namespace LittleMan.Text

variable {α : Type} {cut : α → Bool} {l t r : List α} {rs : List (List α)}

theorem pieces_eq_splitOnP (cut : α → Bool) (l : List α) : pieces cut l = l.splitOnP cut := by
  induction l with
  | nil => rfl
  | cons a l ih =>
    rw [pieces, List.splitOnP_cons_eq_if_modifyHead, ih]
    split
    · rfl
    · have hn : l.splitOnP cut ≠ [] := List.splitOnP_ne_nil cut l
      cases hs : l.splitOnP cut with
      | nil => exact absurd hs hn
      | cons p ps => rfl

theorem splitOnP_append {t : List α} (h : ∀ a ∈ t, cut a = false) (l : List α) :
    (t ++ l).splitOnP cut = (l.splitOnP cut).modifyHead (t ++ ·) := by
  induction t with
  | nil =>
    rw [List.nil_append]
    cases l.splitOnP cut <;> rfl
  | cons a t ih =>
    have ha : cut a = false := h a List.mem_cons_self
    have ht : ∀ b ∈ t, cut b = false := fun b hb => h b (List.mem_cons_of_mem a hb)
    rw [List.cons_append, List.splitOnP_cons_eq_if_modifyHead, ih ht, ha, if_neg (by decide)]
    cases l.splitOnP cut <;> rfl

/-- Pieces that are not empty do not change with delimiters in front. -/
theorem filter_splitOnP_append (h : ∀ a ∈ t, cut a = true) (l : List α) :
    ((t ++ l).splitOnP cut).filter (· ≠ []) = (l.splitOnP cut).filter (· ≠ []) := by
  induction t with
  | nil => rfl
  | cons a t ih =>
    have ha : cut a = true := h a List.mem_cons_self
    have ht : ∀ b ∈ t, cut b = true := fun b hb => h b (List.mem_cons_of_mem a hb)
    rw [List.cons_append, List.splitOnP_cons_eq_if_modifyHead, if_pos ha, ← ih ht]
    rfl

/-- The first piece is empty before a delimiter, and it is all of an empty list. -/
theorem exists_splitOnP_of_head? (h : ∀ a ∈ l.head?, cut a = true) :
    ∃ ps, l.splitOnP cut = [] :: ps := by
  cases l with
  | nil => exact ⟨[], rfl⟩
  | cons a l =>
    have ha : cut a = true := h a rfl
    rw [List.splitOnP_cons_eq_if_modifyHead, if_pos ha]
    exact ⟨_, rfl⟩

/-- What stands first in the first piece stands first in the list, and is no delimiter. -/
theorem head?_of_splitOnP (h : l.splitOnP cut = r :: rs) {a : α} (ha : a ∈ r.head?) :
    a ∈ l.head? ∧ cut a = false := by
  cases l with
  | nil =>
    obtain ⟨rfl, -⟩ := List.cons.inj h
    contradiction
  | cons b l =>
    rw [List.splitOnP_cons_eq_if_modifyHead] at h
    by_cases hb : cut b = true
    · rw [if_pos hb] at h
      obtain ⟨rfl, -⟩ := List.cons.inj h
      contradiction
    · rw [if_neg hb] at h
      cases hs : l.splitOnP cut with
      | nil => exact absurd hs (List.splitOnP_ne_nil cut l)
      | cons p ps =>
        rw [hs] at h
        obtain ⟨rfl, -⟩ := List.cons.inj h
        obtain rfl := Option.some.inj ha
        exact ⟨rfl, Bool.eq_false_iff.mpr hb⟩

theorem splitOnP_map {β : Type} (f : α → β) (cut : β → Bool) (l : List α) :
    (l.map f).splitOnP cut = (l.splitOnP fun a => cut (f a)).map (List.map f) := by
  induction l with
  | nil => rfl
  | cons a l ih =>
    rw [List.map_cons, List.splitOnP_cons_eq_if_modifyHead, List.splitOnP_cons_eq_if_modifyHead, ih]
    split
    · rfl
    · cases l.splitOnP fun a => cut (f a) <;> rfl

/-- Pieces that each have a delimiter behind them are found again, and nothing behind the last. -/
theorem splitOnP_flatMap {d : α} (hd : cut d = true) {rows : List (List α)}
    (h : ∀ row ∈ rows, ∀ a ∈ row, cut a = false) :
    (rows.flatMap (· ++ [d])).splitOnP cut = rows ++ [[]] := by
  induction rows with
  | nil => rfl
  | cons row rows ih =>
    have hrow : ∀ a ∈ row, cut a = false := h row List.mem_cons_self
    have hrows : ∀ r ∈ rows, ∀ a ∈ r, cut a = false := fun r hr => h r (List.mem_cons_of_mem row hr)
    rw [List.flatMap_cons, List.append_assoc, List.singleton_append,
      List.splitOnP_append_cons_of_forall_mem hrow d hd, ih hrows]
    rfl

/-- Cutting at one of two kinds of delimiter is cutting at the first kind, and each piece at the
second. -/
theorem splitOnP_or (cut cut' : α → Bool) (l : List α) :
    l.splitOnP (fun a => cut a || cut' a) = (l.splitOnP cut).flatMap (·.splitOnP cut') := by
  induction l with
  | nil => rfl
  | cons a l ih =>
    rw [List.splitOnP_cons_eq_if_modifyHead, List.splitOnP_cons_eq_if_modifyHead, ih]
    by_cases ha : cut a = true
    · simp [ha]
    · cases hs : l.splitOnP cut with
      | nil => exact absurd hs (List.splitOnP_ne_nil cut l)
      | cons p ps =>
        -- the first piece grows by `a`, so it is cut once more if `a` is of the second kind
        have hp : (a :: p).splitOnP cut' =
            if cut' a then [] :: p.splitOnP cut' else (p.splitOnP cut').modifyHead (a :: ·) :=
          List.splitOnP_cons_eq_if_modifyHead a p
        simp only [ha, Bool.false_or, List.flatMap_cons, List.modifyHead_cons]
        by_cases hb : cut' a = true
        · simp [hp, hb]
        · cases hq : p.splitOnP cut' with
          | nil => exact absurd hq (List.splitOnP_ne_nil cut' p)
          | cons q qs => simp [hp, hb, hq]

/-- A list has no delimiter, or it goes on behind its first one. -/
theorem dropWhile_cases (cut : α → Bool) (l : List α) :
    (∀ a ∈ l.takeWhile (!cut ·), cut a = false) ∧
      ((l.dropWhile (!cut ·) = [] ∧ l.takeWhile (!cut ·) = l) ∨
        ∃ d rest, l.dropWhile (!cut ·) = d :: rest ∧ cut d = true ∧
          l = l.takeWhile (!cut ·) ++ d :: rest) := by
  have hl : l.takeWhile (!cut ·) ++ l.dropWhile (!cut ·) = l := List.takeWhile_append_dropWhile
  constructor
  · intro a ha
    simpa using List.all_eq_true.mp List.all_takeWhile a ha
  · cases hd : l.dropWhile (!cut ·) with
    | nil =>
      rw [hd, List.append_nil] at hl
      exact .inl ⟨rfl, hl⟩
    | cons d rest =>
      have hhead := List.head?_dropWhile_not (!cut ·) l
      rw [hd] at hl
      exact .inr ⟨d, rest, rfl, by simpa [hd] using hhead, hl.symm⟩

/-- What holds of lists without delimiters, and behind a first delimiter if it holds of the rest,
holds of every list. -/
theorem splitOnP_induction (cut : α → Bool) {motive : List α → Prop}
    (piece : ∀ p, (∀ a ∈ p, cut a = false) → motive p)
    (cons : ∀ p d l, (∀ a ∈ p, cut a = false) → cut d = true → motive l → motive (p ++ d :: l))
    (l : List α) : motive l := by
  obtain ⟨hp, ⟨-, hl⟩ | ⟨d, rest, -, hd, hl⟩⟩ := dropWhile_cases cut l
  · rw [hl] at hp
    exact piece l hp
  · have hrest : rest.length < l.length := by
      have hlen := congrArg List.length hl
      rw [List.length_append, List.length_cons] at hlen
      omega
    rw [hl]
    exact cons _ d rest hp hd (splitOnP_induction cut piece cons rest)
termination_by l.length

/-- A piece consists of what is in the list and no delimiter. -/
theorem of_mem_splitOnP {p : List α} (h : p ∈ l.splitOnP cut) :
    ∀ a ∈ p, a ∈ l ∧ cut a = false := by
  induction l using splitOnP_induction cut with
  | piece q hq =>
    obtain rfl : p = q := by simpa [List.splitOnP_eq_singleton hq] using h
    exact fun a ha => ⟨ha, hq a ha⟩
  | cons q d r hq hd ih =>
    rw [List.splitOnP_append_cons_of_forall_mem hq d hd] at h
    intro a ha
    rcases List.mem_cons.mp h with rfl | hp
    · exact ⟨List.mem_append_left _ ha, hq a ha⟩
    · obtain ⟨hmem, hcut⟩ := ih hp a ha
      exact ⟨List.mem_append_right q (List.mem_cons_of_mem d hmem), hcut⟩

/-- Texts without delimiters are the pieces of the text that one of them joins them to. -/
theorem splitOnP_intercalate (cut : Char → Bool) {d : String} {c : Char} (hd : d.toList = [c])
    (hc : cut c = true) {ts : List String} (hn : ts ≠ [])
    (h : ∀ t ∈ ts, ∀ a ∈ t.toList, cut a = false) :
    (d.intercalate ts).toList.splitOnP cut = ts.map String.toList := by
  induction ts with
  | nil => contradiction
  | cons t ts ih =>
    have ht : ∀ a ∈ t.toList, cut a = false := h t List.mem_cons_self
    cases ts with
    | nil => rw [String.intercalate_singleton, List.splitOnP_eq_singleton ht, List.map_singleton]
    | cons u ts =>
      have hrest := ih (List.cons_ne_nil u ts) fun v hv => h v (List.mem_cons_of_mem t hv)
      have hl : (d.intercalate (t :: u :: ts)).toList =
          t.toList ++ c :: (d.intercalate (u :: ts)).toList := by
        rw [String.intercalate_cons_cons, String.toList_append, String.toList_append, hd,
          List.append_assoc, List.singleton_append]
      rw [hl, List.splitOnP_append_cons_of_forall_mem ht c hc, hrest]
      rfl

/-- The first piece stands at the front of the list, before a delimiter. -/
theorem exists_of_head_splitOnP {p : List α} (h : (l.splitOnP cut).head? = some p) :
    ∃ t, l = p ++ t ∧ ∀ a ∈ t.head?, cut a = true := by
  induction l using splitOnP_induction cut with
  | piece q hq =>
    obtain rfl : q = p := by simpa [List.splitOnP_eq_singleton hq] using h
    exact ⟨[], by simp, by simp⟩
  | cons q d r hq hd _ =>
    obtain rfl : q = p := by simpa [List.splitOnP_append_cons_of_forall_mem hq d hd] using h
    exact ⟨d :: r, rfl, by simpa using hd⟩

/-- The last piece stands at the end of the list, behind a delimiter. -/
theorem exists_of_getLast_splitOnP {p : List α} (h : (l.splitOnP cut).getLast? = some p) :
    ∃ t, l = t ++ p ∧ ∀ a ∈ t.getLast?, cut a = true := by
  induction l using splitOnP_induction cut with
  | piece q hq =>
    obtain rfl : q = p := by simpa [List.splitOnP_eq_singleton hq] using h
    exact ⟨[], by simp, by simp⟩
  | cons q d r hq hd ih =>
    have hlast : (r.splitOnP cut).getLast? = some p := by
      rw [List.splitOnP_append_cons_of_forall_mem hq d hd, List.getLast?_cons] at h
      rw [List.getLast?_eq_some_getLast (List.splitOnP_ne_nil cut r)] at h ⊢
      exact h
    obtain ⟨t, rfl, ht⟩ := ih hlast
    refine ⟨q ++ d :: t, by simp, ?_⟩
    intro a ha
    cases t with
    | nil =>
      obtain rfl : d = a := by simpa using ha
      exact hd
    | cons b t => exact ht a (by simpa using ha)

/-- If a list begins with no delimiter, it begins with the first piece that is not empty. -/
theorem exists_append_of_head (hhead : ∀ a ∈ l.head?, cut a = false)
    (h : (l.splitOnP cut).filter (· ≠ []) = r :: rs) : ∃ t, l = r ++ t := by
  have hl : l ≠ [] := by
    rintro rfl
    contradiction
  obtain ⟨p, ps, hp⟩ := List.exists_cons_of_ne_nil (List.splitOnP_ne_nil cut l)
  obtain ⟨t, ht, hcut⟩ := exists_of_head_splitOnP (l := l) (by rw [hp]; rfl)
  have hne : p ≠ [] := by
    rintro rfl
    rw [List.nil_append] at ht
    rw [← ht] at hcut
    have hd := List.head?_eq_some_head hl
    have hfalse := hhead _ hd
    rw [hcut _ hd] at hfalse
    contradiction
  rw [hp, List.filter_cons_of_pos (by simpa using hne)] at h
  obtain ⟨rfl, -⟩ := List.cons.inj h
  exact ⟨t, ht⟩

/-- If a list ends with no delimiter, it ends with the last piece that is not empty. -/
theorem exists_append_of_getLast (hlast : ∀ a ∈ l.getLast?, cut a = false)
    (h : (l.splitOnP cut).filter (· ≠ []) = r :: rs) :
    ∃ t, l = t ++ (r :: rs).getLast (List.cons_ne_nil r rs) := by
  have hl : l ≠ [] := by
    rintro rfl
    contradiction
  obtain ⟨ps, p, hp⟩ :=
    (List.eq_nil_or_concat (l.splitOnP cut)).resolve_left (List.splitOnP_ne_nil cut l)
  obtain ⟨t, ht, hcut⟩ := exists_of_getLast_splitOnP (l := l) (p := p) (by rw [hp]; simp)
  have hne : p ≠ [] := by
    rintro rfl
    rw [List.append_nil] at ht
    rw [← ht] at hcut
    have hd := List.getLast?_eq_some_getLast hl
    have hfalse := hlast _ hd
    rw [hcut _ hd] at hfalse
    contradiction
  have hfilter : (ps ++ [p]).filter (· ≠ []) = ps.filter (· ≠ []) ++ [p] := by simp [hne]
  rw [hp, List.concat_eq_append, hfilter] at h
  have hq : (r :: rs).getLast (List.cons_ne_nil r rs) = p := by simp [← h]
  rw [hq]
  exact ⟨t, ht⟩

theorem words_eq (s : String) :
    words s = ((s.toList.splitOnP isBlank).filter (· ≠ [])).map String.ofList := by
  unfold words
  rw [pieces_eq_splitOnP]

theorem words_append_blank (s t : String) : words (s ++ " " ++ t) = words s ++ words t := by
  have hl : (s ++ " " ++ t).toList = s.toList ++ ' ' :: t.toList := by
    rw [String.toList_append, String.toList_append, List.append_assoc]
    rfl
  have hb : isBlank ' ' = true := by decide
  rw [words_eq, words_eq, words_eq, hl, List.splitOnP_append_cons _ _ hb, List.filter_append,
    List.map_append]

theorem words_intercalate (ts : List String) : words (" ".intercalate ts) = ts.flatMap words := by
  induction ts with
  | nil => rfl
  | cons t ts ih =>
    cases ts with
    | nil => rw [String.intercalate_singleton, List.flatMap_singleton]
    | cons u ts =>
      rw [String.intercalate_cons_cons, words_append_blank, ih]
      rfl

theorem mem_intercalate {c : Char} {ts : List String} (h : c ∈ (" ".intercalate ts).toList) :
    c = ' ' ∨ ∃ t ∈ ts, c ∈ t.toList := by
  induction ts with
  | nil => contradiction
  | cons t ts ih =>
    cases ts with
    | nil =>
      rw [String.intercalate_singleton] at h
      exact .inr ⟨t, List.mem_cons_self, h⟩
    | cons u ts =>
      rw [String.intercalate_cons_cons, String.toList_append, String.toList_append] at h
      rcases List.mem_append.mp h with h | h
      · rcases List.mem_append.mp h with h | h
        · exact .inr ⟨t, List.mem_cons_self, h⟩
        · exact .inl (List.mem_singleton.mp h)
      · obtain hc | ⟨t', ht, hc⟩ := ih h
        · exact .inl hc
        · exact .inr ⟨t', List.mem_cons_of_mem t ht, hc⟩

/-- A text without blanks is a word itself unless it is empty. -/
theorem words_of_no_blank {w : String} (hne : w ≠ "") (hb : ∀ c ∈ w.toList, isBlank c = false) :
    words w = [w] := by
  have hl : w.toList ≠ [] := by simpa using hne
  rw [words_eq, List.splitOnP_eq_singleton hb, List.filter_cons_of_pos (by simpa using hl),
    List.filter_nil, List.map_singleton, String.ofList_toList]

end LittleMan.Text
