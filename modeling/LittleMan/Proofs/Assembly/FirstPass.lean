import LittleMan.Proofs.Assembly.Faults

/-! The first pass stops at the leftmost fault, or else it has all statements and all labels. -/
namespace LittleMan.Assembly

open Source

variable {L L' P R : List Statement} {s : Statement} {i : Nat} {label first : Lexeme} {e e' : Error}

theorem labelAt_congr (h : L[i]? = L'[i]?) : labelAt L i = labelAt L' i := by
  unfold labelAt
  rw [h]

theorem Repeats.congr (h : Repeats L i label first) (hL : ∀ k ≤ i, L[k]? = L'[k]?) :
    Repeats L' i label first := by
  obtain ⟨j, hj, hf⟩ := h.earlier
  refine ⟨?_, ⟨j, hj, ?_⟩, h.text⟩
  · rw [← labelAt_congr (hL i (Nat.le_refl i))]
    exact h.here
  · rw [← labelAt_congr (hL j (Nat.le_of_lt hj))]
    exact hf

/-- The faults of a line have nothing to do with the lines behind it. -/
theorem DraftFault.congr (h : DraftFault L i e) (hL : ∀ k ≤ i, L[k]? = L'[k]?) :
    DraftFault L' i e := by
  have hL' : ∀ k ≤ i, L'[k]? = L[k]? := fun k hk => (hL k hk).symm
  cases h with
  | duplicateLabel h => exact .duplicateLabel (h.congr hL)
  | programTooLong hs hi hn =>
    rw [hL i (Nat.le_refl i)] at hs
    exact .programTooLong hs hi fun label first h => hn label first (h.congr hL')

/-- Before the first fault no label comes twice. -/
theorem eq_of_no_fault (h : ∀ k < i, ∀ e, ¬DraftFault L k e) {j j' : Nat} {a b : Lexeme}
    (hj : j < i) (hj' : j' < i) (ha : labelAt L j = some a) (hb : labelAt L j' = some b)
    (he : a.text = b.text) : j = j' := by
  rcases Nat.lt_trichotomy j j' with hlt | heq | hgt
  · exact absurd (.duplicateLabel ⟨hb, ⟨j, hlt, ha⟩, he⟩) (h j' hj' _)
  · exact heq
  · exact absurd (.duplicateLabel ⟨ha, ⟨j', hgt, hb⟩, he.symm⟩) (h j hj _)

theorem distinct_of_clean (h : Clean (DraftFault L)) : Distinct L := by
  intro i j a b ha hb he
  have hi : i < max i j + 1 := by omega
  have hj : j < max i j + 1 := by omega
  exact eq_of_no_fault (fun k _ e => h k e) hi hj ha hb he

theorem DraftFault.unique (h : DraftFault L i e) (h' : DraftFault L i e')
    (hb : ∀ k < i, ∀ e, ¬DraftFault L k e) : e = e' := by
  cases h with
  | duplicateLabel h =>
    cases h' with
    | duplicateLabel h' =>
      obtain ⟨j, hj, hf⟩ := h.earlier
      obtain ⟨j', hj', hf'⟩ := h'.earlier
      have hl := Option.some.inj (h.here.symm.trans h'.here)
      subst hl
      have hjj := eq_of_no_fault hb hj hj' hf hf' (h.text.trans h'.text.symm)
      subst hjj
      rw [Option.some.inj (hf.symm.trans hf')]
    | programTooLong hs hi hn => exact absurd h (hn _ _)
  | programTooLong hs hi hn =>
    cases h' with
    | duplicateLabel h' => exact absurd h' (hn _ _)
    | programTooLong hs' hi' hn' => rw [Option.some.inj (hs.symm.trans hs')]

theorem length_le_of_clean (h : Clean (DraftFault L)) : L.length ≤ 100 := by
  by_cases hl : L.length ≤ 100
  · exact hl
  · have hs : L[100]? = some L[100] := List.getElem?_eq_getElem (by omega)
    by_cases hr : ∃ label first, Repeats L 100 label first
    · obtain ⟨label, first, hr⟩ := hr
      exact absurd (.duplicateLabel hr) (h 100 _)
    · exact absurd (.programTooLong hs rfl fun label first h => hr ⟨label, first, h⟩) (h 100 _)

/-- The draft of lines that go together. -/
def draftOf (L : List Statement) : Draft := ⟨L, tableOf L⟩

theorem repeats_concat_iff :
    Repeats (P ++ [s]) P.length label first ↔
      s.label = some label ∧ ∃ j, labelAt P j = some first ∧ first.text = label.text := by
  constructor
  · rintro ⟨hl, ⟨j, hj, hf⟩, he⟩
    rw [labelAt_append_length] at hl
    rw [labelAt_append_left hj] at hf
    exact ⟨hl, j, hf, he⟩
  · rintro ⟨hl, j, hf, he⟩
    have hj := lt_length_of_labelAt hf
    refine ⟨?_, ⟨j, hj, ?_⟩, he⟩
    · rw [labelAt_append_length]
      exact hl
    · rw [labelAt_append_left hj]
      exact hf

theorem bind_of_repeats (hP : Clean (DraftFault P))
    (h : Repeats (P ++ [s]) P.length label first) :
    (draftOf P).bind s = .error (.duplicateLabel label.text (some first.span) label.span) := by
  obtain ⟨hl, j, hf, he⟩ := repeats_concat_iff.mp h
  have ht : (tableOf P).find? label.text = some j :=
    (find?_tableOf (distinct_of_clean hP)).mpr ⟨first, hf, he⟩
  have ha : (draftOf P).labelAt? j = some first := hf
  unfold Draft.bind SymbolTable.insert
  rw [hl]
  dsimp only [draftOf] at ha ⊢
  rw [ht]
  dsimp only
  rw [ha]
  rfl

theorem bind_of_not_repeats (h : ∀ label first, ¬Repeats (P ++ [s]) P.length label first) :
    (draftOf P).bind s = .ok (tableOf (P ++ [s])) := by
  unfold Draft.bind SymbolTable.insert tableOf
  rw [definitions_concat]
  cases hl : s.label with
  | none => simp [draftOf, tableOf]
  | some label =>
    have ht : (tableOf P).find? label.text = none := by
      refine find?_tableOf_none.mpr fun j first hf he => ?_
      exact h label first (repeats_concat_iff.mpr ⟨hl, j, hf, he⟩)
    dsimp only [draftOf]
    rw [ht]
    rfl

theorem add_draftOf (hP : Clean (DraftFault P)) (s : Statement) :
    (∃ e, (draftOf P).add s = .error e ∧ DraftFault (P ++ [s]) P.length e) ∨
      ((draftOf P).add s = .ok (draftOf (P ++ [s])) ∧
        ∀ e, ¬DraftFault (P ++ [s]) P.length e) := by
  have hs : (P ++ [s])[P.length]? = some s := by simp
  have hn : P.length ≤ 100 := length_le_of_clean hP
  unfold Draft.add
  by_cases hr : ∃ label first, Repeats (P ++ [s]) P.length label first
  · obtain ⟨label, first, hr⟩ := hr
    refine .inl ⟨_, ?_, .duplicateLabel hr⟩
    rw [bind_of_repeats hP hr]
    rfl
  · have hr' : ∀ label first, ¬Repeats (P ++ [s]) P.length label first :=
      fun label first h => hr ⟨label, first, h⟩
    rw [bind_of_not_repeats hr']
    by_cases hl : P.length < 100
    · refine .inr ⟨if_pos hl, ?_⟩
      intro e h
      cases h with
      | duplicateLabel h => exact hr' _ _ h
      | programTooLong hs hi hn => omega
    · refine .inl ⟨_, if_neg hl, .programTooLong hs ?_ hr'⟩
      omega

theorem draftFault_append_iff (h : i < P.length) :
    DraftFault (P ++ R) i e ↔ DraftFault P i e := by
  have hP : ∀ k ≤ i, (P ++ R)[k]? = P[k]? := fun k hk => List.getElem?_append_left (by omega)
  exact ⟨fun hf => hf.congr hP, fun hf => hf.congr fun k hk => (hP k hk).symm⟩

theorem lt_length_of_draftFault (h : DraftFault L i e) : i < L.length := by
  cases h with
  | duplicateLabel h => exact lt_length_of_labelAt h.here
  | programTooLong hs hi hn => exact (List.getElem?_eq_some_iff.mp hs).1

theorem clean_concat (hP : Clean (DraftFault P)) (h : ∀ e, ¬DraftFault (P ++ [s]) P.length e) :
    Clean (DraftFault (P ++ [s])) := by
  intro i e hf
  have hi := lt_length_of_draftFault hf
  by_cases hl : i < P.length
  · exact hP i e ((draftFault_append_iff hl).mp hf)
  · have hi' : i = P.length := by
      simp at hi
      omega
    subst hi'
    exact h e hf

/-- Lines are added to lines in which nothing is wrong, up to the first fault. -/
theorem addAll_draftOf (hP : Clean (DraftFault P)) (R : List Statement) :
    (∃ e, (draftOf P).addAll R = .error e ∧ Leftmost (DraftFault (P ++ R)) e) ∨
      ((draftOf P).addAll R = .ok (draftOf (P ++ R)) ∧ Clean (DraftFault (P ++ R))) := by
  induction R generalizing P with
  | nil =>
    rw [List.append_nil]
    exact .inr ⟨rfl, hP⟩
  | cons s R ih =>
    have hc : P ++ s :: R = P ++ [s] ++ R := by simp
    have hl : P.length < (P ++ [s]).length := by simp
    unfold Draft.addAll
    rw [hc]
    rcases add_draftOf hP s with ⟨e, ha, hf⟩ | ⟨ha, hf⟩
    · -- the lines so far are clean, so a fault of this one is the leftmost
      refine .inl ⟨e, ?_, P.length, (draftFault_append_iff hl).mpr hf, ?_⟩
      · rw [ha]
        rfl
      · intro k hk e' hf'
        rw [draftFault_append_iff (Nat.lt_trans hk hl), draftFault_append_iff hk] at hf'
        exact hP k e' hf'
    · rw [ha]
      exact ih (clean_concat hP hf)

theorem clean_nil : Clean (DraftFault []) := by
  intro i e h
  have := lt_length_of_draftFault h
  simp at this

theorem draft_cases (src : String) :
    (∃ e, draft src = .error e ∧ Leftmost (DraftFault (statements src)) e) ∨
      (draft src = .ok (draftOf (statements src)) ∧ Clean (DraftFault (statements src))) :=
  addAll_draftOf clean_nil (statements src)

end LittleMan.Assembly
