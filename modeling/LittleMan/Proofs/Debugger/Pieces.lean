import LittleMan.Debugger.Script
import LittleMan.Proofs.Text.Pieces

/-! What scripts and piped input are cut into: all pieces of the text, but for a last one that is
empty. -/
namespace LittleMan.Debugger

variable {α : Type} {cut : α → Bool} {l p rest : List α}

/-- A last piece that is empty is left out. -/
def withoutEmptyEnd : List (List α) → List (List α)
  | [] => []
  | [p] => if p.isEmpty then [] else [p]
  | p :: q :: ps => p :: withoutEmptyEnd (q :: ps)

theorem withoutEmptyEnd_cons {ps : List (List α)} (p : List α) (h : ps ≠ []) :
    withoutEmptyEnd (p :: ps) = p :: withoutEmptyEnd ps := by
  cases ps with
  | nil => contradiction
  | cons q ps => rfl

theorem mem_of_mem_withoutEmptyEnd {ps : List (List α)} (h : p ∈ withoutEmptyEnd ps) : p ∈ ps := by
  fun_induction withoutEmptyEnd ps with
  | case1 => contradiction
  | case2 q he => contradiction
  | case3 q he => exact h
  | case4 q r ps ih =>
    rcases List.mem_cons.mp h with rfl | h
    · exact List.mem_cons_self
    · exact List.mem_cons_of_mem q (ih h)

/-- What is made of all pieces is made without the last one, if nothing is made of an empty one. -/
theorem flatMap_withoutEmptyEnd {β : Type} {f : List α → List β} (hf : f [] = [])
    (ps : List (List α)) : (withoutEmptyEnd ps).flatMap f = ps.flatMap f := by
  induction ps with
  | nil => rfl
  | cons p ps ih =>
    cases ps with
    | cons q ps =>
      have hn : q :: ps ≠ [] := List.cons_ne_nil q ps
      rw [withoutEmptyEnd_cons p hn, List.flatMap_cons, ih]
      rfl
    | nil =>
      rw [withoutEmptyEnd]
      split
      · next he =>
        obtain rfl : p = [] := List.isEmpty_iff.mp he
        simp [hf]
      · rfl

/-- The first piece ends at the first delimiter, or it is all that is left. -/
theorem nextPiece?_cases (h : nextPiece? cut l = some (p, rest)) :
    (∀ a ∈ p, cut a = false) ∧
      ((l = p ∧ p ≠ [] ∧ rest = []) ∨ ∃ a, cut a = true ∧ l = p ++ a :: rest) := by
  cases l with
  | nil => contradiction
  | cons b bs =>
    obtain ⟨rfl, rfl⟩ := Prod.mk.inj (Option.some.inj h)
    have hp : ∀ a ∈ (b :: bs).takeWhile (!cut ·), cut a = false := by
      intro a ha
      simpa using List.all_eq_true.mp List.all_takeWhile a ha
    have hl : (b :: bs).takeWhile (!cut ·) ++ (b :: bs).dropWhile (!cut ·) = b :: bs :=
      List.takeWhile_append_dropWhile
    refine ⟨hp, ?_⟩
    cases hd : (b :: bs).dropWhile (!cut ·) with
    | nil =>
      rw [hd, List.append_nil] at hl
      refine .inl ⟨hl.symm, ?_, rfl⟩
      rw [hl]
      exact List.cons_ne_nil b bs
    | cons a r =>
      have ha := List.head_dropWhile_not (!cut ·) (l := b :: bs) (by rw [hd]; simp)
      simp only [hd, List.head_cons, Bool.not_eq_false'] at ha
      refine .inr ⟨a, ha, ?_⟩
      rw [hd] at hl
      exact hl.symm

theorem map_fst_allPieces (cut : α → Bool) (l : List α) :
    (allPieces cut l).map (·.1) = withoutEmptyEnd (l.splitOnP cut) := by
  fun_induction allPieces cut l with
  | case1 l h =>
    cases l with
    | nil => rfl
    | cons a l => contradiction
  | case2 l p rest h ih =>
    obtain ⟨hp, ⟨rfl, hn, rfl⟩ | ⟨a, ha, rfl⟩⟩ := nextPiece?_cases h
    · have hs : l.splitOnP cut = [l] := List.splitOnP_eq_singleton hp
      have he : l.isEmpty = false := List.isEmpty_eq_false_iff.mpr hn
      rw [List.map_cons, ih, hs, withoutEmptyEnd, he]
      rfl
    · have hs : (p ++ a :: rest).splitOnP cut = p :: rest.splitOnP cut :=
        List.splitOnP_append_cons_of_forall_mem hp a ha rest
      have hr : rest.splitOnP cut ≠ [] := List.splitOnP_ne_nil cut rest
      rw [List.map_cons, ih, hs, withoutEmptyEnd_cons p hr]

/-- What is made of each piece, whatever follows it. -/
theorem map_allPieces {β : Type} (f : List α → β) (cut : α → Bool) (l : List α) :
    (allPieces cut l).map (fun p => f p.1) = (withoutEmptyEnd (l.splitOnP cut)).map f := by
  rw [← map_fst_allPieces, List.map_map]
  rfl

end LittleMan.Debugger
