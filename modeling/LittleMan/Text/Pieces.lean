import LittleMan.Text.Blank

/-! Texts cut at delimiters: pieces and words. -/
namespace LittleMan.Text

/-- Puts `a` in front of the first list. -/
def consFirst {α : Type} (a : α) : List (List α) → List (List α)
  | [] => [[a]]
  | l :: ls => (a :: l) :: ls

/-- Every delimiter ends a piece, and the end of the text ends the last one. -/
def pieces {α : Type} (cut : α → Bool) : List α → List (List α)
  | [] => [[]]
  | a :: l => if cut a then [] :: pieces cut l else consFirst a (pieces cut l)

/-- Maximal runs without blanks. -/
def words (s : String) : List String :=
  ((pieces isBlank s.toList).filter (· ≠ [])).map String.ofList

end LittleMan.Text
