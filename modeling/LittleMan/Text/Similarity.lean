/-! Jaro similarity of two words: shared characters that stand close to each other, less those that
are out of order. -/
namespace LittleMan.Text

/-- Takes the first free place among the next ones that holds the character, and marks it as
taken. -/
def takePlace (c : Char) : Nat → List (Char × Bool) → Option (List (Char × Bool))
  | 0, _ => none
  | _ + 1, [] => none
  | n + 1, (d, taken) :: rest =>
    if c = d ∧ taken = false then some ((d, true) :: rest)
    else (takePlace c n rest).map ((d, taken) :: ·)

/-- Characters of a word, from position `i` on, that find a place at most `reach` away in the other
one, and the places that are taken in the end. -/
def matchPlaces (reach i : Nat) (places : List (Char × Bool)) :
    List Char → List Char × List (Char × Bool)
  | [] => ([], places)
  | c :: cs =>
    let start := i - reach
    match takePlace c (i + reach + 1 - start) (places.drop start) with
    | none => matchPlaces reach (i + 1) places cs
    | some rest =>
      let (found, last) := matchPlaces reach (i + 1) (places.take start ++ rest) cs
      (c :: found, last)

/-- Whether the similarity is seven tenths or more. -/
def similar (a b : String) : Bool :=
  let reach := max a.length b.length / 2 - 1
  let (found, places) := matchPlaces reach 0 (b.toList.map (·, false)) a.toList
  let other := (places.filter (·.2)).map (·.1)
  let shared := found.length
  let ordered := shared - ((List.zip found other).filter fun p => p.1 != p.2).length / 2
  shared != 0 &&
    21 * a.length * b.length * shared ≤
      10 * (shared * shared * (a.length + b.length) + ordered * a.length * b.length)

end LittleMan.Text
