import LittleMan.Debugger.Reader
import LittleMan.Proofs.Debugger.Readers
import LittleMan.Proofs.Source.Tokens

/-! Cursors that count bytes: they come by all pieces of a text, and never leave the text or stop
inside a character. -/
namespace LittleMan

namespace Text

variable {cut : Char → Bool} {c : Char} {p : List Char}

/-- What is not looked for is passed over, with all its bytes. -/
theorem findByte?_append (hp : ∀ d ∈ p, cut d = false) (rest : List Char) :
    findByte? cut (p ++ rest) = (findByte? cut rest).map (byteLength p + ·) := by
  induction p with
  | nil => simp
  | cons d p ih =>
    have hd : cut d = false := hp d List.mem_cons_self
    have hrest := ih fun e he => hp e (List.mem_cons_of_mem d he)
    rw [List.cons_append, findByte?, if_neg (by simp [hd]), hrest, Option.map_map]
    congr 1
    funext n
    simp [Nat.add_assoc]

theorem findByte?_append_cons (hp : ∀ d ∈ p, cut d = false) (hc : cut c = true)
    (rest : List Char) : findByte? cut (p ++ c :: rest) = some (byteLength p) := by
  rw [findByte?_append hp, findByte?, if_pos hc]
  rfl

theorem findByte?_eq_none (hp : ∀ d ∈ p, cut d = false) : findByte? cut p = none := by
  have hnone := findByte?_append hp []
  rwa [List.append_nil] at hnone

end Text

namespace Debugger.Reader

open Text

variable {r r' r'' : Reader} {rest rest' p : List Char} {k : Nat}

/-- One call, and then the others. -/
theorem calls_succ {α : Type} {next : Reader → Option (α × Reader)} {a : α} {as : List α}
    (h : next r = some (a, r')) (hc : calls next k r' = some (as, r'')) :
    calls next (k + 1) r = some (a :: as, r'') := by
  rw [calls, h, Option.bind_some]
  dsimp only
  rw [hc]
  rfl

/-- The position is where a character of the text begins, or its end, and `rest` is what is left. -/
def IsAt (r : Reader) (rest : List Char) : Prop :=
  ∃ before, r.buffer.toList = before ++ rest ∧ r.position = byteLength before

theorem isAt_start (text : String) : (start text).IsAt text.toList := ⟨[], rfl, rfl⟩

theorem IsAt.rest? (h : r.IsAt rest) : r.rest? = some rest := by
  obtain ⟨before, hb, hp⟩ := h
  unfold Reader.rest?
  rw [hb, hp, Source.dropBytes_append]

theorem IsAt.slice? (h : r.IsAt (p ++ rest)) :
    Source.slice? r.buffer ⟨r.position, byteLength p⟩ = some (String.ofList p) := by
  obtain ⟨before, hb, hp⟩ := h
  have hs := Source.slice?_append before p rest
  rwa [List.append_assoc, ← hb, String.ofList_toList, ← hp] at hs

/-- A delimiter takes up one byte. -/
theorem IsAt.skip {c : Char} (h : r.IsAt (p ++ c :: rest)) (hc : c.utf8Size = 1) :
    IsAt { r with position := r.position + byteLength p + 1 } rest := by
  obtain ⟨before, hb, hp⟩ := h
  refine ⟨before ++ p ++ [c], ?_, ?_⟩
  · rw [hb]
    simp
  · simp [byteLength_append, hp, hc, Nat.add_assoc]

/-- A reader of a text may also be past its end, where nothing is left. -/
def Awaits (r : Reader) (rest : List Char) : Prop :=
  r.IsAt rest ∨ rest = [] ∧ byteLength r.buffer.toList ≤ r.position

theorem Awaits.nextInText?_nil (h : r.Awaits []) : r.nextInText? = some (none, r) := by
  have hend : byteLength r.buffer.toList ≤ r.position := by
    rcases h with ⟨before, hb, hp⟩ | ⟨-, hle⟩
    · rw [hb, hp, List.append_nil]
    · exact hle
  exact if_pos hend

/-- While something is left, the reader takes what lies before the next delimiter. -/
theorem IsAt.nextInText?_eq (h : r.IsAt rest) (hne : rest ≠ []) {length : Nat}
    (hl : (findByte? isCut rest).getD (byteLength rest) = length) :
    r.nextInText? = some (Source.slice? r.buffer ⟨r.position, length⟩,
      { r with position := r.position + length + 1 }) := by
  have hinside : ¬byteLength r.buffer.toList ≤ r.position := by
    obtain ⟨before, hb, hp⟩ := h
    obtain ⟨c, cs, rfl⟩ := List.exists_cons_of_ne_nil hne
    have hpos : 0 < byteLength (c :: cs) := byteLength_pos cs
    rw [hb, byteLength_append, hp]
    omega
  subst hl
  unfold nextInText?
  rw [if_neg hinside, h.rest?]
  rfl

/-- The reader finds the next piece, and then awaits what follows its delimiter. -/
theorem Awaits.nextInText?_of_next (h : r.Awaits rest)
    (hn : nextPiece? isCut rest = some (p, rest')) :
    ∃ r', r.nextInText? = some (some (String.ofList p), r') ∧ r'.Awaits rest' := by
  rcases h with h | ⟨rfl, -⟩
  case inr => contradiction
  obtain ⟨hp, ⟨rfl, hne, rfl⟩ | ⟨c, hc, rfl⟩⟩ := nextPiece?_cases hn
  · -- without a delimiter the position ends up behind the text
    have hall : r.IsAt (rest ++ []) := by rwa [List.append_nil]
    have hfind : (findByte? isCut rest).getD (byteLength rest) = byteLength rest := by
      rw [findByte?_eq_none hp]
      rfl
    rw [h.nextInText?_eq hne hfind, hall.slice?]
    refine ⟨_, rfl, .inr ⟨rfl, ?_⟩⟩
    obtain ⟨before, hb, hpos⟩ := h
    dsimp only
    rw [hb, byteLength_append, hpos]
    omega
  · have hne : p ++ c :: rest' ≠ [] := by simp
    have hfind : (findByte? isCut (p ++ c :: rest')).getD (byteLength (p ++ c :: rest')) =
        byteLength p := by
      rw [findByte?_append_cons hp hc]
      rfl
    have hsize : c.utf8Size = 1 := by
      obtain rfl | rfl : c = '\n' ∨ c = ';' := by simpa [isCut] using hc
      · rfl
      · rfl
    rw [h.nextInText?_eq hne hfind, h.slice?]
    exact ⟨_, rfl, .inl (h.skip hsize)⟩

/-- The pieces that are left are returned in order, and after them none. -/
theorem Awaits.calls_nextInText? (h : r.Awaits rest) (k : Nat) :
    ∃ r', calls nextInText? k r = some ((List.range k).map fun i =>
      ((allPieces isCut rest).map fun p => String.ofList p.1)[i]?, r') := by
  induction k generalizing r rest with
  | zero => exact ⟨r, rfl⟩
  | succ k ih =>
    rw [List.range_succ_eq_map, List.map_cons, List.map_map]
    cases hn : nextPiece? isCut rest with
    | none =>
      obtain rfl : rest = [] := by
        cases rest with
        | nil => rfl
        | cons c cs => contradiction
      have hall : allPieces isCut [] = [] := by
        rw [allPieces]
        rfl
      obtain ⟨r', hr'⟩ := ih h
      rw [hall] at hr' ⊢
      exact ⟨r', calls_succ h.nextInText?_nil hr'⟩
    | some next =>
      obtain ⟨p, rest'⟩ := next
      obtain ⟨r', hr, h'⟩ := h.nextInText?_of_next hn
      obtain ⟨r'', hr''⟩ := ih h'
      have hall : allPieces isCut rest = (p, rest') :: allPieces isCut rest' := by
        rw [allPieces]
        split <;> simp_all
      rw [hall]
      exact ⟨r'', calls_succ hr hr''⟩

/-- The last piece of a line takes the reader back to the start. -/
theorem IsAt.nextOnLine?_of_last (h : r.IsAt rest) (hn : nextOnLine rest = (p, none)) :
    r.nextOnLine? = some (String.ofList p, { r with position := 0 }) := by
  obtain ⟨hp, hall | ⟨rest', hrest, -⟩⟩ := nextOnLine_cases rest
  · obtain rfl : p = rest := by simpa [hn] using hall
    rw [hn] at hp
    unfold nextOnLine?
    rw [h.rest?, Option.bind_some, findByte?_eq_none hp]
  · rw [hn] at hrest
    contradiction

theorem IsAt.nextOnLine?_of_next (h : r.IsAt rest) (hn : nextOnLine rest = (p, some rest')) :
    ∃ r', r.nextOnLine? = some (String.ofList p, r') ∧ r'.IsAt rest' ∧ 0 < r'.position := by
  obtain ⟨hp, hall | ⟨rest'', hrest, hcs⟩⟩ := nextOnLine_cases rest
  · rw [hn] at hall
    simp at hall
  · obtain rfl : rest' = rest'' := by simpa [hn] using hrest
    rw [hn] at hp hcs
    dsimp only at hp hcs
    subst hcs
    unfold nextOnLine?
    rw [h.rest?, Option.bind_some, findByte?_append_cons hp (by decide)]
    dsimp only
    rw [Source.takeBytes_append]
    exact ⟨_, rfl, h.skip (by decide), Nat.succ_pos _⟩

/-- The pieces of a line are returned in order, and only the last one leads back to the start. -/
theorem IsAt.calls_nextOnLine? (h : r.IsAt rest) (hk : 0 < k) (hle : k ≤ (allOnLine rest).length) :
    ∃ r', calls nextOnLine? k r = some (((allOnLine rest).take k).map String.ofList, r') ∧
      (r'.position = 0 ↔ k = (allOnLine rest).length) := by
  fun_induction allOnLine rest generalizing k r with
  | case1 rest p hn =>
    obtain rfl : k = 1 := Nat.le_antisymm hle hk
    refine ⟨_, calls_succ (h.nextOnLine?_of_last hn) rfl, ?_⟩
    simp
  | case2 rest p rest' hn ih =>
    obtain ⟨r', hr, h', hpos⟩ := h.nextOnLine?_of_next hn
    cases k with
    | zero => contradiction
    | succ k =>
      rw [List.length_cons] at hle ⊢
      by_cases hz : k = 0
      · subst hz
        have hne : 0 < (allOnLine rest').length := by
          rw [allOnLine]
          split <;> simp
        refine ⟨r', calls_succ hr rfl, ?_⟩
        omega
      · obtain ⟨r'', hr'', hend⟩ := ih h' (Nat.pos_of_ne_zero hz) (Nat.le_of_succ_le_succ hle)
        refine ⟨r'', calls_succ hr hr'', ?_⟩
        rw [hend]
        omega

/-- The pieces of a text between newlines and semicolons, without an empty one at the end. -/
def textPieces (text : String) : List String :=
  (withoutEmptyEnd (text.toList.splitOnP isCut)).map String.ofList

/-- The pieces of a line between semicolons. -/
def linePieces (line : String) : List String :=
  (line.toList.splitOnP (· == ';')).map String.ofList

theorem map_ofList_allPieces (text : String) :
    (allPieces isCut text.toList).map (fun p => String.ofList p.1) = textPieces text :=
  map_allPieces String.ofList isCut text.toList

theorem map_ofList_allOnLine (line : String) :
    (allOnLine line.toList).map String.ofList = linePieces line := by
  rw [allOnLine_eq]
  rfl

/-- However often they are called, readers return the pieces of their text, which are those of a
script. There are none behind the end of a text, and a line is back at its start just behind its
last piece. No call is a fault, so nothing is taken from beyond the text or from inside a
character. -/
theorem readers_return_pieces (text line : String) (k : Nat) :
    (∃ r, calls nextInText? k (start text) =
      some ((List.range k).map fun i => (textPieces text)[i]?, r)) ∧
    (∀ stdin, (Script.ofText text stdin).pieces.map (·.text) = textPieces text) ∧
    (0 < k → k ≤ (linePieces line).length →
      ∃ r, calls nextOnLine? k (start line) = some ((linePieces line).take k, r) ∧
        (r.position = 0 ↔ k = (linePieces line).length)) ∧
    (allOnLine line.toList).map String.ofList = linePieces line := by
  have hline := map_ofList_allOnLine line
  refine ⟨?_, ?_, ?_, hline⟩
  · have hcalls := Awaits.calls_nextInText? (.inl (isAt_start text)) k
    rwa [map_ofList_allPieces] at hcalls
  · intro stdin
    rw [← map_ofList_allPieces]
    exact List.map_map
  · intro hk hle
    rw [← hline, List.length_map] at hle
    rw [← hline, List.length_map, ← List.map_take]
    exact (isAt_start line).calls_nextOnLine? hk hle

/-- Letters of two bytes, and nothing between two semicolons. -/
theorem readers_return_pieces_umlauts :
    (∃ r, calls nextInText? 4 (start "é;;ü\n") = some ([some "é", some "", some "ü", none], r)) ∧
      ∃ r, calls nextOnLine? 3 (start "é;;ü") = some (["é", "", "ü"], r) ∧ r.position = 0 := by
  obtain ⟨htext, -, -, -⟩ := readers_return_pieces "é;;ü\n" "" 4
  obtain ⟨-, -, hline, -⟩ := readers_return_pieces "" "é;;ü" 3
  have htextPieces : textPieces "é;;ü\n" = ["é", "", "ü"] := by decide
  have hlinePieces : linePieces "é;;ü" = ["é", "", "ü"] := by decide
  rw [htextPieces] at htext
  rw [hlinePieces] at hline
  obtain ⟨r, hr, hend⟩ := hline (by decide) (by decide)
  exact ⟨htext, r, hr, hend.mpr rfl⟩

end Debugger.Reader

end LittleMan
