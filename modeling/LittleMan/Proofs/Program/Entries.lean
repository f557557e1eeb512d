import LittleMan.Proofs.Source.Slices
import LittleMan.Proofs.Text.Decimal
import LittleMan.Proofs.Text.Trimming
import LittleMan.Program.WordList

/-! What word lists are read as: the rows that are not blank, each of them an integer but for blanks
around it. A row that is none is reported where it stands, and only if there is no such row the
number of words matters. -/
namespace LittleMan.WordList

open Decimal

variable {cs row before : List Char} {w text : String}

/-- An integer in decimal notation, with a sign or without, that fits in 64 bits. -/
structure Numeral (w : String) : Prop where
  literal : isLiteral w = true
  fits : signed64.Holds (denoted w)

/-- What a row says, if it is not blank. -/
def entryOf? (row : List Char) : Option String :=
  if Text.trimmed row = [] then none else some (String.ofList (Text.trimmed row))

def rowsOf (cs : List Char) : List (List Char) := cs.splitOnP (· == '\n')

def entries (text : String) : List String := (rowsOf text.toList).filterMap entryOf?

/-- The first entry that is no numeral, in the row behind as many newlines as stand before it. -/
structure FirstFault (cs : List Char) (w : String) (before : List Char) : Prop where
  fault : ¬Numeral w
  place : ∃ behind, cs = before ++ w.toList ++ behind
  row : ∃ above row below, rowsOf cs = above ++ row :: below ∧ above.length = before.count '\n' ∧
    entryOf? row = some w ∧ ∀ u ∈ above.filterMap entryOf?, Numeral u

theorem read?_of_numeral (h : Numeral w) : read? signed64 w = some (denoted w) := by
  have hread := read?_eq_some_iff (s := w) (v := denoted w) (b := signed64) (by decide) (by decide)
  exact hread.mpr ⟨h.literal, rfl, h.fits⟩

theorem read?_of_not_numeral (h : ¬Numeral w) : read? signed64 w = none := by
  rw [Option.eq_none_iff_forall_not_mem]
  intro v hv
  obtain ⟨hliteral, rfl, hfits⟩ := (read?_eq_some_iff (by decide) (by decide)).mp hv
  exact h ⟨hliteral, hfits⟩

theorem exists_of_entryOf? (h : entryOf? row = some w) :
    ∃ trail, row = row.takeWhile Text.isBlank ++ w.toList ++ trail := by
  unfold entryOf? at h
  split at h
  · contradiction
  · obtain rfl := Option.some.inj h
    obtain ⟨trail, hrow, -⟩ := Text.exists_trimmed row
    rw [String.toList_ofList]
    exact ⟨trail, hrow⟩

/-- A row is passed over if it is blank or a numeral, and otherwise it is reported. -/
theorem valuesFrom_cons (line offset : Nat) (row : List Char) (rows : List (List Char)) :
    ((∀ w ∈ entryOf? row, Numeral w) ∧
      valuesFrom line offset (row :: rows) =
        (valuesFrom (line + 1) (offset + Text.byteLength row + 1) rows).map
          ((entryOf? row).toList.map denoted ++ ·)) ∨
    ∃ w, entryOf? row = some w ∧ ¬Numeral w ∧
      valuesFrom line offset (row :: rows) =
        .error (.invalidWord w line
          ⟨offset + Text.byteLength (row.takeWhile Text.isBlank), Text.byteLength w.toList⟩) := by
  rw [valuesFrom]
  dsimp only
  by_cases hblank : Text.trimmed row = []
  · left
    have hentry : entryOf? row = none := if_pos hblank
    rw [if_pos hblank, hentry]
    constructor
    · simp
    · cases valuesFrom (line + 1) (offset + Text.byteLength row + 1) rows <;> rfl
  · have hentry : entryOf? row = some (String.ofList (Text.trimmed row)) := if_neg hblank
    rw [if_neg hblank, hentry]
    by_cases hw : Numeral (String.ofList (Text.trimmed row))
    · left
      rw [read?_of_numeral hw]
      constructor
      · simpa using hw
      · cases valuesFrom (line + 1) (offset + Text.byteLength row + 1) rows <;> rfl
    · right
      rw [read?_of_not_numeral hw]
      refine ⟨_, rfl, hw, ?_⟩
      rw [String.toList_ofList]

theorem filterMap_entryOf?_cons (row : List Char) (rows : List (List Char)) :
    (row :: rows).filterMap entryOf? = (entryOf? row).toList ++ rows.filterMap entryOf? := by
  rw [List.filterMap_cons]
  cases entryOf? row <;> rfl

theorem count_newline {cs : List Char} (h : ∀ c ∈ cs, (c == '\n') = false) :
    cs.count '\n' = 0 := by
  rw [List.count_eq_zero]
  intro hn
  have := h '\n' hn
  contradiction

/-- A text begins with a row that is fine, or else its first fault is in that row. -/
theorem valuesFrom_first {rest : List Char} {below : List (List Char)}
    (hrow : ∀ c ∈ row, (c == '\n') = false) (hrows : rowsOf (row ++ rest) = row :: below)
    (line offset : Nat) :
    ((∀ w ∈ entryOf? row, Numeral w) ∧
      valuesFrom line offset (row :: below) =
        (valuesFrom (line + 1) (offset + Text.byteLength row + 1) below).map
          ((entryOf? row).toList.map denoted ++ ·)) ∨
    ∃ w before, FirstFault (row ++ rest) w before ∧
      valuesFrom line offset (row :: below) =
        .error (.invalidWord w (line + before.count '\n')
          ⟨offset + Text.byteLength before, Text.byteLength w.toList⟩) := by
  rcases valuesFrom_cons line offset row below with hfine | ⟨w, hentry, hfault, hvalues⟩
  · exact .inl hfine
  · right
    have hlead : (row.takeWhile Text.isBlank).count '\n' = 0 :=
      count_newline fun c hc => hrow c ((List.takeWhile_prefix _).subset hc)
    obtain ⟨trail, htrail⟩ := exists_of_entryOf? hentry
    refine ⟨w, row.takeWhile Text.isBlank, ⟨hfault, ⟨trail ++ rest, ?_⟩, ?_⟩, ?_⟩
    · conv_lhs => rw [htrail]
      exact List.append_assoc _ _ _
    · refine ⟨[], row, below, hrows, hlead.symm, hentry, ?_⟩
      simp
    · rw [hlead]
      exact hvalues

/-- A fault behind a row that is fine. -/
theorem FirstFault.behind (h : FirstFault cs w before) (hrow : ∀ c ∈ row, (c == '\n') = false)
    (hrows : rowsOf (row ++ '\n' :: cs) = row :: rowsOf cs)
    (hfine : ∀ u ∈ entryOf? row, Numeral u) :
    FirstFault (row ++ '\n' :: cs) w (row ++ '\n' :: before) where
  fault := h.fault
  place := by
    obtain ⟨behind, hcs⟩ := h.place
    refine ⟨behind, ?_⟩
    rw [hcs]
    simp
  row := by
    obtain ⟨above, next, below, hsplit, hlength, hnext, habove⟩ := h.row
    refine ⟨row :: above, next, below, ?_, ?_, hnext, ?_⟩
    · rw [hrows, hsplit]
      rfl
    · rw [List.count_append, count_newline hrow, List.count_cons_self, List.length_cons, hlength]
      omega
    · intro u hu
      rw [filterMap_entryOf?_cons] at hu
      rcases List.mem_append.mp hu with hu | hu
      · exact hfine u (Option.mem_toList.mp hu)
      · exact habove u hu

/-- The rows are read up to the first fault. Lines and bytes are counted on from those given. -/
theorem valuesFrom_cases (line offset : Nat) (cs : List Char) :
    ((∀ w ∈ (rowsOf cs).filterMap entryOf?, Numeral w) ∧
      valuesFrom line offset (rowsOf cs) = .ok (((rowsOf cs).filterMap entryOf?).map denoted)) ∨
    ∃ w before, FirstFault cs w before ∧
      valuesFrom line offset (rowsOf cs) =
        .error (.invalidWord w (line + before.count '\n')
          ⟨offset + Text.byteLength before, Text.byteLength w.toList⟩) := by
  induction cs using Text.splitOnP_induction (· == '\n') generalizing line offset with
  | piece row hrow =>
    have hrows : rowsOf row = [row] := List.splitOnP_eq_singleton hrow
    have hrows' : rowsOf (row ++ []) = [row] := by rw [List.append_nil, hrows]
    have hfirst := valuesFrom_first hrow hrows' line offset
    rw [List.append_nil] at hfirst
    rw [hrows]
    rcases hfirst with ⟨hfine, hvalues⟩ | hfault
    · left
      rw [filterMap_entryOf?_cons, hvalues]
      constructor
      · simpa using hfine
      · simp [valuesFrom, Except.map]
    · exact .inr hfault
  | cons row d cs hrow hd ih =>
    obtain rfl : d = '\n' := by simpa using hd
    have hrows : rowsOf (row ++ '\n' :: cs) = row :: rowsOf cs :=
      List.splitOnP_append_cons_of_forall_mem hrow _ hd cs
    have hn : Char.utf8Size '\n' = 1 := by decide
    rw [hrows]
    rcases valuesFrom_first hrow hrows line offset with ⟨hfine, hvalues⟩ | hfault
    · rw [filterMap_entryOf?_cons, hvalues]
      have hbelow := ih (line + 1) (offset + Text.byteLength row + 1)
      rcases hbelow with ⟨hrest, hread⟩ | ⟨w, before, hfault, hread⟩
      · left
        rw [hread]
        constructor
        · intro w hw
          rcases List.mem_append.mp hw with hw | hw
          · exact hfine w (Option.mem_toList.mp hw)
          · exact hrest w hw
        · simp [Except.map]
      · right
        refine ⟨w, row ++ '\n' :: before, hfault.behind hrow hrows hfine, ?_⟩
        have hline : line + (row ++ '\n' :: before).count '\n' = line + 1 + before.count '\n' := by
          rw [List.count_append, count_newline hrow, List.count_cons_self]
          omega
        have hoffset : offset + Text.byteLength (row ++ '\n' :: before) =
            offset + Text.byteLength row + 1 + Text.byteLength before := by
          rw [Text.byteLength_append, Text.byteLength_cons, hn]
          omega
        rw [hread, hline, hoffset]
        rfl
    · exact .inr hfault

/-- A word that is reported is an entry of the text, and none that could be read. -/
theorem FirstFault.not_all (h : FirstFault text.toList w before) :
    ¬∀ w ∈ entries text, Numeral w := by
  obtain ⟨above, row, below, hrows, -, hw, -⟩ := h.row
  intro hall
  apply h.fault
  apply hall
  rw [entries, hrows, List.filterMap_append, List.filterMap_cons, hw]
  simp

/-- The place that is reported covers the word. -/
theorem FirstFault.slice? (h : FirstFault text.toList w before) :
    Source.slice? text ⟨Text.byteLength before, Text.byteLength w.toList⟩ = some w := by
  obtain ⟨behind, htext⟩ := h.place
  exact Source.slice?_eq_some_iff.mpr ⟨before, behind, htext, rfl⟩

theorem ofWordList_cases (text : String) :
    ((∀ w ∈ entries text, Numeral w) ∧ (entries text).length ≤ 100 ∧
      Program.ofWordList text = .ok (.ofWords ((entries text).map denoted))) ∨
    ((∀ w ∈ entries text, Numeral w) ∧ 100 < (entries text).length ∧
      Program.ofWordList text = .error (.tooLong (entries text).length)) ∨
    ∃ w before, FirstFault text.toList w before ∧
      Program.ofWordList text = .error (.invalidWord w (1 + before.count '\n')
        ⟨Text.byteLength before, Text.byteLength w.toList⟩) := by
  have hrows : Text.pieces (· = '\n') text.toList = rowsOf text.toList :=
    Text.pieces_eq_splitOnP _ _
  have hlength : ((entries text).map denoted).length = (entries text).length := List.length_map _
  unfold Program.ofWordList values
  rw [hrows]
  rcases valuesFrom_cases 1 0 text.toList with ⟨hfine, hvalues⟩ | ⟨w, before, hfault, hvalues⟩
  · have hread : valuesFrom 1 0 (rowsOf text.toList) = .ok ((entries text).map denoted) := hvalues
    rw [hread]
    by_cases hn : (entries text).length ≤ 100
    · refine .inl ⟨hfine, hn, ?_⟩
      have hroom : ((entries text).map denoted).length ≤ memorySize := by rwa [hlength]
      exact congrArg _ (if_pos hroom)
    · refine .inr (.inl ⟨hfine, by omega, ?_⟩)
      have hroom : ¬((entries text).map denoted).length ≤ memorySize := by rwa [hlength]
      rw [← hlength]
      exact congrArg _ (if_neg hroom)
  · rw [Nat.zero_add] at hvalues
    refine .inr (.inr ⟨w, before, hfault, ?_⟩)
    rw [hvalues]
    rfl

/-- A word list is read if all its entries are numerals and the memory has room for them, and its
words are what these stand for. Otherwise the first entry that is no numeral is reported, on its
line and in its place, and if there is none it is the number of entries. -/
theorem ofWordList_outcome (text : String) :
    ((∃ p, Program.ofWordList text = .ok p) ↔
      (∀ w ∈ entries text, Numeral w) ∧ (entries text).length ≤ 100) ∧
    (∀ p, Program.ofWordList text = .ok p →
      p.words = (entries text).map fun w => (denoted w % 1000).toNat) ∧
    ((∃ w ∈ entries text, ¬Numeral w) →
      ∃ w before place, FirstFault text.toList w before ∧
        place = ⟨Text.byteLength before, Text.byteLength w.toList⟩ ∧
        Source.slice? text place = some w ∧
        Program.ofWordList text = .error (.invalidWord w (1 + before.count '\n') place)) ∧
    ((∀ w ∈ entries text, Numeral w) → 100 < (entries text).length →
      Program.ofWordList text = .error (.tooLong (entries text).length)) := by
  have hsome : (∃ w ∈ entries text, ¬Numeral w) ↔ ¬∀ w ∈ entries text, Numeral w := by
    simp
  rw [hsome]
  rcases ofWordList_cases text with ⟨hfine, hn, ho⟩ | ⟨hfine, hn, ho⟩ | ⟨w, before, hfault, ho⟩
  · rw [ho]
    refine ⟨⟨fun _ => ⟨hfine, hn⟩, fun _ => ⟨_, rfl⟩⟩, ?_, fun h => absurd hfine h, ?_⟩
    · intro p hp
      obtain rfl := Except.ok.inj hp
      have htake : ((entries text).map denoted).take 100 = (entries text).map denoted :=
        List.take_of_length_le (by rwa [List.length_map])
      change (((entries text).map denoted).take 100).map Word.ofInt = _
      rw [htake, List.map_map]
      rfl
    · intro _ hlong
      omega
  · rw [ho]
    refine ⟨⟨?_, ?_⟩, ?_, fun h => absurd hfine h, fun _ _ => rfl⟩
    · rintro ⟨p, hp⟩
      contradiction
    · rintro ⟨-, hshort⟩
      omega
    · intro p hp
      contradiction
  · rw [ho]
    refine ⟨⟨?_, ?_⟩, ?_, ?_, fun h => absurd h hfault.not_all⟩
    · rintro ⟨p, hp⟩
      contradiction
    · rintro ⟨hfine, -⟩
      exact absurd hfine hfault.not_all
    · intro p hp
      contradiction
    · intro _
      exact ⟨w, before, _, hfault, rfl, hfault.slice?, rfl⟩

theorem ofWordList_outcome_untidy :
    Program.ofWordList " +7\r\n\n\u3000é 5\n?" = .error (.invalidWord "é 5" 3 ⟨9, 4⟩) ∧
      ∃ before, FirstFault " +7\r\n\n\u3000é 5\n?".toList "é 5" before ∧
        before.count '\n' = 2 ∧ Text.byteLength before = 9 := by
  have hrun : Program.ofWordList " +7\r\n\n\u3000é 5\n?" =
      .error (.invalidWord "é 5" 3 ⟨9, 4⟩) := by decide +kernel
  have hmem : "é 5" ∈ entries " +7\r\n\n\u3000é 5\n?" := by decide +kernel
  have hbad : ¬Numeral "é 5" := by
    intro h
    have := h.literal
    contradiction
  obtain ⟨-, -, hfault, -⟩ := ofWordList_outcome " +7\r\n\n\u3000é 5\n?"
  obtain ⟨w, before, place, hfirst, hplace, -, herror⟩ := hfault ⟨_, hmem, hbad⟩
  rw [hrun] at herror
  obtain ⟨rfl, hline, rfl⟩ := Error.invalidWord.inj (Except.error.inj herror)
  obtain ⟨hoffset, -⟩ := Span.mk.inj hplace
  exact ⟨hrun, before, hfirst, by omega, hoffset.symm⟩

end LittleMan.WordList
