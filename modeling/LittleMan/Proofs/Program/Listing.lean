import LittleMan.Program.Listing
import LittleMan.Proofs.Program.WordList
import LittleMan.Proofs.Source.Rows

/-! Labels, lines of code and the listing of a program belong together one to one. The columns of
the listing are fixed because a program has a hundred words at most, of three digits each, and
because no label breaks a line. -/
namespace LittleMan

theorem Instruction.newline_not_mem_text (i : Instruction) : '\n' ∉ i.text.toList := by
  have hname : ∀ m : Mnemonic, '\n' ∉ m.name.toList := by
    intro m
    cases m <;> decide
  have haddress : ∀ n, '\n' ∉ (Decimal.zeroPadded 2 n).toList := by
    intro n hc
    rw [Decimal.toList_zeroPadded] at hc
    have hd := Decimal.isDigit_of_mem_paddedDigits hc
    contradiction
  unfold text
  split
  · next m a _ _ =>
    rw [String.toList_append, String.toList_append]
    simp [hname m, haddress a.val]
  · next m _ _ => exact hname m
  · decide

namespace Assembly

open Source

variable {src : String} {p : Program} {i : Nat} {t : String}

theorem newline_not_mem_label (h : (labelWord? src i).map stripColon = some t) :
    '\n' ∉ t.toList := by
  obtain ⟨written, hw, rfl⟩ := Option.map_eq_some_iff.mp h
  obtain ⟨l, hl, rfl⟩ := exists_line_of_labelWord? hw
  have hplain := (plainWord_of_mem_words hl List.mem_cons_self).newline_not_mem
  intro hc
  rcases stripColon_cases l.first.text with he | he
  · rw [he] at hc
    exact hplain hc
  · rw [he, String.toList_append] at hplain
    exact hplain (List.mem_append_left _ hc)

theorem Accepted.get?_labelWord (h : Accepted (statements src) p)
    (ht : labelWord? src i = some t) : p.symbols.get? t = some i := by
  have hl := text_labelAt src i
  rw [ht] at hl
  obtain ⟨label, hlabel, hn⟩ := Option.map_eq_some_iff.mp hl
  rw [h.symbols_eq]
  exact (find?_tableOf (distinct_of_clean h.draft)).mpr ⟨label, hlabel, hn⟩

theorem Accepted.labelAt?_eq (h : Accepted (statements src) p) (i : Nat) :
    p.symbols.labelAt? i = (labelWord? src i).map stripColon := by
  rw [h.symbols_eq, labelAt?_tableOf, text_labelAt]

end Assembly

namespace Program

variable {p : Program} {i w : Nat}

/-- A line of the listing: the address in two digits, the word in three, the label filled up to ten
characters and the instruction. -/
def listingRow (i w : Nat) (label : String) : List Char :=
  [Decimal.digitChar (i / 10), Decimal.digitChar (i % 10), ' ', ' ',
    Decimal.digitChar (w / 100), Decimal.digitChar (w / 10 % 10), Decimal.digitChar (w % 10),
    ' ', ' '] ++
    (label.toList ++ List.replicate (10 - label.length) ' ') ++
    ' ' :: (Instruction.decode w).text.toList

/-- The listing line by line. -/
def listingRows (p : Program) : List (List Char) :=
  p.words.mapIdx fun i w => listingRow i w ((p.symbols.labelAt? i).getD "")

theorem toList_listingLine (p : Program) (hi : i < 100) (hw : w < 1000) :
    (p.listingLine i w).toList =
      listingRow i w ((p.symbols.labelAt? i).getD "") ++ ['\n'] := by
  unfold listingLine listingRow Text.padRight List.rightpad
  simp only [String.toList_append, Decimal.toList_zeroPadded, Decimal.paddedDigits_two hi,
    Decimal.paddedDigits_three hw, String.toList_ofList, String.length_toList]
  simp

theorem newline_not_mem_listingRow {label : String} (hi : i < 100) (hw : w < 1000)
    (hl : '\n' ∉ label.toList) : '\n' ∉ listingRow i w label := by
  have hdigit : ∀ d < 10, '\n' ≠ Decimal.digitChar d := by decide
  have htens : '\n' ≠ Decimal.digitChar (i / 10) := hdigit _ (by omega)
  have hhundreds : '\n' ≠ Decimal.digitChar (w / 100) := hdigit _ (by omega)
  have hlast : ∀ n, '\n' ≠ Decimal.digitChar (n % 10) := fun n => hdigit _ (by omega)
  have htext := (Instruction.decode w).newline_not_mem_text
  unfold listingRow
  simp [htens, hhundreds, hlast, hl, htext]

theorem digits_listingRow (label : String) (hw : w < 1000) :
    ((listingRow i w label).drop 4).take 3 = Decimal.paddedDigits 3 w := by
  rw [Decimal.paddedDigits_three hw]
  rfl

theorem Fits.of_getElem? (h : p.Fits) (hw : p.words[i]? = some w) : i < 100 ∧ w < 1000 := by
  have hi : i < p.words.length := (List.getElem?_eq_some_iff.mp hw).1
  exact ⟨Nat.lt_of_lt_of_le hi h.length, h.words w (List.mem_of_getElem? hw)⟩

theorem getElem?_listingRows (p : Program) (i : Nat) :
    p.listingRows[i]? =
      p.words[i]?.map fun w => listingRow i w ((p.symbols.labelAt? i).getD "") :=
  List.getElem?_mapIdx

theorem toList_listing (h : p.Fits) :
    p.listing.toList = p.listingRows.flatMap (· ++ ['\n']) := by
  have hrows : (p.words.mapIdx p.listingLine).map String.toList =
      p.listingRows.map (· ++ ['\n']) := by
    apply List.ext_getElem?
    intro i
    rw [List.getElem?_map, List.getElem?_map, List.getElem?_mapIdx, getElem?_listingRows]
    cases hw : p.words[i]? with
    | none => rfl
    | some w =>
      obtain ⟨hi, hw'⟩ := h.of_getElem? hw
      exact congrArg some (toList_listingLine p hi hw')
  unfold listing
  rw [String.toList_join, List.flatMap_def, hrows, List.flatMap_def]

theorem splitOnP_listing (h : p.Fits)
    (hl : ∀ i t, p.symbols.labelAt? i = some t → '\n' ∉ t.toList) :
    p.listing.toList.splitOnP (· == '\n') = p.listingRows ++ [[]] := by
  rw [toList_listing h]
  apply Text.splitOnP_flatMap (by decide)
  intro row hrow c hc
  obtain ⟨i, hi, rfl⟩ := List.mem_mapIdx.mp hrow
  obtain ⟨hi', hw⟩ := h.of_getElem? (List.getElem?_eq_getElem hi)
  have hlabel : '\n' ∉ ((p.symbols.labelAt? i).getD "").toList := by
    cases ht : p.symbols.labelAt? i with
    | none => exact List.not_mem_nil
    | some t => exact hl i t ht
  have hn := newline_not_mem_listingRow hi' hw hlabel
  rw [beq_eq_false_iff_ne]
  rintro rfl
  exact hn hc

/-- The digits of the words in their column are the word list. -/
theorem toList_wordList_of_rows (h : p.Fits) :
    p.wordList.toList = p.listingRows.flatMap fun row => (row.drop 4).take 3 ++ ['\n'] := by
  have hrows : p.listingRows.map (fun row => (row.drop 4).take 3) =
      p.words.map (Decimal.paddedDigits 3) := by
    apply List.ext_getElem?
    intro i
    rw [List.getElem?_map, List.getElem?_map, getElem?_listingRows]
    cases hw : p.words[i]? with
    | none => rfl
    | some w => exact congrArg some (digits_listingRow _ (h.of_getElem? hw).2)
  rw [toList_wordList, ← hrows, List.flatMap_map]

/-- The addresses of labels increase from line to line. A label leads to its line, however it is
written there, and the line leads back to the label. The listing has a line for each word, which no
label breaks, and the word list is what stands in its column of words. -/
theorem listing_of_assemble {src : String} (h : assemble src = .ok p) :
    (p.symbols.entries.Pairwise fun e e' => e.2 < e'.2) ∧
      (∀ i t, Assembly.labelWord? src i = some t → p.symbols.get? t = some i) ∧
      (∀ i, p.symbols.labelAt? i = (Assembly.labelWord? src i).map Source.stripColon) ∧
      (∀ (i : Nat) w, p.words[i]? = some w → i < 100 ∧ w < 1000) ∧
      p.listing.toList.splitOnP (· == '\n') = p.listingRows ++ [[]] ∧
      p.wordList.toList = p.listingRows.flatMap fun row => (row.drop 4).take 3 ++ ['\n'] := by
  have ha := Assembly.accepted_of_assemble h
  have hfits := ha.fits
  have hrows : p.listing.toList.splitOnP (· == '\n') = p.listingRows ++ [[]] := by
    apply splitOnP_listing hfits
    intro i t ht
    rw [ha.labelAt?_eq] at ht
    exact Assembly.newline_not_mem_label ht
  refine ⟨?_, ?_, ha.labelAt?_eq, ?_, hrows, toList_wordList_of_rows hfits⟩
  · rw [ha.symbols_eq]
    exact Assembly.pairwise_definitions _
  · intro i t ht
    exact ha.get?_labelWord ht
  · intro i w hw
    exact hfits.of_getElem? hw

theorem listing_of_assemble_letters :
    let src := "LDA größe:\nweiter: OUT\n\nHLT\ngröße DAT 7"
    let p : Program :=
      ⟨[503, 902, 0, 7], ⟨[("weiter", 1), ("größe", 3)]⟩,
        [⟨0, 12⟩, ⟨13, 11⟩, ⟨26, 3⟩, ⟨30, 13⟩]⟩
    assemble src = .ok p ∧ p.symbols.get? "weiter:" = some 1 ∧
      p.symbols.labelAt? 3 = some "größe" ∧ p.symbols.labelAt? 2 = none ∧
      p.listing.toList.splitOnP (· == '\n') =
        ["00  503             LDA 03".toList, "01  902  weiter     OUT".toList,
          "02  000             HLT".toList, "03  007  größe      HLT".toList, []] := by
  intro src p
  have ha : assemble src = .ok p := ok_of_toOption (by decide +kernel)
  obtain ⟨-, hget, hlabel, -, hrows, -⟩ := listing_of_assemble ha
  have hwritten : Assembly.labelWord? src 1 = some "weiter:" := by decide +kernel
  refine ⟨ha, hget 1 _ hwritten, ?_, ?_, ?_⟩
  · rw [hlabel]
    decide +kernel
  · rw [hlabel]
    decide +kernel
  · rw [hrows]
    decide +kernel

end Program

end LittleMan
