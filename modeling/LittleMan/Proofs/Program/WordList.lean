import LittleMan.Execution
import LittleMan.Program.WordList
import LittleMan.Proofs.Assembly.Outcome
import LittleMan.Proofs.Text.Decimal
import LittleMan.Proofs.Text.Pieces
import Mathlib.Data.List.GetD

/-! Word lists lose nothing of a program that a run needs: what is written is read back as the same
words, for every program that can be made. -/
namespace LittleMan

namespace Text

theorem trimmed_of_no_blank {cs : List Char} (h : ∀ c ∈ cs, isBlank c = false) :
    trimmed cs = cs := by
  have hd : ∀ ds : List Char, (∀ c ∈ ds, isBlank c = false) → ds.dropWhile isBlank = ds := by
    intro ds hds
    cases ds with
    | nil => rfl
    | cons c ds => exact List.dropWhile_cons_of_neg (by simp [hds c List.mem_cons_self])
  have hr : ∀ c ∈ cs.reverse, isBlank c = false := fun c hc => h c (List.mem_reverse.mp hc)
  unfold trimmed dropBlanksEnd
  rw [hd cs h, hd cs.reverse hr, List.reverse_reverse]

end Text

namespace Program

/-- The ways in which programs are made. -/
inductive Made : Program → Prop
  | assembled {src : String} {p : Program} (h : assemble src = .ok p) : Made p
  | ofWords (words : List Int) : Made (.ofWords words)
  | ofWordList {text : String} {p : Program} (h : Program.ofWordList text = .ok p) : Made p

/-- A program that the memory has room for, cell by cell. -/
structure Fits (p : Program) : Prop where
  length : p.words.length ≤ 100
  words : ∀ w ∈ p.words, w < 1000

variable {p : Program}

theorem fits_ofWords (words : List Int) : (ofWords words).Fits where
  length := by
    rw [ofWords, List.length_map, List.length_take]
    exact Nat.min_le_left memorySize words.length
  words := by
    intro w hw
    obtain ⟨v, -, rfl⟩ := List.mem_map.mp hw
    exact Word.ofInt_lt v

theorem ofWordList_eq_ofWords {text : String} (h : ofWordList text = .ok p) :
    ∃ words, p = ofWords words := by
  unfold ofWordList at h
  cases hv : WordList.values text with
  | error e => rw [hv] at h; contradiction
  | ok words =>
    rw [hv] at h
    exact ⟨words, (Except.ok.inj h).symm⟩

end Program

namespace Assembly

open Source

variable {L : List Statement} {s : Statement}

theorem WordOf.lt {w : Nat} (h : WordOf L s w) : w < 1000 := by
  cases h with
  | labelOnly _ => decide
  | data _ _ => exact Word.ofInt_lt _
  | address _ hb _ ha =>
    simp only [bases, List.mem_cons, Prod.mk.injEq, List.not_mem_nil, or_false] at hb
    omega
  | input _ => decide
  | output _ => decide
  | halt _ => decide

theorem Accepted.fits {p : Program} (h : Accepted L p) : p.Fits where
  length := by
    rw [h.length]
    exact length_le_of_clean h.draft
  words := by
    intro w hw
    obtain ⟨i, hi, rfl⟩ := List.getElem_of_mem hw
    have hl : i < L.length := by
      rw [← h.length]
      exact hi
    exact (h.word i _ _ (List.getElem?_eq_getElem hl) (List.getElem?_eq_getElem hi)).lt

end Assembly

namespace Program

variable {p : Program}

theorem Made.fits (h : p.Made) : p.Fits := by
  cases h with
  | assembled h => exact (Assembly.accepted_of_assemble h).fits
  | ofWords words => exact fits_ofWords words
  | ofWordList h =>
    obtain ⟨words, rfl⟩ := ofWordList_eq_ofWords h
    exact fits_ofWords words

/-- Lines with one word each, and nothing behind the last of them. -/
theorem valuesFrom_paddedDigits (line offset : Nat) {ws : List Nat} (h : ∀ w ∈ ws, w < 1000) :
    WordList.valuesFrom line offset (ws.map (Decimal.paddedDigits 3) ++ [[]]) =
      .ok (ws.map Int.ofNat) := by
  induction ws generalizing line offset with
  | nil => rfl
  | cons w ws ih =>
    have hw : (w : Int) ≤ Decimal.signed64.hi := by
      have := h w List.mem_cons_self
      simp only [Decimal.signed64]
      omega
    have hr : Decimal.read? Decimal.signed64 (String.ofList (Decimal.paddedDigits 3 w)) =
        some (w : Int) :=
      Decimal.read?_zeroPadded 3 (by decide) hw
    have ht : Text.trimmed (Decimal.paddedDigits 3 w) = Decimal.paddedDigits 3 w :=
      Text.trimmed_of_no_blank fun c hc =>
        Decimal.isBlank_of_isDigit (Decimal.isDigit_of_mem_paddedDigits hc)
    have hws : ∀ v ∈ ws, v < 1000 := fun v hv => h v (List.mem_cons_of_mem w hv)
    rw [List.map_cons, List.cons_append, WordList.valuesFrom]
    dsimp only
    rw [ht, if_neg (Decimal.paddedDigits_ne_nil 3 w)]
    rw [hr]
    dsimp only
    rw [ih _ _ hws]
    rfl

theorem toList_wordList (p : Program) :
    p.wordList.toList = (p.words.map (Decimal.paddedDigits 3)).flatMap (· ++ ['\n']) := by
  unfold wordList
  rw [String.toList_join, List.flatMap_map, List.flatMap_map]
  congr 1
  funext w
  rw [String.toList_append, Decimal.toList_zeroPadded]
  rfl

theorem pieces_wordList (p : Program) :
    Text.pieces (· = '\n') p.wordList.toList = p.words.map (Decimal.paddedDigits 3) ++ [[]] := by
  rw [Text.pieces_eq_splitOnP, toList_wordList]
  apply Text.splitOnP_flatMap (by decide)
  intro row hrow c hc
  obtain ⟨w, -, rfl⟩ := List.mem_map.mp hrow
  have hb := Decimal.isDigit_of_mem_paddedDigits hc
  rw [decide_eq_false_iff_not]
  rintro rfl
  contradiction

theorem words_ofWords_of_fits (h : p.Fits) : (ofWords (p.words.map Int.ofNat)).words = p.words := by
  have hw : ∀ w ∈ p.words, Word.ofInt (Int.ofNat w) = w := fun w hw =>
    Word.ofInt_natCast (h.words w hw)
  unfold ofWords
  dsimp only
  rw [List.take_of_length_le (by simpa [memorySize] using h.length), List.map_map]
  exact (List.map_congr_left hw).trans (List.map_id p.words)

theorem ofWordList_wordList_of_fits (h : p.Fits) :
    ∃ q, ofWordList p.wordList = .ok q ∧ q.words = p.words := by
  refine ⟨_, ?_, words_ofWords_of_fits h⟩
  unfold ofWordList WordList.values
  rw [pieces_wordList, valuesFrom_paddedDigits 1 0 h.words]
  change (if (p.words.map Int.ofNat).length ≤ memorySize then _ else _ : Except _ _).map _ = _
  rw [if_pos (by simpa [memorySize] using h.length)]
  rfl

/-- A machine that has just been given its words. -/
def freshWith (words : List Nat) : Machine :=
  { memory := Vector.ofFn fun a => words.getD a.val 0
    accumulator := 0
    counter := ⟨0, by decide⟩
    fetched := 0
    flag := .running }

theorem load_of_fits (h : p.Fits) : Machine.load p.words = freshWith p.words := by
  have hm : (fun a : Address => Word.ofInt ((p.words[a.val]?).getD 0 : Nat)) =
      fun a : Address => p.words.getD a.val 0 := by
    funext a
    by_cases ha : a.val < p.words.length
    · have hw := h.words _ (List.getElem_mem ha)
      rw [List.getElem?_eq_getElem ha, List.getD_eq_getElem _ _ ha]
      exact Word.ofInt_natCast hw
    · have hn : p.words.length ≤ a.val := Nat.le_of_not_lt ha
      rw [List.getElem?_eq_none hn, List.getD_eq_default _ _ hn]
      rfl
  unfold Machine.load freshWith
  exact congrArg (fun f => { Machine.blank with memory := Vector.ofFn f }) hm

/-- However a program was made, its word list is read back as its words. The machine is loaded with
the same cells, and runs without the debugger are the same, whatever they are given. -/
theorem ofWordList_wordList (h : p.Made) :
    ∃ q, ofWordList p.wordList = .ok q ∧ q.words = p.words ∧
      Machine.load q.words = freshWith p.words ∧ Machine.load p.words = freshWith p.words ∧
      ∀ source source' inputs stdin environment,
        Job.run ⟨q, source', inputs, stdin, .ofVariables environment⟩ =
          Job.run ⟨p, source, inputs, stdin, .ofVariables environment⟩ := by
  have hp := h.fits
  obtain ⟨q, hq, hw⟩ := ofWordList_wordList_of_fits hp
  refine ⟨q, hq, hw, ?_, load_of_fits hp, ?_⟩
  · rw [hw]
    exact load_of_fits hp
  · intro source source' inputs stdin environment
    unfold Job.run Job.computer
    rw [hw]

/-- Emits a negative number from the last of its cells. -/
def negative : Program :=
  ⟨[503, 902, 0, 995], ⟨[("NEG", 3)]⟩, [⟨0, 7⟩, ⟨8, 3⟩, ⟨12, 3⟩, ⟨16, 10⟩]⟩

theorem ofWordList_wordList_negative :
    assemble "LDA NEG\nOUT\nHLT\nNEG DAT -5" = .ok negative ∧
      negative.wordList = "503\n902\n000\n995\n" ∧
      ∃ q, ofWordList negative.wordList = .ok q ∧ q.words = [503, 902, 0, 995] ∧
        Machine.load q.words = freshWith [503, 902, 0, 995] := by
  have ha : assemble "LDA NEG\nOUT\nHLT\nNEG DAT -5" = .ok negative :=
    ok_of_toOption (by decide +kernel)
  obtain ⟨q, hq, hw, hm, -⟩ := ofWordList_wordList (.assembled ha)
  exact ⟨ha, by decide +kernel, q, hq, hw, hm⟩

end Program

end LittleMan
