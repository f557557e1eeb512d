import LittleMan.Terminal.Paint

/-! Escape sequences, said without a scanner: a text and what is left when each of its escapes is
taken out with all that follows it through the next `m`. Painting a text adds nothing to what is
left. -/
namespace LittleMan.Terminal

/-- A text and the same text without its escape sequences. Each lasts through the first `m` behind
its escape, or to the end if there is none. -/
inductive Stripped : List Char → List Char → Prop
  | plain {cs : List Char} (h : escape ∉ cs) : Stripped cs cs
  | sequence {before code rest ds : List Char} (hb : escape ∉ before) (hc : 'm' ∉ code)
      (h : Stripped rest ds) : Stripped (before ++ escape :: (code ++ 'm' :: rest)) (before ++ ds)
  | unfinished {before code : List Char} (hb : escape ∉ before) (hc : 'm' ∉ code) :
      Stripped (before ++ escape :: code) before

variable {cs ds code : List Char}

theorem visibleFrom_escape (cs : List Char) :
    visibleFrom false (escape :: cs) = visibleFrom true cs := by
  rw [visibleFrom, if_neg (by decide), if_pos rfl]

theorem visibleFrom_true_m (cs : List Char) :
    visibleFrom true ('m' :: cs) = visibleFrom false cs := by
  rw [visibleFrom, if_pos rfl]
  rfl

theorem visibleFrom_true_of_ne {c : Char} (hc : c ≠ 'm') (cs : List Char) :
    visibleFrom true (c :: cs) = visibleFrom true cs := by
  rw [visibleFrom, if_pos rfl, bne_iff_ne.mpr hc]

theorem visibleFrom_of_ne {c : Char} (hc : c ≠ escape) (cs : List Char) :
    visibleFrom false (c :: cs) = c :: visibleFrom false cs := by
  rw [visibleFrom, if_neg (by decide), if_neg hc]

theorem visibleFrom_append (h : escape ∉ cs) (ds : List Char) :
    visibleFrom false (cs ++ ds) = cs ++ visibleFrom false ds := by
  induction cs with
  | nil => rfl
  | cons c cs ih =>
    have hc : c ≠ escape := fun hc => h (hc ▸ List.mem_cons_self)
    have hcs : escape ∉ cs := fun hcs => h (List.mem_cons_of_mem c hcs)
    rw [List.cons_append, visibleFrom_of_ne hc, ih hcs, List.cons_append]

theorem visibleFrom_of_not_mem (h : escape ∉ cs) : visibleFrom false cs = cs := by
  simpa [visibleFrom] using visibleFrom_append h []

theorem visible_append {s : String} (h : escape ∉ s.toList) (t : String) :
    visible (s ++ t) = s ++ visible t := by
  unfold visible
  rw [String.toList_append, visibleFrom_append h, String.ofList_append, String.ofList_toList]

theorem visible_of_not_mem {s : String} (h : escape ∉ s.toList) : visible s = s := by
  rw [visible, visibleFrom_of_not_mem h, String.ofList_toList]

/-- Inside a sequence nothing counts before its end, escapes included. -/
theorem visibleFrom_true_append (h : 'm' ∉ code) (ds : List Char) :
    visibleFrom true (code ++ ds) = visibleFrom true ds := by
  induction code with
  | nil => rfl
  | cons c code ih =>
    have hc : c ≠ 'm' := fun hc => h (hc ▸ List.mem_cons_self)
    have hcode : 'm' ∉ code := fun hcode => h (List.mem_cons_of_mem c hcode)
    rw [List.cons_append, visibleFrom_true_of_ne hc, ih hcode]

theorem Stripped.cons {c : Char} (hc : c ≠ escape) (h : Stripped cs ds) :
    Stripped (c :: cs) (c :: ds) := by
  have hmem : ∀ {l : List Char}, escape ∉ l → escape ∉ c :: l := fun hl =>
    List.not_mem_cons_of_ne_of_not_mem (Ne.symm hc) hl
  cases h with
  | plain hb => exact .plain (hmem hb)
  | sequence hb hcode h => exact .sequence (hmem hb) hcode h
  | unfinished hb hcode => exact .unfinished (hmem hb) hcode

/-- The induction takes along what is left behind an escape whose sequence goes on. -/
theorem stripped_visibleFrom (cs : List Char) :
    Stripped cs (visibleFrom false cs) ∧
      ∀ code, 'm' ∉ code → Stripped (escape :: (code ++ cs)) (visibleFrom true cs) := by
  induction cs with
  | nil =>
    refine ⟨.plain List.not_mem_nil, ?_⟩
    intro code hcode
    rw [List.append_nil]
    show Stripped ([] ++ escape :: code) []
    exact .unfinished List.not_mem_nil hcode
  | cons c cs ih =>
    obtain ⟨htext, hsequence⟩ := ih
    constructor
    · by_cases hc : c = escape
      · subst hc
        rw [visibleFrom_escape]
        exact hsequence [] List.not_mem_nil
      · rw [visibleFrom_of_ne hc]
        exact htext.cons hc
    · intro code hcode
      by_cases hc : c = 'm'
      · subst hc
        rw [visibleFrom_true_m]
        show Stripped ([] ++ escape :: (code ++ 'm' :: cs)) ([] ++ visibleFrom false cs)
        exact .sequence List.not_mem_nil hcode htext
      · have hcode' : 'm' ∉ code ++ [c] := by simp [hcode, Ne.symm hc]
        rw [visibleFrom_true_of_ne hc, List.append_cons]
        exact hsequence (code ++ [c]) hcode'

theorem Stripped.visibleFrom_eq (h : Stripped cs ds) : visibleFrom false cs = ds := by
  induction h with
  | plain hb => exact visibleFrom_of_not_mem hb
  | sequence hb hc h ih =>
    rw [visibleFrom_append hb, visibleFrom_escape, visibleFrom_true_append hc, visibleFrom_true_m,
      ih]
  | @unfinished before code hb hc =>
    have hend : visibleFrom true code = [] := by
      simpa [visibleFrom] using visibleFrom_true_append hc []
    rw [visibleFrom_append hb, visibleFrom_escape, hend, List.append_nil]

/-- The scanner leaves what is left, and nothing else is. -/
theorem stripped_iff : Stripped cs ds ↔ visibleFrom false cs = ds := by
  constructor
  · exact Stripped.visibleFrom_eq
  · rintro rfl
    exact (stripped_visibleFrom cs).1

example : Stripped "abc\x1bw[0bxyzmdef".toList "abcdef".toList := stripped_iff.mpr (by decide)

/-- Two texts that show the same from either state of the scanner. -/
def ShowsAs (cs ds : List Char) : Prop :=
  ∀ inSequence, visibleFrom inSequence cs = visibleFrom inSequence ds

theorem ShowsAs.cons (h : ShowsAs cs ds) (c : Char) : ShowsAs (c :: cs) (c :: ds) := by
  intro inSequence
  unfold visibleFrom
  rw [h, h, h]

/-- A whole sequence vanishes, and it ends one that it stands in. -/
theorem visibleFrom_sequence {code : String} (hm : 'm' ∉ code.toList) (inSequence : Bool)
    (cs : List Char) :
    visibleFrom inSequence ((sequence code).toList ++ cs) = visibleFrom false cs := by
  have hl : (sequence code).toList ++ cs = escape :: ('[' :: (code.toList ++ 'm' :: cs)) := by
    simp [sequence, escape]
  have hin : visibleFrom true ('[' :: (code.toList ++ 'm' :: cs)) = visibleFrom false cs := by
    rw [visibleFrom_true_of_ne (by decide), visibleFrom_true_append hm, visibleFrom_true_m]
  rw [hl]
  cases inSequence with
  | false => rw [visibleFrom_escape, hin]
  | true => rw [visibleFrom_true_of_ne (by decide), hin]

theorem visibleFrom_plain (inSequence : Bool) (cs : List Char) :
    visibleFrom inSequence (plain.toList ++ cs) = visibleFrom false cs :=
  visibleFrom_sequence (by decide) inSequence cs

/-- Behind a reset the text shows by itself, whatever stands in front. -/
theorem visibleFrom_append_plain (inSequence : Bool) (cs ds : List Char) :
    visibleFrom inSequence (cs ++ (plain.toList ++ ds)) =
      visibleFrom inSequence cs ++ visibleFrom false ds := by
  induction cs generalizing inSequence with
  | nil => exact visibleFrom_plain inSequence ds
  | cons c cs ih =>
    rw [List.cons_append, visibleFrom, visibleFrom, ih, ih, ih]
    split
    · rfl
    · split <;> rfl

/-- A reset ends the sequence that it stands in, so what is written again behind it vanishes. -/
theorem showsAs_reopen {code : String} (hm : 'm' ∉ code.toList) (cs : List Char) :
    ShowsAs (reopen (sequence code).toList cs) cs := by
  fun_induction reopen (sequence code).toList cs with
  | case1 => exact fun _ => rfl
  | case2 cs ih =>
    intro inSequence
    calc
      visibleFrom inSequence (plain.toList ++ ((sequence code).toList ++ reopen _ cs))
      _ = visibleFrom false ((sequence code).toList ++ reopen _ cs) := visibleFrom_plain _ _
      _ = visibleFrom false (reopen _ cs) := visibleFrom_sequence hm false _
      _ = visibleFrom false cs := ih false
      _ = visibleFrom inSequence (plain.toList ++ cs) := (visibleFrom_plain inSequence cs).symm
  | case3 c cs _ ih => exact ih.cons c

theorem Colour.m_not_mem_code (c : Colour) : 'm' ∉ c.code.toList := by
  cases c <;> decide

/-- Painting adds nothing that shows, and it ends what it begins. -/
theorem visible_painted_append (c : Colour) (s t : String) :
    visible (painted c s ++ t) = visible s ++ visible t := by
  have hm := c.m_not_mem_code
  unfold visible painted styled
  rw [← String.ofList_append, String.toList_append, String.toList_append, String.toList_append,
    String.toList_ofList, List.append_assoc, List.append_assoc, visibleFrom_sequence hm,
    visibleFrom_append_plain, showsAs_reopen hm]

theorem visible_painted (c : Colour) (s : String) : visible (painted c s) = visible s := by
  have h := visible_painted_append c s ""
  rwa [String.append_empty, show visible "" = "" from rfl, String.append_empty] at h

end LittleMan.Terminal
