import Mathlib.Data.List.Forall2
import LittleMan.Proofs.Terminal.Minimal
import LittleMan.Proofs.Terminal.Stripped

/-! The same requests printed in normal and in minimal style. Remarks and what goes out as it is
apart, minimal output is normal output without its escape sequences, and both styles agree on where
lines start. -/
namespace LittleMan.Terminal

/-- A request on a channel that no style leaves out. -/
def Print.isAlways : Print → Bool
  | .text channel _ | .newLine channel => channel != .remark
  | .raw .. => false

/-- The second chunk is the first without its escape sequences. -/
structure Chunk.StripsTo (k k' : Chunk) : Prop where
  stream : k'.stream = k.stream
  text : ∀ cs, Stripped k.text.toList cs ↔ k'.text.toList = cs

/-- The text of some chunks, whatever their streams. -/
def shown (ks : List Chunk) : List Char := ks.flatMap (·.text.toList)

theorem stripped_visible (s : String) (cs : List Char) :
    Stripped s.toList cs ↔ (visible s).toList = cs := by
  unfold visible
  rw [String.toList_ofList]
  exact stripped_iff

namespace Style

variable {st st' : Style}

theorem visible_paint (st : Style) (c : Colour) (s : String) :
    visible (st.paint c s) = visible s := by
  unfold paint
  split
  · exact visible_painted c s
  · rfl

theorem visible_paint_append (st : Style) (c : Colour) {s : String} (h : escape ∉ s.toList)
    (t : String) : visible (st.paint c s ++ t) = s ++ visible t := by
  unfold paint
  split
  · rw [visible_painted_append, visible_of_not_mem h]
  · exact visible_append h t

/-- What minimal style lets through of a text is what normal style does, without its escape
sequences. -/
theorem chunk?_stripsTo (hn : st.minimal = false) (hm : st'.minimal = true) {channel : Channel}
    (hc : channel ≠ .remark) (s : String) :
    ∃ k k', st.chunk? channel s = some k ∧ st'.chunk? channel s = some k' ∧ k.StripsTo k' := by
  unfold chunk?
  rw [hn, hm]
  cases channel with
  | program => exact ⟨_, _, rfl, rfl, rfl, stripped_visible s⟩
  | debugger =>
    have hp := stripped_visible (st.paint .blue s)
    rw [visible_paint] at hp
    exact ⟨_, _, rfl, rfl, rfl, hp⟩
  | remark => contradiction

theorem text_of_chunk? (hm : st.minimal = true) {channel : Channel} {s : String} {k : Chunk}
    (h : st.chunk? channel s = some k) : k.text = visible s := by
  unfold chunk? at h
  rw [hm] at h
  cases channel with
  | program | debugger =>
    obtain rfl := Option.some.inj h
    rfl
  | remark => contradiction

end Style

/-- Whether a line starts behind some characters. If there are none, it depends on the place in
front of them. -/
def startsLine (before : Bool) (cs : List Char) : Bool := (cs.getLast?).elim before (· == '\n')

theorem startsLine_append (before : Bool) (cs ds : List Char) :
    startsLine before (cs ++ ds) = startsLine (startsLine before cs) ds := by
  unfold startsLine
  rw [List.getLast?_append]
  cases ds.getLast? <;> rfl

theorem startsLine_true_iff (cs : List Char) :
    startsLine true cs = true ↔ cs = [] ∨ cs.getLast? = some '\n' := by
  unfold startsLine
  cases hl : cs.getLast? with
  | none => simpa using hl
  | some c =>
    have hne : cs ≠ [] := by
      rintro rfl
      contradiction
    simp [hne]

theorem shown_append (ks ks' : List Chunk) : shown (ks ++ ks') = shown ks ++ shown ks' :=
  List.flatMap_append

namespace Screen

variable {sc sc' : Screen}

theorem atLineStart_after (sc : Screen) (s : String) :
    (sc.after s).atLineStart = startsLine sc.atLineStart (visible s).toList := by
  unfold after startsLine
  cases (visible s).toList.getLast? <;> rfl

theorem atLineStart_printText (hm : sc.style.minimal = true) (channel : Channel) (s : String) :
    (sc.printText channel s).1.atLineStart =
      startsLine sc.atLineStart (shown (sc.printText channel s).2) := by
  unfold printText
  cases hk : sc.style.chunk? channel s with
  | none => rfl
  | some k =>
    have hshown : shown [k] = (visible s).toList := by
      rw [shown, List.flatMap_singleton, Style.text_of_chunk? hm hk]
    show (sc.after s).atLineStart = startsLine sc.atLineStart (shown [k])
    rw [hshown, atLineStart_after]

/-- On a minimal screen a line starts where the text that has been shown says so. -/
theorem atLineStart_print (hm : sc.style.minimal = true) {p : Print} (hp : p.raw? = none) :
    (sc.print p).1.atLineStart = startsLine sc.atLineStart (shown (sc.print p).2) := by
  cases p with
  | text channel s => exact atLineStart_printText hm channel s
  | newLine channel =>
    rw [print]
    split
    · rfl
    · exact atLineStart_printText hm channel "\n"
  | raw stream s => contradiction

theorem atLineStart_printAll (hm : sc.style.minimal = true) {ps : List Print}
    (hps : ∀ p ∈ ps, p.raw? = none) :
    (sc.printAll ps).1.atLineStart = startsLine sc.atLineStart (shown (sc.printAll ps).2) := by
  induction ps generalizing sc with
  | nil => rfl
  | cons p ps ih =>
    have hp := atLineStart_print hm (hps p List.mem_cons_self)
    have hm' : (sc.print p).1.style.minimal = true := by rw [style_print, hm]
    have hrest := ih hm' fun q hq => hps q (List.mem_cons_of_mem p hq)
    rw [hp, ← startsLine_append, ← shown_append] at hrest
    exact hrest

/-- What each request prints. -/
def printEach (sc : Screen) : List Print → List (List Chunk)
  | [] => []
  | p :: ps => (sc.print p).2 :: (sc.print p).1.printEach ps

theorem flatten_printEach (sc : Screen) (ps : List Print) :
    (sc.printEach ps).flatten = (sc.printAll ps).2 := by
  induction ps generalizing sc with
  | nil => rfl
  | cons p ps ih =>
    rw [printEach, List.flatten_cons, ih]
    rfl

/-- A screen and a minimal one, both at the start of a line or both not. -/
structure Beside (sc sc' : Screen) : Prop where
  normal : sc.style.minimal = false
  minimal : sc'.style.minimal = true
  place : sc'.atLineStart = sc.atLineStart

namespace Beside

theorem printText (h : Beside sc sc') {channel : Channel} (hc : channel ≠ .remark) (s : String) :
    List.Forall₂ Chunk.StripsTo (sc.printText channel s).2 (sc'.printText channel s).2 ∧
      Beside (sc.printText channel s).1 (sc'.printText channel s).1 := by
  obtain ⟨k, k', hk, hk', hs⟩ := Style.chunk?_stripsTo h.normal h.minimal hc s
  unfold Screen.printText
  rw [hk, hk']
  refine ⟨.cons hs .nil, ?_, ?_, ?_⟩
  · show (sc.after s).style.minimal = false
    rw [style_after, h.normal]
  · show (sc'.after s).style.minimal = true
    rw [style_after, h.minimal]
  · show (sc'.after s).atLineStart = (sc.after s).atLineStart
    rw [atLineStart_after, atLineStart_after, h.place]

theorem print (h : Beside sc sc') {p : Print} (hp : p.isAlways = true) :
    List.Forall₂ Chunk.StripsTo (sc.print p).2 (sc'.print p).2 ∧
      Beside (sc.print p).1 (sc'.print p).1 := by
  cases p with
  | text channel s => exact h.printText (by simpa [Print.isAlways] using hp) s
  | newLine channel =>
    rw [Screen.print, Screen.print, h.place]
    split
    · exact ⟨.nil, h⟩
    · exact h.printText (by simpa [Print.isAlways] using hp) "\n"
  | raw stream s => contradiction

theorem printAll (h : Beside sc sc') {ps : List Print} (hps : ∀ p ∈ ps, p.isAlways = true) :
    List.Forall₂ (List.Forall₂ Chunk.StripsTo) (sc.printEach ps) (sc'.printEach ps) ∧
      Beside (sc.printAll ps).1 (sc'.printAll ps).1 := by
  induction ps generalizing sc sc' with
  | nil => exact ⟨.nil, h⟩
  | cons p ps ih =>
    obtain ⟨hfirst, hnext⟩ := h.print (hps p List.mem_cons_self)
    obtain ⟨hrest, hlast⟩ := ih hnext fun q hq => hps q (List.mem_cons_of_mem p hq)
    exact ⟨.cons hfirst hrest, hlast⟩

end Beside

theorem raw?_of_isAlways {p : Print} (h : p.isAlways = true) : p.raw? = none := by
  cases p with
  | text | newLine => rfl
  | raw => contradiction

/-- What each request prints in minimal style is what it prints in normal style without its escape
sequences, whatever the colours. Behind all of them both styles are at the start of a line exactly
if nothing has shown or a newline was the last to show. -/
theorem printEach_stripsTo (coloured coloured' : Bool) {ps : List Print}
    (hps : ∀ p ∈ ps, p.isAlways = true) :
    let normal := fresh ⟨false, coloured⟩
    let minimal := fresh ⟨true, coloured'⟩
    let text := shown (minimal.printEach ps).flatten
    List.Forall₂ (List.Forall₂ Chunk.StripsTo) (normal.printEach ps) (minimal.printEach ps) ∧
      ((normal.printAll ps).1.atLineStart = true ↔ text = [] ∨ text.getLast? = some '\n') ∧
      ((minimal.printAll ps).1.atLineStart = true ↔ text = [] ∨ text.getLast? = some '\n') := by
  intro normal minimal text
  have hb : Beside normal minimal := ⟨rfl, rfl, rfl⟩
  obtain ⟨heach, hlast⟩ := hb.printAll hps
  have hm : (minimal.printAll ps).1.atLineStart = startsLine true text := by
    rw [atLineStart_printAll rfl fun p hp => raw?_of_isAlways (hps p hp), ← flatten_printEach]
    rfl
  have hn : (normal.printAll ps).1.atLineStart = startsLine true text :=
    hlast.place.symm.trans hm
  rw [hn, hm]
  exact ⟨heach, startsLine_true_iff text, startsLine_true_iff text⟩

/-- The blue goes on behind the reset in the first text, and the sequence in the last one has no
end. -/
theorem printEach_stripsTo_unfinished :
    let ps : List Print :=
      [.text .debugger "\x1b[1mdone\n\x1b[0m", .newLine .program, .text .program "left \x1b[3"]
    let normal := fresh ⟨false, true⟩
    let minimal := fresh ⟨true, false⟩
    List.Forall₂ (List.Forall₂ Chunk.StripsTo) (normal.printEach ps) (minimal.printEach ps) ∧
      normal.printAll ps = (⟨⟨false, true⟩, false⟩,
        [⟨.errors, "\x1b[34m\x1b[1mdone\n\x1b[0m\x1b[34m\x1b[0m"⟩, ⟨.output, "left \x1b[3"⟩]) ∧
      minimal.printAll ps =
        (⟨⟨true, false⟩, false⟩, [⟨.errors, "done\n"⟩, ⟨.output, "left "⟩]) := by
  intro ps normal minimal
  have hps : ∀ p ∈ ps, p.isAlways = true := by decide
  have heach := (printEach_stripsTo true false hps).1
  exact ⟨heach, by decide +kernel, by decide +kernel⟩

end Screen

end LittleMan.Terminal
