import LittleMan.Terminal.Screen

/-! Minimal output has no escape in it, but for texts that go around the channels. -/
namespace LittleMan.Terminal

theorem escape_not_mem_visibleFrom (inSequence : Bool) (cs : List Char) :
    escape ∉ visibleFrom inSequence cs := by
  fun_induction visibleFrom inSequence cs with
  | case1 => exact List.not_mem_nil
  | case2 c cs ih => exact ih
  | case3 _ cs _ ih => exact ih
  | case4 _ c cs _ hc ih =>
    intro h
    rcases List.mem_cons.mp h with h | h
    · exact hc h.symm
    · exact ih h

def Chunk.Escapes (k : Chunk) : Prop := escape ∈ k.text.toList

theorem not_escapes_visible (stream : Stream) (s : String) :
    ¬Chunk.Escapes ⟨stream, visible s⟩ := by
  unfold Chunk.Escapes visible
  rw [String.toList_ofList]
  exact escape_not_mem_visibleFrom false s.toList

theorem Style.not_escapes_of_chunk? {st : Style} (hm : st.minimal = true) {channel : Channel}
    {s : String} {k : Chunk} (h : st.chunk? channel s = some k) : ¬k.Escapes := by
  unfold Style.chunk? at h
  rw [hm] at h
  cases channel with
  | program | debugger =>
    obtain rfl := Option.some.inj h
    exact not_escapes_visible _ s
  | remark => contradiction

/-- What goes out around the channels. -/
def Print.raw? : Print → Option Chunk
  | .raw stream s => some ⟨stream, s⟩
  | .text .. | .newLine _ => none

namespace Screen

variable {sc : Screen} {k : Chunk}

theorem style_after (sc : Screen) (s : String) : (sc.after s).style = sc.style := by
  unfold after
  split <;> rfl

theorem style_printText (sc : Screen) (channel : Channel) (s : String) :
    (sc.printText channel s).1.style = sc.style := by
  unfold printText
  split
  · rfl
  · exact style_after sc s

theorem style_print (sc : Screen) (p : Print) : (sc.print p).1.style = sc.style := by
  cases p with
  | text channel s => exact style_printText sc channel s
  | newLine channel =>
    rw [print]
    split
    · rfl
    · exact style_printText sc channel "\n"
  | raw stream s => rfl

/-- What is printed comes from one of the requests, on a screen of the same style. -/
theorem exists_print_of_mem_printAll {ps : List Print} (h : k ∈ (sc.printAll ps).2) :
    ∃ p ∈ ps, ∃ sc' : Screen, sc'.style = sc.style ∧ k ∈ (sc'.print p).2 := by
  induction ps generalizing sc with
  | nil => contradiction
  | cons p ps ih =>
    rcases List.mem_append.mp h with h | h
    · exact ⟨p, List.mem_cons_self, sc, rfl, h⟩
    · obtain ⟨q, hq, sc', hs, hk⟩ := ih h
      exact ⟨q, List.mem_cons_of_mem p hq, sc', hs.trans (style_print sc p), hk⟩

theorem not_escapes_of_mem_printText (hm : sc.style.minimal = true) {channel : Channel}
    {s : String} (h : k ∈ (sc.printText channel s).2) : ¬k.Escapes := by
  unfold printText at h
  split at h
  · contradiction
  · next chunk hchunk =>
    obtain rfl := List.mem_singleton.mp h
    exact Style.not_escapes_of_chunk? hm hchunk

theorem raw?_of_mem_print (hm : sc.style.minimal = true) {p : Print} (h : k ∈ (sc.print p).2)
    (he : k.Escapes) : p.raw? = some k := by
  cases p with
  | text channel s => exact absurd he (not_escapes_of_mem_printText hm h)
  | newLine channel =>
    rw [print] at h
    split at h
    · contradiction
    · exact absurd he (not_escapes_of_mem_printText hm h)
  | raw stream s =>
    obtain rfl := List.mem_singleton.mp h
    rfl

theorem raw?_of_mem_printAll (hm : sc.style.minimal = true) {ps : List Print}
    (h : k ∈ (sc.printAll ps).2) (he : k.Escapes) : ∃ p ∈ ps, p.raw? = some k := by
  obtain ⟨p, hp, sc', hs, hk⟩ := exists_print_of_mem_printAll h
  have hm' : sc'.style.minimal = true := by rw [hs, hm]
  exact ⟨p, hp, raw?_of_mem_print hm' hk he⟩

theorem mem_printAll_of_raw? {ps : List Print} {p : Print} (hp : p ∈ ps)
    (h : p.raw? = some k) : k ∈ (sc.printAll ps).2 := by
  induction ps generalizing sc with
  | nil => contradiction
  | cons q ps ih =>
    refine List.mem_append.mpr ?_
    rcases List.mem_cons.mp hp with rfl | hp
    · left
      cases p with
      | raw stream s =>
        obtain rfl := Option.some.inj h
        exact List.mem_singleton_self _
      | text | newLine => contradiction
    · exact .inr (ih hp)

end Screen

end LittleMan.Terminal
