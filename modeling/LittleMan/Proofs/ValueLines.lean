import LittleMan.Proofs.Terminal.Styles
import LittleMan.Proofs.Transcript

/-! Values as they are printed: each is a text of its own on the output stream, and nothing else
that goes there can be taken for one. So the values that a transcript shows can be read off what it
prints. -/
namespace LittleMan

open Terminal

/-- All that is printed besides values: what goes to the error stream, and on the output stream the
remark that a run has ended, and what is typed. -/
inductive Aside (st : Style) : Chunk → Prop
  | errors (s : String) : Aside st ⟨.errors, s⟩
  | ended (ending : Ending) : Aside st ⟨.output, st.programText (ending.text st)⟩
  | commandTyped (echo : String) :
      Aside st ⟨.output, styled "1;34" "Command:" ++ " " ++ echo⟩
  | inputTyped (echo : String) :
      Aside st ⟨.output, st.paint .boldCyan "Input:" ++ " " ++ echo⟩

/-- The values are printed in this order, each once and with the end of its line, and besides them
only asides. A line that has been left open is ended in front of an aside, not of a value. -/
inductive Shows (st : Style) : List Chunk → List Int → Prop
  | nothing : Shows st [] []
  | value (v : Int) {ks : List Chunk} {vs : List Int} (h : Shows st ks vs) :
      Shows st (⟨.output, valueLine v⟩ :: ks) (v :: vs)
  | aside {k : Chunk} {ks : List Chunk} {vs : List Int} (hk : Aside st k) (h : Shows st ks vs) :
      Shows st (k :: ks) vs
  | lineEnd {k : Chunk} {ks : List Chunk} {vs : List Int} (hk : Aside st k)
      (ho : k.stream = .output) (h : Shows st ks vs) : Shows st (⟨.output, "\n"⟩ :: k :: ks) vs

variable {st : Style} {k : Chunk} {ks ks' : List Chunk} {vs vs' : List Int} {v : Int}

/-- Only the program writes to the output stream. -/
theorem Terminal.Style.stream_of_chunk? {channel : Channel} (hc : channel ≠ .program) {s : String}
    (h : st.chunk? channel s = some k) : k.stream = .errors := by
  obtain ⟨minimal, coloured⟩ := st
  cases channel with
  | program => contradiction
  | debugger =>
    cases minimal with
    | false | true =>
      obtain rfl := Option.some.inj h
      rfl
  | remark =>
    cases minimal with
    | false =>
      obtain rfl := Option.some.inj h
      rfl
    | true => contradiction

theorem valueLine_injective : Function.Injective valueLine := by
  intro v v' h
  exact Decimal.text_injective ((String.append_left_inj _).mp h)

theorem space_not_mem_valueLine (v : Int) : ' ' ∉ (valueLine v).toList := by
  intro h
  have hc := mem_valueLine h
  contradiction

theorem valueLine_ne_newline (v : Int) : valueLine v ≠ "\n" := by
  intro h
  have hempty : Decimal.text v ++ "\n" = "" ++ "\n" := h
  exact Decimal.text_ne_empty v ((String.append_left_inj _).mp hempty)

/-- The headline of a remark shows the space behind its first word in every style. -/
theorem space_mem_headline (st : Style) (c : Colour) {head : String}
    (h : escape ∉ (Text.padLeft 12 head).toList) (rest : String) :
    ' ' ∈ (st.programText (headline st c head rest)).toList := by
  unfold Style.programText headline
  rw [String.append_assoc, String.append_assoc]
  split
  · rw [Style.visible_paint_append st c h, visible_append (by decide)]
    simp
  · simp

theorem space_mem_ending (st : Style) (ending : Ending) :
    ' ' ∈ (st.programText (ending.text st)).toList := by
  cases ending with
  | halted | stepLimit | noInput => exact space_mem_headline st _ (by decide) _

theorem Aside.of_stream (h : k.stream = .errors) : Aside st k := by
  obtain ⟨stream, s⟩ := k
  obtain rfl : stream = .errors := h
  exact .errors s

/-- An aside is never taken for a value. -/
theorem Aside.ne_valueLine (h : Aside st k) (v : Int) : k ≠ ⟨.output, valueLine v⟩ := by
  -- what is put into words has a space, which no value has
  have hspace : ∀ {s : String}, ' ' ∈ s.toList →
      (⟨.output, s⟩ : Chunk) ≠ ⟨.output, valueLine v⟩ := by
    intro s hs he
    rw [(Chunk.mk.inj he).2] at hs
    exact space_not_mem_valueLine v hs
  cases h with
  | errors s =>
    intro he
    have hstream := congrArg Chunk.stream he
    contradiction
  | ended ending => exact hspace (space_mem_ending st ending)
  | commandTyped echo => exact hspace (by simp)
  | inputTyped echo => exact hspace (by simp)

namespace Shows

theorem append (h : Shows st ks vs) (h' : Shows st ks' vs') : Shows st (ks ++ ks') (vs ++ vs') := by
  induction h with
  | nothing => exact h'
  | value v _ ih => exact .value v ih
  | aside hk _ ih => exact .aside hk ih
  | lineEnd hk ho _ ih => exact .lineEnd hk ho ih

theorem of_asides (h : ∀ k ∈ ks, Aside st k) : Shows st ks [] := by
  induction ks with
  | nil => exact .nothing
  | cons k ks ih =>
    exact .aside (h k List.mem_cons_self) (ih fun k' hk => h k' (List.mem_cons_of_mem k hk))

theorem cons_cases (h : Shows st (k :: ks) vs) :
    (∃ v vs', k = ⟨.output, valueLine v⟩ ∧ vs = v :: vs' ∧ Shows st ks vs') ∨
      (∀ v, k ≠ ⟨.output, valueLine v⟩) ∧ Shows st ks vs := by
  cases h with
  | value v h => exact .inl ⟨v, _, rfl, rfl, h⟩
  | aside hk h => exact .inr ⟨hk.ne_valueLine, h⟩
  | lineEnd hk ho h =>
    refine .inr ⟨?_, .aside hk h⟩
    intro v hv
    exact valueLine_ne_newline v (Chunk.mk.inj hv).2.symm

/-- What is printed shows the values of one list only. -/
theorem unique (h : Shows st ks vs) (h' : Shows st ks vs') : vs = vs' := by
  induction ks generalizing vs vs' with
  | nil =>
    cases h
    cases h'
    rfl
  | cons k ks ih =>
    -- the first chunk tells whether it is a value, and which
    obtain ⟨v, ws, hv, rfl, hrest⟩ | ⟨hk, hrest⟩ := h.cons_cases
    · obtain ⟨v', ws', hv', rfl, hrest'⟩ | ⟨hk', -⟩ := h'.cons_cases
      · rw [hv] at hv'
        rw [valueLine_injective (Chunk.mk.inj hv').2, ih hrest hrest']
      · exact absurd hv (hk' v)
    · obtain ⟨v', ws', hv', rfl, -⟩ | ⟨-, hrest'⟩ := h'.cons_cases
      · exact absurd hv' (hk v')
      · exact ih hrest hrest'

end Shows

/-- A request that prints nothing but asides, on any screen of the style. -/
def PrintsAsides (st : Style) (p : Print) : Prop :=
  ∀ sc : Screen, sc.style = st → ∀ k ∈ (sc.print p).2, Aside st k

namespace PrintsAsides

theorem text {channel : Channel} (hc : channel ≠ .program) (s : String) :
    PrintsAsides st (.text channel s) := by
  rintro sc rfl k hk
  rw [Screen.print, Screen.printText] at hk
  split at hk
  · contradiction
  · next chunk hchunk =>
    obtain rfl := List.mem_singleton.mp hk
    exact .of_stream (Style.stream_of_chunk? hc hchunk)

theorem raw {stream : Stream} {s : String} (h : Aside st ⟨stream, s⟩) :
    PrintsAsides st (.raw stream s) := by
  intro sc _ k hk
  obtain rfl := List.mem_singleton.mp hk
  exact h

theorem newLine {channel : Channel} (hc : channel ≠ .program) :
    PrintsAsides st (.newLine channel) := by
  intro sc hs k hk
  rw [Screen.print] at hk
  split at hk
  · contradiction
  · exact text hc "\n" sc hs k hk

theorem notice (n : Debugger.Notice) {p : Print} (hp : p ∈ n.prints st.minimal) :
    PrintsAsides st p := by
  rcases n.prints_cases hp with ⟨channel, s, hc, rfl⟩ | ⟨address, span, -, rfl⟩
  · exact text hc s
  · exact raw (.errors _)

end PrintsAsides

namespace Terminal.Screen

theorem style_printAll (sc : Screen) (ps : List Print) : (sc.printAll ps).1.style = sc.style := by
  induction ps generalizing sc with
  | nil => rfl
  | cons p ps ih => exact (ih _).trans (style_print sc p)

theorem printAll_append (sc : Screen) (ps qs : List Print) :
    (sc.printAll (ps ++ qs)).2 = (sc.printAll ps).2 ++ ((sc.printAll ps).1.printAll qs).2 := by
  induction ps generalizing sc with
  | nil => rfl
  | cons p ps ih =>
    change (sc.print p).2 ++ ((sc.print p).1.printAll (ps ++ qs)).2 = _
    rw [ih, ← List.append_assoc]
    rfl

theorem shows_of_printsAsides {sc : Screen} {ps : List Print}
    (h : ∀ p ∈ ps, PrintsAsides sc.style p) : Shows sc.style (sc.printAll ps).2 [] := by
  apply Shows.of_asides
  intro k hk
  obtain ⟨p, hp, sc', hs, hk⟩ := exists_print_of_mem_printAll hk
  exact h p hp sc' hs k hk

/-- An aside of the program starts a line. -/
theorem shows_newLine_cons (sc : Screen) {p : Print} (hk : Aside sc.style k)
    (ho : k.stream = .output)
    (hp : ∀ sc' : Screen, sc'.style = sc.style → (sc'.print p).2 = [k]) :
    Shows sc.style (sc.printAll [.newLine .program, p]).2 [] := by
  have hprint : (sc.printAll [.newLine .program, p]).2 =
      (sc.print (.newLine .program)).2 ++ [k] := by
    rw [← hp _ (style_print sc (.newLine .program)), ← List.append_nil (Screen.print _ p).2]
    rfl
  have hend : sc.style.programText "\n" = "\n" := by
    unfold Style.programText
    split <;> rfl
  rw [hprint, print]
  split
  · exact .aside hk .nothing
  · rw [printText_program, hend]
    exact .lineEnd hk ho .nothing

/-- An event prints its value, if it has one, and asides otherwise. -/
theorem shows_event (sc : Screen) (e : Event) :
    Shows sc.style (sc.printAll (e.prints sc.style)).2 e.value?.toList := by
  cases e with
  | output v =>
    have hline : (sc.printAll [.text .program (valueLine v)]).2 = [⟨.output, valueLine v⟩] := by
      rw [printAll, print, printText_program, programText_valueLine]
      rfl
    change Shows sc.style (sc.printAll [.text .program (valueLine v)]).2 [v]
    rw [hline]
    exact .value v .nothing
  | notice n => exact shows_of_printsAsides fun p hp => .notice n hp
  | newLine => exact shows_of_printsAsides (List.forall_mem_singleton.mpr (.newLine (by decide)))
  | refused line => exact shows_of_printsAsides (List.forall_mem_singleton.mpr (.raw (.errors _)))
  | commandTyped echo =>
    exact shows_of_printsAsides (List.forall_mem_singleton.mpr (.raw (.commandTyped echo)))
  | inputTyped echo =>
    apply shows_newLine_cons sc (.inputTyped echo) rfl
    intro sc' _
    rfl
  | ended ending =>
    apply shows_newLine_cons sc (.ended ending) rfl
    intro sc' hs
    rw [print, printText_program, hs]

/-- What a transcript prints shows its values. -/
theorem shows_present (sc : Screen) (es : List Event) :
    Shows sc.style (sc.present es).2 (shownValues es) := by
  induction es generalizing sc with
  | nil => exact .nothing
  | cons e es ih =>
    have hrest := ih (sc.printAll (e.prints sc.style)).1
    have hvalues : shownValues (e :: es) = e.value?.toList ++ shownValues es := by
      unfold shownValues
      cases he : e.value? <;> simp [he]
    unfold present at hrest ⊢
    rw [style_printAll] at hrest
    rw [List.flatMap_cons, printAll_append, hvalues]
    exact (shows_event sc e).append hrest

theorem shows_present_iff (sc : Screen) (es : List Event) (vs : List Int) :
    Shows sc.style (sc.present es).2 vs ↔ vs = shownValues es := by
  constructor
  · exact fun h => h.unique (shows_present sc es)
  · rintro rfl
    exact shows_present sc es

end Terminal.Screen

end LittleMan
