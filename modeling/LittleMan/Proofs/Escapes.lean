import LittleMan.Execution
import LittleMan.Proofs.Input
import LittleMan.Proofs.Terminal.Minimal
import LittleMan.Proofs.Transcript

/-! Escapes in minimal output: of all that a run and its debugger show, only a line of input that is
refused goes around the channels, and it is refused in colour. -/
namespace LittleMan

open Terminal

/-- One of the lines, not blank, that holds no value. -/
def Input.IsRefused (lines : List InputLine) (text : String) : Prop :=
  (∃ line ∈ lines, line.text = text) ∧ Text.trim text ≠ "" ∧ value? text = none

theorem Input.IsRefused.of_suffix {lines rest : List InputLine} {text : String}
    (h : IsRefused rest text) (hs : rest <:+ lines) : IsRefused lines text := by
  obtain ⟨⟨line, hl, ht⟩, hr⟩ := h
  exact ⟨⟨line, hs.subset hl, ht⟩, hr⟩

theorem Input.isRefused_of_mem_next {lines : List InputLine} (hp : Piped lines) {e : Event}
    (h : e ∈ (next [] lines).1) : ∃ text, IsRefused lines text ∧ e = .refused text := by
  induction lines with
  | nil => contradiction
  | cons line lines ih =>
    have hs : line.shown = [] := hp line List.mem_cons_self
    have hsuffix : lines <:+ line :: lines := List.suffix_cons line lines
    have hlater : e ∈ (next [] lines).1 →
        ∃ text, IsRefused (line :: lines) text ∧ e = .refused text := by
      intro h
      obtain ⟨text, ht, he⟩ := ih (hp.of_suffix hsuffix) h
      exact ⟨text, ht.of_suffix hsuffix, he⟩
    rw [next, hs] at h
    split at h
    · exact hlater h
    · next hb =>
      split at h
      · exact absurd h List.not_mem_nil
      · next hv =>
        rcases List.mem_cons.mp h with rfl | h
        · exact ⟨line.text, ⟨⟨line, List.mem_cons_self, rfl⟩, hb, hv⟩, rfl⟩
        · exact hlater h

/-- All but a report on a line of source. -/
def Debugger.Notice.Channelled : Notice → Prop
  | .sourceLine _ _ => False
  | _ => True

/-- All that is printed on a channel: no echo of what was typed, no refused line and no report. -/
def Event.Channelled : Event → Prop
  | .output _ | .newLine | .ended _ => True
  | .notice n => n.Channelled
  | .refused _ | .commandTyped _ | .inputTyped _ => False

theorem Debugger.Notice.Channelled.raw? {n : Notice} (h : n.Channelled) (minimal : Bool) {p : Print}
    (hp : p ∈ n.prints minimal) : p.raw? = none := by
  rcases n.prints_cases hp with ⟨channel, s, -, rfl⟩ | ⟨address, span, rfl, -⟩
  · rfl
  · exact h.elim

namespace Event

theorem Channelled.raw? {e : Event} (h : e.Channelled) (st : Style) {p : Print}
    (hp : p ∈ e.prints st) : p.raw? = none := by
  cases e with
  | output v | newLine =>
    obtain rfl := List.mem_singleton.mp hp
    rfl
  | notice n => exact Debugger.Notice.Channelled.raw? h st.minimal hp
  | ended ending =>
    rcases List.mem_cons.mp hp with rfl | hp
    · rfl
    · obtain rfl := List.mem_singleton.mp hp
      rfl
  | refused | commandTyped | inputTyped => exact h.elim

end Event

def Channelled (es : List Event) : Prop := ∀ e ∈ es, e.Channelled

namespace Channelled

variable {es es' : List Event} {e : Event}

theorem nil : Channelled [] := fun _ he => absurd he List.not_mem_nil

theorem single (h : e.Channelled) : Channelled [e] := by
  intro e' he
  obtain rfl := List.mem_singleton.mp he
  exact h

theorem append (h : Channelled es) (h' : Channelled es') : Channelled (es ++ es') :=
  List.forall_mem_append.mpr ⟨h, h'⟩

theorem outputs (vs : List Int) : Channelled (vs.map .output) := by
  intro e he
  obtain ⟨v, -, rfl⟩ := List.mem_map.mp he
  trivial

end Channelled

/-- Each event is printed on a channel, or it is the refusal of one of the lines. -/
def Accounted (lines : List InputLine) (es : List Event) : Prop :=
  ∀ e ∈ es, e.Channelled ∨ ∃ text, Input.IsRefused lines text ∧ e = .refused text

namespace Accounted

variable {lines rest : List InputLine} {es es' : List Event}

theorem of_channelled (h : Channelled es) : Accounted lines es := fun e he => .inl (h e he)

theorem append (h : Accounted lines es) (h' : Accounted lines es') :
    Accounted lines (es ++ es') :=
  List.forall_mem_append.mpr ⟨h, h'⟩

theorem of_suffix (h : Accounted rest es) (hs : rest <:+ lines) : Accounted lines es := by
  intro e he
  obtain h | ⟨text, ht, rfl⟩ := h e he
  · exact .inl h
  · exact .inr ⟨text, ht.of_suffix hs, rfl⟩

theorem outputs (vs : List Int) : Accounted lines (vs.map .output) :=
  of_channelled (.outputs vs)

theorem ended (ending : Ending) : Accounted lines [.ended ending] := of_channelled (.single trivial)

theorem next (hp : Input.Piped lines) : Accounted lines (Input.next [] lines).1 :=
  fun _ he => .inr (Input.isRefused_of_mem_next hp he)

theorem runOn {settings : Settings} {executed : Nat} {c : Computer} (hp : Input.Piped lines) :
    Accounted lines (PlainRun.runOn settings [] lines executed c).events := by
  fun_induction PlainRun.runOn settings [] lines executed c with
  | case1 | case4 | case6 => exact (outputs _).append (ended _)
  | case2 lines executed c r executed' shown hs events hn =>
    have he := next hp
    rw [hn] at he
    exact ((outputs _).append he).append (ended _)
  | case3 lines executed c r executed' shown hs events v rest hn ih =>
    have he := next hp
    rw [hn] at he
    have hr : rest <:+ lines := Input.suffix_of_next (congrArg Prod.snd hn)
    exact ((outputs _).append he).append ((ih (hp.of_suffix hr)).of_suffix hr)
  | case5 lines executed c r executed' shown a hs hl ih => exact (outputs _).append (ih hp)
  | case7 lines executed c r executed' shown hs hl ih => exact (outputs _).append (ih hp)

end Accounted

/-- The refusal of a line of input, as it is printed. -/
def refusal (st : Style) (line : String) : Chunk :=
  ⟨.errors, st.paint .red "Invalid input" ++ " `" ++ Text.trim line ++
    "`: inputs must be integers from -999 to 999\n"⟩

theorem stream_refusal (st : Style) (line : String) : (refusal st line).stream = .errors := rfl

theorem escapes_refusal {st : Style} (hc : st.coloured = true) (line : String) :
    (refusal st line).Escapes := by
  have hred : escape ∈ (st.paint .red "Invalid input").toList := by
    unfold Style.paint
    rw [if_pos hc]
    decide
  unfold Chunk.Escapes refusal
  dsimp only
  simp only [String.toList_append, List.mem_append]
  exact .inl (.inl (.inl hred))

/-- Minimal output of these events has escapes in the refusals of lines of input only. -/
structure EscapesInRefusals (st : Style) (lines : List InputLine) (es : List Event) : Prop where
  output : escape ∉ written ((Screen.fresh st).present es).2
  /-- The line holds no value. -/
  refused : ∀ k ∈ ((Screen.fresh st).present es).2, k.Escapes →
    ∃ text, Input.IsRefused lines text ∧ .refused text ∈ es ∧ k = refusal st text
  coloured : st.coloured = true →
    ((∃ k ∈ ((Screen.fresh st).present es).2, k.Escapes) ↔ ∃ text, .refused text ∈ es)

theorem refused_of_mem_present {st : Style} (hm : st.minimal = true) {lines : List InputLine}
    {es : List Event} (h : Accounted lines es) {k : Chunk}
    (hk : k ∈ ((Screen.fresh st).present es).2) (he : k.Escapes) :
    ∃ text, Input.IsRefused lines text ∧ .refused text ∈ es ∧ k = refusal st text := by
  obtain ⟨p, hp, hraw⟩ := Screen.raw?_of_mem_printAll hm hk he
  obtain ⟨e, hes, hp⟩ := List.mem_flatMap.mp hp
  obtain hc | ⟨text, ht, rfl⟩ := h e hes
  · rw [hc.raw? st hp] at hraw
    contradiction
  · obtain rfl := List.mem_singleton.mp hp
    exact ⟨text, ht, hes, (Option.some.inj hraw).symm⟩

theorem refusal_mem_present {st : Style} {es : List Event} {text : String}
    (h : .refused text ∈ es) : refusal st text ∈ ((Screen.fresh st).present es).2 := by
  have hp : Print.raw .errors (refusal st text).text ∈ es.flatMap (Event.prints st) :=
    List.mem_flatMap.mpr ⟨_, h, List.mem_singleton_self _⟩
  exact Screen.mem_printAll_of_raw? hp rfl

theorem escapesInRefusals_of_accounted {st : Style} (hm : st.minimal = true)
    {lines : List InputLine} {es : List Event} (h : Accounted lines es) :
    EscapesInRefusals st lines es where
  output := by
    intro he
    obtain ⟨k, hk, he⟩ := List.mem_flatMap.mp he
    split at he
    · next ho =>
      obtain ⟨text, -, -, rfl⟩ := refused_of_mem_present hm h hk he
      rw [stream_refusal] at ho
      contradiction
    · exact absurd he List.not_mem_nil
  refused := fun k hk he => refused_of_mem_present hm h hk he
  coloured := by
    intro hc
    constructor
    · rintro ⟨k, hk, he⟩
      obtain ⟨text, -, ht, -⟩ := refused_of_mem_present hm h hk he
      exact ⟨text, ht⟩
    · rintro ⟨text, ht⟩
      exact ⟨_, refusal_mem_present ht, escapes_refusal hc text⟩

end LittleMan
