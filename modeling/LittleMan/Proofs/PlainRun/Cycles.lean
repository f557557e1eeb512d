import LittleMan.Execution
import LittleMan.Proofs.Computer.Cycles
import LittleMan.Proofs.Input
import LittleMan.Proofs.PlainRun.Rounds

/-! The cycles of a run without the debugger, whatever its input and its pauses: just the values
that they emit are shown. -/
namespace LittleMan

namespace Input

variable {shownAtEnd : List Event} {lines rest : List InputLine} {v : Int}

/-- Input of which no line shows a value when it is read, and its end neither. -/
structure Quiet (shownAtEnd : List Event) (lines : List InputLine) : Prop where
  lines : ∀ l ∈ lines, shownValues l.shown = []
  atEnd : shownValues shownAtEnd = []

theorem Quiet.of_suffix (h : Quiet shownAtEnd lines) (hs : rest <:+ lines) :
    Quiet shownAtEnd rest :=
  ⟨fun l hl => h.lines l (hs.subset hl), h.atEnd⟩

theorem Quiet.values_next (h : Quiet shownAtEnd lines) :
    shownValues (next shownAtEnd lines).1 = [] := by
  induction lines with
  | nil => exact h.atEnd
  | cons line lines ih =>
    have hl : shownValues line.shown = [] := h.lines line List.mem_cons_self
    have hr := ih (h.of_suffix (List.suffix_cons line lines))
    rcases next_cons_cases shownAtEnd line lines with ⟨v, -, hn⟩ | ⟨-, es, hes, hn⟩
    · rw [hn]
      exact hl
    · rw [hn, shownValues_append, shownValues_append, hl, hr]
      rcases hes with rfl | rfl <;> rfl

theorem quiet_ofPipe (stdin : List UInt8) :
    Quiet (ofPipe stdin).shownAtEnd (ofPipe stdin).lines := by
  refine ⟨fun l hl => ?_, rfl⟩
  have hs : l.shown = [] := piped_decoded _ l hl
  rw [hs]
  rfl

theorem quiet_ofTyped (stdin : List UInt8) :
    Quiet (ofTyped stdin).shownAtEnd (ofTyped stdin).lines := by
  fun_induction ofTyped stdin with
  | case1 stdin line h => exact ⟨by simp, rfl⟩
  | case2 stdin line rest h input ih =>
    refine ⟨fun l hl => ?_, ih.atEnd⟩
    rcases List.mem_cons.mp hl with rfl | hl
    · rfl
    · exact ih.lines l hl

end Input

namespace PlainRun.Pending

variable {settings : Settings} {shownAtEnd : List Event} {p q : Pending} {r : PlainRun}

/-- The machines at which the cycles of a run begin, those of one round after the other. -/
def cycles (settings : Settings) (shownAtEnd : List Event) (p : Pending) : List Machine :=
  p.computer.cycles (leg settings p.executed p.computer) ++
    match _h : p.round settings shownAtEnd with
    | .inl _ => []
    | .inr q => cycles settings shownAtEnd q
termination_by p.lines.length + (settings.stepLimit - p.executed)
decreasing_by exact measure_lt_of_round _h

theorem cycles_of_end (h : p.round settings shownAtEnd = .inl r) :
    p.cycles settings shownAtEnd = p.computer.cycles (leg settings p.executed p.computer) := by
  rw [cycles]
  split
  · exact List.append_nil _
  · next h' =>
    rw [h] at h'
    contradiction

theorem cycles_of_next (h : p.round settings shownAtEnd = .inr q) :
    p.cycles settings shownAtEnd =
      p.computer.cycles (leg settings p.executed p.computer) ++ q.cycles settings shownAtEnd := by
  rw [cycles]
  split
  · next h' =>
    rw [h] at h'
    contradiction
  · next h' =>
    obtain rfl := Sum.inr.inj (h.symm.trans h')
    rfl

/-- A round shows what its cycles emit. -/
theorem values_of_round (settings : Settings) (hq : Input.Quiet shownAtEnd p.lines) :
    (∀ r, p.round settings shownAtEnd = .inl r → shownValues r.events =
      shownValues p.events ++
        (p.computer.cycles (leg settings p.executed p.computer)).filterMap Machine.emits?) ∧
    ∀ q, p.round settings shownAtEnd = .inr q → Input.Quiet shownAtEnd q.lines ∧
      shownValues q.events = shownValues p.events ++
        (p.computer.cycles (leg settings p.executed p.computer)).filterMap Machine.emits? := by
  have hv : shownValues (legEvents settings p.executed p.computer) =
      (p.computer.cycles (leg settings p.executed p.computer)).filterMap Machine.emits? :=
    (shownValues_legEvents _ _ _).trans (Computer.newOutputs_run _ _ _)
  have hn := hq.values_next
  rw [← hv]
  unfold round
  dsimp only
  cases hs : (leg settings p.executed p.computer).stop with
  | halted =>
    refine ⟨fun r hr => ?_, fun q hr => by contradiction⟩
    obtain rfl := Sum.inl.inj hr
    rw [shownValues_stopped, shownValues_append]
  | waiting =>
    dsimp only
    cases hi : Input.next shownAtEnd p.lines with
    | mk more found =>
      rw [hi] at hn
      have hall : shownValues (p.events ++ legEvents settings p.executed p.computer ++ more) =
          shownValues p.events ++ shownValues (legEvents settings p.executed p.computer) := by
        rw [shownValues_append, shownValues_append, hn, List.append_nil]
      cases found with
      | none =>
        refine ⟨fun r hr => ?_, fun q hr => by contradiction⟩
        obtain rfl := Sum.inl.inj hr
        rw [shownValues_stopped, hall]
      | some found =>
        refine ⟨fun r hr => by contradiction, fun q hr => ?_⟩
        obtain rfl := Sum.inr.inj hr
        exact ⟨hq.of_suffix (Input.suffix_of_next (congrArg Prod.snd hi)), hall⟩
  | breakpoint a => exact absurd hs (Computer.stop_runOn_empty_ne_breakpoint _ _ _ _)
  | stepLimit =>
    dsimp only
    by_cases hl : settings.stepLimit ≤ overAfter settings p.executed p.computer
    · rw [if_pos hl]
      refine ⟨fun r hr => ?_, fun q hr => by contradiction⟩
      obtain rfl := Sum.inl.inj hr
      rw [shownValues_stopped, shownValues_append]
    · rw [if_neg hl]
      refine ⟨fun r hr => by contradiction, fun q hr => ?_⟩
      obtain rfl := Sum.inr.inj hr
      exact ⟨hq, shownValues_append _ _⟩

theorem values_outcome (settings : Settings) (hq : Input.Quiet shownAtEnd p.lines) :
    shownValues (p.outcome settings shownAtEnd).events =
      shownValues p.events ++ (p.cycles settings shownAtEnd).filterMap Machine.emits? := by
  -- every round takes a line of input or a cycle away
  induction hm : p.lines.length + (settings.stepLimit - p.executed) using Nat.strongRecOn
    generalizing p with
  | ind n ih =>
    obtain ⟨hend, hnext⟩ := values_of_round settings hq
    rw [outcome_eq]
    cases hr : p.round settings shownAtEnd with
    | inl r =>
      rw [cycles_of_end hr]
      exact hend r hr
    | inr q =>
      obtain ⟨hq', hv⟩ := hnext q hr
      have hlt := measure_lt_of_round hr
      rw [hm] at hlt
      dsimp only
      rw [ih _ hlt hq' rfl, cycles_of_next hr, List.filterMap_append, hv, List.append_assoc]

end PlainRun.Pending

/-- A run shows what its cycles emit. -/
theorem PlainRun.values_run (settings : Settings) {input : Input} (c : Computer)
    (hq : Input.Quiet input.shownAtEnd input.lines) :
    shownValues (run settings input c).events =
      ((begin input c).cycles settings input.shownAtEnd).filterMap Machine.emits? := by
  have hv := Pending.values_outcome (p := begin input c) settings hq
  rw [outcome_begin] at hv
  exact hv

end LittleMan
