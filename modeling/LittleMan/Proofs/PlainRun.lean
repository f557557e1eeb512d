import LittleMan.PlainRun
import LittleMan.Proofs.Computer.Ends

/-! Runs without the debugger: whatever part of the cycles has been made before, the rest of the
input is read alike, and the values that were still to come are shown. -/
namespace LittleMan

@[simp] theorem shownValues_append (es es' : List Event) :
    shownValues (es ++ es') = shownValues es ++ shownValues es' := List.filterMap_append

@[simp] theorem shownValues_nil : shownValues [] = [] := rfl

@[simp] theorem shownValues_newLine_cons (es : List Event) :
    shownValues (.newLine :: es) = shownValues es := rfl

@[simp] theorem shownValues_notice_cons (n : Debugger.Notice) (es : List Event) :
    shownValues (.notice n :: es) = shownValues es := rfl

@[simp] theorem shownValues_map_output (vs : List Int) : shownValues (vs.map .output) = vs := by
  unfold shownValues
  rw [List.filterMap_map]
  exact List.filterMap_some

@[simp] theorem shownValues_map_notice (ns : List Debugger.Notice) :
    shownValues (ns.map .notice) = [] := by
  unfold shownValues
  rw [List.filterMap_map]
  exact List.filterMap_eq_nil_iff.mpr fun _ _ => rfl

namespace PlainRun

variable {settings : Settings} {shownAtEnd : List Event} {lines : List InputLine} {executed : Nat}
  {c : Computer}

/-- The part of a run that comes before the next look at the input. -/
def leg (settings : Settings) (executed : Nat) (c : Computer) : Run :=
  c.run .empty (burst settings executed)

def legEvents (settings : Settings) (executed : Nat) (c : Computer) : List Event :=
  (c.newOutputs (leg settings executed c).computer).map .output

/-- Cycles that are over when a leg is. -/
def overAfter (settings : Settings) (executed : Nat) (c : Computer) : Nat :=
  executed + (leg settings executed c).steps

theorem runOn_eq (settings : Settings) (shownAtEnd : List Event) (lines : List InputLine)
    (executed : Nat) (c : Computer) :
    runOn settings shownAtEnd lines executed c =
      match (leg settings executed c).stop with
      | .halted =>
        stopped .halted (overAfter settings executed c) (leg settings executed c).computer
          (legEvents settings executed c)
      | .waiting =>
        match Input.next shownAtEnd lines with
        | (events, none) =>
          stopped .noInput (overAfter settings executed c) (leg settings executed c).computer
            (legEvents settings executed c ++ events)
        | (events, some (v, rest)) =>
          (runOn settings shownAtEnd rest (overAfter settings executed c)
            ((leg settings executed c).computer.push v)).after
              (legEvents settings executed c ++ events)
      | .breakpoint _ | .stepLimit =>
        if settings.stepLimit ≤ overAfter settings executed c then
          stopped (.stepLimit settings.stepLimit) (overAfter settings executed c)
            (leg settings executed c).computer (legEvents settings executed c)
        else
          (runOn settings shownAtEnd lines (overAfter settings executed c)
            (leg settings executed c).computer).after (legEvents settings executed c) := by
  rw [runOn]
  unfold overAfter legEvents leg
  split
  · next hs => rw [hs]
  · next hs =>
    rw [hs]
    dsimp only
    split
    · next hn => rw [hn]
    · next hn => rw [hn]
  · next hs => rw [hs]; rfl
  · next hs => rw [hs]; rfl

@[simp] theorem shownValues_legEvents (settings : Settings) (executed : Nat) (c : Computer) :
    shownValues (legEvents settings executed c) = c.newOutputs (leg settings executed c).computer :=
  shownValues_map_output _

@[simp] theorem shownValues_stopped (ending : Ending) (executed : Nat) (c : Computer)
    (events : List Event) :
    shownValues (stopped ending executed c events).events = shownValues events := by
  simp [stopped, shownValues, Event.value?]

@[simp] theorem shownValues_after (r : PlainRun) (events : List Event) :
    shownValues (r.after events).events = shownValues events ++ shownValues r.events :=
  shownValues_append events r.events

/-- What is left of the run `r₀` when some of its values have been shown already. -/
structure Finishes (shown : List Int) (r₀ r : PlainRun) : Prop where
  ending : r.ending = r₀.ending
  computer : r.computer = r₀.computer
  values : shown ++ shownValues r.events = shownValues r₀.events

/-- Without a pause all cycles that are left make one leg, or the input ends it. -/
theorem le_leg_of_stepLimit (hd : settings.stepDelay = 0)
    (h : (leg settings executed c).stop = .stepLimit) :
    settings.stepLimit ≤ overAfter settings executed c := by
  have hs : (leg settings executed c).steps = burst settings executed :=
    Computer.steps_run_of_stepLimit h
  have hb : burst settings executed = settings.stepLimit - executed := if_pos hd
  unfold overAfter
  omega

theorem leg_endsAs {executed' : Nat} {d : Computer} (hd : settings.stepDelay = 0)
    (h : c.Reaches d) (he : executed' ≤ executed)
    (hs : (leg settings executed c).stop ≠ .stepLimit) :
    (leg settings executed' d).EndsAs (leg settings executed c) := by
  apply h.run hs
  unfold burst
  rw [if_pos hd, if_pos hd]
  omega

theorem newOutputs_leg {executed' : Nat} {d : Computer} (h : c.Reaches d)
    (hl : (leg settings executed' d).EndsAs (leg settings executed c)) :
    c.newOutputs d ++ d.newOutputs (leg settings executed' d).computer =
      c.newOutputs (leg settings executed c).computer := by
  have hr : d.Reaches (leg settings executed' d).computer := Computer.reaches_runOn _ _ _ _
  rw [h.newOutputs_append hr, hl.computer]

/-- A run may be taken up behind any of the cycles that lead to its next input. -/
theorem runOn_finishes {executed' : Nat} {d : Computer} (hd : settings.stepDelay = 0)
    (h : c.Reaches d) (he : executed' ≤ executed)
    (hr : ∀ n, (runOn settings shownAtEnd lines executed c).ending ≠ .stepLimit n) :
    (runOn settings shownAtEnd lines executed c).Finishes (c.newOutputs d)
      (runOn settings shownAtEnd lines executed' d) := by
  -- each leg reads lines of input or ends the run, and behind a value both runs are at one computer
  induction hn : lines.length using Nat.strongRecOn generalizing lines executed executed' c d with
  | ind n ih =>
    have hs : (leg settings executed c).stop ≠ .stepLimit := by
      intro hs
      rw [runOn_eq, hs] at hr
      dsimp only at hr
      rw [if_pos (le_leg_of_stepLimit hd hs)] at hr
      exact hr _ rfl
    have hl := leg_endsAs hd h he hs
    have hv := newOutputs_leg h hl
    rw [runOn_eq settings shownAtEnd lines executed c] at hr ⊢
    rw [runOn_eq settings shownAtEnd lines executed' d, hl.stop]
    cases hc : (leg settings executed c).stop with
    | halted => exact ⟨rfl, hl.computer, by simp [hv]⟩
    | waiting =>
      rw [hc] at hr
      dsimp only at hr ⊢
      cases hi : Input.next shownAtEnd lines with
      | mk events found =>
        rw [hi] at hr
        cases found with
        | none => exact ⟨rfl, hl.computer, by simp [← List.append_assoc, hv]⟩
        | some p =>
          obtain ⟨v, rest⟩ := p
          dsimp only at hr ⊢
          have hn' : rest.length < n := by
            rw [← hn]
            exact Input.length_lt_of_next (congrArg Prod.snd hi)
          have he' : overAfter settings executed' d ≤ overAfter settings executed c :=
            Nat.add_le_add he hl.steps
          obtain ⟨h₁, h₂, h₃⟩ := ih _ hn' (.refl _) he' hr rfl
          rw [hl.computer]
          refine ⟨h₁, h₂, ?_⟩
          rw [Computer.newOutputs_self, List.nil_append] at h₃
          simp [← List.append_assoc, hv, h₃]
    | breakpoint a => exact absurd hc (Computer.stop_runOn_empty_ne_breakpoint _ _ _ _)
    | stepLimit => exact absurd hc hs

end PlainRun

end LittleMan
