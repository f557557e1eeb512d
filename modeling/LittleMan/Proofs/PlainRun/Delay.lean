import LittleMan.Execution
import LittleMan.Proofs.PlainRun.Rounds

/-! Runs with a pause after each cycle: they show and do what they would without the pauses. -/
namespace LittleMan

/-- The same settings without pauses. -/
def Settings.still (s : Settings) : Settings := { s with stepDelay := 0 }

@[simp] theorem Settings.stepLimit_still (s : Settings) : s.still.stepLimit = s.stepLimit := rfl

theorem Settings.still_eq_self {s : Settings} (h : s.stepDelay = 0) : s.still = s := by
  obtain ⟨limit, delay⟩ := s
  obtain rfl : delay = 0 := h
  rfl

namespace PlainRun

variable {settings : Settings} {shownAtEnd : List Event} {lines : List InputLine} {executed : Nat}
  {c : Computer}

/-- Legs that end at one place go on alike, however much of them has been shown before. -/
theorem runOn_of_leg_eq {executed' : Nat} {d : Computer} {es : List Event}
    (hs : (leg settings executed c).stop = (leg settings executed' d).stop)
    (hc : (leg settings executed c).computer = (leg settings executed' d).computer)
    (ho : overAfter settings executed c = overAfter settings executed' d)
    (he : legEvents settings executed c = es ++ legEvents settings executed' d) :
    runOn settings shownAtEnd lines executed c =
      (runOn settings shownAtEnd lines executed' d).after es := by
  rw [runOn_eq settings shownAtEnd lines executed c,
    runOn_eq settings shownAtEnd lines executed' d, hs, hc, ho, he]
  cases (leg settings executed' d).stop with
  | halted => exact (after_stopped _ _ _ _ _).symm
  | waiting =>
    rcases Input.next shownAtEnd lines with ⟨more, _ | ⟨v, rest⟩⟩
    · dsimp only
      rw [after_stopped, List.append_assoc]
    · dsimp only
      rw [after_after, List.append_assoc]
  | breakpoint a | stepLimit =>
    dsimp only
    split
    · exact (after_stopped _ _ _ _ _).symm
    · exact (after_after _ _ _).symm

theorem runOn_of_last_leg (hs : (leg settings executed c).stop = .stepLimit)
    (h : settings.stepLimit ≤ overAfter settings executed c) :
    runOn settings shownAtEnd lines executed c =
      stopped (.stepLimit settings.stepLimit) (overAfter settings executed c)
        (leg settings executed c).computer (legEvents settings executed c) := by
  rw [runOn_eq, hs]
  dsimp only
  rw [if_pos h]

/-- With a pause after each cycle a leg is a single cycle. -/
theorem leg_eq_single (hd : settings.stepDelay ≠ 0) (executed : Nat) (c : Computer) :
    leg settings executed c = c.run .empty 1 := by
  unfold leg burst
  rw [if_neg hd]

/-- A leg of a run without pauses, cut behind its first cycle. -/
theorem leg_still_split (hs : (c.run .empty 1).stop = .stepLimit)
    (hl : executed < settings.stepLimit) :
    leg settings.still executed c =
      (leg settings.still (executed + 1) (c.run .empty 1).computer).later 1 := by
  have hn : settings.still.stepLimit - executed =
      1 + (settings.still.stepLimit - (executed + 1)) := by
    rw [Settings.stepLimit_still]
    omega
  rw [leg_eq rfl, leg_eq rfl, ← Computer.run_split _ hs, ← hn]

/-- A run without pauses may be looked at behind its first cycle. -/
theorem runOn_still_split (hs : (c.run .empty 1).stop = .stepLimit)
    (hl : executed < settings.stepLimit) :
    runOn settings.still shownAtEnd lines executed c =
      (runOn settings.still shownAtEnd lines (executed + 1) (c.run .empty 1).computer).after
        ((c.newOutputs (c.run .empty 1).computer).map .output) := by
  have hleg := leg_still_split hs hl
  have hc : (leg settings.still executed c).computer =
      (leg settings.still (executed + 1) (c.run .empty 1).computer).computer := by
    rw [hleg]
    rfl
  have hstop : (leg settings.still executed c).stop =
      (leg settings.still (executed + 1) (c.run .empty 1).computer).stop := by
    rw [hleg]
    rfl
  apply runOn_of_leg_eq hstop hc
  · unfold overAfter
    rw [hleg, Run.later, Nat.add_assoc]
  · have h₁ : c.Reaches (c.run .empty 1).computer := Computer.reaches_runOn _ _ _ _
    have h₂ : (c.run .empty 1).computer.Reaches (leg settings.still executed c).computer := by
      rw [hc]
      exact Computer.reaches_runOn _ _ _ _
    unfold legEvents
    rw [← h₁.newOutputs_append h₂, hc, List.map_append]

/-- A cycle behind which a run with pauses does not just go on is all of a leg without them. -/
theorem leg_still_of_last (hd : settings.stepDelay ≠ 0) (hl : executed < settings.stepLimit)
    (h : (leg settings executed c).stop = .stepLimit →
      settings.stepLimit ≤ overAfter settings executed c) :
    leg settings.still executed c = leg settings executed c := by
  unfold overAfter at h
  rw [leg_eq_single hd] at h ⊢
  rw [leg_eq rfl, Settings.stepLimit_still]
  by_cases hs : (c.run .empty 1).stop = .stepLimit
  · have hn : (c.run .empty 1).steps = 1 := Computer.steps_run_of_stepLimit hs
    have hle := h hs
    rw [show settings.stepLimit - executed = 1 by omega]
  · have hn : 1 ≤ settings.stepLimit - executed := by omega
    exact Computer.run_of_le hs hn

theorem overAfter_of_waiting (hd : settings.stepDelay ≠ 0)
    (hs : (leg settings executed c).stop = .waiting) :
    overAfter settings executed c = executed := by
  unfold overAfter
  rw [leg_eq_single hd] at hs ⊢
  obtain ⟨k, hk, hn, -⟩ := Computer.runOn_waiting hs
  rw [Computer.run, hn]
  omega

/-- Behind equal legs that are not just gone on from, all depends on the runs behind a value. -/
theorem runOn_still_of_leg_eq (hleg : leg settings.still executed c = leg settings executed c)
    (h : (leg settings executed c).stop = .stepLimit →
      settings.stepLimit ≤ overAfter settings executed c)
    (hw : (leg settings executed c).stop = .waiting → ∀ v rest, rest.length < lines.length →
      runOn settings shownAtEnd rest (overAfter settings executed c)
          ((leg settings executed c).computer.push v) =
        runOn settings.still shownAtEnd rest (overAfter settings executed c)
          ((leg settings executed c).computer.push v)) :
    runOn settings shownAtEnd lines executed c =
      runOn settings.still shownAtEnd lines executed c := by
  have ho : overAfter settings.still executed c = overAfter settings executed c := by
    unfold overAfter
    rw [hleg]
  have he : legEvents settings.still executed c = legEvents settings executed c := by
    unfold legEvents
    rw [hleg]
  rw [runOn_eq settings, runOn_eq settings.still, hleg, ho, he]
  cases hs : (leg settings executed c).stop with
  | halted => rfl
  | breakpoint a => exact absurd hs (Computer.stop_runOn_empty_ne_breakpoint _ _ _ _)
  | stepLimit =>
    dsimp only
    rw [Settings.stepLimit_still, if_pos (h hs), if_pos (h hs)]
  | waiting =>
    cases hi : Input.next shownAtEnd lines with
    | mk events found =>
      cases found with
      | none => rfl
      | some found =>
        have hr : found.2.length < lines.length := Input.length_lt_of_next (congrArg Prod.snd hi)
        dsimp only
        rw [hw hs found.1 found.2 hr]

/-- While cycles are left, pauses between them change nothing. -/
theorem runOn_still (hl : executed < settings.stepLimit) :
    runOn settings shownAtEnd lines executed c =
      runOn settings.still shownAtEnd lines executed c := by
  by_cases hd : settings.stepDelay = 0
  · rw [Settings.still_eq_self hd]
  -- every leg but the last reads a line of input or makes one of the cycles that are left
  induction hm : lines.length + (settings.stepLimit - executed) using Nat.strongRecOn
    generalizing lines executed c with
  | ind m ih =>
    by_cases hs : (leg settings executed c).stop = .stepLimit ∧
        overAfter settings executed c < settings.stepLimit
    · obtain ⟨hs, ho⟩ := hs
      have hs₁ : (c.run .empty 1).stop = .stepLimit := by rw [← leg_eq_single hd executed, hs]
      have ho₁ : overAfter settings executed c = executed + 1 := by
        unfold overAfter
        rw [leg_eq_single hd, Computer.steps_run_of_stepLimit hs₁]
      rw [runOn_still_split hs₁ hl, runOn_eq, hs]
      dsimp only
      rw [if_neg (by omega), ho₁, leg_eq_single hd, ih _ (by omega) (by omega) rfl]
      unfold legEvents
      rw [leg_eq_single hd]
    · have hlast : (leg settings executed c).stop = .stepLimit →
          settings.stepLimit ≤ overAfter settings executed c :=
        fun h => Nat.le_of_not_lt fun ho => hs ⟨h, ho⟩
      apply runOn_still_of_leg_eq (leg_still_of_last hd hl hlast) hlast
      intro hw v rest hr
      rw [overAfter_of_waiting hd hw]
      exact ih _ (by omega) hl rfl

end PlainRun

namespace Job

/-- The same job without pauses. -/
def still (j : Job) : Job := { j with settings := j.settings.still }

/-- If any cycle may be made at all, a run with pauses makes the same cycles as one without them, no
more than it may, ends at the same computer and for the same reason, and shows the same. -/
theorem run_still (j : Job) (h : 0 < j.settings.stepLimit) :
    j.run = j.still.run ∧ j.run.executed ≤ j.settings.stepLimit := by
  have hr : j.run = j.still.run := PlainRun.runOn_still h
  have hd : j.settings.still.stepDelay = 0 := rfl
  have hn : j.still.run.executed ≤ j.settings.stepLimit :=
    PlainRun.executed_runOn_le hd (Nat.zero_le _)
  rw [hr]
  exact ⟨rfl, hn⟩

/-- Emits what is in the accumulator at the start. -/
def emitter (settings : Settings) : Job where
  program := { words := [902, 0] }
  stdin := ⟨[], false⟩
  settings := settings

theorem run_still_emitter :
    0 < (emitter ⟨2, 5⟩).settings.stepLimit ∧ (emitter ⟨2, 5⟩).run = (emitter ⟨2, 5⟩).still.run ∧
      (emitter ⟨2, 5⟩).run.executed ≤ 2 :=
  ⟨by decide, run_still (emitter ⟨2, 5⟩) (by decide)⟩

/-- Where no cycle may be made, pauses let one pass all the same. -/
theorem run_emitter_without_cycles :
    (emitter ⟨0, 1⟩).run.executed = 1 ∧ shownValues (emitter ⟨0, 1⟩).run.events = [0] ∧
      (emitter ⟨0, 1⟩).still.run.executed = 0 ∧
      shownValues (emitter ⟨0, 1⟩).still.run.events = [] := by
  unfold run PlainRun.run
  rw [PlainRun.runOn_of_last_leg (by decide +kernel) (by decide +kernel),
    PlainRun.runOn_of_last_leg (by decide +kernel) (by decide +kernel)]
  decide +kernel

end Job

end LittleMan
