import LittleMan.Execution
import LittleMan.Proofs.Input
import LittleMan.Proofs.PlainRun.Rounds
import LittleMan.Proofs.Transcript

/-! A run without pauses on piped input, told as a single run of a computer that has all its values
from the start. -/
namespace LittleMan

theorem Computer.newOutputs_append_of_outbox {c d e : Computer} {vs ws : List Int}
    (h : d.outbox.toList = c.outbox.toList ++ vs) (h' : e.outbox.toList = d.outbox.toList ++ ws) :
    c.newOutputs e = vs ++ ws := by
  apply newOutputs_of_append
  rw [h', h, List.append_assoc]

namespace Input

variable {lines : List InputLine}

end Input

/-- The ending of a run that stops for the given reason. -/
def Ending.ofStop (limit : Nat) : Stop → Ending
  | .halted => .halted
  | .waiting => .noInput
  | .breakpoint _ | .stepLimit => .stepLimit limit

namespace PlainRun

variable {settings : Settings} {lines : List InputLine} {executed : Nat} {c : Computer}
  {r : PlainRun}

/-- `r` ends as the run `whole` of a computer does, from `c` on, behind `executed` cycles that are
over. Just the values that come to the outbox are shown, and the ending last. -/
structure Retells (limit executed : Nat) (c : Computer) (whole : Run) (r : PlainRun) : Prop where
  ending : r.ending = .ofStop limit whole.stop
  executed : r.executed = executed + whole.steps
  machine : r.computer.machine = whole.computer.machine
  values : shownValues r.events = c.newOutputs whole.computer
  last : ∃ shown, r.events = shown ++ [.ended r.ending] ∧ Bare shown

namespace Retells

variable {limit : Nat} {d : Computer} {whole : Run} {es : List Event}

theorem stopped (hm : d.machine = whole.computer.machine)
    (hv : shownValues es = c.newOutputs whole.computer) (hu : Bare es) :
    Retells limit executed c whole
      (stopped (.ofStop limit whole.stop) (executed + whole.steps) d es) where
  ending := rfl
  executed := rfl
  machine := hm
  values := by rw [shownValues_stopped, hv]
  last := ⟨es, rfl, hu⟩

/-- What is told from a computer on the way is told from `c` on with what has been shown before. -/
theorem after {k : Nat} (h : Retells limit (executed + k) d whole r)
    (hd : d.outbox.toList = c.outbox.toList ++ shownValues es)
    (hw : whole.computer.outbox.toList = d.outbox.toList ++ d.newOutputs whole.computer)
    (hu : Bare es) : Retells limit executed c (whole.later k) (r.after es) where
  ending := h.ending
  executed := by
    rw [Run.later, ← Nat.add_assoc]
    exact h.executed
  machine := h.machine
  values := by
    rw [shownValues_after, h.values]
    exact (Computer.newOutputs_append_of_outbox hd hw).symm
  last := by
    obtain ⟨shown, hs, hu'⟩ := h.last
    refine ⟨es ++ shown, ?_, hu.append hu'⟩
    rw [List.append_assoc]
    exact congrArg (es ++ ·) hs

end Retells

end PlainRun

namespace Job

end Job

end LittleMan
