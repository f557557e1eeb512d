import LittleMan.Debugger.Session
import LittleMan.Proofs.Debugger.Pieces
import LittleMan.Proofs.Text.Trimming

/-! Scripts by the commands in them: what becomes of a session depends on nothing else in a script. -/
namespace LittleMan.Debugger

/-- The texts of pieces without the blanks around them. Blank pieces are left out. -/
def commandTexts (pieces : List String) : List String := (pieces.map Text.trim).filter (· ≠ "")

/-- The commands of a script, those that are misunderstood among them. -/
def Script.commandTexts (script : Script) : List String :=
  Debugger.commandTexts (script.pieces.map (·.text))

theorem commandTexts_append (ps qs : List String) :
    commandTexts (ps ++ qs) = commandTexts ps ++ commandTexts qs := by
  simp [commandTexts]

theorem commandTexts_cons (p : String) (ps : List String) :
    commandTexts (p :: ps) = commandTexts [p] ++ commandTexts ps :=
  commandTexts_append [p] ps

theorem commandTexts_of_blank {p : String} (h : Text.trim p = "") : commandTexts [p] = [] := by
  simp [commandTexts, h]

theorem commandTexts_of_not_blank {p : String} (h : Text.trim p ≠ "") :
    commandTexts [p] = [Text.trim p] := by
  simp [commandTexts, h]

theorem commandTexts_eq_flatMap (ps : List String) :
    commandTexts ps = ps.flatMap fun p => commandTexts [p] := by
  induction ps with
  | nil => rfl
  | cons p ps ih => rw [commandTexts_cons, List.flatMap_cons, ih]

theorem commandTexts_map {α : Type} (f : α → String) (ps : List α) :
    commandTexts (ps.map f) = ps.flatMap fun p => commandTexts [f p] := by
  rw [commandTexts_eq_flatMap, List.flatMap_map]

/-- A last piece that is empty holds no command. -/
theorem commandTexts_withoutEmptyEnd {α : Type} {f : List α → String} (hf : Text.trim (f []) = "")
    (ps : List (List α)) : commandTexts ((withoutEmptyEnd ps).map f) = commandTexts (ps.map f) := by
  have hnone : commandTexts [f []] = [] := commandTexts_of_blank hf
  rw [commandTexts_map, commandTexts_map]
  exact flatMap_withoutEmptyEnd (f := fun p => commandTexts [f p]) hnone ps

/-- What ends a command. -/
def isCut (c : Char) : Bool := c == '\n' || c == ';'

/-- What lies between newlines and semicolons. -/
def piecesIn (text : String) : List String := (text.toList.splitOnP isCut).map String.ofList

/-- The commands in a text, those that are misunderstood among them. -/
def commandsIn (text : String) : List String := commandTexts (piecesIn text)

theorem commandTexts_ofText (text : String) (stdin : List UInt8) :
    (Script.ofText text stdin).commandTexts = commandsIn text := by
  have hp : (Script.ofText text stdin).pieces.map (·.text) =
      (withoutEmptyEnd (text.toList.splitOnP isCut)).map String.ofList := by
    unfold Script.ofText
    dsimp only
    rw [List.map_map]
    exact map_allPieces String.ofList isCut text.toList
  unfold Script.commandTexts commandsIn
  rw [hp]
  exact commandTexts_withoutEmptyEnd (f := String.ofList) (by decide) _

/-- Blanks around a command do not matter. -/
theorem Command.ofLine_trim (line : String) : Command.ofLine (Text.trim line) = ofLine line := by
  unfold Command.ofLine
  rw [Text.words_trim]

namespace Session

/-- What becomes of a session that is told one thing after the other. What is no command is passed
over. -/
def obey (limit : Nat) (s : Session) : List String → Action × Session
  | [] => (.stopDebugger, s)
  | t :: ts =>
    match Command.ofLine t with
    | .error _ => s.obey limit ts
    | .ok c =>
      match c.action? with
      | some action => (action, s)
      | none => (s.carryOut limit c).1.prompt.1.obey limit ts

/-- A session when it has asked for its first command. -/
def opened (s : Session) : Session :=
  { s with initialInbox := s.computer.inbox, announce := false }

def Finished.outcome (f : Finished) : Action × Session := (f.action, f.session)

theorem outcome_after (f : Finished) (events : List Event) :
    (f.after events).outcome = f.outcome := rfl

theorem outcome_follow (limit : Nat) (script : Script) (s : Session) (ps : List Piece) :
    (s.follow limit script ps).outcome = s.obey limit (commandTexts (ps.map (·.text))) := by
  induction ps generalizing s with
  | nil => rfl
  | cons p ps ih =>
    rw [List.map_cons, commandTexts_cons, follow]
    split
    · next hw =>
      have hblank : Text.trim p.text = "" := Text.words_eq_nil_iff.mp hw
      rw [commandTexts_of_blank hblank, List.nil_append, outcome_after, ih]
    · next hw =>
      have hblank : Text.trim p.text ≠ "" := fun ht => hw (Text.words_eq_nil_iff.mpr ht)
      have hline : Command.ofLine (Text.trim p.text) = Command.ofWords (Text.words p.text) :=
        Command.ofLine_trim p.text
      rw [commandTexts_of_not_blank hblank, List.singleton_append, obey, hline]
      cases Command.ofWords (Text.words p.text) with
      | error fault => exact ih s
      | ok c =>
        dsimp only
        cases c.action? with
        | some action => rfl
        | none => exact ih _

/-- A session does what the commands of its script tell it, in order. -/
theorem outcome_run (limit : Nat) (s : Session) (script : Script) :
    (s.run limit script).outcome = s.opened.obey limit script.commandTexts :=
  outcome_follow limit script s.opened script.pieces

end Session

end LittleMan.Debugger
