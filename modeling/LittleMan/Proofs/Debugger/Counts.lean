import LittleMan.Proofs.Debugger.Idle
import LittleMan.Proofs.Debugger.Understanding

/-! How many words a message tells of: where arguments are missing it is right, and where there are
too many it is right up to 255 words too many. -/
namespace LittleMan.Debugger

variable {ws : List String} {ps : List Parameter} {e : ArgumentError} {n : CommandName}
  {expected taken found : Nat} {line : String}

/-- What is told of a command with so many arguments where so many words have been found. -/
def ArgumentError.Counts (expected found : Nat) : ArgumentError → Prop
  | missing _ wanted actual => wanted = expected ∧ actual = found ∧ found < expected
  | tooMany wanted actual =>
    wanted = expected ∧ actual = reportedCount expected found ∧ expected < found
  | invalid _ _ => True

/-- While arguments are read, those that are over and the words that are left make up all words. -/
theorem Faults.counts (h : Faults expected taken ps ws e) (hp : taken + ps.length = expected) :
    e.Counts expected (taken + ws.length) := by
  induction h with
  | missing ha =>
    rw [List.length_cons] at hp
    exact ⟨rfl, rfl, show _ + 0 < _ by omega⟩
  | invalid hr => trivial
  | later ha he ih =>
    rw [List.length_cons] at hp
    have hcount := ih (by omega)
    rwa [List.length_cons, ← Nat.add_assoc, Nat.add_right_comm]
  | tooMany =>
    obtain rfl : _ = expected := hp
    exact ⟨rfl, rfl, by simp⟩

/-- No command takes more than two arguments. -/
theorem CommandName.length_parameters_le (n : CommandName) : n.parameters.length ≤ 2 := by
  cases n <;> decide

theorem Misspells.exists_arguments (h : Misspells ws (.invalidArgument n e)) :
    ∃ called args, ws = called ++ args ∧ Calls called n ∧
      Faults n.parameters.length 0 n.parameters args e := by
  cases h with
  | name h => cases h
  | arguments hc hn hf => exact ⟨_, _, rfl, hc, hf⟩

/-- Arguments are only complained of behind a name. -/
theorem exists_counts (h : Command.ofLine line = .error (.invalidArgument n e)) :
    ∃ called args, Text.words line = called ++ args ∧ Calls called n ∧
      e.Counts n.parameters.length args.length := by
  have hl : Text.trim line ≠ "" := by
    intro hblank
    rw [Command.ofLine_of_blank hblank] at h
    have he := Except.error.inj h
    contradiction
  obtain ⟨called, args, hw, hc, hf⟩ := ((ofLine_eq_error_iff hl).mp h).exists_arguments
  have hcounts := hf.counts (Nat.zero_add _)
  rw [Nat.zero_add] at hcounts
  exact ⟨called, args, hw, hc, hcounts⟩

/-- Words left over are counted right up to a byte, and beyond only where the count would be cut off
anyway. -/
theorem reportedCount_eq_iff (he : expected ≤ 2) (h : expected < found) :
    reportedCount expected found = min 255 found ↔
      found - expected < 256 ∨ 255 ≤ expected + (found - expected) % 256 := by
  unfold reportedCount
  omega

theorem lt_reportedCount_iff (he : expected ≤ 2) (h : expected < found) :
    expected < reportedCount expected found ↔ (found - expected) % 256 ≠ 0 := by
  unfold reportedCount
  omega

/-- Where an argument is missing, the message has the number of words behind the name. Where there
are too many, it has this number up to 255, but words left over are counted modulo 256: the number
is true for at most 255 of them, or where it would have been cut off anyway, and it is above the
number of arguments unless the words left over are a multiple of 256. -/
theorem counts_reported (h : Command.ofLine line = .error (.invalidArgument n e)) :
    ∃ called args, Text.words line = called ++ args ∧ Calls called n ∧
      (∀ name expected actual, e = .missing name expected actual →
        actual = args.length ∧ actual < expected) ∧
      ∀ expected actual, e = .tooMany expected actual →
        expected < args.length ∧ actual = reportedCount expected args.length ∧
        (actual = min 255 args.length ↔ args.length - expected < 256 ∨
          255 ≤ expected + (args.length - expected) % 256) ∧
        (expected < actual ↔ (args.length - expected) % 256 ≠ 0) := by
  obtain ⟨called, args, hw, hc, hcounts⟩ := exists_counts h
  refine ⟨called, args, hw, hc, ?_, ?_⟩
  · rintro name expected actual rfl
    obtain ⟨rfl, rfl, hlt⟩ := hcounts
    exact ⟨rfl, hlt⟩
  · rintro expected actual rfl
    obtain ⟨rfl, rfl, hlt⟩ := hcounts
    have hle := n.length_parameters_le
    exact ⟨hlt, rfl, reportedCount_eq_iff hle hlt, lt_reportedCount_iff hle hlt⟩

/-- One argument of two, and three of one. -/
theorem counts_reported_short :
    (Command.ofLine "set 4" = .error (.invalidArgument .write (.missing "value" 2 1)) ∧
      ∃ called args, Text.words "set 4" = called ++ args ∧ Calls called .write ∧
        1 = args.length ∧ 1 < 2) ∧
    Command.ofLine "step 4 x y" = .error (.invalidArgument .step (.tooMany 1 3)) ∧
      ∃ called args, Text.words "step 4 x y" = called ++ args ∧ Calls called .step ∧
        1 < args.length ∧ 3 = reportedCount 1 args.length ∧ 3 = min 255 args.length ∧
        (args.length - 1) % 256 ≠ 0 := by
  have hfew : Command.ofLine "set 4" =
      .error (.invalidArgument .write (.missing "value" 2 1)) := rfl
  have hmany : Command.ofLine "step 4 x y" =
      .error (.invalidArgument .step (.tooMany 1 3)) := rfl
  refine ⟨⟨hfew, ?_⟩, hmany, ?_⟩
  · obtain ⟨called, args, hw, hc, hmissing, -⟩ := counts_reported hfew
    exact ⟨called, args, hw, hc, hmissing _ _ _ rfl⟩
  · obtain ⟨called, args, hw, hc, -, htooMany⟩ := counts_reported hmany
    obtain ⟨hlt, hcount, htrue, habove⟩ := htooMany _ _ rfl
    have hlength : (Text.words "step 4 x y").length = 4 := by decide +kernel
    rw [hw, List.length_append] at hlength
    have hover : args.length - 1 < 256 := by omega
    exact ⟨called, args, hw, hc, hlt, hcount, htrue.mpr (.inl hover), habove.mp (by decide)⟩

/-- A name and 256 words. -/
def crowded : String := " ".intercalate ("registers" :: List.replicate 256 "x")

/-- Of 256 words that are too many there is said to be none. -/
theorem counts_reported_crowded :
    Text.words crowded = ["registers"] ++ List.replicate 256 "x" ∧
      Calls ["registers"] .registers ∧
      Command.ofLine crowded = .error (.invalidArgument .registers (.tooMany 0 0)) := by
  have hc : Calls ["registers"] .registers :=
    .word (a := "registers") (by decide) (by decide +kernel)
  have hx : Text.words "x" = ["x"] := by decide +kernel
  have hr : Text.words "registers" = ["registers"] := by decide +kernel
  have hw : Text.words crowded = ["registers"] ++ List.replicate 256 "x" := by
    unfold crowded
    rw [Text.words_intercalate, List.flatMap_cons, hr, List.flatMap_replicate, hx,
      List.flatten_replicate_singleton]
  have ha : Command.ofArguments .registers (List.replicate 256 "x") = .error (.tooMany 0 0) := by
    have hl : (List.replicate 256 "x").length = 256 := List.length_replicate
    change finish 0 .registers (List.replicate 256 "x") = _
    unfold finish
    rw [hl]
    exact if_neg Bool.false_ne_true
  refine ⟨hw, hc, ?_⟩
  unfold Command.ofLine
  rw [hw, ofWords_of_calls hc, ha]
  rfl

end LittleMan.Debugger
