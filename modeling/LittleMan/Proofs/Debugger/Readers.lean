import LittleMan.Proofs.Debugger.Scripts
import LittleMan.Proofs.Terminal.Keyboard

/-! The three ways in which a script is read: one text, piped bytes and typed lines hold the same
commands, as far as their characters are the same. -/
namespace LittleMan.Debugger

open Terminal

variable {line text : String}

/-- The commands of a line that has been typed. -/
def commandsOnLine (line : String) : List String :=
  commandTexts ((line.toList.splitOnP (· == ';')).map String.ofList)

/-- The lines of a text. There is none behind a newline at the end. -/
def linesOf (text : String) : List String :=
  (withoutEmptyEnd (text.toList.splitOnP (· == '\n'))).map String.ofList

/-- The first command on a line ends at the first semicolon, or it is all that is left. -/
theorem nextOnLine_cases (cs : List Char) :
    (∀ c ∈ (nextOnLine cs).1, (c == ';') = false) ∧
      ((nextOnLine cs = (cs, none)) ∨
        ∃ rest, (nextOnLine cs).2 = some rest ∧ cs = (nextOnLine cs).1 ++ ';' :: rest) := by
  have hne : (fun c : Char => c != ';') = fun c => !(c == ';') := rfl
  unfold nextOnLine
  rw [hne]
  obtain ⟨hp, ⟨hd, hcs⟩ | ⟨d, rest, hd, hcut, hcs⟩⟩ := Text.dropWhile_cases (· == ';') cs
  · rw [hd]
    refine ⟨hp, .inl ?_⟩
    rw [hcs]
  · obtain rfl : d = ';' := by simpa using hcut
    rw [hd]
    exact ⟨hp, .inr ⟨rest, rfl, hcs⟩⟩

theorem allOnLine_eq (cs : List Char) : allOnLine cs = cs.splitOnP (· == ';') := by
  fun_induction allOnLine cs with
  | case1 cs p h =>
    obtain ⟨hp, hall | ⟨rest, hrest, -⟩⟩ := nextOnLine_cases cs
    · obtain rfl : p = cs := by simpa [h] using hall
      rw [h] at hp
      exact (List.splitOnP_eq_singleton hp).symm
    · rw [h] at hrest
      contradiction
  | case2 cs p rest h ih =>
    obtain ⟨hp, hall | ⟨rest', hrest, hcs⟩⟩ := nextOnLine_cases cs
    · rw [h] at hall
      simp at hall
    · obtain rfl : rest = rest' := by simpa [h] using hrest
      rw [h] at hp hcs
      rw [hcs, ih, List.splitOnP_append_cons_of_forall_mem hp ';' (by decide)]

/-- The commands in a text are those of its lines. -/
theorem flatMap_linesOf (text : String) :
    (linesOf text).flatMap commandsOnLine = commandsIn text := by
  have hnone : commandsOnLine (String.ofList []) = [] := by decide
  have hcut : text.toList.splitOnP isCut =
      (text.toList.splitOnP (· == '\n')).flatMap (·.splitOnP (· == ';')) :=
    Text.splitOnP_or (· == '\n') (· == ';') text.toList
  calc
    _ = (withoutEmptyEnd (text.toList.splitOnP (· == '\n'))).flatMap
        fun row => commandsOnLine (String.ofList row) := by
      rw [linesOf, List.flatMap_map]
    _ = (text.toList.splitOnP (· == '\n')).flatMap fun row => commandsOnLine (String.ofList row) :=
      flatMap_withoutEmptyEnd (f := fun row => commandsOnLine (String.ofList row)) hnone _
    _ = commandsIn text := by
      unfold commandsIn piecesIn commandsOnLine
      rw [commandTexts_map, hcut, List.flatMap_assoc]
      simp only [String.toList_ofList, commandTexts_map]

theorem commandsOnLine_of_blank (h : Text.trim line = "") : commandsOnLine line = [] := by
  have hb : ∀ c ∈ line.toList, Text.isBlank c = true := Text.trim_eq_empty_iff.mp h
  have hs : ∀ c ∈ line.toList, (c == ';') = false := by
    intro c hc
    rw [beq_eq_false_iff_ne]
    rintro rfl
    have hblank := hb ';' hc
    contradiction
  rw [commandsOnLine, List.splitOnP_eq_singleton hs, List.map_singleton, String.ofList_toList,
    commandTexts_of_blank h]

theorem commandTexts_showFirst (e : Event) (script : Script) :
    (script.showFirst e).commandTexts = script.commandTexts := by
  unfold Script.showFirst
  split <;> simp_all [Script.commandTexts]

theorem commandTexts_addLine (line : String) (left : List UInt8) (script : Script) :
    (script.addLine line left).commandTexts = commandsOnLine line ++ script.commandTexts := by
  unfold Script.addLine Script.commandTexts commandsOnLine
  rw [List.map_append, commandTexts_append, allOnLine_eq, List.map_map]
  rfl

/-- What is typed is read line by line. -/
theorem commandTexts_ofTyped (stdin : List UInt8) :
    (Script.ofTyped stdin).commandTexts = (typedLines stdin).flatMap commandsOnLine := by
  fun_induction typedLines stdin with
  | case1 stdin h =>
    rw [Script.ofTyped, commandTexts_showFirst]
    split
    · rfl
    · simp_all
  | case2 stdin rest h ih =>
    rw [Script.ofTyped, commandTexts_showFirst, List.flatMap_cons, ← ih]
    split
    · simp_all
    · next rest' hrest =>
      obtain rfl : rest = rest' := by simpa [h] using hrest
      split
      · next hblank => rw [commandsOnLine_of_blank hblank, List.nil_append]
      · rw [commandTexts_addLine]

/-- The character that a byte is read as when it is piped in. -/
def latin1Char (b : UInt8) : Char := Char.ofNat b.toNat

theorem isCut_latin1Char (b : UInt8) : isCut (latin1Char b) = (b == 10 || b == 59) := by
  have hall : ∀ n < 256, isCut (latin1Char (UInt8.ofNat n)) =
      (UInt8.ofNat n == 10 || UInt8.ofNat n == 59) := by decide +kernel
  have hb := hall b.toNat b.toNat_lt
  rwa [UInt8.ofNat_toNat] at hb

theorem commandTexts_ofPipe (stdin : List UInt8) :
    (Script.ofPipe stdin).commandTexts = commandsIn (Text.ofLatin1 stdin) := by
  have hp : (Script.ofPipe stdin).pieces.map (·.text) =
      (withoutEmptyEnd (stdin.splitOnP fun b => b == 10 || b == 59)).map Text.ofLatin1 := by
    unfold Script.ofPipe
    dsimp only
    rw [List.map_map]
    exact map_allPieces Text.ofLatin1 _ stdin
  have hcut : (stdin.map latin1Char).splitOnP isCut =
      (stdin.splitOnP fun b => b == 10 || b == 59).map (List.map latin1Char) := by
    rw [Text.splitOnP_map]
    simp only [isCut_latin1Char]
  have htext : (Text.ofLatin1 stdin).toList = stdin.map latin1Char := String.toList_ofList
  unfold Script.commandTexts commandsIn piecesIn
  rw [hp, commandTexts_withoutEmptyEnd (f := Text.ofLatin1) (by decide), htext, hcut, List.map_map]
  rfl

theorem latin1_utf8EncodeChar {c : Char} (h : c.val.toNat < 128) :
    (String.utf8EncodeChar c).map latin1Char = [c] := by
  have hc : String.utf8EncodeChar c = [UInt8.ofNat c.val.toNat] := by
    unfold String.utf8EncodeChar
    simp only [if_pos (Nat.le_of_lt_succ h)]
  have hn : (UInt8.ofNat c.val.toNat).toNat = c.val.toNat := by
    rw [UInt8.toNat_ofNat']
    omega
  rw [hc, List.map_singleton, latin1Char, hn]
  exact congrArg (fun d => [d]) (Char.ofNat_toNat c)

theorem map_latin1Char_utf8Bytes {cs : List Char} (h : ∀ c ∈ cs, c.val.toNat < 128) :
    (Text.utf8Bytes cs).map latin1Char = cs := by
  induction cs with
  | nil => rfl
  | cons c cs ih =>
    have hc : c.val.toNat < 128 := h c List.mem_cons_self
    have hrest := ih fun d hd => h d (List.mem_cons_of_mem c hd)
    unfold Text.utf8Bytes at hrest ⊢
    rw [List.flatMap_cons, List.map_append, latin1_utf8EncodeChar hc, hrest]
    rfl

theorem ofLatin1_of_ascii (h : ∀ c ∈ text.toList, c.val.toNat < 128) :
    Text.ofLatin1 (Text.utf8Bytes text.toList) = text := by
  have ht : Text.ofLatin1 (Text.utf8Bytes text.toList) = String.ofList text.toList :=
    congrArg String.ofList (map_latin1Char_utf8Bytes h)
  rw [ht, String.ofList_toList]

/-- What is typed to enter a text: its lines, each with a newline behind it. -/
def keystrokes (text : String) : List UInt8 :=
  Text.utf8Bytes
    ((withoutEmptyEnd (text.toList.splitOnP (· == '\n'))).flatMap (· ++ ['\n']))

theorem typedLines_keystrokes (h : ∀ c ∈ text.toList, c = '\n' ∨ IsPlainKey c) :
    typedLines (keystrokes text) = linesOf text := by
  apply typedLines_utf8Bytes
  intro row hrow c hc
  obtain ⟨hmem, hcut⟩ := Text.of_mem_splitOnP (mem_of_mem_withoutEmptyEnd hrow) c hc
  rcases h c hmem with rfl | hkey
  · contradiction
  · exact hkey

/-- A script consists of these commands: any session that follows it obeys them, one after the
other. -/
structure Script.Gives (script : Script) (ts : List String) : Prop where
  commands : script.commandTexts = ts
  outcome : ∀ limit s, (Session.run limit s script).outcome = s.opened.obey limit ts

theorem Script.gives {script : Script} {ts : List String} (h : script.commandTexts = ts) :
    script.Gives ts where
  commands := h
  outcome := by
    intro limit s
    rw [Session.outcome_run, h]

/-- What a text of commands consists of is the same however it is read, but for characters beyond
ASCII that are piped in: each of their bytes becomes a character. -/
theorem readers_agree (text : String) :
    (∀ stdin, (Script.ofText text stdin).Gives (commandsIn text)) ∧
    (∀ stdin, typedLines stdin = linesOf text → (Script.ofTyped stdin).Gives (commandsIn text)) ∧
    ((∀ c ∈ text.toList, c = '\n' ∨ IsPlainKey c) →
      (Script.ofTyped (keystrokes text)).Gives (commandsIn text)) ∧
    (∀ stdin, (Script.ofPipe stdin).Gives (commandsIn (Text.ofLatin1 stdin))) ∧
    ((∀ c ∈ text.toList, c.val.toNat < 128) →
      (Script.ofPipe (Text.utf8Bytes text.toList)).Gives (commandsIn text)) := by
  have htyped : ∀ stdin, typedLines stdin = linesOf text →
      (Script.ofTyped stdin).Gives (commandsIn text) := by
    intro stdin h
    apply Script.gives
    rw [commandTexts_ofTyped, h, flatMap_linesOf]
  refine ⟨?_, htyped, ?_, ?_, ?_⟩
  · exact fun stdin => Script.gives (commandTexts_ofText text stdin)
  · exact fun h => htyped _ (typedLines_keystrokes h)
  · exact fun stdin => Script.gives (commandTexts_ofPipe stdin)
  · intro h
    apply Script.gives
    rw [commandTexts_ofPipe, ofLatin1_of_ascii h]

/-- A label with an accent cannot be named in commands that are piped in. -/
theorem piped_accent :
    (Script.ofPipe (Text.utf8Bytes "set é 5".toList)).commandTexts = ["set Ã© 5"] ∧
      ¬(Script.ofPipe (Text.utf8Bytes "set é 5".toList)).Gives (commandsIn "set é 5") := by
  have hpiped : (Script.ofPipe (Text.utf8Bytes "set é 5".toList)).commandTexts = ["set Ã© 5"] := by
    rw [commandTexts_ofPipe]
    decide +kernel
  refine ⟨hpiped, ?_⟩
  intro h
  have hcommands := h.commands
  rw [hpiped] at hcommands
  revert hcommands
  decide +kernel

end LittleMan.Debugger
