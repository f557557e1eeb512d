import LittleMan.Proofs.Debugger.Idle

/-! Resets: a session that is reset goes on as if it had just been started, but for its
breakpoints. -/
namespace LittleMan.Debugger

/-- A command that ends the session, whatever comes behind it. -/
def isLast (t : String) : Bool := ((Command.ofLine t).toOption.bind Command.action?).isSome

/-- None of the texts is such a command. -/
def KeepsOn (ts : List String) : Prop := ∀ t ∈ ts, isLast t = false

theorem KeepsOn.tail {t : String} {ts : List String} (h : KeepsOn (t :: ts)) : KeepsOn ts :=
  fun u hu => h u (List.mem_cons_of_mem t hu)

theorem KeepsOn.action? {t : String} {ts : List String} {c : Command} (h : KeepsOn (t :: ts))
    (hc : Command.ofLine t = .ok c) : c.action? = none := by
  have ht : isLast t = false := h t List.mem_cons_self
  unfold isLast at ht
  rw [hc] at ht
  simpa [Except.toOption] using ht

/-- The commands of a text come in front of those of another behind a semicolon. -/
theorem commandsIn_append (text text' : String) :
    commandsIn (text ++ ";" ++ text') = commandsIn text ++ commandsIn text' := by
  have hcut : isCut ';' = true := by decide
  have hlist : (text ++ ";" ++ text').toList = text.toList ++ ';' :: text'.toList := by
    rw [String.toList_append, String.toList_append, List.append_assoc]
    rfl
  have hpieces : piecesIn (text ++ ";" ++ text') = piecesIn text ++ piecesIn text' := by
    unfold piecesIn
    rw [hlist, List.splitOnP_append_cons _ _ hcut, List.map_append]
  unfold commandsIn
  rw [hpieces, commandTexts_append]

theorem commandsIn_reset (text text' : String) :
    commandsIn (text ++ ";reset;" ++ text') = commandsIn text ++ "reset" :: commandsIn text' := by
  have htext : text ++ ";reset;" ++ text' = text ++ ";" ++ ("reset" ++ ";" ++ text') := by
    rw [show ";reset;" = ";" ++ "reset" ++ ";" from rfl]
    simp only [String.append_assoc]
  have hword : commandsIn "reset" = ["reset"] := by decide +kernel
  rw [htext, commandsIn_append, commandsIn_append, hword, List.singleton_append]

namespace Session

variable {s : Session} {ts us : List String}

/-- No series of commands touches what a reset goes back to. -/
theorem sameStart_obey (limit : Nat) (s : Session) (ts : List String) :
    s.SameStart (s.obey limit ts).2 := by
  induction ts generalizing s with
  | nil => exact .refl s
  | cons t ts ih =>
    rw [obey]
    cases Command.ofLine t with
    | error fault => exact ih s
    | ok c =>
      dsimp only
      cases c.action? with
      | some action => exact .refl s
      | none =>
        have hprompt : (s.carryOut limit c).1.SameStart (s.carryOut limit c).1.prompt.1 :=
          ⟨rfl, rfl, rfl⟩
        exact ((sameStart_carryOut limit s c).trans hprompt).trans (ih _)

/-- A session goes on with what it is told later. -/
theorem obey_append (limit : Nat) (s : Session) (h : KeepsOn ts) (us : List String) :
    s.obey limit (ts ++ us) = (s.obey limit ts).2.obey limit us := by
  induction ts generalizing s with
  | nil => rfl
  | cons t ts ih =>
    rw [List.cons_append, obey, obey]
    cases hc : Command.ofLine t with
    | error fault => exact ih s h.tail
    | ok c =>
      dsimp only
      rw [h.action? hc]
      exact ih _ h.tail

/-- A session with other breakpoints. -/
def withBreakpoints (s : Session) (breakpoints : Breakpoints) : Session := { s with breakpoints }

/-- A reset session is at the first prompt of its program again, and has its breakpoints. -/
theorem reset_of_sameStart {program : Program} {source : Option String} {inbox : List Int}
    (h : (start program source ⟨.load program.words, inbox, #[]⟩).opened.SameStart s) :
    s.reset.prompt.1 =
      ((start program source ⟨.load program.words, inbox, #[]⟩).withBreakpoints
        s.breakpoints).opened := by
  obtain ⟨program', source', inbox', breakpoints, announce, computer⟩ := s
  obtain ⟨rfl, rfl, rfl⟩ := h
  rfl

/-- A reset forgets everything but the breakpoints. Where a script goes on with a reset behind
commands that do not end the session, it leads to what the commands behind the reset lead to from
the start, with the breakpoints that have been left: to the same action and to the same session
with the same computer and the same breakpoints. -/
theorem run_reset (limit : Nat) (program : Program) (source : Option String) (inbox : List Int) :
    let s := start program source ⟨.load program.words, inbox, #[]⟩
    (∀ script first second : Script, KeepsOn first.commandTexts →
      ∀ t, Command.ofLine t = .ok .reset →
        script.commandTexts = first.commandTexts ++ t :: second.commandTexts →
          (s.run limit script).outcome =
            ((s.withBreakpoints (s.run limit first).session.breakpoints).run limit second).outcome) ∧
    ∀ text text' stdin, KeepsOn (commandsIn text) →
      (s.run limit (.ofText (text ++ ";reset;" ++ text') stdin)).outcome =
        ((s.withBreakpoints (s.run limit (.ofText text stdin)).session.breakpoints).run limit
          (.ofText text' stdin)).outcome := by
  intro s
  have hscripts : ∀ script first second : Script, KeepsOn first.commandTexts →
      ∀ t, Command.ofLine t = .ok .reset →
        script.commandTexts = first.commandTexts ++ t :: second.commandTexts →
          (s.run limit script).outcome =
            ((s.withBreakpoints (s.run limit first).session.breakpoints).run limit
              second).outcome := by
    intro script first second hf t ht hs
    have hfirst : (s.run limit first).session = (s.opened.obey limit first.commandTexts).2 :=
      congrArg Prod.snd (outcome_run limit s first)
    have hstart := sameStart_obey limit s.opened first.commandTexts
    rw [outcome_run, outcome_run, hs, obey_append limit s.opened hf, obey, ht, hfirst,
      ← reset_of_sameStart hstart]
    rfl
  refine ⟨hscripts, fun text text' stdin hf => ?_⟩
  rw [← commandTexts_ofText text stdin] at hf
  refine hscripts _ _ _ hf "reset" rfl ?_
  rw [commandTexts_ofText, commandTexts_ofText, commandTexts_ofText, commandsIn_reset]

/-- Takes values and emits them, without end. -/
def echoes : Program := { words := [901, 902, 901, 902, 600] }

def echoing : Session := start echoes none ⟨.load echoes.words, [5], #[]⟩

/-- A value is waited for and another one queued when all is put back. -/
theorem run_reset_echoing :
    KeepsOn (commandsIn "break add 1; continue; continue; set 0 0") ∧
      (echoing.run 10 (.ofText "break add 1; continue; continue; set 0 0" [])).session.computer =
        ⟨⟨(echoing.computer.machine.write 0 0).memory, 5, ⟨2, by decide⟩, 901,
          .waiting ⟨3, by decide⟩⟩, [], #[5]⟩ ∧
      (echoing.run 10 (.ofText
        ("break add 1; continue; continue; set 0 0" ++ ";reset;" ++ "continue") [])).outcome =
        ((echoing.withBreakpoints ⟨[1]⟩).run 10 (.ofText "continue" [])).outcome := by
  have hk : KeepsOn (commandsIn "break add 1; continue; continue; set 0 0") := by
    unfold KeepsOn
    decide +kernel
  have hb : (echoing.run 10
      (.ofText "break add 1; continue; continue; set 0 0" [])).session.breakpoints = ⟨[1]⟩ := by
    decide +kernel
  have hr := (run_reset 10 echoes none [5]).2 _ "continue" [] hk
  refine ⟨hk, by decide +kernel, ?_⟩
  rw [← hb]
  exact hr

end Session

end LittleMan.Debugger
