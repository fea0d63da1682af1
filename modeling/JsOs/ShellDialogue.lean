import JsOs.MainTranscripts
import JsOs.ShellLines

/-!
# The dialogue of the shell

What `js_runtime_shell` writes and which lines it evaluates follows from the keys that it has read.
Neither the blinking of the cursor nor anything that scripts do makes a difference, and each line
that has been entered is evaluated once.
-/

namespace JsOs.ShellDialogue

open MachineWords TransitionRuns ReentrantPrograms MainTranscripts RuntimeModel ShellLines

abbrev ShellItem := Item Action Request Value Function

def keyRead : ShellItem → Option KeyboardEvent
  | .answered .readEvent v => v.toEvent
  | _ => none

def keysRead (l : List ShellItem) : List KeyboardEvent := l.filterMap keyRead

/-- All but the cursor and the answers. -/
def isSaid : ShellItem → Bool
  | .acted (.setCursorVisible _) => false
  | .answered .. => false
  | _ => true

def said (l : List ShellItem) : List ShellItem := l.filter isSaid

def evaluation : ShellItem → Option (List UInt8)
  | .invoked (.evaluate source) => some source
  | _ => none

def evaluated (l : List ShellItem) : List (List UInt8) := l.filterMap evaluation

/-- What there is to say to a key after a line. -/
def respond (line : List UInt8) (key : KeyboardEvent) : List ShellItem :=
  match key.type with
  | .character =>
    if 0x20 ≤ key.character ∧ key.character < 0x7f then
      if line.length < 1023 then [.acted (.write [key.character])]
      else [.acted (.write (ascii "\nquickjs: input is limited to 1023 bytes\n")),
        .invoked .writePrompt]
    else []
  | .enter => .acted (.write (ascii "\n")) ::
      if line ≠ [] then [.invoked (.evaluate line), .invoked .writePrompt]
      else [.invoked .writePrompt]
  | .backspace => if line ≠ [] then [.acted (.write [8, chr ' ', 8])] else []
  | .interrupt => [.acted (.write (ascii "^C\n")), .invoked .writePrompt]
  | .other => []

def responses : List UInt8 → List KeyboardEvent → List ShellItem
  | _, [] => []
  | line, key :: keys => respond line key ++ responses (typeKey line key) keys

def dialogue (keys : List KeyboardEvent) : List ShellItem :=
  .invoked .writePrompt :: responses [] keys

section Dialogues

variable {l : List ShellItem} {keys : List KeyboardEvent} {key : KeyboardEvent}
  {line : List UInt8}

theorem responses_concat (keys : List KeyboardEvent) (key : KeyboardEvent) (line : List UInt8) :
    responses line (keys ++ [key]) = responses line keys ++ respond (keys.foldl typeKey line) key := by
  induction keys generalizing line with
  | nil => exact List.append_nil _
  | cons key' keys ih =>
    rw [List.cons_append, responses, ih, ← List.append_assoc]
    rfl

theorem dialogue_concat (keys : List KeyboardEvent) (key : KeyboardEvent) :
    dialogue (keys ++ [key]) = dialogue keys ++ respond (typedText keys) key := by
  rw [dialogue, responses_concat]
  rfl

theorem evaluated_respond (line : List UInt8) (key : KeyboardEvent) :
    evaluated (respond line key) = if key.type = .enter ∧ line ≠ [] then [line] else [] := by
  unfold respond
  by_cases henter : key.type = .enter
  · rw [henter]
    dsimp only
    by_cases hline : line ≠ []
    · rw [if_pos hline, if_pos ⟨rfl, hline⟩]
      rfl
    · rw [if_neg hline, if_neg (fun h => hline h.2)]
      rfl
  · have hnone : (if key.type = .enter ∧ line ≠ [] then [line] else []) = [] :=
      if_neg fun h => henter h.1
    rw [hnone]
    cases htype : key.type with
    | enter => exact absurd htype henter
    | character =>
      dsimp only
      split_ifs <;> rfl
    | backspace =>
      dsimp only
      split_ifs <;> rfl
    | interrupt => rfl
    | other => rfl

theorem evaluated_responses (keys : List KeyboardEvent) (line : List UInt8) :
    evaluated (responses line keys) = submitted line keys := by
  induction keys generalizing line with
  | nil => rfl
  | cons key keys ih =>
    have happend : evaluated (responses line (key :: keys)) =
        evaluated (respond line key) ++ evaluated (responses (typeKey line key) keys) :=
      List.filterMap_append ..
    rw [happend, evaluated_respond, ih, submitted]
    split_ifs <;> rfl

/-- The dialogue evaluates what has been submitted. -/
theorem evaluated_dialogue (keys : List KeyboardEvent) :
    evaluated (dialogue keys) = submitted [] keys := evaluated_responses keys []

/-- Answers and the cursor evaluate nothing. -/
theorem evaluated_said (l : List ShellItem) : evaluated (said l) = evaluated l := by
  unfold evaluated said
  rw [List.filterMap_filter]
  congr 1
  funext x
  cases x with
  | answered r v => rfl
  | invoked f => rfl
  | acted a => cases a <;> rfl

end Dialogues

section Turns

/-- The keys read so far, and what there is still to say to them. -/
structure Owes (l : List ShellItem) (keys : List KeyboardEvent) (rest : List ShellItem) : Prop where
  keysRead_eq : keysRead l = keys
  said_eq : said l ++ rest = dialogue keys

/-- What is said is part of the dialogue. -/
def InDialogue (l : List ShellItem) : Prop := said l <+: dialogue (keysRead l)

/-- At each turn of the loop everything has been said. -/
def AtTurn (f : Function) (l : List ShellItem) : Prop :=
  ∃ st, f = .shellLoop st ∧ st.line = typedText (keysRead l) ∧ st.line.length ≤ 1023 ∧
    said l = dialogue (keysRead l)

abbrev Talks (p : RuntimeProgram) (l : List ShellItem) : Prop := Says InDialogue AtTurn p l

variable {l rest : List ShellItem} {keys : List KeyboardEvent} {key : KeyboardEvent}
  {line : List UInt8} {next : RuntimeProgram} {st : ShellState} {x : ShellItem}

namespace Owes

theorem inDialogue (h : Owes l keys rest) : InDialogue l :=
  ⟨rest, by rw [h.said_eq, h.keysRead_eq]⟩

theorem say (h : Owes l keys (x :: rest)) (hsaid : isSaid x = true) (hkey : keyRead x = none) :
    Owes (l ++ [x]) keys rest := by
  obtain ⟨hkeys, hdialogue⟩ := h
  constructor
  · rw [keysRead, List.filterMap_append, List.filterMap_cons_none hkey, List.filterMap_nil,
      List.append_nil]
    exact hkeys
  · rw [said, List.filter_append, List.filter_cons_of_pos hsaid, List.filter_nil,
      List.append_assoc]
    exact hdialogue

theorem silent (h : Owes l keys rest) (hsaid : isSaid x = false) (hkey : keyRead x = none) :
    Owes (l ++ [x]) keys rest := by
  obtain ⟨hkeys, hdialogue⟩ := h
  constructor
  · rw [keysRead, List.filterMap_append, List.filterMap_cons_none hkey, List.filterMap_nil,
      List.append_nil]
    exact hkeys
  · rw [said, List.filter_append, List.filter_cons_of_neg (by rw [hsaid]; decide), List.filter_nil,
      List.append_nil]
    exact hdialogue

theorem read (h : Owes l keys []) (hsaid : isSaid x = false) (hkey : keyRead x = some key) :
    Owes (l ++ [x]) (keys ++ [key]) (respond (typedText keys) key) := by
  obtain ⟨hkeys, hdialogue⟩ := h
  constructor
  · rw [keysRead, List.filterMap_append, List.filterMap_cons_some hkey, List.filterMap_nil]
    exact congrArg (· ++ [key]) hkeys
  · rw [said, List.filter_append, List.filter_cons_of_neg (by rw [hsaid]; decide), List.filter_nil,
      List.append_nil, dialogue_concat, ← hdialogue, List.append_nil]
    rfl

end Owes

theorem talks_write {text : List UInt8} (h : Owes l keys (.acted (.write text) :: rest))
    (hnext : Owes (l ++ [.acted (.write text)]) keys rest →
      Talks next (l ++ [.acted (.write text)])) : Talks (.act (.write text) next) l :=
  ⟨h.inDialogue, hnext (h.say rfl rfl)⟩

theorem talks_visible {visible : Bool} (h : Owes l keys rest)
    (hnext : ∀ l, Owes l keys rest → Talks next l) :
    Talks (.act (.setCursorVisible visible) next) l :=
  ⟨h.inDialogue, hnext _ (h.silent rfl rfl)⟩

/-- A function may return anything. -/
theorem talks_invoke {f : Function} (h : Owes l keys (.invoked f :: rest))
    (hnext : ∀ l, Owes l keys rest → Talks next l) : Talks (.invoke f fun _ => next) l :=
  ⟨h.inDialogue, (h.say rfl rfl).inDialogue, fun _ => hnext _ (h.say rfl rfl)⟩

theorem talks_jump (h : Owes l keys []) (hline : st.line = typedText keys)
    (hlength : st.line.length ≤ 1023) : Talks (.jump (.shellLoop st)) l := by
  obtain ⟨rfl, hdialogue⟩ := h
  rw [List.append_nil] at hdialogue
  exact ⟨⟨[], by rw [List.append_nil, hdialogue]⟩, st, rfl, hline, hlength, hdialogue⟩

theorem talks_showCursor (h : Owes l keys []) (hline : line = typedText keys)
    (hlength : line.length ≤ 1023) : Talks (showCursor line) l :=
  talks_visible h fun _ h => ⟨h.inDialogue, fun _ => talks_jump h hline hlength⟩

theorem talks_newLine (h : Owes l keys [.invoked .writePrompt]) (hempty : typedText keys = []) :
    Talks (.invoke .writePrompt fun _ => showCursor []) l :=
  talks_invoke h fun _ h => talks_showCursor h hempty.symm (Nat.zero_le _)

theorem talks_enter (h : Owes l (keys ++ [key]) (respond st.line key)) (hkey : key.type = .enter) :
    Talks (shellEnter st) l := by
  have hempty : typedText (keys ++ [key]) = [] := by rw [typedText_concat, typeKey, hkey]
  unfold respond at h
  rw [hkey] at h
  refine talks_write h fun h => ?_
  split_ifs at h ⊢ with hne
  · exact talks_invoke h fun _ h => talks_newLine h hempty
  · exact talks_newLine h hempty

theorem talks_backspace (h : Owes l (keys ++ [key]) (respond st.line key))
    (hkey : key.type = .backspace) (hline : st.line = typedText keys)
    (hlength : st.line.length ≤ 1023) : Talks (shellBackspace st) l := by
  have hdrop : st.line.dropLast = typedText (keys ++ [key]) := by
    rw [typedText_concat, typeKey, hkey, hline]
  unfold respond at h
  unfold shellBackspace
  rw [hkey] at h
  dsimp only at h
  split_ifs at h ⊢ with hne
  · refine talks_write h fun h => talks_showCursor h hdrop ?_
    rw [List.length_dropLast]
    omega
  · refine talks_showCursor h ?_ hlength
    rw [← hdrop, not_not.mp hne]
    rfl

theorem talks_interrupt (h : Owes l (keys ++ [key]) (respond line key))
    (hkey : key.type = .interrupt) : Talks shellInterrupt l := by
  have hempty : typedText (keys ++ [key]) = [] := by rw [typedText_concat, typeKey, hkey]
  unfold respond at h
  rw [hkey] at h
  exact talks_write h fun h => talks_newLine h hempty

/-- A printable character, and any other key. -/
theorem respond_character (henter : key.type ≠ .enter) (hbackspace : key.type ≠ .backspace)
    (hinterrupt : key.type ≠ .interrupt) : respond line key =
      if key.type ≠ .character ∨ key.character = 9 ∨ key.character < 0x20 ∨ key.character ≥ 0x7f
      then []
      else if line.length + 1 ≥ 1024 then
        [.acted (.write (ascii "\nquickjs: input is limited to 1023 bytes\n")),
          .invoked .writePrompt]
      else [.acted (.write [key.character])] := by
  unfold respond
  cases htype : key.type with
  | character =>
    dsimp only
    by_cases hprintable : 0x20 ≤ key.character ∧ key.character < 0x7f
    · rw [if_pos hprintable, if_neg (not_or.mpr ⟨not_not.mpr rfl, printable_iff.mp hprintable⟩)]
      by_cases hshort : line.length < 1023
      · rw [if_pos hshort, if_neg (by omega)]
      · rw [if_neg hshort, if_pos (by omega)]
    · rw [if_neg hprintable, if_pos (.inr (not_not.mp (mt printable_iff.mpr hprintable)))]
  | other =>
    dsimp only
    rw [if_pos (.inl (by decide))]
  | enter => exact absurd htype henter
  | backspace => exact absurd htype hbackspace
  | interrupt => exact absurd htype hinterrupt

theorem talks_character (h : Owes l (keys ++ [key]) (respond st.line key))
    (henter : key.type ≠ .enter) (hbackspace : key.type ≠ .backspace)
    (hinterrupt : key.type ≠ .interrupt) (hline : st.line = typedText keys)
    (hlength : st.line.length ≤ 1023) : Talks (shellCharacter st key) l := by
  have htyped : typedText (keys ++ [key]) = typeKey st.line key := by
    rw [typedText_concat, hline]
  rw [respond_character henter hbackspace hinterrupt] at h
  unfold shellCharacter
  dsimp only
  split_ifs at h ⊢ with hother hlong
  · rw [typeKey_ignored henter hbackspace hinterrupt hother] at htyped
    exact talks_visible h fun _ h => talks_jump h htyped.symm hlength
  · rw [typeKey_printable hother, if_neg (by omega)] at htyped
    exact talks_write h fun h => talks_invoke h fun _ h => talks_visible h fun _ h =>
      talks_jump h htyped.symm (Nat.zero_le _)
  · rw [typeKey_printable hother, if_pos (by omega)] at htyped
    refine talks_write h fun h => talks_showCursor h htyped.symm ?_
    rw [List.length_append, List.length_singleton]
    omega

/-- What a key does. -/
theorem talks_key (h : Owes l (keys ++ [key]) (respond st.line key)) (hline : st.line = typedText keys)
    (hlength : st.line.length ≤ 1023) : Talks (shellKey st key) l := by
  refine talks_visible h fun l h => ?_
  cases htype : key.type with
  | enter => exact talks_enter h htype
  | backspace => exact talks_backspace h htype hline hlength
  | interrupt => exact talks_interrupt h htype
  | _ =>
    exact talks_character h (by rw [htype]; decide) (by rw [htype]; decide)
      (by rw [htype]; decide) hline hlength

theorem talks_read (h : Owes l keys []) (hline : st.line = typedText keys)
    (hlength : st.line.length ≤ 1023) :
    Talks (.request .readEvent fun event =>
      match event.toEvent with
      | none => .jump (.shellLoop st)
      | some event => shellKey st event) l := by
  refine ⟨h.inDialogue, fun v => ?_⟩
  dsimp only
  cases hv : v.toEvent with
  | none => exact talks_jump (h.silent (x := .answered .readEvent v) rfl hv) hline hlength
  | some key =>
    have hread := h.read (x := .answered .readEvent v) rfl hv
    rw [← hline] at hread
    exact talks_key hread hline hlength

/-- A turn of the loop, with the toggle of the cursor where it is due. -/
theorem talks_shellLoop (h : Owes l keys []) (hline : st.line = typedText keys)
    (hlength : st.line.length ≤ 1023) : Talks (shellLoop st) l := by
  refine ⟨h.inDialogue, fun o => ?_⟩
  dsimp only
  split_ifs
  · exact talks_visible h fun _ h => talks_read h hline hlength
  · exact talks_read h hline hlength

theorem talks_shell : Talks jsRuntimeShell [] := by
  have h : Owes [] [] (dialogue []) := ⟨rfl, rfl⟩
  exact ⟨h.inDialogue, fun _ => talks_invoke h fun _ h => talks_visible h fun _ h =>
    talks_jump h rfl (Nat.zero_le _)⟩

end Turns

/-- In every run of the shell, whatever scripts do and whenever the cursor blinks, what has been
said is a beginning of the dialogue that the keys read so far make, and at every turn of the loop
all of it: each line that was submitted has been evaluated once and in its turn, and nothing else. -/
theorem run_dialogue {γ : Globals} {es : List (Event Globals Value Function)}
    {y : Machine Globals Action Observation Request Value Function × List ShellItem}
    (hrun : Run (RecordedStep runtimeSystem) (⟨γ, .code jsRuntimeShell, []⟩, []) es y) :
    said y.2 <+: dialogue (keysRead y.2) ∧ evaluated y.2 <+: submitted [] (keysRead y.2) ∧
      ∀ shell, y.1.control = .code (.jump (.shellLoop shell)) → y.1.stack = [] →
        shell.line = typedText (keysRead y.2) ∧ said y.2 = dialogue (keysRead y.2) ∧
        evaluated y.2 = submitted [] (keysRead y.2) := by
  have hbody (f : Function) (l : List ShellItem) (h : AtTurn f l) :
      Talks (runtimeSystem.body f) l := by
    obtain ⟨st, rfl, hline, hlength, hsaid⟩ := h
    exact talks_shellLoop ⟨rfl, by rw [List.append_nil, hsaid]⟩ hline hlength
  obtain ⟨hin, hturn⟩ := run_says hbody talks_shell hrun
  refine ⟨hin, ?_, fun shell hcontrol hstack => ?_⟩
  · rw [← evaluated_said, ← evaluated_dialogue]
    exact hin.filterMap _
  · obtain ⟨shell', hshell, hline, -, hsaid⟩ := hturn _ hcontrol hstack
    cases hshell
    refine ⟨hline, hsaid, ?_⟩
    rw [← evaluated_said, hsaid, evaluated_dialogue]

/-- A letter and Enter, up to the evaluation. -/
theorem run_dialogue_letter : ∃ es y,
    Run (RecordedStep runtimeSystem) (⟨⟨0, true, true, 0⟩, .code jsRuntimeShell, []⟩, []) es y ∧
    keysRead y.2 = [⟨.character, 97⟩, ⟨.enter, 0⟩] ∧ evaluated y.2 = [[97]] ∧
    said y.2 <+: dialogue [⟨.character, 97⟩, ⟨.enter, 0⟩] := by
  have hcons {s t : Machine Globals Action Observation Request Value Function}
      {l : List ShellItem} {e : Event Globals Value Function} {es : List (Event Globals Value Function)}
      {y : Machine Globals Action Observation Request Value Function × List ShellItem}
      (hstep : runtimeSystem.step s e = some t)
      (hrest : Run (RecordedStep runtimeSystem) (t, l ++ items s e) es y) :
      Run (RecordedStep runtimeSystem) (s, l) (e :: es) y := .cons ⟨hstep, rfl⟩ hrest
  -- the toggle of the cursor is not due
  have hread (g : Globals) (line : List UInt8) (hg : ¬g.uptime ≥ 500000) : runtimeSystem.step
      ⟨g, .code (shellLoop ⟨line, true, 500000⟩), []⟩ .run =
      some ⟨g, .code (.request .readEvent fun event =>
        match event.toEvent with
        | none => .jump (.shellLoop ⟨line, true, 500000⟩)
        | some event => shellKey ⟨line, true, 500000⟩ event), []⟩ := by
    exact congrArg (fun p => some (Machine.mk g (.code p) [])) (if_neg hg)
  have hrun : ∃ y, Run (RecordedStep runtimeSystem)
      (⟨⟨0, true, true, 0⟩, .code jsRuntimeShell, []⟩, [])
      [.run, .run, .reply (.js (.other 0)), .reply (.js (.other 1)), .reply (.text (some [])), .run,
        .run, .run, .run, .run, .reply (.event (some ⟨.character, 97⟩)), .run, .run, .run, .run,
        .run, .run, .reply (.event (some ⟨.enter, 0⟩)), .run, .run, .run] y ∧
      keysRead y.2 = [⟨.character, 97⟩, ⟨.enter, 0⟩] ∧ evaluated y.2 = [[97]] := by
    refine ⟨?last, ?run, ?keys, ?lines⟩
    case run =>
      iterate 9 refine hcons rfl ?_
      refine hcons (hread _ [] (by decide)) ?_
      iterate 6 refine hcons rfl ?_
      refine hcons (hread _ [97] (by decide)) ?_
      iterate 4 refine hcons rfl ?_
      exact .nil _
    all_goals rfl
  obtain ⟨y, hrun, hkeys, hlines⟩ := hrun
  exact ⟨_, y, hrun, hkeys, hlines, hkeys ▸ (run_dialogue hrun).1⟩

end JsOs.ShellDialogue
