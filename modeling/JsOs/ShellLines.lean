import JsOs.MainLoops
import JsOs.RuntimeModel
import JsOs.TextCells

/-!
# The line of the shell and the screen

`js_runtime_shell` keeps the line that is typed twice: in its array, and as text on the console
behind the prompt. The two stay in step as long as the end of the prompt is on the screen.
-/

namespace JsOs.ShellLines

open MachineWords FramebufferModel ConsoleModel TextGrid ConsoleRefinement ConsoleCursor TextCells
open TransitionRuns ReentrantPrograms MainLoops RuntimeModel

/-- The variables of the runtime and the console, which is nothing after an operation without a
result. -/
structure World where
  globals : Globals
  console : Option FramebufferState

section Model

variable (svga : Svga)

def consoleAct (st : FramebufferState) : Action → Option FramebufferState
  | .write text => consoleWriteN svga st (some text)
  | .setCursorVisible visible => consoleSetCursorVisible svga st visible
  | _ => some st

/-- The runtime with its console. -/
def shellSystem : System World Action Observation Request Value Function where
  act a w := ⟨runtimeSystem.act a w.globals, w.console.bind fun st => consoleAct svga st a⟩
  view w := runtimeSystem.view w.globals
  body := body

end Model

/-- What a key does to the text that has been typed. -/
def typeKey (line : List UInt8) (key : KeyboardEvent) : List UInt8 :=
  match key.type with
  | .character =>
    if 0x20 ≤ key.character ∧ key.character < 0x7f then
      if line.length < 1023 then line ++ [key.character] else []
    else line
  | .enter => []
  | .backspace => line.dropLast
  | .interrupt => []
  | .other => line

def typedText (keys : List KeyboardEvent) : List UInt8 := keys.foldl typeKey []

example : typedText [⟨.character, 97⟩, ⟨.character, 98⟩, ⟨.backspace, 0⟩, ⟨.character, 9⟩] = [97] := by
  decide

/-- The lines that are not empty when Enter comes. -/
def submitted : List UInt8 → List KeyboardEvent → List (List UInt8)
  | _, [] => []
  | line, key :: keys =>
    if key.type = .enter ∧ line ≠ [] then line :: submitted (typeKey line key) keys
    else submitted (typeKey line key) keys

example : submitted [] [⟨.enter, 0⟩, ⟨.character, 97⟩, ⟨.enter, 0⟩, ⟨.character, 98⟩,
    ⟨.interrupt, 0⟩, ⟨.enter, 0⟩] = [[97]] := by
  decide

/-- The keys that the shell has read, the lines that it has evaluated, the cell where its prompt
ended, and how many rows have been scrolled since then. -/
structure ShellRecord where
  keys : List KeyboardEvent
  evaluated : List (List UInt8)
  column : ℕ
  row : ℕ
  scrolls : ℕ

/-- From the end of the prompt to the cursor the screen shows the line, moved up with the rows that
have been scrolled. -/
structure ShowsLine (st : FramebufferState) (column row scrolls : ℕ) (text : List UInt8) : Prop where
  cursor : cursorCell st + scrolls * (st.info.width / 8) =
    row * (st.info.width / 8) + column + text.length
  cells : ∀ (i : ℕ) (hi : i < text.length),
    CellShows st (row * (st.info.width / 8) + column + i - scrolls * (st.info.width / 8))
      (.glyph text[i] st.foreground st.background)

/-- The cursor is on the grid, and as long as the end of the prompt is, the line is shown. -/
def Holding (w : World) (r : ShellRecord) (line : List UInt8) : Prop :=
  ∃ st, w.console = some st ∧ OnGrid st ∧
    (r.scrolls ≤ r.row → ShowsLine st r.column r.row r.scrolls line)

section Watch

variable (svga : Svga)

/-- How often an action scrolls the screen. -/
def actScrolls (st : FramebufferState) : Action → ℕ
  | .write text => ((CursorCall.write text).perform svga st).elim 0 fun x => scrollCount x.1
  | _ => 0

/-- The line is what has been typed, and all lines before it have been evaluated. -/
structure UpToDate (r : ShellRecord) (line : List UInt8) : Prop where
  line_eq : line = typedText r.keys
  evaluated_eq : r.evaluated = submitted [] r.keys
  length_le : line.length ≤ 1023

/-- What is watched of the shell. Functions and scripts keep the cursor on the grid; the source of an
evaluation is the text typed before the last key, which was Enter, its terminator fits behind it, and
all lines before it have been evaluated; and at every turn of the loop the line is what has been
typed, and is held. -/
def shellWatch : Watch World Action Request Value Function ShellRecord where
  keeps w := ∃ st, w.console = some st ∧ OnGrid st
  passes w w' := w'.console = w.console
  acted a w r := { r with scrolls := r.scrolls + w.console.elim 0 (actScrolls svga · a) }
  replied q v r := match q, v.toEvent with
    | .readEvent, some key => { r with keys := r.keys ++ [key] }
    | _, _ => r
  invoked f r := match f with
    | .evaluate source => { r with evaluated := r.evaluated ++ [source] }
    | _ => r
  returned w r := w.console.elim r fun st =>
    { r with column := st.cursorColumn, row := st.cursorRow, scrolls := 0 }
  jumps f w r := ∃ st, f = .shellLoop st ∧ UpToDate r st.line ∧ Holding w r st.line
  invokes f _ r := ∀ source, f = .evaluate source → source.length < 1024 ∧
    ∃ earlier key, r.keys = earlier ++ [key] ∧ key.type = .enter ∧ source = typedText earlier ∧
      r.evaluated = submitted [] earlier

end Watch

section Console

variable {svga : Svga} {w w' : World} {r : ShellRecord} {line : List UInt8} {c : UInt8}

theorem Holding.pass (h : Holding w r line) (hpass : w'.console = w.console) :
    Holding w' r line := by
  obtain ⟨st, hst, hgrid, hshows⟩ := h
  exact ⟨st, hpass.trans hst, hgrid, hshows⟩

theorem act_console {st st' : FramebufferState} {a : Action} (hst : w.console = some st)
    (heq : consoleAct svga st a = some st') : ((shellSystem svga).act a w).console = some st' := by
  unfold shellSystem
  dsimp only
  rw [hst]
  exact heq

/-- A write, by the marks of its bytes. -/
theorem act_write {st st' : FramebufferState} {text : List UInt8} {marks : List Mark}
    (hst : w.console = some st) (hready : st.initialized = true)
    (heq : textMarks svga (st.info.width / 8) (st.info.height / 16) st text = some (marks, st')) :
    ((shellSystem svga).act (.write text) w).console = some st' ∧
      (shellWatch svga).acted (.write text) w r =
        { r with scrolls := r.scrolls + scrollCount marks } := by
  have hperform : (CursorCall.write text).perform svga st = some (marks, st') := by
    unfold CursorCall.perform
    dsimp only
    rw [if_neg (by simp [hready])]
    exact heq
  have hwrite : consoleWriteN svga st (some text) = some st' := by
    rw [← perform_write_snd, hperform]
    rfl
  refine ⟨act_console hst hwrite, ?_⟩
  unfold shellWatch
  dsimp only
  rw [hst, Option.elim_some, actScrolls, hperform]
  rfl

/-- Whatever is written and whoever writes it, the cursor stays on the grid. -/
theorem keeps_act (hsvga : SoftwareAlike svga) (a : Action) (h : (shellWatch svga).keeps w) :
    (shellWatch svga).keeps ((shellSystem svga).act a w) := by
  obtain ⟨st, hst, G⟩ := h
  cases a with
  | write text =>
    obtain ⟨marks, st', heq, hgood⟩ := G.text hsvga text
    exact ⟨st', (act_write (r := ⟨[], [], 0, 0, 0⟩) hst G.screen.initialized heq).1, hgood.1⟩
  | setCursorVisible visible =>
    obtain ⟨st', heq, hframe, -⟩ := cursorVisible_spec G hsvga visible
    exact ⟨st', act_console hst heq, G.congr hframe⟩
  | _ => exact ⟨st, act_console hst rfl, G⟩

theorem Holding.visible (hsvga : SoftwareAlike svga) (visible : Bool) (h : Holding w r line) :
    Holding ((shellSystem svga).act (.setCursorVisible visible) w)
      ((shellWatch svga).acted (.setCursorVisible visible) w r) line := by
  obtain ⟨st, hst, G, hshows⟩ := h
  obtain ⟨st', heq, hframe, hcells⟩ := cursorVisible_spec G hsvga visible
  have hsame : (shellWatch svga).acted (.setCursorVisible visible) w r = r := by
    unfold shellWatch
    dsimp only
    rw [hst]
    rfl
  rw [hsame]
  refine ⟨st', act_console hst heq, G.congr hframe, fun hle => ?_⟩
  obtain ⟨hcursor, hline⟩ := hshows hle
  have hinfo := hframe.info_eq
  have hsum : cursorCell st' = cursorCell st := cursorCell_congr hframe
  have hup := Nat.mul_le_mul_right (st.info.width / 8) hle
  refine ⟨by rw [hsum, hinfo]; exact hcursor, fun i hi => ?_⟩
  rw [hinfo, show st'.foreground = st.foreground by rw [hframe],
    show st'.background = st.background by rw [hframe]]
  exact hcells _ _ (by omega) (hline i hi)

/-- A character comes behind the line. -/
theorem ShowsLine.typed {st st' : FramebufferState} {column row scrolls k : ℕ}
    (h : ShowsLine st column row scrolls line) (W : Writes st c st' k) (hle : scrolls + k ≤ row) :
    ShowsLine st' column row (scrolls + k) (line ++ [c]) := by
  have M := W.moves
  have hsum := h.cursor
  have hcursor := W.cursor_eq
  have hup := Nat.mul_le_mul_right (st.info.width / 8) hle
  have hadd := Nat.add_mul scrolls k (st.info.width / 8)
  constructor
  · rw [M.info_eq, List.length_append, List.length_singleton]
    omega
  · intro i hi
    rw [List.length_append, List.length_singleton] at hi
    rw [M.info_eq, M.foreground_eq, M.background_eq]
    by_cases hlast : i < line.length
    · have hcell := M.cells _ _ (by omega) (by omega) (h.cells i hlast)
      rw [List.getElem_append_left hlast]
      rw [show row * (st.info.width / 8) + column + i - scrolls * (st.info.width / 8) -
        k * (st.info.width / 8) = row * (st.info.width / 8) + column + i -
          (scrolls + k) * (st.info.width / 8) by omega] at hcell
      exact hcell
    · have hi' : i = line.length := by omega
      subst hi'
      have hcell := W.glyph (by omega)
      rw [List.getElem_concat_length rfl]
      rw [show cursorCell st - k * (st.info.width / 8) = row * (st.info.width / 8) + column +
        line.length - (scrolls + k) * (st.info.width / 8) by omega] at hcell
      exact hcell

theorem Holding.typed (hsvga : SoftwareAlike svga) (hback : c ≠ 8) (hreturn : c ≠ 13)
    (hnewline : c ≠ 10) (h : Holding w r line) :
    Holding ((shellSystem svga).act (.write [c]) w)
      ((shellWatch svga).acted (.write [c]) w r) (line ++ [c]) := by
  obtain ⟨st, hst, G, hshows⟩ := h
  obtain ⟨marks, st', k, -, hbyte, hcount, W⟩ := character_moves G hsvga hback hreturn hnewline
  have htext : textMarks svga (st.info.width / 8) (st.info.height / 16) st [c] =
      some (marks ++ [], st') := by
    simp only [textMarks, hbyte, Option.bind_some, Option.map_some]
  rw [List.append_nil] at htext
  obtain ⟨hconsole, hacted⟩ := act_write (r := r) hst G.screen.initialized htext
  rw [hacted, hcount]
  refine ⟨st', hconsole, W.moves.grid, fun hle => ?_⟩
  exact (hshows (Nat.le_of_add_right_le hle)).typed W hle

/-- A backspace takes the last character of the line from the screen. -/
theorem ShowsLine.erased {st st' : FramebufferState} {column row scrolls : ℕ}
    (h : ShowsLine st column row scrolls line) (hle : scrolls ≤ row) (hline : line ≠ [])
    (M : Moves st st' (cursorCell st - 1) 0) (hcursor : cursorCell st' + 1 = cursorCell st) :
    ShowsLine st' column row scrolls line.dropLast := by
  have hsum := h.cursor
  have hup := Nat.mul_le_mul_right (st.info.width / 8) hle
  have hlength := List.length_pos_of_ne_nil hline
  constructor
  · rw [M.info_eq, List.length_dropLast]
    omega
  · intro i hi
    rw [List.length_dropLast] at hi
    rw [M.info_eq, M.foreground_eq, M.background_eq, List.getElem_dropLast]
    have hcell := M.cells _ _ (by omega) (by omega) (h.cells i (by omega))
    rw [Nat.zero_mul, Nat.sub_zero] at hcell
    exact hcell

theorem Holding.erased (hsvga : SoftwareAlike svga) (hline : line ≠ []) (h : Holding w r line) :
    Holding ((shellSystem svga).act (.write [8, chr ' ', 8]) w)
      ((shellWatch svga).acted (.write [8, chr ' ', 8]) w r) line.dropLast := by
  obtain ⟨st, hst, G, hshows⟩ := h
  by_cases hle : r.scrolls ≤ r.row
  · have L := hshows hle
    have hsum := L.cursor
    have hup := Nat.mul_le_mul_right (st.info.width / 8) hle
    have hlength := List.length_pos_of_ne_nil hline
    obtain ⟨marks, st', htext, hcount, M, hcursor⟩ := erase_moves G hsvga (by omega)
    obtain ⟨hconsole, hacted⟩ := act_write (r := r) hst G.screen.initialized htext
    rw [hacted, hcount]
    exact ⟨st', hconsole, M.grid, fun _ => L.erased hle hline M hcursor⟩
  -- the end of the prompt is gone, and only the cursor counts
  · obtain ⟨marks, st', htext, hgood⟩ := G.text hsvga [8, chr ' ', 8]
    obtain ⟨hconsole, hacted⟩ := act_write (r := r) hst G.screen.initialized htext
    rw [hacted]
    exact ⟨st', hconsole, hgood.1, fun hle' => absurd (Nat.le_of_add_right_le hle') hle⟩

/-- Behind a fresh prompt the line is empty. -/
theorem Holding.returned (h : (shellWatch svga).keeps w) :
    Holding w ((shellWatch svga).returned w r) [] := by
  obtain ⟨st, hst, G⟩ := h
  have hreturned : (shellWatch svga).returned w r =
      { r with column := st.cursorColumn, row := st.cursorRow, scrolls := 0 } := by
    unfold shellWatch
    dsimp only
    rw [hst]
    rfl
  rw [hreturned]
  refine ⟨st, hst, G, fun _ => ⟨?_, fun i hi => absurd hi (Nat.not_lt_zero i)⟩⟩
  unfold cursorCell
  rw [Nat.zero_mul]
  rfl

/-- The same keys have been read and the same lines evaluated. -/
structure SameInput (r r' : ShellRecord) : Prop where
  keys : r'.keys = r.keys
  evaluated : r'.evaluated = r.evaluated

theorem UpToDate.same {r' : ShellRecord} (U : UpToDate r line) (h : SameInput r r') :
    UpToDate r' line := by
  obtain ⟨hline, hevaluated, hlength⟩ := U
  exact ⟨by rw [h.keys, hline], by rw [h.keys, h.evaluated, hevaluated], hlength⟩

theorem acted_sameInput (svga : Svga) (w : World) (a : Action) :
    SameInput r ((shellWatch svga).acted a w r) := ⟨rfl, rfl⟩

theorem returned_sameInput : SameInput r ((shellWatch svga).returned w r) := by
  unfold shellWatch
  dsimp only
  cases w.console <;> exact ⟨rfl, rfl⟩

end Console

section Turns

variable {svga : Svga} {w : World} {r : ShellRecord} {line : List UInt8} {next : RuntimeProgram}
  {keys : List KeyboardEvent} {key : KeyboardEvent} {st : ShellState}

theorem typedText_concat (keys : List KeyboardEvent) (key : KeyboardEvent) :
    typedText (keys ++ [key]) = typeKey (typedText keys) key := List.foldl_concat ..

theorem submitted_concat (line : List UInt8) (keys : List KeyboardEvent) (key : KeyboardEvent) :
    submitted line (keys ++ [key]) = submitted line keys ++
      if key.type = .enter ∧ keys.foldl typeKey line ≠ [] then [keys.foldl typeKey line] else [] := by
  induction keys generalizing line with
  | nil =>
    rw [List.nil_append, submitted, submitted, submitted, List.nil_append, List.foldl_nil]
  | cons key' keys ih =>
    rw [List.cons_append, submitted, submitted, ih, List.foldl_cons]
    split_ifs <;> rfl

/-- A key has been read after the line. -/
structure Struck (r : ShellRecord) (keys : List KeyboardEvent) (key : KeyboardEvent)
    (line : List UInt8) : Prop where
  keys_eq : r.keys = keys ++ [key]
  line_eq : line = typedText keys
  evaluated_eq : r.evaluated = submitted [] keys
  length_le : line.length ≤ 1023

namespace Struck

theorem same {r' : ShellRecord} (K : Struck r keys key line) (h : SameInput r r') :
    Struck r' keys key line := by
  obtain ⟨hkeys, hline, hevaluated, hlength⟩ := K
  exact ⟨by rw [h.keys, hkeys], hline, by rw [h.evaluated, hevaluated], hlength⟩

theorem typed_eq (K : Struck r keys key line) : typedText r.keys = typeKey line key := by
  rw [K.keys_eq, typedText_concat, ← K.line_eq]

theorem submitted_eq (K : Struck r keys key line) : submitted [] r.keys =
    r.evaluated ++ if key.type = .enter ∧ line ≠ [] then [line] else [] := by
  rw [K.keys_eq, submitted_concat, K.evaluated_eq, K.line_eq]
  rfl

/-- Nothing is to be evaluated. -/
theorem upToDate {line' : List UInt8} (K : Struck r keys key line)
    (hnone : ¬(key.type = .enter ∧ line ≠ [])) (hline : line' = typeKey line key)
    (hlength : line'.length ≤ 1023) : UpToDate r line' := by
  refine ⟨hline.trans K.typed_eq.symm, ?_, hlength⟩
  rw [K.submitted_eq, if_neg hnone, List.append_nil]

end Struck

/-- The next turn of the loop. -/
theorem main_jump (U : UpToDate r st.line) (h : Holding w r st.line) :
    Main (shellSystem svga) (shellWatch svga) (.jump (.shellLoop st)) w r := by
  intro w' hpass
  exact ⟨st, rfl, U, h.pass hpass⟩

theorem main_visible (hsvga : SoftwareAlike svga) (visible : Bool) (h : Holding w r line)
    (hnext : ∀ w' r', SameInput r r' → Holding w' r' line →
      Main (shellSystem svga) (shellWatch svga) next w' r') :
    Main (shellSystem svga) (shellWatch svga) (.act (.setCursorVisible visible) next) w r := by
  intro w' hpass
  exact hnext _ _ ⟨rfl, rfl⟩ ((h.pass hpass).visible hsvga visible)

theorem main_showCursor (hsvga : SoftwareAlike svga) (U : UpToDate r line)
    (h : Holding w r line) :
    Main (shellSystem svga) (shellWatch svga) (showCursor line) w r := by
  apply main_visible hsvga true h
  intro w' r' hsame h' w'' hpass
  exact main_jump (U.same hsame) (h'.pass hpass)

/-- Behind a prompt the line is empty. -/
theorem main_prompt (hnext : ∀ w' r', SameInput r r' → Holding w' r' [] →
      Main (shellSystem svga) (shellWatch svga) next w' r') :
    Main (shellSystem svga) (shellWatch svga) (.invoke .writePrompt fun _ => next) w r := by
  constructor
  · intro w' _ source hsource
    cases hsource
  · intro v w' hkeeps
    exact hnext w' _ returned_sameInput (Holding.returned hkeeps)

theorem main_newLine (hsvga : SoftwareAlike svga) (U : UpToDate r []) :
    Main (shellSystem svga) (shellWatch svga) (.invoke .writePrompt fun _ => showCursor []) w r := by
  apply main_prompt
  intro w' r' hsame h
  exact main_showCursor hsvga (U.same hsame) h

/-- The line is evaluated and a new one begins. -/
theorem main_enter (hsvga : SoftwareAlike svga) (K : Struck r keys key st.line)
    (hkey : key.type = .enter) :
    Main (shellSystem svga) (shellWatch svga) (shellEnter st) w r := by
  have hempty : typeKey st.line key = [] := by rw [typeKey, hkey]
  intro w' _
  replace K := K.same (acted_sameInput svga w' (.write (ascii "\n")))
  split_ifs with hne
  · constructor
    · intro w'' _ source hsource
      cases hsource
      exact ⟨Nat.lt_succ_of_le K.length_le, keys, key, K.keys_eq, hkey, K.line_eq, K.evaluated_eq⟩
    · intro v w'' _
      refine main_newLine hsvga (UpToDate.same ⟨?_, ?_, Nat.zero_le _⟩ returned_sameInput)
      · exact hempty.symm.trans K.typed_eq.symm
      · exact (K.submitted_eq.trans (by rw [if_pos ⟨hkey, hne⟩]; rfl)).symm
  · exact main_newLine hsvga (K.upToDate (fun h => hne h.2) hempty.symm (Nat.zero_le _))

theorem main_backspace (hsvga : SoftwareAlike svga) (K : Struck r keys key st.line)
    (hkey : key.type = .backspace) (h : Holding w r st.line) :
    Main (shellSystem svga) (shellWatch svga) (shellBackspace st) w r := by
  have hnone : ¬(key.type = .enter ∧ st.line ≠ []) := by
    rw [hkey]
    exact fun h => KeyboardEventType.noConfusion h.1
  have htyped : st.line.dropLast = typeKey st.line key := by rw [typeKey, hkey]
  have hlength := K.length_le
  unfold shellBackspace
  split_ifs with hne
  · intro w' hpass
    have U : UpToDate r st.line.dropLast := K.upToDate hnone htyped (by
      rw [List.length_dropLast]
      omega)
    exact main_showCursor hsvga (U.same (acted_sameInput svga w' _)) ((h.pass hpass).erased hsvga hne)
  · refine main_showCursor hsvga (K.upToDate hnone ?_ hlength) h
    rw [← htyped, not_not.mp hne]
    rfl

theorem main_interrupt (hsvga : SoftwareAlike svga) (K : Struck r keys key line)
    (hkey : key.type = .interrupt) :
    Main (shellSystem svga) (shellWatch svga) shellInterrupt w r := by
  have hnone : ¬(key.type = .enter ∧ line ≠ []) := by
    rw [hkey]
    exact fun h => KeyboardEventType.noConfusion h.1
  have hempty : [] = typeKey line key := by rw [typeKey, hkey]
  intro w' _
  exact main_newLine hsvga ((K.upToDate hnone hempty (Nat.zero_le _)).same (acted_sameInput svga w' _))

theorem printable_iff {c : UInt8} : 0x20 ≤ c ∧ c < 0x7f ↔ ¬(c = 9 ∨ c < 0x20 ∨ c ≥ 0x7f) := by
  rw [not_or, not_or, UInt8.not_lt, ge_iff_le, UInt8.not_le]
  constructor
  · intro h
    exact ⟨fun hc => absurd h.1 (by rw [hc]; decide), h⟩
  · exact And.right

/-- The keys that the last test of the loop leaves out. -/
theorem typeKey_ignored (henter : key.type ≠ .enter) (hbackspace : key.type ≠ .backspace)
    (hinterrupt : key.type ≠ .interrupt) (h : key.type ≠ .character ∨ key.character = 9 ∨
      key.character < 0x20 ∨ key.character ≥ 0x7f) (line : List UInt8) :
    typeKey line key = line := by
  unfold typeKey
  cases htype : key.type with
  | character =>
    dsimp only
    rw [if_neg]
    intro hprintable
    exact printable_iff.mp hprintable (h.resolve_left (not_not.mpr htype))
  | other => rfl
  | enter => exact absurd htype henter
  | backspace => exact absurd htype hbackspace
  | interrupt => exact absurd htype hinterrupt

theorem typeKey_printable (h : ¬(key.type ≠ .character ∨ key.character = 9 ∨
      key.character < 0x20 ∨ key.character ≥ 0x7f)) (line : List UInt8) :
    typeKey line key = if line.length < 1023 then line ++ [key.character] else [] := by
  obtain ⟨htype, hcharacter⟩ := not_or.mp h
  unfold typeKey
  rw [not_not.mp htype]
  dsimp only
  rw [if_pos (printable_iff.mpr hcharacter)]

/-- The line is given up for a new one. -/
theorem main_overlong (hsvga : SoftwareAlike svga) (U : UpToDate r []) :
    Main (shellSystem svga) (shellWatch svga)
      (.act (.write (ascii "\nquickjs: input is limited to 1023 bytes\n"))
        (.invoke .writePrompt fun _ => .act (.setCursorVisible true)
          (.jump (.shellLoop { st with line := [], cursorVisible := true })))) w r := by
  intro w' _
  apply main_prompt
  intro w'' r' hsame h
  apply main_visible hsvga true h
  intro w₃ r₃ hsame₃ h₃
  exact main_jump (((U.same (acted_sameInput svga w' _)).same hsame).same hsame₃) h₃

theorem main_character (hsvga : SoftwareAlike svga) (K : Struck r keys key st.line)
    (henter : key.type ≠ .enter) (hbackspace : key.type ≠ .backspace)
    (hinterrupt : key.type ≠ .interrupt) (h : Holding w r st.line) :
    Main (shellSystem svga) (shellWatch svga) (shellCharacter st key) w r := by
  have hnone : ¬(key.type = .enter ∧ st.line ≠ []) := fun h => henter h.1
  have hlength := K.length_le
  unfold shellCharacter
  dsimp only
  split_ifs with hother hlong
  · have htyped := typeKey_ignored henter hbackspace hinterrupt hother st.line
    apply main_visible hsvga true h
    intro w' r' hsame h'
    exact main_jump ((K.upToDate hnone htyped.symm hlength).same hsame) h'
  · have htyped := typeKey_printable hother st.line
    rw [if_neg (by omega)] at htyped
    exact main_overlong hsvga (K.upToDate hnone htyped.symm (Nat.zero_le _))
  · have htyped := typeKey_printable hother st.line
    rw [if_pos (by omega)] at htyped
    have hlow : 0x20 ≤ key.character := (printable_iff.mpr (not_or.mp hother).2).1
    intro w' hpass
    have U : UpToDate r (st.line ++ [key.character]) := K.upToDate hnone htyped.symm (by
      rw [List.length_append, List.length_singleton]
      omega)
    refine main_showCursor hsvga (U.same (acted_sameInput svga w' _))
      ((h.pass hpass).typed hsvga ?_ ?_ ?_)
    -- no control character is printable
    all_goals
      intro hc
      rw [hc] at hlow
      exact absurd hlow (by decide)

/-- What a key does. -/
theorem main_key (hsvga : SoftwareAlike svga) (K : Struck r keys key st.line)
    (h : Holding w r st.line) :
    Main (shellSystem svga) (shellWatch svga) (shellKey st key) w r := by
  apply main_visible hsvga false h
  intro w' r' hsame h'
  have K' := K.same hsame
  cases htype : key.type with
  | enter => exact main_enter hsvga K' htype
  | backspace => exact main_backspace hsvga K' htype h'
  | interrupt => exact main_interrupt hsvga K' htype
  | character =>
    exact main_character hsvga K' (by rw [htype]; decide) (by rw [htype]; decide)
      (by rw [htype]; decide) h'
  | other =>
    exact main_character hsvga K' (by rw [htype]; decide) (by rw [htype]; decide)
      (by rw [htype]; decide) h'

theorem main_read (hsvga : SoftwareAlike svga) (U : UpToDate r st.line)
    (h : Holding w r st.line) :
    Main (shellSystem svga) (shellWatch svga)
      (.request .readEvent fun event =>
        match event.toEvent with
        | none => .jump (.shellLoop st)
        | some event => shellKey st event) w r := by
  intro v w' hpass
  unfold shellWatch
  dsimp only
  cases v.toEvent with
  | none => exact main_jump U (h.pass hpass)
  | some key =>
    exact main_key hsvga ⟨rfl, U.line_eq, U.evaluated_eq, U.length_le⟩ (h.pass hpass)

/-- A turn of the loop, with the toggle of the cursor where it is due. -/
theorem main_shellLoop (hsvga : SoftwareAlike svga) (U : UpToDate r st.line)
    (h : Holding w r st.line) :
    Main (shellSystem svga) (shellWatch svga) (shellLoop st) w r := by
  intro w' hpass
  dsimp only
  split_ifs with htoggle
  · apply main_visible hsvga _ (h.pass hpass)
    intro w'' r' hsame h'
    exact main_read hsvga (U.same hsame) h'
  · exact main_read hsvga U (h.pass hpass)

theorem main_shell (hsvga : SoftwareAlike svga) (hkeys : r.keys = []) (hevaluated : r.evaluated = []) :
    Main (shellSystem svga) (shellWatch svga) jsRuntimeShell w r := by
  have U : UpToDate r [] := ⟨by rw [hkeys]; rfl, by rw [hkeys, hevaluated]; rfl, Nat.zero_le _⟩
  intro w' _
  apply main_prompt
  intro w'' r' hsame h
  apply main_visible hsvga true h
  intro w₃ r₃ hsame₃ h₃
  exact main_jump ((U.same hsame).same hsame₃) h₃

theorem shellWatch_sound (hsvga : SoftwareAlike svga) :
    (shellWatch svga).Sound (shellSystem svga) where
  refl _ := rfl
  trans _ _ _ h h' := h'.trans h
  keeps_pass _ _ hpass h := by
    obtain ⟨st, hst, G⟩ := h
    exact ⟨st, hpass.trans hst, G⟩
  keeps_act a _ h := keeps_act hsvga a h
  body f w r h := by
    obtain ⟨st, rfl, U, hholding⟩ := h
    exact main_shellLoop hsvga U hholding

end Turns

/-- Whatever is typed and whenever the cursor blinks, the line of the shell is the text that has been
typed, the screen shows it between the end of the prompt and the cursor, what is evaluated at Enter is
that text, and at every turn of the loop each line that was not empty at Enter has been evaluated,
once and in its turn. -/
theorem run_lineShown {svga : Svga} (hsvga : SoftwareAlike svga) {w : World} {st : FramebufferState}
    (hconsole : w.console = some st) (G : OnGrid st) {column row : ℕ}
    {es : List (Event World Value Function)}
    {y : Machine World Action Observation Request Value Function × ShellRecord}
    (hrun : Run (WatchedStep (shellSystem svga) (shellWatch svga))
      (⟨w, .code jsRuntimeShell, []⟩, ⟨[], [], column, row, 0⟩) es y) :
    (∃ st', y.1.shared.console = some st' ∧ OnGrid st') ∧
      (∀ shell, y.1.control = .code (.jump (.shellLoop shell)) → y.1.stack = [] →
        shell.line = typedText y.2.keys ∧ shell.line.length ≤ 1023 ∧
        y.2.evaluated = submitted [] y.2.keys ∧
        (y.2.scrolls ≤ y.2.row → ∃ st', y.1.shared.console = some st' ∧
          ShowsLine st' y.2.column y.2.row y.2.scrolls shell.line)) ∧
      ∀ source next, y.1.control = .code (.invoke (.evaluate source) next) → y.1.stack = [] →
        source.length < 1024 ∧
        ∃ keys key, y.2.keys = keys ++ [key] ∧ key.type = .enter ∧ source = typedText keys ∧
          y.2.evaluated = submitted [] keys := by
  obtain ⟨hkeeps, hjumps, hinvokes⟩ := run_driven (shellWatch_sound hsvga) ⟨st, hconsole, G⟩
    (main_shell hsvga rfl rfl) hrun
  refine ⟨hkeeps, fun shell hcontrol hstack => ?_, fun source next hcontrol hstack => ?_⟩
  · obtain ⟨shell', hshell, U, st', hst', -, hshows⟩ := hjumps _ hcontrol hstack
    cases hshell
    exact ⟨U.line_eq, U.length_le, U.evaluated_eq, fun hle => ⟨st', hst', hshows hle⟩⟩
  · exact hinvokes _ next hcontrol hstack source rfl

/-- The variables of the shell at a turn of its loop. -/
def turnState (s : Machine World Action Observation Request Value Function) : Option ShellState :=
  match s.control, s.stack with
  | .code (.jump (.shellLoop st)), [] => some st
  | _, _ => none

theorem turnState_eq_some {s : Machine World Action Observation Request Value Function}
    {shell : ShellState} (h : turnState s = some shell) :
    s.control = .code (.jump (.shellLoop shell)) ∧ s.stack = [] := by
  unfold turnState at h
  split at h
  next hcontrol hstack =>
    cases h
    exact ⟨hcontrol, hstack⟩
  next => cases h

/-- The prompt is `>`. -/
def promptEvents : List (Event World Value Function) :=
  [.run, .reply (.js (.other 0)), .reply (.js (.other 1)), .reply (.text (some [chr '>'])), .run, .run]

/-- From a turn of the loop to where the key has been read, before the next toggle of the cursor. -/
def keyEvents (key : KeyboardEvent) : List (Event World Value Function) :=
  [.run, .run, .reply (.event (some key)), .run]

/-- The program `x`, with `__shellEval`, a result that is not printed and no pending job. -/
def evaluateEvents : List (Event World Value Function) :=
  [.run, .reply (.js (.other 0)), .reply (.js (.other 2)), .reply (.bool true),
    .reply (.js (.other 3)), .run, .reply (.js (.other 5)), .run,
    .run, .reply (.js (.other 0)), .reply (.js .undefined), .reply (.bool false),
    .reply (.text none), .run,
    .run, .run, .reply (.bool false), .run, .run]

/-- `x`, Enter, `a`, `b` and a backspace. -/
def dialogueEvents : List (Event World Value Function) :=
  .run :: promptEvents ++ [.run] ++
    keyEvents ⟨.character, chr 'x'⟩ ++ [.run, .run, .run] ++
    keyEvents ⟨.enter, 0⟩ ++ .run :: evaluateEvents ++ promptEvents ++ [.run, .run] ++
    keyEvents ⟨.character, chr 'a'⟩ ++ [.run, .run, .run] ++
    keyEvents ⟨.character, chr 'b'⟩ ++ [.run, .run, .run] ++
    keyEvents ⟨.backspace, 0⟩ ++ [.run, .run, .run]

/-- What was typed before Enter has been evaluated, and the screen has scrolled since the prompt. -/
theorem run_lineShown_smallFramebuffer : ∃ y shell st',
    Run (WatchedStep (shellSystem Svga.absent) (shellWatch Svga.absent))
      (⟨⟨⟨0, true, true, 0⟩, some (framebufferInit (twoRows 40) (some smallFramebuffer)).2⟩,
        .code jsRuntimeShell, []⟩, ⟨[], [], 0, 0, 0⟩) dialogueEvents y ∧
    y.1.control = .code (.jump (.shellLoop shell)) ∧ shell.line = [chr 'a'] ∧
    y.2.evaluated = [[chr 'x']] ∧ submitted [] y.2.keys = [[chr 'x']] ∧
    y.1.shared.console = some st' ∧ ShowsLine st' 1 1 1 [chr 'a'] := by
  have G : OnGrid (framebufferInit (twoRows 40) (some smallFramebuffer)).2 :=
    (onGrid_of_init (by decide) (by decide) (by decide) (by decide) (by decide)).1
  have hview : (dialogueEvents.foldlM
      (watchedNext (shellSystem Svga.absent) (shellWatch Svga.absent))
      (⟨⟨⟨0, true, true, 0⟩, some (framebufferInit (twoRows 40) (some smallFramebuffer)).2⟩,
        .code jsRuntimeShell, []⟩, ⟨[], [], 0, 0, 0⟩)).map
      (fun y => (turnState y.1, y.2.evaluated, y.2.column, y.2.row, y.2.scrolls)) =
        some (some ⟨[chr 'a'], true, 500000⟩, [[chr 'x']], 1, 1, 1) := by
    decide +kernel
  obtain ⟨y, hrun, hy⟩ := Run.of_foldlM (fun _ _ _ => watchedStep_of_next) _ hview
  simp only [Prod.mk.injEq] at hy
  obtain ⟨hturn, hevaluated, hcolumn, hrow, hscrolls⟩ := hy
  obtain ⟨hcontrol, hstack⟩ := turnState_eq_some hturn
  obtain ⟨-, hshell, -⟩ := run_lineShown softwareAlike_absent rfl G hrun
  obtain ⟨-, -, hsubmitted, hshows⟩ := hshell _ hcontrol hstack
  rw [hcolumn, hrow, hscrolls] at hshows
  obtain ⟨st', hst', hshown⟩ := hshows le_rfl
  exact ⟨y, _, st', hrun, hcontrol, rfl, hevaluated, hsubmitted ▸ hevaluated, hst', hshown⟩

end JsOs.ShellLines
