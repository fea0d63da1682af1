import JsOs.MachineWords
import JsOs.ReentrantPrograms

/-!
# The script runtime

`runtime.c` as programs over the script engine, the keyboard, the clock and the console. Each call
of the engine is a request and gets any answer; an answer of another kind than the one asked for
counts as the null of that kind. Context arguments and the release of values are left out.
-/

namespace JsOs.RuntimeModel

open MachineWords ReentrantPrograms

def uint64Max : ℕ := 2 ^ 64 - 1

def jsExecutionLimitUs : ℕ := 5 * 1000 * 1000

/-- The variables `guard`, `runtime` and `context` of the file, of the last two whether they are
null, and the uptime in microseconds. -/
structure Globals where
  deadline : ℕ
  runtime : Bool
  context : Bool
  uptime : ℕ
  deriving DecidableEq, Repr

def executionDeadline (now : ℕ) : ℕ :=
  if now > uint64Max - jsExecutionLimitUs then uint64Max else now + jsExecutionLimitUs

def interruptHandler (g : Globals) : Bool := g.deadline ≠ uint64Max ∧ g.uptime ≥ g.deadline

inductive JsValue where
  | exception
  | undefined
  | other (n : ℕ)
  deriving DecidableEq, Repr

inductive KeyboardEventType where
  | character
  | enter
  | backspace
  | interrupt
  | other
  deriving DecidableEq, Repr

structure KeyboardEvent where
  type : KeyboardEventType
  character : UInt8
  deriving DecidableEq, Repr

/-- What requests and functions return. -/
inductive Value where
  | unit
  | bool (b : Bool)
  | int (n : ℤ)
  | js (v : JsValue)
  | text (bytes : Option (List UInt8))
  | event (e : Option KeyboardEvent)
  deriving DecidableEq, Repr

def Value.toBool : Value → Bool
  | .bool b => b
  | _ => false

def Value.toInt : Value → ℤ
  | .int n => n
  | _ => 0

def Value.toJs : Value → JsValue
  | .js v => v
  | _ => .undefined

def Value.toText : Value → Option (List UInt8)
  | .text bytes => bytes
  | _ => none

def Value.toEvent : Value → Option KeyboardEvent
  | .event e => e
  | _ => none

/-- Calls of the engine and of the keyboard. A function of a script is known by the name of the
global property where it was found. -/
inductive Request where
  | newRuntime
  | newContext
  | installApi
  | eval (source filename : List UInt8)
  | call (name : List UInt8) (argument : JsValue)
  | executePendingJob
  | toCString (value : JsValue)
  | getProperty (object : JsValue) (name : List UInt8)
  | getException
  | getGlobalObject
  | newString (bytes : List UInt8)
  | isError (value : JsValue)
  | isFunction (value : JsValue)
  | isJobPending
  | readEvent
  deriving DecidableEq, Repr

inductive Action where
  /-- `guard.deadline = execution_deadline()` -/
  | arm
  /-- `guard.deadline = UINT64_MAX` -/
  | disarm
  | setRuntime (nonNull : Bool)
  | setContext (nonNull : Bool)
  | write (text : List UInt8)
  | setCursorVisible (visible : Bool)
  deriving DecidableEq, Repr

structure Observation where
  runtime : Bool
  context : Bool
  uptime : ℕ

/-- The variables of `js_runtime_shell`; `line` is the part of the array that is in use. -/
structure ShellState where
  line : List UInt8
  cursorVisible : Bool
  nextCursorToggle : ℕ
  deriving DecidableEq, Repr

/-- The functions of the file, and their loops. -/
inductive Function where
  | promiseRejectionTracker (reason : JsValue) (handled : Bool)
  | reportException
  | start (source filename : List UInt8)
  | run (source filename : List UInt8)
  | drainJobs
  | drainLoop (count : ℤ)
  | eval (source filename : List UInt8)
  | printResult (result : JsValue)
  | evaluate (source : List UInt8)
  | writePrompt
  | shell
  | shellLoop (st : ShellState)
  deriving DecidableEq, Repr

abbrev RuntimeProgram := Program Action Observation Request Value Function

def writeLine (text : List UInt8) (next : RuntimeProgram) : RuntimeProgram :=
  .act (.write text) (.act (.write (ascii "\n")) next)

def promiseRejectionTracker (reason : JsValue) (handled : Bool) : RuntimeProgram :=
  if handled then .ret .unit
  else
    .request (.toCString reason) fun message =>
      .act (.write (ascii "quickjs: unhandled promise rejection: "))
        (writeLine (message.toText.getD (ascii "<unprintable>")) (.ret .unit))

def reportStack (thrown : JsValue) : RuntimeProgram :=
  .request (.getProperty thrown (ascii "stack")) fun stack =>
    if stack.toJs = .undefined then .ret .unit
    else .request (.toCString stack.toJs) fun stackText =>
      match stackText.toText with
      | some text => writeLine text (.ret .unit)
      | none => .ret .unit

def jsRuntimeReportException : RuntimeProgram :=
  .request .getException fun exception =>
    .request (.toCString exception.toJs) fun message =>
      .act (.write (ascii "quickjs: "))
        (writeLine (message.toText.getD (ascii "<unprintable>"))
          (.request (.isError exception.toJs) fun isError =>
            if isError.toBool then reportStack exception.toJs else .ret .unit))

def jsRuntimeStart (source filename : List UInt8) : RuntimeProgram :=
  .request .newRuntime fun runtime => .act (.setRuntime runtime.toBool)
    (if !runtime.toBool then
      .act (.write (ascii "JS-OS: unable to allocate QuickJS runtime\n")) (.ret (.bool false))
    else .act .disarm
      (.request .newContext fun context => .act (.setContext context.toBool)
        (if !context.toBool then
          .act (.write (ascii "JS-OS: unable to allocate QuickJS context\n"))
            (.act (.setRuntime false) (.ret (.bool false)))
        else .request .installApi fun installed =>
          if installed.toInt < 0 then
            .invoke .reportException fun _ =>
              .act (.setContext false) (.act (.setRuntime false) (.ret (.bool false)))
          else .act .arm
            (.request (.eval source filename) fun result => .act .disarm
              (if result.toJs = .exception then
                .invoke .reportException fun _ => .ret (.bool false)
              else .invoke .drainJobs fun count => .ret (.bool (count.toInt ≥ 0)))))))

def jsRuntimeRun (source filename : List UInt8) : RuntimeProgram :=
  .invoke (.eval source filename) fun result =>
    if result.toJs = .exception then .invoke .reportException fun _ => .ret (.bool false)
    else .invoke .drainJobs fun count => .ret (.bool (count.toInt ≥ 0))

/-- The loop of `js_runtime_drain_jobs`. -/
def drainLoop (count : ℤ) : RuntimeProgram :=
  .request .isJobPending fun pending =>
    if pending.toBool then
      .act .arm (.request .executePendingJob fun result => .act .disarm
        (if result.toInt < 0 then .invoke .reportException fun _ => .ret (.int (-1))
        else .jump (.drainLoop (count + 1))))
    else .ret (.int count)

def jsRuntimeDrainJobs : RuntimeProgram :=
  .observe fun o => if o.runtime then drainLoop 0 else .ret (.int (-1))

def jsRuntimeEval (source filename : List UInt8) : RuntimeProgram :=
  .observe fun o =>
    if o.context then
      .act .arm (.request (.eval source filename) fun result => .act .disarm (.ret (.js result.toJs)))
    else .ret (.js .exception)

/-- The end of `shell_print_result`. -/
def printText (formatted : JsValue) (text : Option (List UInt8)) : RuntimeProgram :=
  match text with
  | some text => writeLine text (.ret .unit)
  | none => if formatted = .exception then .invoke .reportException fun _ => .ret .unit else .ret .unit

def printFormatted (result : JsValue) (hasFormatter : Bool) (formatted : JsValue) : RuntimeProgram :=
  let orResult (text : Option (List UInt8)) : RuntimeProgram :=
    if !hasFormatter ∧ text = none ∧ formatted ≠ .exception then
      .request (.toCString result) fun text => printText formatted text.toText
    else printText formatted text
  if formatted ≠ .exception ∧ formatted ≠ .undefined then
    .request (.toCString formatted) fun text => orResult text.toText
  else orResult none

def shellPrintResult (result : JsValue) : RuntimeProgram :=
  .request .getGlobalObject fun global =>
    .request (.getProperty global.toJs (ascii "__shellFormat")) fun formatter =>
      .request (.isFunction formatter.toJs) fun hasFormatter =>
        if hasFormatter.toBool then
          .request (.call (ascii "__shellFormat") result) fun formatted =>
            printFormatted result true formatted.toJs
        else printFormatted result false .undefined

/-- What `shell_evaluate` does with the result. -/
def shellResult (result : JsValue) : RuntimeProgram :=
  if result = .exception then .invoke .reportException fun _ => .ret .unit
  else .invoke (.printResult result) fun _ => .invoke .drainJobs fun _ => .ret .unit

def shellEvaluate (source : List UInt8) : RuntimeProgram :=
  .request .getGlobalObject fun global =>
    .request (.getProperty global.toJs (ascii "__shellEval")) fun evaluator =>
      .request (.isFunction evaluator.toJs) fun isFunction =>
        if isFunction.toBool then
          .request (.newString source) fun input => .act .arm
            (.request (.call (ascii "__shellEval") input.toJs) fun result => .act .disarm
              (shellResult result.toJs))
        else .invoke (.eval source (ascii "<shell>")) fun result => shellResult result.toJs

def shellWritePrompt : RuntimeProgram :=
  .request .getGlobalObject fun global =>
    .request (.getProperty global.toJs (ascii "__shellPrompt")) fun prompt =>
      .request (.toCString prompt.toJs) fun text =>
        .act (.write (text.toText.getD (ascii "quickjs@jsos:~$ "))) (.ret .unit)

/-- The end of most branches of the loop: the cursor is shown until the next toggle. -/
def showCursor (line : List UInt8) : RuntimeProgram :=
  .act (.setCursorVisible true)
    (.observe fun o => .jump (.shellLoop ⟨line, true, add64 o.uptime 500000⟩))

def shellEnter (st : ShellState) : RuntimeProgram :=
  let prompt : RuntimeProgram := .invoke .writePrompt fun _ => showCursor []
  .act (.write (ascii "\n"))
    (if st.line ≠ [] then .invoke (.evaluate st.line) fun _ => prompt else prompt)

def shellBackspace (st : ShellState) : RuntimeProgram :=
  if st.line ≠ [] then .act (.write [8, chr ' ', 8]) (showCursor st.line.dropLast)
  else showCursor st.line

def shellInterrupt : RuntimeProgram :=
  .act (.write (ascii "^C\n")) (.invoke .writePrompt fun _ => showCursor [])

def shellCharacter (st : ShellState) (event : KeyboardEvent) : RuntimeProgram :=
  let character := event.character
  if event.type ≠ .character ∨ character = 9 ∨ character < 0x20 ∨ character ≥ 0x7f then
    .act (.setCursorVisible true) (.jump (.shellLoop { st with cursorVisible := true }))
  else if st.line.length + 1 ≥ 1024 then
    .act (.write (ascii "\nquickjs: input is limited to 1023 bytes\n"))
      (.invoke .writePrompt fun _ => .act (.setCursorVisible true)
        (.jump (.shellLoop { st with line := [], cursorVisible := true })))
  else .act (.write [character]) (showCursor (st.line ++ [character]))

def shellKey (st : ShellState) (event : KeyboardEvent) : RuntimeProgram :=
  .act (.setCursorVisible false)
    (let st := { st with cursorVisible := false }
    match event.type with
    | .enter => shellEnter st
    | .backspace => shellBackspace st
    | .interrupt => shellInterrupt
    | _ => shellCharacter st event)

/-- The event loop of `js_runtime_shell`. -/
def shellLoop (st : ShellState) : RuntimeProgram :=
  let read (st : ShellState) : RuntimeProgram := .request .readEvent fun event =>
    match event.toEvent with
    | none => .jump (.shellLoop st)
    | some event => shellKey st event
  .observe fun o =>
    if o.uptime ≥ st.nextCursorToggle then
      .act (.setCursorVisible !st.cursorVisible)
        (read ⟨st.line, !st.cursorVisible, add64 o.uptime 500000⟩)
    else read st

def jsRuntimeShell : RuntimeProgram :=
  .observe fun o =>
    .invoke .writePrompt fun _ => .act (.setCursorVisible true)
      (.jump (.shellLoop ⟨[], true, add64 o.uptime 500000⟩))

def body : Function → RuntimeProgram
  | .promiseRejectionTracker reason handled => promiseRejectionTracker reason handled
  | .reportException => jsRuntimeReportException
  | .start source filename => jsRuntimeStart source filename
  | .run source filename => jsRuntimeRun source filename
  | .drainJobs => jsRuntimeDrainJobs
  | .drainLoop count => drainLoop count
  | .eval source filename => jsRuntimeEval source filename
  | .printResult result => shellPrintResult result
  | .evaluate source => shellEvaluate source
  | .writePrompt => shellWritePrompt
  | .shell => jsRuntimeShell
  | .shellLoop st => shellLoop st

/-- The console is not part of the state here. -/
def runtimeSystem : System Globals Action Observation Request Value Function where
  act
    | .arm, g => { g with deadline := executionDeadline g.uptime }
    | .disarm, g => { g with deadline := uint64Max }
    | .setRuntime nonNull, g => { g with runtime := nonNull }
    | .setContext nonNull, g => { g with context := nonNull }
    | .write _, g => g
    | .setCursorVisible _, g => g
  view g := ⟨g.runtime, g.context, g.uptime⟩
  body := body

end JsOs.RuntimeModel
