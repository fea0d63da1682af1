import JsOs.RuntimeModel

/-!
# Time limits of scripts

Script code may run in five calls of the engine, and may call `js_runtime_eval` and
`js_runtime_drain_jobs`; the engine itself reports unhandled rejections. Only some of the calls are
made under a deadline, so the limit holds as long as the others run no script.
-/

namespace JsOs.RuntimeDeadlines

open MachineWords TransitionRuns ReentrantPrograms RuntimeModel

abbrev RuntimeMachine := Machine Globals Action Observation Request Value Function

abbrev RuntimeEvent := Event Globals Value Function

/-- The calls of the engine that may run script code. -/
def runsScript : Request → Bool
  | .eval .. | .call .. | .executePendingJob | .toCString _ | .getProperty .. => true
  | _ => false

/-- What script code, or the engine while it runs script code, may call. -/
def scriptCalls : Function → Bool
  | .eval .. | .drainJobs | .promiseRejectionTracker .. => true
  | _ => false

/-- What the kernel calls. -/
def kernelCalls : Function → Bool
  | .start .. | .run .. | .shell => true
  | _ => false

/-- What may happen: script code runs in certain calls only, certain functions are called, and the
clock goes forward without wrapping. -/
def possible (s : RuntimeMachine) : RuntimeEvent → Bool
  | .enter => match s.control with
    | .code (.request r _) => runsScript r
    | _ => false
  | .call f => match s.control with
    | .guest => scriptCalls f
    | _ => kernelCalls f
  | .pass g => g = { s.shared with uptime := g.uptime } ∧ s.shared.uptime ≤ g.uptime ∧
      g.uptime < 2 ^ 64
  | _ => true

def RuntimeStep (s : RuntimeMachine) (e : RuntimeEvent) (t : RuntimeMachine) : Prop :=
  possible s e = true ∧ runtimeSystem.step s e = some t

/-- The calls of the engine that the file makes under a deadline. -/
def underDeadline : Request → Bool
  | .eval .. | .executePendingJob => true
  | .call name _ => name = ascii "__shellEval"
  | _ => false

/-- Outside script code, only the calls under a deadline run script code; script code does not call
`js_runtime_eval`, and calls `js_runtime_drain_jobs` with no job pending only; and a deadline is set
only at a time to which the limit can be added. -/
def careful (s : RuntimeMachine) : RuntimeEvent → Bool
  | .run => match s.control with
    | .code (.act .arm _) => s.shared.uptime + jsExecutionLimitUs < uint64Max
    | _ => true
  | .reply v => match s.control with
    | .code (.request .isJobPending _) => (entries s.stack).isEmpty || !v.toBool
    | _ => true
  | .enter => match s.control with
    | .code (.request r _) => !(entries s.stack).isEmpty || underDeadline r
    | _ => true
  | .call f => match s.control, f with
    | .guest, .eval .. => false
    | _, _ => true
  | _ => true

def CarefulStep (s : RuntimeMachine) (e : RuntimeEvent) (t : RuntimeMachine) : Prop :=
  careful s e = true ∧ RuntimeStep s e t

/-- The assumptions and the readiness behind a careful run. -/
def deadlineContract : Contract Globals Action Request Value Function where
  elapses g g' := g' = { g with uptime := g'.uptime } ∧ g.uptime ≤ g'.uptime
  takes a g := a = .arm → g.uptime + jsExecutionLimitUs < uint64Max
  enters r := underDeadline r = true
  answers r v := r = .isJobPending → v.toBool = false
  calls f := f = .drainJobs ∨ ∃ reason handled, f = .promiseRejectionTracker reason handled
  ready g := g.deadline ≠ uint64Max ∧ g.deadline ≤ g.uptime + jsExecutionLimitUs
  elapses_refl g := ⟨rfl, le_refl _⟩
  elapses_trans g g' g'' h h' := ⟨by rw [h'.1, h.1], le_trans h.2 h'.2⟩

section Programs

variable {g : Globals} {next : Value → RuntimeProgram} {p : RuntimeProgram}

/-- Whatever the shared state. -/
def Sound (p : RuntimeProgram) : Prop := ∀ g, Safe runtimeSystem deadlineContract p g

theorem sound_ret (v : Value) : Sound (.ret v) := fun _ => trivial

theorem sound_jump (f : Function) : Sound (.jump f) := fun _ => trivial

theorem sound_act (a : Action) (h : Sound p) : Sound (.act a p) := fun _ => .act h

theorem sound_observe {next : Observation → RuntimeProgram} (h : ∀ o, Sound (next o)) :
    Sound (.observe next) := fun _ => .observe h

theorem sound_invoke (f : Function) (h : ∀ v, Sound (next v)) : Sound (.invoke f next) :=
  fun _ => .invoke h

theorem sound_request {r : Request} (hr : underDeadline r = false) (h : ∀ v, Sound (next v)) :
    Sound (.request r next) := fun _ => .request (by simp [deadlineContract, hr]) h

/-- The bracket around a call of the engine. -/
theorem sound_arm (r : Request) (h : ∀ v, Sound (next v)) :
    Sound (.act .arm (.request r fun v => .act .disarm (next v))) := by
  intro g
  refine .prepare (fun g g' htakes hpass => ?_) fun v => sound_act .disarm (h v)
  have hroom : g.uptime + jsExecutionLimitUs < uint64Max := htakes rfl
  have hdeadline : executionDeadline g.uptime = g.uptime + jsExecutionLimitUs := by
    unfold executionDeadline
    rw [if_neg (by omega)]
  have hset : g'.deadline = g.uptime + jsExecutionLimitUs := by
    rw [hpass.1]
    exact hdeadline
  have hle : g.uptime ≤ g'.uptime := hpass.2
  refine ⟨?_, ?_⟩ <;> omega

theorem sound_writeLine (text : List UInt8) (h : Sound p) : Sound (writeLine text p) :=
  sound_act _ (sound_act _ h)

end Programs

theorem sound_promiseRejectionTracker (reason : JsValue) (handled : Bool) :
    Sound (promiseRejectionTracker reason handled) := by
  unfold promiseRejectionTracker
  cases handled with
  | true => exact sound_ret _
  | false =>
    apply sound_request rfl
    intro message
    apply sound_act
    exact sound_writeLine _ (sound_ret _)

theorem sound_reportStack (thrown : JsValue) : Sound (reportStack thrown) := by
  apply sound_request rfl
  intro stack
  split_ifs with hundefined
  · exact sound_ret _
  · apply sound_request rfl
    intro stackText
    cases stackText.toText with
    | none => exact sound_ret _
    | some text => exact sound_writeLine _ (sound_ret _)

theorem sound_reportException : Sound jsRuntimeReportException := by
  apply sound_request rfl
  intro thrown
  apply sound_request rfl
  intro message
  apply sound_act
  apply sound_writeLine
  apply sound_request rfl
  intro isError
  cases isError.toBool with
  | true => exact sound_reportStack _
  | false => exact sound_ret _

theorem sound_drainLoop (count : ℤ) : Sound (drainLoop count) := by
  apply sound_request rfl
  intro pending
  cases pending.toBool with
  | false => exact sound_ret _
  | true =>
    apply sound_arm
    intro result
    split_ifs with hfailed
    · exact sound_invoke _ fun _ => sound_ret _
    · exact sound_jump _

theorem sound_drainJobs : Sound jsRuntimeDrainJobs := by
  apply sound_observe
  intro o
  cases o.runtime with
  | true => exact sound_drainLoop 0
  | false => exact sound_ret _

theorem sound_eval (source filename : List UInt8) : Sound (jsRuntimeEval source filename) := by
  apply sound_observe
  intro o
  cases o.context with
  | true => exact sound_arm _ fun _ => sound_ret _
  | false => exact sound_ret _

/-- The end of `js_runtime_start` and of `js_runtime_run`. -/
theorem sound_finished (result : Value) :
    Sound (if result.toJs = .exception then
        .invoke .reportException fun _ => .ret (.bool false)
      else .invoke .drainJobs fun count => .ret (.bool (count.toInt ≥ 0))) := by
  split_ifs with hthrown
  · exact sound_invoke _ fun _ => sound_ret _
  · exact sound_invoke _ fun _ => sound_ret _

theorem sound_start (source filename : List UInt8) : Sound (jsRuntimeStart source filename) := by
  apply sound_request rfl
  intro runtime
  apply sound_act
  cases runtime.toBool with
  | false => exact sound_act _ (sound_ret _)
  | true =>
    apply sound_act
    apply sound_request rfl
    intro context
    apply sound_act
    cases context.toBool with
    | false => exact sound_act _ (sound_act _ (sound_ret _))
    | true =>
      apply sound_request rfl
      intro installed
      split_ifs with hfailed
      · exact sound_invoke _ fun _ => sound_act _ (sound_act _ (sound_ret _))
      · exact sound_arm _ sound_finished

theorem sound_run (source filename : List UInt8) : Sound (jsRuntimeRun source filename) :=
  sound_invoke _ sound_finished

theorem sound_printText (formatted : JsValue) (text : Option (List UInt8)) :
    Sound (printText formatted text) := by
  cases text with
  | some text => exact sound_writeLine _ (sound_ret _)
  | none =>
    unfold printText
    split_ifs with hthrown
    · exact sound_invoke _ fun _ => sound_ret _
    · exact sound_ret _

theorem sound_printFormatted (result : JsValue) (hasFormatter : Bool) (formatted : JsValue) :
    Sound (printFormatted result hasFormatter formatted) := by
  have horResult (text : Option (List UInt8)) : Sound
      (if !hasFormatter ∧ text = none ∧ formatted ≠ .exception then
        .request (.toCString result) fun text => printText formatted text.toText
      else printText formatted text) := by
    split_ifs with hresult
    · exact sound_request rfl fun _ => sound_printText _ _
    · exact sound_printText _ _
  unfold printFormatted
  by_cases hformatted : formatted ≠ .exception ∧ formatted ≠ .undefined
  · rw [if_pos hformatted]
    exact sound_request rfl fun text => horResult text.toText
  · rw [if_neg hformatted]
    exact horResult none

theorem ascii_shellFormat_ne : ascii "__shellFormat" ≠ ascii "__shellEval" := by decide

theorem sound_printResult (result : JsValue) : Sound (shellPrintResult result) := by
  apply sound_request rfl
  intro global
  apply sound_request rfl
  intro formatter
  apply sound_request rfl
  intro hasFormatter
  split_ifs with hfunction
  · have hfree : underDeadline (.call (ascii "__shellFormat") result) = false :=
      decide_eq_false ascii_shellFormat_ne
    exact sound_request hfree fun _ => sound_printFormatted _ _ _
  · exact sound_printFormatted _ _ _

theorem sound_shellResult (result : JsValue) : Sound (shellResult result) := by
  unfold shellResult
  split_ifs with hthrown
  · exact sound_invoke _ fun _ => sound_ret _
  · exact sound_invoke _ fun _ => sound_invoke _ fun _ => sound_ret _

theorem sound_evaluate (source : List UInt8) : Sound (shellEvaluate source) := by
  apply sound_request rfl
  intro global
  apply sound_request rfl
  intro evaluator
  apply sound_request rfl
  intro isFunction
  split_ifs with hfunction
  · apply sound_request rfl
    intro input
    exact sound_arm _ fun _ => sound_shellResult _
  · exact sound_invoke _ fun _ => sound_shellResult _

theorem sound_writePrompt : Sound shellWritePrompt := by
  apply sound_request rfl
  intro global
  apply sound_request rfl
  intro prompt
  apply sound_request rfl
  intro text
  exact sound_act _ (sound_ret _)

theorem sound_showCursor (line : List UInt8) : Sound (showCursor line) :=
  sound_act _ (sound_observe fun _ => sound_jump _)

theorem sound_key (st : ShellState) (event : KeyboardEvent) : Sound (shellKey st event) := by
  have hprompt : Sound (.invoke .writePrompt fun _ => showCursor []) :=
    sound_invoke _ fun _ => sound_showCursor []
  apply sound_act
  cases event.type with
  | enter =>
    apply sound_act
    split_ifs with hline
    · exact sound_invoke _ fun _ => hprompt
    · exact hprompt
  | backspace =>
    dsimp only
    unfold shellBackspace
    split_ifs with hline
    · exact sound_act _ (sound_showCursor _)
    · exact sound_showCursor _
  | interrupt => exact sound_act _ hprompt
  | _ =>
    dsimp only
    unfold shellCharacter
    dsimp only
    split_ifs with hplain hfull
    · exact sound_act _ (sound_jump _)
    · exact sound_act _ (sound_invoke _ fun _ => sound_act _ (sound_jump _))
    · exact sound_act _ (sound_showCursor _)

theorem sound_shellLoop (st : ShellState) : Sound (shellLoop st) := by
  unfold shellLoop
  extract_lets read
  have hread (st : ShellState) : Sound (read st) := by
    apply sound_request rfl
    intro event
    cases event.toEvent with
    | none => exact sound_jump _
    | some event => exact sound_key st event
  apply sound_observe
  intro o
  split_ifs with htoggle
  · exact sound_act _ (hread _)
  · exact hread st

theorem sound_shell : Sound jsRuntimeShell :=
  sound_observe fun _ => sound_invoke _ fun _ => sound_act _ (sound_jump _)

theorem sound_body (f : Function) : Sound (body f) := by
  cases f with
  | promiseRejectionTracker reason handled => exact sound_promiseRejectionTracker reason handled
  | reportException => exact sound_reportException
  | start source filename => exact sound_start source filename
  | run source filename => exact sound_run source filename
  | drainJobs => exact sound_drainJobs
  | drainLoop count => exact sound_drainLoop count
  | eval source filename => exact sound_eval source filename
  | printResult result => exact sound_printResult result
  | evaluate source => exact sound_evaluate source
  | writePrompt => exact sound_writePrompt
  | shell => exact sound_shell
  | shellLoop st => exact sound_shellLoop st

section Callbacks

theorem quiet_promiseRejectionTracker (reason : JsValue) (handled : Bool) :
    Quiet runtimeSystem deadlineContract (promiseRejectionTracker reason handled) := by
  have hwrite (text : List UInt8) (g : Globals) :
      deadlineContract.elapses g (runtimeSystem.act (.write text) g) := deadlineContract.elapses_refl g
  unfold promiseRejectionTracker
  cases handled with
  | true => trivial
  | false => exact fun message _ => ⟨hwrite _, hwrite _, hwrite _, trivial⟩

/-- With no job pending, draining returns at once. -/
theorem quiet_drainJobs : Quiet runtimeSystem deadlineContract jsRuntimeDrainJobs := by
  intro o
  dsimp only
  split_ifs with hruntime
  · intro pending hanswer
    have hnone : pending.toBool = false := hanswer rfl
    dsimp only
    rw [hnone]
    trivial
  · trivial

theorem quiet_calls (f : Function) (hf : deadlineContract.calls f) :
    Quiet runtimeSystem deadlineContract (body f) := by
  rcases hf with rfl | ⟨reason, handled, rfl⟩
  · exact quiet_drainJobs
  · exact quiet_promiseRejectionTracker reason handled

end Callbacks

section Runs

variable {s t : RuntimeMachine} {e : RuntimeEvent}

/-- All script code on the stack was entered by a call that may run script code. -/
def ScriptFrames (stack : List (Frame Globals Action Observation Request Value Function)) : Prop :=
  ∀ g r next, .guest g r next ∈ stack → runsScript r = true

theorem RuntimeStep.scriptFrames (h : RuntimeStep s e t) (H : ScriptFrames s.stack) :
    ScriptFrames t.stack := by
  intro g r next hframe
  rcases runtimeSystem.step_guest h.2 hframe with hframe | ⟨rfl, hcontrol⟩
  · exact H g r next hframe
  · have hruns := h.1
    simp only [possible, hcontrol] at hruns
    exact hruns

theorem CarefulStep.clean (h : CarefulStep s e t) (H : ScriptFrames s.stack) :
    deadlineContract.Clean s e := by
  obtain ⟨hcareful, hpossible, -⟩ := h
  cases e with
  | run =>
    intro a next hcontrol harm
    subst harm
    simp only [careful, hcontrol] at hcareful
    exact of_decide_eq_true hcareful
  | reply v =>
    intro r next hcontrol hentries hpending
    subst hpending
    simp only [careful, hcontrol] at hcareful
    simpa [hentries] using hcareful
  | enter =>
    intro r next hcontrol hentries
    simp only [careful, hcontrol, hentries] at hcareful
    exact hcareful
  | finish v =>
    intro g r next stack hstack _ hpending
    have hruns : runsScript r = true := H g r next (by rw [hstack]; exact List.mem_cons_self)
    rw [hpending] at hruns
    cases hruns
  | call f =>
    intro hguest
    simp only [possible, hguest] at hpossible
    cases f with
    | promiseRejectionTracker reason handled => exact .inr ⟨reason, handled, rfl⟩
    | drainJobs => exact .inl rfl
    | eval source filename =>
      simp only [careful, hguest] at hcareful
      cases hcareful
    | _ => cases hpossible
  | pass g =>
    have hclock := of_decide_eq_true hpossible
    exact ⟨hclock.1, hclock.2.1⟩

/-- In a careful run of the file's functions, from any values of its variables, whenever script code
is running the deadline is finite and at most the limit after the outermost entry to script code. So
the interrupt handler stops the script when the limit has passed. -/
theorem guest_has_deadline {g : Globals} {es : List RuntimeEvent}
    (hrun : Run CarefulStep ⟨g, .idle, []⟩ es s) (hguest : s.control = .guest) :
    ∃ entry, outermostEntry s.stack = some entry ∧ s.shared.deadline ≠ uint64Max ∧
      s.shared.deadline ≤ entry.uptime + jsExecutionLimitUs ∧
      (entry.uptime + jsExecutionLimitUs ≤ s.shared.uptime → interruptHandler s.shared = true) := by
  have hclean : ∃ s', Run (CleanStep runtimeSystem deadlineContract) ⟨g, .idle, []⟩ es s' ∧
      s' = s ∧ ScriptFrames s.stack :=
    hrun.simulate (fun s s' => s' = s ∧ ScriptFrames s.stack)
      (fun s e t s' hs h => ⟨t, hs.1 ▸ ⟨h.clean hs.2, h.2.2⟩, rfl, h.2.scriptFrames hs.2⟩)
      ⟨rfl, fun _ _ _ hframe => absurd hframe List.not_mem_nil⟩
  obtain ⟨s', hclean, rfl, -⟩ := hclean
  obtain ⟨entry, hentry, hready, hpass⟩ := run_guarded sound_body quiet_calls hclean hguest
  have hdeadline : s'.shared.deadline = entry.deadline := by rw [hpass.1]
  have hfinite : s'.shared.deadline ≠ uint64Max := by
    rw [hdeadline]
    exact hready.1
  have hlimit : s'.shared.deadline ≤ entry.uptime + jsExecutionLimitUs := by
    rw [hdeadline]
    exact hready.2
  refine ⟨entry, hentry, hfinite, hlimit, fun hlate => ?_⟩
  exact decide_eq_true ⟨hfinite, le_trans hlimit hlate⟩

end Runs

section Examples

/-- The step, where it is allowed. -/
def nextStep (allowed : RuntimeMachine → RuntimeEvent → Bool) (s : RuntimeMachine)
    (e : RuntimeEvent) : Option RuntimeMachine :=
  if allowed s e then runtimeSystem.step s e else none

def isGuest : Control Action Observation Request Value Function → Bool
  | .guest => true
  | _ => false

theorem eq_guest_of_isGuest {control : Control Action Observation Request Value Function}
    (h : isGuest control = true) : control = .guest := by
  cases control with
  | guest => rfl
  | _ => cases h

/-- What is looked at in a state. -/
def viewed (s : RuntimeMachine) : Bool × Globals := (isGuest s.control, s.shared)

theorem exists_run {allowed : RuntimeMachine → RuntimeEvent → Bool} {s : RuntimeMachine}
    {es : List RuntimeEvent} {g : Globals}
    (h : (es.foldlM (nextStep allowed) s).map viewed = some (true, g)) :
    ∃ t, Run (fun s e t => allowed s e = true ∧ runtimeSystem.step s e = some t) s es t ∧
      t.control = .guest ∧ t.shared = g := by
  have hnext (s : RuntimeMachine) (e : RuntimeEvent) (t : RuntimeMachine)
      (h : nextStep allowed s e = some t) :
      allowed s e = true ∧ runtimeSystem.step s e = some t := by
    unfold nextStep at h
    split_ifs at h with hallowed
    exact ⟨hallowed, h⟩
  obtain ⟨t, hrun, hview⟩ := Run.of_foldlM hnext viewed h
  obtain ⟨hguest, hshared⟩ := Prod.mk.inj hview
  exact ⟨t, hrun, eq_guest_of_isGuest hguest, hshared⟩

/-- Before the first call. -/
def startup : RuntimeMachine := ⟨⟨0, false, false, 0⟩, .idle, []⟩

/-- `js_runtime_start`, up to the call of `JS_Eval`. -/
def startEvents (source : List UInt8) : List RuntimeEvent :=
  [.call (.start source (ascii "colors.js")), .reply (.bool true), .run, .run, .reply (.bool true),
    .run, .reply (.int 0), .run]

def waitEvents : List RuntimeEvent :=
  startEvents (ascii "for(;;);") ++ [.enter, .pass ⟨jsExecutionLimitUs, true, true, 6000000⟩]

/-- A script that has been running for six seconds. -/
theorem guest_has_deadline_start : ∃ s entry, Run CarefulStep startup waitEvents s ∧
    s.control = .guest ∧ outermostEntry s.stack = some entry ∧ s.shared.deadline ≠ uint64Max ∧
    s.shared.deadline ≤ entry.uptime + jsExecutionLimitUs ∧
    (entry.uptime + jsExecutionLimitUs ≤ s.shared.uptime → interruptHandler s.shared = true) := by
  have hview : (waitEvents.foldlM (nextStep fun s e => careful s e && possible s e) startup).map
      viewed = some (true, ⟨jsExecutionLimitUs, true, true, 6000000⟩) := by decide +kernel
  obtain ⟨s, hrun, hguest, -⟩ := exists_run hview
  have hcareful : Run CarefulStep startup _ s := hrun.mono fun s e t h =>
    ⟨(Bool.and_eq_true_iff.mp h.1).1, (Bool.and_eq_true_iff.mp h.1).2, h.2⟩
  obtain ⟨entry, hentry⟩ := guest_has_deadline hcareful hguest
  exact ⟨s, entry, hcareful, hguest, hentry⟩

/-- The rest of `js_runtime_start`, and the first prompt of `js_runtime_shell`. -/
def shellEvents : List RuntimeEvent :=
  [.reply (.js (.other 0)), .run, .run, .run, .reply (.bool false), .run, .run,
    .call .shell, .run, .run, .reply (.js (.other 1)), .reply (.js .undefined),
    .reply (.text (some (ascii "undefined"))), .run, .run, .run, .run]

def keyEvents (character : UInt8) : List RuntimeEvent :=
  [.run, .reply (.event (some ⟨.character, character⟩)), .run, .run, .run, .run, .run]

/-- The Enter key; there is no evaluator and no formatter, and the line evaluates to an object, of
which the text is wanted. -/
def enterEvents : List RuntimeEvent :=
  [.run, .reply (.event (some ⟨.enter, 0⟩)), .run, .run, .run, .reply (.js (.other 1)),
    .reply (.js .undefined), .reply (.bool false), .run, .run, .run, .reply (.js (.other 2)), .run,
    .run, .run, .reply (.js (.other 1)), .reply (.js .undefined), .reply (.bool false), .enter]

def typedEvents (line : List UInt8) : List RuntimeEvent :=
  startEvents (ascii "0") ++ shellEvents ++ line.flatMap keyEvents ++ enterEvents

/-- The line is evaluated in time, but then its result is printed, and `toString` of the result runs
without a deadline. -/
theorem guest_without_deadline : ∃ s,
    Run RuntimeStep startup (typedEvents (ascii "(\x7btoString()\x7bfor(;;);\x7d\x7d)")) s ∧
    s.control = .guest ∧ s.shared.deadline = uint64Max ∧
    ∀ uptime, interruptHandler { s.shared with uptime := uptime } = false := by
  have hview : ((typedEvents (ascii "(\x7btoString()\x7bfor(;;);\x7d\x7d)")).foldlM
      (nextStep possible) startup).map viewed = some (true, ⟨uint64Max, true, true, 0⟩) := by
    decide +kernel
  obtain ⟨s, hrun, hguest, hshared⟩ := exists_run hview
  refine ⟨s, hrun, hguest, by rw [hshared], fun uptime => ?_⟩
  rw [hshared]
  exact decide_eq_false fun h => h.1 rfl

end Examples

end JsOs.RuntimeDeadlines
