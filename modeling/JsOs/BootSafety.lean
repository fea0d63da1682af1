import JsOs.BootModel
import JsOs.ProcedureContracts
import JsOs.RuntimeDeadlines

/-!
# The order of the boot

In every run of `kmain` the engine is called only with a heap that is in order and with a runtime and
a context, script code runs only then, and keys are read only after every stage has been reported.
The machine halts only after the line that says why.
-/

namespace JsOs.BootSafety

open ByteMemory MachineWords TransitionRuns ReentrantPrograms ProcedureContracts
open HeapModel HeapLayout HeapRuns RuntimeModel BootModel

section Heap

/-- `heap_init` cannot fail for `kernel_heap`, which is aligned. -/
theorem heapInit_kernelHeap (h : Heap) (image : Image) :
    (heapInit h image.kernelHeap kernelHeapSize).1 = 0 := by
  have hlt := image.kernelHeap_lt
  have haligned := image.kernelHeap_aligned
  have hround : alignDown (sub64 (add64 image.kernelHeap heapAlignment) 1) = image.kernelHeap := by
    unfold kernelHeapSize at hlt
    rw [add64_eq (by unfold heapAlignment; omega),
      sub64_eq (by unfold heapAlignment; omega) (by unfold heapAlignment; omega)]
    unfold alignDown heapAlignment
    omega
  have hroom : ¬kernelHeapSize ≤ add64 (add64 0 headerSize) heapAlignment := by decide
  simp only [heapInit, hround]
  rw [sub64_eq (Nat.le_refl _) (by omega), Nat.sub_self, if_neg hroom]

/-- The array `kernel_heap` is a region that `heap_init` accepts, whatever it holds. -/
def kernelRegion (image : Image) (memory : Memory) : Region where
  memory := memory
  base := image.kernelHeap
  size := kernelHeapSize
  base_pos := image.kernelHeap_pos
  end_lt := image.kernelHeap_lt
  accepted := heapInit_kernelHeap _ image

/-- The heap is in order. -/
def HeapUp (image : Image) (b : BootState) : Prop :=
  ∃ memory bs, (kernelRegion image memory).Holds b.client bs

/-- What the engine, script code and the drivers do to the heap and to memory: legal calls, stores
into live ranges among them, and stores outside of `kernel_heap`. -/
def MemoryStep (image : Image) (s : Client) : HeapRuns.Event ⊕ ℕ × UInt8 → Client → Prop
  | .inl e, t => HeapRuns.Step s e t
  | .inr (a, v), t => (a < image.kernelHeap ∨ image.kernelHeap + kernelHeapSize ≤ a) ∧
      t = ⟨{ s.heap with memory := storeByte s.heap.memory a v }, s.live⟩

variable {image : Image} {s t : Client}

/-- The blocks lie in the array. -/
theorem kernelRegion_bounds (image : Image) (memory : Memory) :
    image.kernelHeap ≤ (kernelRegion image memory).start.heap.heapBegin ∧
      (kernelRegion image memory).start.heap.heapEnd ≤ image.kernelHeap + kernelHeapSize := by
  obtain ⟨a, n, -, -, -, hbase, hend, heq⟩ :=
    heapInit_eq (kernelRegion image memory).end_lt (kernelRegion image memory).accepted
  unfold Region.start
  rw [heq]
  exact ⟨hbase, hend⟩

/-- A store outside of the array leaves the heap in order. -/
theorem holds_storeByte {memory : Memory} {bs : List Block} {a : ℕ} (v : UInt8)
    (K : (kernelRegion image memory).Holds s bs)
    (ha : a < image.kernelHeap ∨ image.kernelHeap + kernelHeapSize ≤ a) :
    (kernelRegion image memory).Holds ⟨{ s.heap with memory := storeByte s.heap.memory a v }, s.live⟩
      bs := by
  have L := K.wellFormed.layout
  obtain ⟨hbegin, hend⟩ := kernelRegion_bounds image memory
  rw [← K.begin_eq] at hbegin
  rw [← K.end_eq] at hend
  have hlinked : Linked (storeByte s.heap.memory a v) 0 0 bs := by
    refine L.linked.congr fun b hb x hx hx' => storeByte_of_ne ?_ v
    obtain ⟨hlow, hhigh⟩ := L.tiles.mem hb
    omega
  exact ⟨⟨⟨⟨L.begin_pos, L.begin_aligned, L.end_lt, L.first_eq, L.nonempty, L.tiles, hlinked,
    L.not_wrapped⟩, K.wellFormed.count_eq⟩, K.live_iff, K.requested⟩, K.begin_eq, K.end_eq⟩

theorem HeapUp.run {b b' : BootState} {es : List (HeapRuns.Event ⊕ ℕ × UInt8)} (h : HeapUp image b)
    (hrun : Run (MemoryStep image) b.client es b'.client) : HeapUp image b' := by
  obtain ⟨memory, hholds⟩ := h
  refine ⟨memory, hrun.invariant (fun s => ∃ bs, (kernelRegion image memory).Holds s bs) ?_ hholds⟩
  rintro s e t ⟨bs, K⟩ hstep
  cases e with
  | inl e =>
    obtain ⟨bs', E⟩ := step_effect K.toConsistent hstep
    exact ⟨bs', K.effect E⟩
  | inr store =>
    obtain ⟨hout, rfl⟩ := hstep
    exact ⟨bs, holds_storeByte store.2 K hout⟩

/-- Before `heap_init`, whatever memory holds. -/
def Unset (s : Client) : Prop := ∃ m, s = ⟨Heap.zero m, fun _ => none⟩

theorem heapAllocate_zero (m : Memory) (size : ℕ) :
    heapAllocate (Heap.zero m) size = some (0, Heap.zero m) := if_pos (.inr rfl)

/-- Before `heap_init` no call does anything. -/
theorem Unset.call {c : HeapCall} {r : ℕ} (h : Unset s) (hlegal : Legal s c)
    (hcall : HeapRuns.call s c = some (r, t)) : Unset t := by
  obtain ⟨m, rfl⟩ := h
  cases c with
  | allocate size =>
    rw [HeapRuns.call, perform, heapAllocate_zero] at hcall
    cases hcall
    exact ⟨m, rfl⟩
  | callocate count size =>
    have hperform : heapCallocate (Heap.zero m) count size = some (0, Heap.zero m) := by
      unfold heapCallocate
      split_ifs
      · rfl
      · simp only [heapAllocate_zero, Option.map_some, ne_eq, not_true_eq_false, if_false]
    rw [HeapRuns.call, perform, hperform] at hcall
    cases hcall
    exact ⟨m, rfl⟩
  | reallocate pointer size =>
    obtain rfl : pointer = 0 := hlegal.resolve_right Bool.false_ne_true
    rw [HeapRuns.call, perform, heapReallocate, if_pos rfl, heapAllocate_zero] at hcall
    cases hcall
    exact ⟨m, rfl⟩
  | release pointer =>
    obtain rfl : pointer = 0 := hlegal.resolve_right Bool.false_ne_true
    cases hcall
    exact ⟨m, congrArg _ (Function.update_eq_self_iff.mpr rfl)⟩
  | write address value =>
    obtain ⟨p, hlive, -⟩ := hlegal
    cases hlive

theorem Unset.run {es : List (HeapRuns.Event ⊕ ℕ × UInt8)} (h : Unset s)
    (hrun : Run (MemoryStep image) s es t) : Unset t := by
  refine hrun.invariant Unset (fun s e t hs hstep => ?_) h
  cases e with
  | inl e => exact hs.call hstep.1 hstep.2
  | inr store =>
    obtain ⟨-, rfl⟩ := hstep
    obtain ⟨m, rfl⟩ := hs
    exact ⟨_, rfl⟩

end Heap

section Lines

/-- What has been written when the heap is set up. -/
def displayLines : List (List UInt8) :=
  [ascii "JS-OS: booting\n", ascii "JS-OS: platform ready\n",
    ascii "JS-OS: display probe complete\n"]

def framebufferLines : List (List UInt8) :=
  displayLines ++ [ascii "JS-OS: heap ready\n", ascii "JS-OS: C++ runtime ready\n",
    ascii "JS-OS: framebuffer ready\n"]

/-- What has been written when the first script is started. -/
def FontLines (lines : List (List UInt8)) : Prop :=
  lines = framebufferLines ++ [ascii "JS-OS: FreeType ready\n"] ∨
    lines = framebufferLines ++
      [ascii "JS-OS: FreeType initialization failed; using bitmap text\n",
        ascii "JS-OS: FreeType ready\n"]

def Booted (lines : List (List UInt8)) : Prop :=
  ∃ before, FontLines before ∧ lines = before ++ [ascii "JS-OS: JavaScript environment ready\n"]

def Halted (lines : List (List UInt8)) : Prop :=
  lines = [ascii "JS-OS: booting\n", ascii "JS-OS: unsupported Limine base revision\n"] ∨
    ∃ before, FontLines before ∧ lines = before ++ [ascii "JS-OS: JavaScript boot failed\n"]

end Lines

section Contracts

variable (loader : BootLoader) (image : Image)

/-- The engine has what it needs. -/
structure Ready (b : BootState) : Prop where
  heap : HeapUp image b
  runtime : b.runtime.runtime = true
  context : b.runtime.context = true

/-- What is assumed of the engine, script code, the drivers and time: they leave the variables of
`runtime.c` and of the address space as they are, and use the heap through its calls. -/
structure Kept (b b' : BootState) : Prop where
  runtime : b'.runtime.runtime = b.runtime.runtime
  context : b'.runtime.context = b.runtime.context
  client : ∃ es, Run (MemoryStep image) b.client es b'.client
  directMapOffset : b'.platform.directMapOffset = b.platform.directMapOffset
  physicalBase : b'.platform.executablePhysicalBase = b.platform.executablePhysicalBase
  virtualBase : b'.platform.executableVirtualBase = b.platform.executableVirtualBase
  reported : b'.reported = b.reported

/-- Before `heap_init`; with no lines, the state at the entry of `kmain`. -/
def NoHeap (lines : List (List UInt8)) (b : BootState) : Prop :=
  Unset b.client ∧ b.reported = lines

variable {image}
variable {b b' b'' : BootState}

theorem Kept.refl (b : BootState) : Kept image b b :=
  ⟨rfl, rfl, ⟨[], .nil _⟩, rfl, rfl, rfl, rfl⟩

theorem HeapUp.of_client (h : HeapUp image b) (heq : b'.client = b.client) : HeapUp image b' := by
  unfold HeapUp
  rwa [heq]

theorem Kept.heapUp (h : Kept image b b') (hup : HeapUp image b) : HeapUp image b' := by
  obtain ⟨es, hrun⟩ := h.client
  exact hup.run hrun

theorem Kept.trans (h : Kept image b b') (h' : Kept image b' b'') : Kept image b b'' where
  runtime := h'.runtime.trans h.runtime
  context := h'.context.trans h.context
  client := by
    obtain ⟨es, hrun⟩ := h.client
    obtain ⟨es', hrun'⟩ := h'.client
    exact ⟨es ++ es', hrun.append hrun'⟩
  directMapOffset := h'.directMapOffset.trans h.directMapOffset
  physicalBase := h'.physicalBase.trans h.physicalBase
  virtualBase := h'.virtualBase.trans h.virtualBase
  reported := h'.reported.trans h.reported

theorem Ready.kept (hkept : Kept image b b') (h : Ready image b) : Ready image b' :=
  ⟨hkept.heapUp h.heap, hkept.runtime.trans h.runtime, hkept.context.trans h.context⟩

variable (image)

def needs : BootFunction → BootState → Prop
  | .kmain, b => NoHeap [] b
  | .platformHalt, b => Halted b.reported
  | .haltLoop, b => Halted b.reported
  | .runtime (.start ..), b => HeapUp image b
  | .runtime .shell, b => Ready image b ∧ Booted b.reported
  | .runtime (.shellLoop _), b => Ready image b ∧ Booted b.reported
  | .runtime _, b => Ready image b

/-- `js_runtime_start` leaves a runtime and a context if it succeeds. -/
def gives : BootFunction → BootState → Value → BootState → Prop
  | .kmain, _, _, _ => True
  | .platformHalt, _, _, _ => True
  | .haltLoop, _, _, _ => True
  | .runtime (.start ..), b, v, b' => HeapUp image b' ∧ b'.reported = b.reported ∧
      (v.toBool = true → Ready image b')
  | .runtime _, b, _, b' => Kept image b b'

def asks : BootRequest → BootState → Prop
  | .engine .newRuntime, b => HeapUp image b
  | .engine .newContext, b => HeapUp image b ∧ b.runtime.runtime = true
  | .engine .readEvent, b => Ready image b ∧ Booted b.reported
  | .engine _, b => Ready image b
  | .svgaInit offset, b => loader.hhdmOffset = some offset ∧ b.platform.directMapOffset = offset ∧
      loader.executableAddress =
        some (b.platform.executablePhysicalBase, b.platform.executableVirtualBase)
  | .framebufferInit, b => HeapUp image b ∧ ∃ count, loader.framebufferCount = some count ∧ count ≠ 0
  | .runConstructors, b => HeapUp image b
  | .fontInit, b => HeapUp image b

/-- What script code, and the functions of the file that keep what it keeps, may call. -/
def calls : BootFunction → Prop
  | .runtime (.start ..) => False
  | .runtime .shell => False
  | .runtime (.shellLoop _) => False
  | .runtime _ => True
  | _ => False

def bootSpecification : Specification BootState BootRequest Value BootFunction where
  needs := needs image
  gives := gives image
  asks := asks loader image
  enters
    | .engine r => RuntimeDeadlines.runsScript r = true
    | _ => False
  calls := calls
  ready := Ready image
  keeps := Kept image
  keeps_refl := .refl
  keeps_trans _ _ _ h h' := h.trans h'
  ready_keeps _ _ hkept h := h.kept hkept
  needs_call f b hf h := by
    cases f with
    | runtime f => cases f <;> first | exact h | cases hf
    | _ => cases hf
  gives_call f b v b' hf h := by
    cases f with
    | runtime f => cases f <;> first | exact h | cases hf
    | _ => cases hf

end Contracts

section Programs

variable (loader : BootLoader) (image : Image) (platformCpuid : ClockModel.Cpuid)
variable (J : BootState → Prop)

/-- A program of `runtime.c` that changes nothing but what script code may change. -/
abbrev Plain (p : RuntimeProgram) : Prop :=
  Steady (bootSystem loader image platformCpuid) (bootSpecification loader image) J (embed p)

/-- The actions of `js_runtime_start` alone. -/
def creates : Action → Bool
  | .setRuntime _ | .setContext _ => true
  | _ => false

/-- The requests with conditions of their own. -/
def special : Request → Bool
  | .newRuntime | .newContext | .readEvent => true
  | _ => false

variable {loader image platformCpuid J}
variable {p : RuntimeProgram} {next : Value → RuntimeProgram}

theorem kept_act {a : Action} (ha : creates a = false) (b : BootState) :
    Kept image b ((bootSystem loader image platformCpuid).act (.runtime a) b) := by
  cases a with
  | setRuntime nonNull => cases ha
  | setContext nonNull => cases ha
  | _ => exact ⟨rfl, rfl, ⟨[], .nil _⟩, rfl, rfl, rfl, rfl⟩

theorem asks_of_ready {r : Request} (hr : special r = false) {b : BootState} (h : Ready image b) :
    asks loader image (.engine r) b := by
  cases r with
  | newRuntime => cases hr
  | newContext => cases hr
  | readEvent => cases hr
  | _ => exact h

theorem plain_ret (v : Value) : Plain loader image platformCpuid J (.ret v) := trivial

theorem plain_act {a : Action} (ha : creates a = false) (h : Plain loader image platformCpuid J p) :
    Plain loader image platformCpuid J (.act a p) := ⟨kept_act ha, h⟩

theorem plain_observe {next : Observation → RuntimeProgram}
    (h : ∀ o, Plain loader image platformCpuid J (next o)) :
    Plain loader image platformCpuid J (.observe next) := fun _ => h _

theorem plain_invoke {f : Function} (hf : calls (.runtime f))
    (h : ∀ v, Plain loader image platformCpuid J (next v)) :
    Plain loader image platformCpuid J (.invoke f next) := ⟨hf, h⟩

theorem plain_writeLine (text : List UInt8) (h : Plain loader image platformCpuid J p) :
    Plain loader image platformCpuid J (writeLine text p) := plain_act rfl (plain_act rfl h)

/-- The end of `js_runtime_start` and of `js_runtime_run`. -/
theorem plain_finished (result : Value) : Plain loader image platformCpuid J
    (if result.toJs = .exception then .invoke .reportException fun _ => .ret (.bool false)
    else .invoke .drainJobs fun count => .ret (.bool (count.toInt ≥ 0))) := by
  split_ifs
  · exact plain_invoke trivial fun _ => plain_ret _
  · exact plain_invoke trivial fun _ => plain_ret _

theorem plain_run (source filename : List UInt8) :
    Plain loader image platformCpuid J (jsRuntimeRun source filename) :=
  plain_invoke trivial plain_finished

theorem plain_shellResult (result : JsValue) :
    Plain loader image platformCpuid J (shellResult result) := by
  unfold shellResult
  split_ifs
  · exact plain_invoke trivial fun _ => plain_ret _
  · exact plain_invoke trivial fun _ => plain_invoke trivial fun _ => plain_ret _

theorem plain_printText (formatted : JsValue) (text : Option (List UInt8)) :
    Plain loader image platformCpuid J (printText formatted text) := by
  cases text with
  | some text => exact plain_writeLine _ (plain_ret _)
  | none =>
    unfold printText
    split_ifs
    · exact plain_invoke trivial fun _ => plain_ret _
    · exact plain_ret _

variable (hJ : ∀ b, J b → Ready image b)

include hJ

theorem plain_request {r : Request} (hr : special r = false)
    (h : ∀ v, Plain loader image platformCpuid J (next v)) :
    Plain loader image platformCpuid J (.request r next) :=
  ⟨fun b hb => asks_of_ready hr (hJ b hb), h⟩

theorem plain_jump {f : Function} (hf : calls (.runtime f)) :
    Plain loader image platformCpuid J (.jump f) := fun b hb =>
  ⟨(bootSpecification loader image).needs_call _ b hf (hJ b hb), fun v b' =>
    (bootSpecification loader image).gives_call _ b v b' hf⟩

theorem plain_promiseRejectionTracker (reason : JsValue) (handled : Bool) :
    Plain loader image platformCpuid J (promiseRejectionTracker reason handled) := by
  unfold promiseRejectionTracker
  cases handled with
  | true => exact plain_ret _
  | false =>
    apply plain_request hJ rfl
    intro message
    exact plain_act rfl (plain_writeLine _ (plain_ret _))

theorem plain_reportStack (thrown : JsValue) :
    Plain loader image platformCpuid J (reportStack thrown) := by
  apply plain_request hJ rfl
  intro stack
  split_ifs
  · exact plain_ret _
  · apply plain_request hJ rfl
    intro stackText
    cases stackText.toText with
    | none => exact plain_ret _
    | some text => exact plain_writeLine _ (plain_ret _)

theorem plain_reportException : Plain loader image platformCpuid J jsRuntimeReportException := by
  apply plain_request hJ rfl
  intro thrown
  apply plain_request hJ rfl
  intro message
  apply plain_act rfl
  apply plain_writeLine
  apply plain_request hJ rfl
  intro isError
  cases isError.toBool with
  | true => exact plain_reportStack hJ _
  | false => exact plain_ret _

theorem plain_drainLoop (count : ℤ) : Plain loader image platformCpuid J (drainLoop count) := by
  apply plain_request hJ rfl
  intro pending
  cases pending.toBool with
  | false => exact plain_ret _
  | true =>
    apply plain_act rfl
    apply plain_request hJ rfl
    intro result
    apply plain_act rfl
    split_ifs
    · exact plain_invoke trivial fun _ => plain_ret _
    · exact plain_jump hJ trivial

theorem plain_drainJobs : Plain loader image platformCpuid J jsRuntimeDrainJobs := by
  apply plain_observe
  intro o
  split_ifs
  · exact plain_drainLoop hJ 0
  · exact plain_ret _

theorem plain_eval (source filename : List UInt8) :
    Plain loader image platformCpuid J (jsRuntimeEval source filename) := by
  apply plain_observe
  intro o
  split_ifs
  · apply plain_act rfl
    apply plain_request hJ rfl
    intro result
    exact plain_act rfl (plain_ret _)
  · exact plain_ret _

theorem plain_printFormatted (result : JsValue) (hasFormatter : Bool) (formatted : JsValue) :
    Plain loader image platformCpuid J (printFormatted result hasFormatter formatted) := by
  have horResult (text : Option (List UInt8)) : Plain loader image platformCpuid J
      (if !hasFormatter ∧ text = none ∧ formatted ≠ .exception then
        .request (.toCString result) fun text => printText formatted text.toText
      else printText formatted text) := by
    split_ifs
    · exact plain_request hJ rfl fun _ => plain_printText _ _
    · exact plain_printText _ _
  unfold printFormatted
  by_cases hformatted : formatted ≠ .exception ∧ formatted ≠ .undefined
  · rw [if_pos hformatted]
    exact plain_request hJ rfl fun text => horResult text.toText
  · rw [if_neg hformatted]
    exact horResult none

theorem plain_printResult (result : JsValue) :
    Plain loader image platformCpuid J (shellPrintResult result) := by
  apply plain_request hJ rfl
  intro global
  apply plain_request hJ rfl
  intro formatter
  apply plain_request hJ rfl
  intro hasFormatter
  split_ifs
  · exact plain_request hJ rfl fun _ => plain_printFormatted hJ _ _ _
  · exact plain_printFormatted hJ _ _ _

theorem plain_evaluate (source : List UInt8) :
    Plain loader image platformCpuid J (shellEvaluate source) := by
  apply plain_request hJ rfl
  intro global
  apply plain_request hJ rfl
  intro evaluator
  apply plain_request hJ rfl
  intro isFunction
  split_ifs
  · apply plain_request hJ rfl
    intro input
    apply plain_act rfl
    apply plain_request hJ rfl
    intro result
    exact plain_act rfl (plain_shellResult _)
  · exact plain_invoke trivial fun _ => plain_shellResult _

theorem plain_writePrompt : Plain loader image platformCpuid J shellWritePrompt := by
  apply plain_request hJ rfl
  intro global
  apply plain_request hJ rfl
  intro prompt
  apply plain_request hJ rfl
  intro text
  exact plain_act rfl (plain_ret _)

end Programs

section Shell

variable {loader : BootLoader} {image : Image} {platformCpuid : ClockModel.Cpuid}

/-- All stages of the boot have been reported. -/
def InShell (image : Image) (b : BootState) : Prop := Ready image b ∧ Booted b.reported

theorem interactive_jump (st : ShellState) :
    Plain loader image platformCpuid (InShell image) (.jump (.shellLoop st)) :=
  fun _ hb => ⟨hb, fun _ _ h => h⟩

theorem interactive_showCursor (line : List UInt8) :
    Plain loader image platformCpuid (InShell image) (showCursor line) :=
  plain_act rfl (plain_observe fun _ => interactive_jump _)

theorem interactive_prompt :
    Plain loader image platformCpuid (InShell image) (.invoke .writePrompt fun _ => showCursor []) :=
  plain_invoke trivial fun _ => interactive_showCursor []

theorem interactive_character (st : ShellState) (event : KeyboardEvent) :
    Plain loader image platformCpuid (InShell image) (shellCharacter st event) := by
  unfold shellCharacter
  dsimp only
  split_ifs
  · exact plain_act rfl (interactive_jump _)
  · exact plain_act rfl (plain_invoke trivial fun _ => plain_act rfl (interactive_jump _))
  · exact plain_act rfl (interactive_showCursor _)

theorem interactive_key (st : ShellState) (event : KeyboardEvent) :
    Plain loader image platformCpuid (InShell image) (shellKey st event) := by
  apply plain_act rfl
  cases event.type with
  | enter =>
    apply plain_act rfl
    split_ifs
    · exact plain_invoke trivial fun _ => interactive_prompt
    · exact interactive_prompt
  | backspace =>
    dsimp only
    unfold shellBackspace
    split_ifs
    · exact plain_act rfl (interactive_showCursor _)
    · exact interactive_showCursor _
  | interrupt => exact plain_act rfl interactive_prompt
  | _ => exact interactive_character _ event

/-- Keys may be read here. -/
theorem interactive_readEvent {next : Value → RuntimeProgram}
    (h : ∀ v, Plain loader image platformCpuid (InShell image) (next v)) :
    Plain loader image platformCpuid (InShell image) (.request .readEvent next) :=
  ⟨fun _ hb => hb, h⟩

theorem interactive_shellLoop (st : ShellState) :
    Plain loader image platformCpuid (InShell image) (shellLoop st) := by
  unfold shellLoop
  extract_lets read
  have hread (st : ShellState) : Plain loader image platformCpuid (InShell image) (read st) := by
    apply interactive_readEvent
    intro event
    cases event.toEvent with
    | none => exact interactive_jump _
    | some event => exact interactive_key st event
  apply plain_observe
  intro o
  split_ifs
  · exact plain_act rfl (hread _)
  · exact hread st

theorem interactive_shell : Plain loader image platformCpuid (InShell image) jsRuntimeShell :=
  plain_observe fun _ => plain_invoke trivial fun _ => plain_act rfl (interactive_jump _)

end Shell

section Stages

variable (image : Image)

def WithHeap (lines : List (List UInt8)) (b : BootState) : Prop :=
  HeapUp image b ∧ b.reported = lines

def WithEngine (lines : List (List UInt8)) (b : BootState) : Prop :=
  Ready image b ∧ b.reported = lines

variable (loader : BootLoader) {image} {lines : List (List UInt8)}

theorem stable_noHeap : (bootSpecification loader image).Stable (NoHeap lines) := by
  rintro b b' (hkept : Kept image b b') ⟨hclient, hreported⟩
  obtain ⟨es, hrun⟩ := hkept.client
  exact ⟨hclient.run hrun, hkept.reported.trans hreported⟩

theorem stable_withHeap : (bootSpecification loader image).Stable (WithHeap image lines) :=
  fun _ _ hkept h => ⟨hkept.heapUp h.1, hkept.reported.trans h.2⟩

theorem stable_withEngine : (bootSpecification loader image).Stable (WithEngine image lines) :=
  fun _ _ hkept h => ⟨h.1.kept hkept, hkept.reported.trans h.2⟩

theorem stable_inShell : (bootSpecification loader image).Stable (InShell image) :=
  fun _ _ hkept h => ⟨h.1.kept hkept, hkept.reported ▸ h.2⟩

theorem stable_halted : (bootSpecification loader image).Stable fun b => Halted b.reported := by
  intro b b' hkept h
  have hreported : b'.reported = b.reported := hkept.reported
  rwa [hreported]

/-- `heap_init` puts the heap in order. -/
theorem heapInit_heapUp {b : BootState} (h : NoHeap lines b) : HeapUp image
    { b with client :=
      ⟨(heapInit b.client.heap image.kernelHeap kernelHeapSize).2, b.client.live⟩ } := by
  obtain ⟨m, hclient⟩ := h.1
  rw [hclient]
  exact ⟨m, _, (kernelRegion image m).start_holds⟩

end Stages

section Boot

variable (loader : BootLoader) (image : Image) (platformCpuid : ClockModel.Cpuid)

/-- A runtime, and a heap in order. -/
def WithRuntime (lines : List (List UInt8)) (b : BootState) : Prop :=
  WithHeap image lines b ∧ b.runtime.runtime = true

/-- What `js_runtime_start` leaves. -/
def Started (lines : List (List UInt8)) (v : Value) (b : BootState) : Prop :=
  WithHeap image lines b ∧ (v.toBool = true → Ready image b)

variable {loader image platformCpuid} {lines : List (List UInt8)}

theorem stable_withRuntime : (bootSpecification loader image).Stable (WithRuntime image lines) :=
  fun _ _ hkept h => ⟨stable_withHeap loader _ _ hkept h.1, hkept.runtime.trans h.2⟩

/-- What the runtime's variables are does not matter to the heap. -/
theorem withHeap_runtime {b : BootState} (h : WithHeap image lines b) (a : Action) :
    WithHeap image lines ((bootSystem loader image platformCpuid).act (.runtime a) b) :=
  ⟨h.1.of_client rfl, h.2⟩

theorem withEngine_act {a : Action} (ha : creates a = false) {b : BootState}
    (h : WithEngine image lines b) :
    WithEngine image lines ((bootSystem loader image platformCpuid).act (.runtime a) b) :=
  stable_withEngine loader _ _ (kept_act ha b) h

theorem WithEngine.withHeap {b : BootState} (h : WithEngine image lines b) :
    WithHeap image lines b := ⟨h.1.heap, h.2⟩

/-- A call that leaves what script code leaves. -/
theorem triple_call {f : Function} (hf : calls (.runtime f)) {next : Value → BootProgram}
    {Q : Value → BootState → Prop}
    (h : ∀ v, Triple (bootSystem loader image platformCpuid) (bootSpecification loader image)
      (WithEngine image lines) (next v) Q) :
    Triple (bootSystem loader image platformCpuid) (bootSpecification loader image)
      (WithEngine image lines) (.invoke (.runtime f) next) Q :=
  .invoke (fun _ => WithEngine image lines) (stable_withEngine loader)
    (fun b hb => (bootSpecification loader image).needs_call _ b hf hb.1)
    (fun b v b' hb hv => stable_withEngine loader b b'
      ((bootSpecification loader image).gives_call _ b v b' hf hv) hb) h

theorem triple_failed {I : BootState → Prop} (hI : (bootSpecification loader image).Stable I)
    (h : ∀ b, I b → WithHeap image lines b) :
    Triple (bootSystem loader image platformCpuid) (bootSpecification loader image) I
      (.ret (.bool false)) (Started image lines) :=
  .ret hI fun b hb => ⟨h b hb, fun hfalse => Bool.noConfusion hfalse⟩

/-- The end of `js_runtime_start`. -/
theorem triple_finished (result : Value) :
    Triple (bootSystem loader image platformCpuid) (bootSpecification loader image)
      (WithEngine image lines)
      (embed (if result.toJs = .exception then .invoke .reportException fun _ => .ret (.bool false)
        else .invoke .drainJobs fun count => .ret (.bool (count.toInt ≥ 0))))
      (Started image lines) := by
  split_ifs
  · exact triple_call (f := .reportException) trivial fun _ =>
      triple_failed (stable_withEngine loader) fun _ =>
      WithEngine.withHeap
  · exact triple_call (f := .drainJobs) trivial fun _ => .ret (stable_withEngine loader) fun b hb =>
      ⟨hb.withHeap, fun _ => hb.1⟩

/-- `js_runtime_start` makes a runtime before a context and a context before all else. -/
theorem triple_start (source filename : List UInt8) :
    Triple (bootSystem loader image platformCpuid) (bootSpecification loader image)
      (WithHeap image lines) (embed (jsRuntimeStart source filename)) (Started image lines) := by
  have hheap : (bootSpecification loader image).Stable (WithHeap image lines) :=
    stable_withHeap loader
  have hengine : (bootSpecification loader image).Stable (WithEngine image lines) :=
    stable_withEngine loader
  refine .request hheap (fun b hb => hb.1) (fun hr => by cases hr) ?_
  intro runtime
  beta_reduce
  cases runtime.toBool with
  | false =>
    refine .act _ hheap (fun b hb => withHeap_runtime hb _) ?_
    exact .act _ hheap (fun b hb => withHeap_runtime hb _) (triple_failed hheap fun _ h => h)
  | true =>
    refine .act (WithRuntime image lines) hheap
      (fun b hb => ⟨withHeap_runtime hb _, rfl⟩) ?_
    refine .act (WithRuntime image lines) stable_withRuntime
      (fun b hb => ⟨withHeap_runtime hb.1 _, hb.2⟩) ?_
    refine .request stable_withRuntime (fun b hb => ⟨hb.1.1, hb.2⟩) (fun hr => by cases hr) ?_
    intro context
    beta_reduce
    cases context.toBool with
    | false =>
      refine .act (WithHeap image lines) stable_withRuntime
        (fun b hb => withHeap_runtime hb.1 _) ?_
      refine .act _ hheap (fun b hb => withHeap_runtime hb _) ?_
      exact .act _ hheap (fun b hb => withHeap_runtime hb _) (triple_failed hheap fun _ h => h)
    | true =>
      refine .act (WithEngine image lines) stable_withRuntime
        (fun b hb => ⟨⟨hb.1.1.of_client rfl, hb.2, rfl⟩, hb.1.2⟩) ?_
      refine .request hengine (fun b hb => hb.1) (fun _ b hb => hb.1) ?_
      intro installed
      beta_reduce
      split_ifs
      · refine triple_call (f := .reportException) trivial fun _ => ?_
        refine .act _ hengine (fun b hb => withHeap_runtime hb.withHeap _) ?_
        exact .act _ hheap (fun b hb => withHeap_runtime hb _) (triple_failed hheap fun _ h => h)
      · refine .act _ hengine (fun b hb => withEngine_act rfl hb) ?_
        refine .request hengine (fun b hb => hb.1) (fun _ b hb => hb.1) fun result => ?_
        exact .act _ hengine (fun b hb => withEngine_act rfl hb) (triple_finished result)

/-- Nothing is asked of a program that does not return. -/
abbrev Goes (loader : BootLoader) (image : Image) (platformCpuid : ClockModel.Cpuid)
    (I : BootState → Prop) (p : BootProgram) : Prop :=
  Triple (bootSystem loader image platformCpuid) (bootSpecification loader image) I p
    fun _ _ => True

variable {next : BootProgram}

theorem goes_bootFailed {I : BootState → Prop} (hI : (bootSpecification loader image).Stable I)
    {report : BootAction}
    (h : ∀ b, I b → Halted ((bootSystem loader image platformCpuid).act report b).reported) :
    Goes loader image platformCpuid I (bootFailed report) :=
  .act (fun b => Halted b.reported) hI h
    (.jump (f := .platformHalt) (stable_halted loader) (fun _ hb => hb) fun _ _ _ _ _ => trivial)

theorem goes_serialWrite (text : List UInt8)
    (h : Goes loader image platformCpuid (WithHeap image (lines ++ [text])) next) :
    Goes loader image platformCpuid (WithHeap image lines) (.act (.serialWrite text) next) :=
  .act _ (stable_withHeap loader) (fun _ hb => ⟨hb.1.of_client rfl, congrArg (· ++ [text]) hb.2⟩) h

theorem goes_consoleWrite (text : List UInt8)
    (h : Goes loader image platformCpuid (WithHeap image (lines ++ [text])) next) :
    Goes loader image platformCpuid (WithHeap image lines) (.act (.consoleWrite text) next) :=
  .act _ (stable_withHeap loader) (fun _ hb => ⟨hb.1.of_client rfl, congrArg (· ++ [text]) hb.2⟩) h

/-- The line that reports the failure of a script. -/
theorem goes_scriptFailed (hlines : FontLines lines) :
    Goes loader image platformCpuid
      (WithHeap image lines)
      (bootFailed (.consoleWrite (ascii "JS-OS: JavaScript boot failed\n"))) :=
  goes_bootFailed (stable_withHeap loader) fun _ hb =>
    .inr ⟨lines, hlines, congrArg (· ++ [ascii "JS-OS: JavaScript boot failed\n"]) hb.2⟩

theorem goes_runScripts (hlines : FontLines lines) (scripts : List (List UInt8 × List UInt8)) :
    Goes loader image platformCpuid
      (WithEngine image lines) (runScripts scripts) := by
  induction scripts with
  | nil =>
    refine .act (InShell image) (stable_withEngine loader) (fun b hb => ?_) ?_
    · exact ⟨⟨hb.1.heap.of_client rfl, hb.1.runtime, hb.1.context⟩, lines, hlines,
        congrArg (· ++ [ascii "JS-OS: JavaScript environment ready\n"]) hb.2⟩
    · exact .jump (stable_inShell loader) (fun _ hb => hb) fun _ _ _ _ _ => trivial
  | cons script scripts ih =>
    obtain ⟨source, filename⟩ := script
    refine triple_call (f := .run source filename) trivial ?_
    intro ok
    split_ifs
    · exact ih
    · exact (goes_scriptFailed hlines).weaken fun _ => WithEngine.withHeap

theorem goes_startScripts (hlines : FontLines lines) :
    Goes loader image platformCpuid (WithHeap image lines)
      (startScripts image) := by
  refine .invoke (Started image lines) (stable_withHeap loader) (fun b hb => hb.1)
    (fun b v b' hb hv => ⟨⟨hv.1, hv.2.1.trans hb.2⟩, hv.2.2⟩) ?_
  intro ok
  split_ifs with hok
  · exact (goes_runScripts hlines _).weaken fun b hb => ⟨hb.2 hok, hb.1.2⟩
  · exact (goes_scriptFailed hlines).weaken fun b hb => hb.1

theorem goes_startFont
    (h : ∀ lines, FontLines lines →
      Goes loader image platformCpuid (WithHeap image lines) next) :
    Goes loader image platformCpuid (WithHeap image framebufferLines)
      (startFont next) := by
  refine .request (stable_withHeap loader) (fun b hb => hb.1) (fun hr => hr.elim) ?_
  intro ok
  dsimp only
  split_ifs
  · exact goes_serialWrite _ (h _ (.inl rfl))
  · exact goes_consoleWrite _ (goes_serialWrite _ (h _ (.inr (by rw [List.append_assoc]; rfl))))

theorem goes_startFramebuffer
    (h : Goes loader image platformCpuid
      (WithHeap image (lines ++ [ascii "JS-OS: framebuffer ready\n"])) next) :
    Goes loader image platformCpuid (WithHeap image lines)
      (startFramebuffer loader next) := by
  have hready := goes_serialWrite _ h
  unfold startFramebuffer
  cases hcount : loader.framebufferCount with
  | none => exact hready
  | some count =>
    dsimp only
    split_ifs with hne
    · exact .request (stable_withHeap loader) (fun b hb => ⟨hb.1, count, hcount, hne⟩)
        (fun hr => hr.elim) fun _ => hready
    · exact hready

theorem act_heapInit (b : BootState) (memory size : ℕ) :
    (bootSystem loader image platformCpuid).act (.heapInit memory size) b =
      { b with client := ⟨(heapInit b.client.heap memory size).2, b.client.live⟩ } := rfl

theorem withHeap_heapInit {b : BootState} (hb : NoHeap lines b) :
    WithHeap image lines ((bootSystem loader image platformCpuid).act
      (.heapInit image.kernelHeap kernelHeapSize) b) := by
  rw [act_heapInit]
  exact ⟨heapInit_heapUp hb, hb.2⟩

/-- The branch for a heap that is refused is never taken. -/
theorem startHeap_eq (next : BootProgram) : startHeap image next = .observe fun _ =>
    .act (.heapInit image.kernelHeap kernelHeapSize)
      (.act (.serialWrite (ascii "JS-OS: heap ready\n"))
        (.request .runConstructors fun _ =>
          .act (.serialWrite (ascii "JS-OS: C++ runtime ready\n")) next)) := by
  unfold startHeap
  simp only [heapInit_kernelHeap, Int.lt_irrefl, if_false]

theorem goes_startHeap
    (h : Goes loader image platformCpuid (WithHeap image
      (lines ++ [ascii "JS-OS: heap ready\n"] ++ [ascii "JS-OS: C++ runtime ready\n"])) next) :
    Goes loader image platformCpuid (NoHeap lines) (startHeap image next) := by
  rw [startHeap_eq]
  refine .observe (stable_noHeap loader) ?_
  apply Triple.act (WithHeap image lines) (stable_noHeap loader) fun b hb => withHeap_heapInit hb
  apply goes_serialWrite
  refine .request (stable_withHeap loader) (fun b hb => hb.1) (fun hr => hr.elim) fun _ => ?_
  exact goes_serialWrite _ h

theorem goes_firstLines (text : List UInt8)
    (h : Goes loader image platformCpuid (NoHeap (lines ++ [text])) next) :
    Goes loader image platformCpuid (NoHeap lines) (.act (.serialWrite text) next) :=
  .act _ (stable_noHeap loader) (fun _ hb => ⟨hb.1, congrArg (· ++ [text]) hb.2⟩) h

/-- `svga_init` gets the address space that the boot loader has answered. -/
theorem goes_startDisplay
    (h : Goes loader image platformCpuid
      (NoHeap (lines ++ [ascii "JS-OS: display probe complete\n"])) next) :
    Goes loader image platformCpuid (NoHeap lines) (startDisplay loader next) := by
  have hready := goes_firstLines _ h
  unfold startDisplay
  split
  · rename_i offset physicalBase virtualBase hoffset haddress
    let configured (b : BootState) : Prop := NoHeap lines b ∧
      b.platform.directMapOffset = offset ∧ b.platform.executablePhysicalBase = physicalBase ∧
      b.platform.executableVirtualBase = virtualBase
    have hstable : (bootSpecification loader image).Stable configured := fun b b' hkept hb =>
      ⟨stable_noHeap loader b b' hkept hb.1, hkept.directMapOffset.trans hb.2.1,
        hkept.physicalBase.trans hb.2.2.1, hkept.virtualBase.trans hb.2.2.2⟩
    refine .act configured (stable_noHeap loader) (fun b hb => ⟨hb, rfl, rfl, rfl⟩) ?_
    refine .request hstable (fun b hb => ⟨hoffset, hb.2.1, ?_⟩) (fun hr => hr.elim) ?_
    · rw [haddress, hb.2.2.1, hb.2.2.2]
    · exact fun _ => hready.weaken fun b hb => hb.1
  · exact hready

theorem goes_kmain : Goes loader image platformCpuid (NoHeap []) (kmain loader image) := by
  refine .act (NoHeap []) (stable_noHeap loader) (fun b hb => hb) ?_
  apply goes_firstLines
  split_ifs
  · exact goes_bootFailed (stable_noHeap loader) fun b hb =>
      .inl (congrArg (· ++ [ascii "JS-OS: unsupported Limine base revision\n"]) hb.2)
  · refine .act (NoHeap [ascii "JS-OS: booting\n"]) (stable_noHeap loader)
      (fun b hb => hb) ?_
    apply goes_firstLines
    apply goes_startDisplay
    apply goes_startHeap
    apply goes_startFramebuffer
    apply goes_startFont
    exact fun lines hlines => goes_startScripts hlines

/-- Every function meets its contract. -/
theorem boot_valid :
    Valid (bootSystem loader image platformCpuid) (bootSpecification loader image) := by
  have hready : (bootSpecification loader image).Stable (Ready image) :=
    fun _ _ hkept h => h.kept hkept
  intro f b hneeds
  cases f with
  | kmain => exact goes_kmain b hneeds
  | platformHalt =>
    exact Triple.act (fun b => Halted b.reported) (stable_halted loader) (fun _ hb => hb)
      (.jump (f := .haltLoop) (stable_halted loader) (fun _ hb => hb) fun _ _ _ _ _ => trivial)
      b hneeds
  | haltLoop =>
    exact Triple.jump (f := .haltLoop) (stable_halted loader) (fun _ hb => hb)
      (fun _ _ _ _ _ => trivial) b hneeds
  | runtime f =>
    have hplain {p : RuntimeProgram} (hp : Plain loader image platformCpuid (Ready image) p)
        (hb : Ready image b) := Steady.meets hready (fun _ h => h) hp hb
    cases f with
    | start source filename =>
      refine (triple_start source filename b ⟨hneeds, rfl⟩).mono fun v b' hv => ?_
      exact ⟨hv.1.1, hv.1.2, hv.2⟩
    | shell => exact Steady.meets (stable_inShell loader) (fun _ h => h.1) interactive_shell hneeds
    | shellLoop st =>
      exact Steady.meets (stable_inShell loader) (fun _ h => h.1) (interactive_shellLoop st) hneeds
    | promiseRejectionTracker reason handled =>
      exact hplain (plain_promiseRejectionTracker (fun _ h => h) reason handled) hneeds
    | reportException => exact hplain (plain_reportException fun _ h => h) hneeds
    | run source filename => exact hplain (plain_run source filename) hneeds
    | drainJobs => exact hplain (plain_drainJobs fun _ h => h) hneeds
    | drainLoop count => exact hplain (plain_drainLoop (fun _ h => h) count) hneeds
    | eval source filename => exact hplain (plain_eval (fun _ h => h) source filename) hneeds
    | printResult result => exact hplain (plain_printResult (fun _ h => h) result) hneeds
    | evaluate source => exact hplain (plain_evaluate (fun _ h => h) source) hneeds
    | writePrompt => exact hplain (plain_writePrompt fun _ h => h) hneeds

/-- In every run of `kmain`, whatever the engine and script code do within what `Kept` allows: each
request is made only when what it needs is there, script code runs only with a heap in order, a
runtime and a context, the shell goes round only after all stages have been reported, and the machine
halts only after the line that says why. -/
theorem run_boot_ordered {b : BootState}
    {es : List (Event BootState Value BootFunction)}
    {s : Machine BootState BootAction BootState BootRequest Value BootFunction}
    (hstart : NoHeap [] b)
    (hrun : Run (AllowedStep (bootSystem loader image platformCpuid)
      (bootSpecification loader image)) ⟨b, .code (kmain loader image), []⟩ es s) :
    (∀ r next, s.control = .code (.request r next) → asks loader image r s.shared) ∧
      (s.control = .guest → Ready image s.shared) ∧
      (∀ st, s.control = .code (.jump (.runtime (.shellLoop st))) →
        Ready image s.shared ∧ Booted s.shared.reported) ∧
      (s.control = .code (.jump .haltLoop) → Halted s.shared.reported) := by
  have hneeds : (bootSpecification loader image).needs .kmain b := hstart
  have hok := run_meets boot_valid hneeds hrun
  exact ⟨fun r next => hok.asks, hok.ready, fun st => hok.needs, hok.needs⟩

end Boot

section Examples

def smallImage : Image := ⟨0x200000, [], [], [], [], [], by decide, by decide, by decide⟩

def powerOn : BootState where
  runtime := ⟨0, false, false, 0⟩
  client := ⟨Heap.zero fun _ => 0, fun _ => none⟩
  platform := ⟨fun _ => 0, 0, 0, 0, 0, 0⟩
  clock := ⟨0, 1000000000, 0, 0⟩
  counter := 0
  reported := []

/-- A boot loader that answers all requests. -/
def fullLoader : BootLoader :=
  ⟨true, some 1700000000, some 0xffff800000000000, some (0x100000, 0xffffffff80000000), some 1⟩

abbrev BootMachine : Type :=
  Machine BootState BootAction BootState BootRequest Value BootFunction

def smallBoot : System BootState BootAction BootState BootRequest Value BootFunction :=
  bootSystem fullLoader smallImage fun _ _ => ⟨0, 0, 0, 0⟩

/-- Steps that can be computed: script code is entered, calls a function and is left, and the heap
is called. -/
inductive BootMove where
  | run
  | reply (v : Value)
  | enter
  | call (f : Function)
  | finish (v : Value)
  | heap (c : HeapCall)
  | store (pointer address : ℕ) (value : UInt8)

/-- A call of the heap by the engine. -/
def heapNext (s : BootMachine) (c : HeapCall) : Option BootMachine :=
  (HeapRuns.call s.shared.client c).map fun x =>
    { s with shared := { s.shared with client := x.2 } }

def bootNext (s : BootMachine) : BootMove → Option BootMachine
  | .run => smallBoot.step s .run
  | .reply v => smallBoot.step s (.reply v)
  | .enter => match s.control with
    | .code (.request (.engine r) _) =>
      if RuntimeDeadlines.runsScript r = true then smallBoot.step s .enter else none
    | _ => none
  | .call f => match s.control with
    | .guest =>
      if RuntimeDeadlines.scriptCalls f = true then smallBoot.step s (.call (.runtime f)) else none
    | _ => none
  | .finish v => smallBoot.step s (.finish v)
  | .heap c => if Legal s.shared.client c then heapNext s c else none
  | .store pointer address value =>
    if (s.shared.client.live pointer).isSome ∧ pointer ≤ address ∧
        address < pointer + heapUsableSize s.shared.client.heap pointer then
      heapNext s (.write address value)
    else none

abbrev BootStep : BootMachine → Event BootState Value BootFunction → BootMachine → Prop :=
  AllowedStep smallBoot (bootSpecification fullLoader smallImage)

theorem bootStep_of_heapNext {s t : BootMachine} {c : HeapCall} (hlegal : Legal s.shared.client c)
    (h : heapNext s c = some t) : ∃ e, BootStep s e t := by
  obtain ⟨⟨r, client⟩, hcall, rfl⟩ := Option.map_eq_some_iff.mp h
  refine ⟨.pass { s.shared with client := client }, ⟨rfl, rfl, ⟨[.inl (c, r)], ?_⟩, rfl, rfl, rfl,
    rfl⟩, rfl⟩
  exact .cons ⟨hlegal, hcall⟩ (.nil _)

theorem bootStep_of_next {s t : BootMachine} {m : BootMove} (h : bootNext s m = some t) :
    ∃ e, BootStep s e t := by
  cases m with
  | run => exact ⟨.run, trivial, h⟩
  | reply v => exact ⟨.reply v, trivial, h⟩
  | finish v => exact ⟨.finish v, trivial, h⟩
  | enter =>
    unfold bootNext at h
    dsimp only at h
    split at h
    next r next hcontrol =>
      split_ifs at h with hscript
      refine ⟨.enter, fun r' next' heq => ?_, h⟩
      cases hcontrol.symm.trans heq
      exact hscript
    next => cases h
  | call f =>
    unfold bootNext at h
    dsimp only at h
    split at h
    next hcontrol =>
      split_ifs at h with hcalls
      have hcalls' : calls (.runtime f) := by cases f <;> trivial
      exact ⟨.call (.runtime f), ⟨hcontrol, hcalls'⟩, h⟩
    next => cases h
  | heap c =>
    unfold bootNext at h
    dsimp only at h
    split_ifs at h with hlegal
    exact bootStep_of_heapNext hlegal h
  | store pointer address value =>
    unfold bootNext at h
    dsimp only at h
    split_ifs at h with hlive
    have hlegal : Legal s.shared.client (.write address value) := ⟨pointer, hlive⟩
    exact bootStep_of_heapNext hlegal h

/-- Up to the call of `js_runtime_start`. -/
def stageMoves : List BootMove :=
  [.run, .run, .run, .run, .run, .reply .unit, .run, .run, .run, .run, .reply .unit, .run,
    .reply .unit, .run, .reply (.bool true), .run, .run]

/-- `js_runtime_start`: the engine allocates its runtime, and the script allocates, writes and
releases, and leaves a promise that is rejected. -/
def startMoves : List BootMove :=
  [.heap (.allocate 64), .reply (.bool true), .run, .run, .reply (.bool true), .run, .reply (.int 0),
    .run, .enter, .heap (.allocate 24), .store 0x200080 0x200081 7, .heap (.release 0x200080),
    .call (.promiseRejectionTracker (.other 2) false), .reply (.text none), .run, .run, .run, .run,
    .finish (.js .undefined), .run, .run, .run, .reply (.bool false), .run, .run]

/-- `js_runtime_run`. -/
def scriptMoves : List BootMove :=
  [.run, .run, .run, .run, .reply (.js .undefined), .run, .run, .run, .run, .reply (.bool false),
    .run, .run]

/-- `js_runtime_shell`, up to its loop. -/
def shellMoves : List BootMove :=
  [.run, .run, .run, .run, .reply (.js (.other 0)), .reply (.js (.other 1)), .reply (.text none),
    .run, .run, .run]

def bootMoves : List BootMove :=
  stageMoves ++ startMoves ++ scriptMoves ++ scriptMoves ++ scriptMoves ++ scriptMoves ++ shellMoves

def isShellLoop (s : BootMachine) : Bool :=
  match s.control with
  | .code (.jump (.runtime (.shellLoop _))) => true
  | _ => false

theorem eq_shellLoop {s : BootMachine} (h : isShellLoop s = true) :
    ∃ st, s.control = .code (.jump (.runtime (.shellLoop st))) := by
  unfold isShellLoop at h
  split at h
  next st hcontrol => exact ⟨st, hcontrol⟩
  next => cases h

/-- A boot with a script that uses the heap, up to the loop of the shell. -/
theorem run_boot_ordered_fullLoader : ∃ es s st,
    Run (AllowedStep (bootSystem fullLoader smallImage fun _ _ => ⟨0, 0, 0, 0⟩)
      (bootSpecification fullLoader smallImage)) ⟨powerOn, .code (kmain fullLoader smallImage), []⟩
      es s ∧
    s.control = .code (.jump (.runtime (.shellLoop st))) ∧ s.shared.client.live 0x200020 = some 64 ∧
    Ready smallImage s.shared ∧ Booted s.shared.reported := by
  have hview : (bootMoves.foldlM bootNext ⟨powerOn, .code (kmain fullLoader smallImage), []⟩).map
      (fun s => (isShellLoop s, s.shared.client.live 0x200020)) = some (true, some 64) := by
    decide +kernel
  obtain ⟨s, hmoves, hs⟩ := Run.of_foldlM (fun _ _ _ h => h) _ hview
  obtain ⟨hloop, hlive⟩ := Prod.mk.inj hs
  obtain ⟨st, hcontrol⟩ := eq_shellLoop hloop
  obtain ⟨es, hrun⟩ := hmoves.relabel fun _ _ _ h => bootStep_of_next h
  have hstart : NoHeap [] powerOn := ⟨⟨_, rfl⟩, rfl⟩
  obtain ⟨hready, hbooted⟩ := (run_boot_ordered hstart hrun).2.2.1 st hcontrol
  exact ⟨es, s, st, hrun, hcontrol, hlive, hready, hbooted⟩

end Examples

end JsOs.BootSafety
