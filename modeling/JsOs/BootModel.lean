import JsOs.ClockModel
import JsOs.HeapRuns
import JsOs.PageTableModel
import JsOs.RuntimeModel

/-!
# The boot

`kmain` as a program over the programs of `runtime.c`. What the boot loader has answered and what is
linked into the kernel is fixed. The display driver, the constructors of C++, the framebuffer and
the font are requests with any effect of their own; `platform_halt` is a loop.
-/

namespace JsOs.BootModel

open ByteMemory MachineWords ReentrantPrograms RuntimeModel
open ClockModel HeapModel HeapRuns PageTableModel

def kernelHeapSize : ℕ := 32 * 1024 * 1024

/-- The responses of the boot loader; `none` is `NULL`. -/
structure BootLoader where
  baseRevisionSupported : Bool
  bootTime : Option ℤ
  hhdmOffset : Option ℕ
  /-- The physical and the virtual base. -/
  executableAddress : Option (ℕ × ℕ)
  framebufferCount : Option ℕ

/-- The address of the array `kernel_heap`, and the scripts. -/
structure Image where
  kernelHeap : ℕ
  colors : List UInt8
  graphics : List UInt8
  dom : List UInt8
  react : List UInt8
  boot : List UInt8
  kernelHeap_pos : 0 < kernelHeap
  kernelHeap_aligned : kernelHeap % 16 = 0
  kernelHeap_lt : kernelHeap + kernelHeapSize < 2 ^ 64

/-- The variables of the kernel that the boot sets up, and the time stamp counter. -/
structure BootState where
  runtime : Globals
  client : Client
  platform : PlatformState
  clock : ClockState
  counter : BitVec 64
  /-- What `kmain` itself has written on the serial line, directly or through the console. -/
  reported : List (List UInt8)

inductive BootAction where
  | runtime (a : Action)
  | serialInit
  | serialWrite (text : List UInt8)
  | consoleWrite (text : List UInt8)
  | platformInit (bootEpochSeconds : ℕ)
  | configureAddressSpace (hhdmOffset kernelPhysicalBase kernelVirtualBase : ℕ)
  | heapInit (memory size : ℕ)
  | disableInterrupts

inductive BootRequest where
  | engine (r : Request)
  | svgaInit (hhdmOffset : ℕ)
  | runConstructors
  | framebufferInit
  | fontInit

inductive BootFunction where
  | kmain
  | platformHalt
  | haltLoop
  | runtime (f : Function)

abbrev BootProgram := Program BootAction BootState BootRequest Value BootFunction

/-- A program of `runtime.c` in the kernel. -/
def embed : RuntimeProgram → BootProgram
  | .ret v => .ret v
  | .act a next => .act (.runtime a) (embed next)
  | .observe next => .observe fun b => embed (next (runtimeSystem.view b.runtime))
  | .request r next => .request (.engine r) fun v => embed (next v)
  | .invoke f next => .invoke (.runtime f) fun v => embed (next v)
  | .jump f => .jump (.runtime f)

def platformConfigureAddressSpace (st : PlatformState)
    (hhdmOffset kernelPhysicalBase kernelVirtualBase : ℕ) : PlatformState :=
  { st with
    directMapOffset := hhdmOffset
    executablePhysicalBase := kernelPhysicalBase
    executableVirtualBase := kernelVirtualBase }

/-- A fault of the boot: the line that reports it, and the halt. -/
def bootFailed (report : BootAction) : BootProgram := .act report (.jump .platformHalt)

/-- The calls of `js_runtime_run`, each after the one before has succeeded, and then the shell. -/
def runScripts : List (List UInt8 × List UInt8) → BootProgram
  | [] => .act (.serialWrite (ascii "JS-OS: JavaScript environment ready\n")) (.jump (.runtime .shell))
  | (source, filename) :: scripts => .invoke (.runtime (.run source filename)) fun ok =>
      if ok.toBool then runScripts scripts
      else bootFailed (.consoleWrite (ascii "JS-OS: JavaScript boot failed\n"))

section Kmain

variable (loader : BootLoader) (image : Image)

def startScripts : BootProgram :=
  .invoke (.runtime (.start image.colors (ascii "colors.js"))) fun ok =>
    if ok.toBool then
      runScripts [(image.graphics, ascii "graphics.js"), (image.dom, ascii "dom.js"),
        (image.react, ascii "react.js"), (image.boot, ascii "boot.js")]
    else bootFailed (.consoleWrite (ascii "JS-OS: JavaScript boot failed\n"))

def startFont (next : BootProgram) : BootProgram :=
  .request .fontInit fun ok =>
    let ready : BootProgram := .act (.serialWrite (ascii "JS-OS: FreeType ready\n")) next
    if ok.toBool then ready
    else .act
      (.consoleWrite (ascii "JS-OS: FreeType initialization failed; using bitmap text\n")) ready

def startFramebuffer (next : BootProgram) : BootProgram :=
  let ready : BootProgram := .act (.serialWrite (ascii "JS-OS: framebuffer ready\n")) next
  match loader.framebufferCount with
  | some count => if count ≠ 0 then .request .framebufferInit fun _ => ready else ready
  | none => ready

def startHeap (next : BootProgram) : BootProgram :=
  .observe fun b =>
    .act (.heapInit image.kernelHeap kernelHeapSize)
      (if (heapInit b.client.heap image.kernelHeap kernelHeapSize).1 < 0 then
        bootFailed (.serialWrite (ascii "JS-OS: unable to initialize kernel heap\n"))
      else .act (.serialWrite (ascii "JS-OS: heap ready\n"))
        (.request .runConstructors fun _ =>
          .act (.serialWrite (ascii "JS-OS: C++ runtime ready\n")) next))

def startDisplay (next : BootProgram) : BootProgram :=
  let ready : BootProgram := .act (.serialWrite (ascii "JS-OS: display probe complete\n")) next
  match loader.hhdmOffset, loader.executableAddress with
  | some offset, some (physicalBase, virtualBase) =>
    .act (.configureAddressSpace offset physicalBase virtualBase)
      (.request (.svgaInit offset) fun _ => ready)
  | _, _ => ready

def bootEpoch : ℕ :=
  match loader.bootTime with
  | some time => if time > 0 then time.toNat else 0
  | none => 0

def kmain : BootProgram :=
  .act .serialInit
    (.act (.serialWrite (ascii "JS-OS: booting\n"))
      (if !loader.baseRevisionSupported then
        bootFailed (.serialWrite (ascii "JS-OS: unsupported Limine base revision\n"))
      else .act (.platformInit (bootEpoch loader))
        (.act (.serialWrite (ascii "JS-OS: platform ready\n"))
          (startDisplay loader
            (startHeap image (startFramebuffer loader (startFont (startScripts image))))))))

def bootBody : BootFunction → BootProgram
  | .kmain => kmain loader image
  | .platformHalt => .act .disableInterrupts (.jump .haltLoop)
  | .haltLoop => .jump .haltLoop
  | .runtime f => embed (body f)

variable (platformCpuid : Cpuid)

/-- The counter is read once here for both of the reads of `platform_init`. -/
def bootSystem : System BootState BootAction BootState BootRequest Value BootFunction where
  act
    | .runtime a, b => { b with runtime := runtimeSystem.act a b.runtime }
    | .serialWrite text, b => { b with reported := b.reported ++ [text] }
    | .consoleWrite text, b => { b with reported := b.reported ++ [text] }
    | .platformInit bootEpochSeconds, b =>
      { b with clock := platformInit platformCpuid b.counter b.counter bootEpochSeconds }
    | .configureAddressSpace hhdmOffset kernelPhysicalBase kernelVirtualBase, b =>
      { b with
        platform := platformConfigureAddressSpace b.platform hhdmOffset kernelPhysicalBase
          kernelVirtualBase }
    | .heapInit memory size, b =>
      { b with client := ⟨(heapInit b.client.heap memory size).2, b.client.live⟩ }
    | .serialInit, b => b
    | .disableInterrupts, b => b
  view b := b
  body := bootBody loader image

end Kmain

end JsOs.BootModel
