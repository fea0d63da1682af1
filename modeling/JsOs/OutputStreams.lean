import JsOs.FormatTruncation
import JsOs.SerialTransmitter

/-!
# Output streams

The streams of the kernel's libc, all of which are the serial port. A formatted text goes through a
local array of 2048 bytes, whose place and bytes before the call are part of the call.
-/

namespace JsOs.OutputStreams

open MachineWords ByteMemory FormatModel FormatTruncation PortPrograms PortProgram SerialModel
open SerialLine SerialTransmitter

structure File where
  descriptor : ℤ
  deriving DecidableEq, Repr

def stdout : File := ⟨1⟩

def stderr : File := ⟨2⟩

section Functions

/-- The variable `written` of `vfprintf`. -/
def writtenLength (length : ℤ) : ℕ :=
  let written := if length < 0 then 0 else length.toNat
  if written ≥ 2048 then 2048 - 1 else written

variable (m : Memory) (buffer : ℕ)

def vfprintf (_stream : File) (format : List UInt8) (arguments : List Argument) :
    Option (PortIo ℤ) :=
  (vsnprintf m buffer 2048 format arguments).map fun (length, m) => do
    serialWriteN (some (readBytes m buffer (writtenLength length)))
    return length

def fprintf (stream : File) (format : List UInt8) (arguments : List Argument) :
    Option (PortIo ℤ) := vfprintf m buffer stream format arguments

def printf (format : List UInt8) (arguments : List Argument) : Option (PortIo ℤ) :=
  vfprintf m buffer stdout format arguments

def fputc (character : ℤ) (_stream : File) : PortIo ℤ := do
  serialPutc (UInt8.ofInt character)
  return (UInt8.ofInt character).toNat

def putchar (character : ℤ) : PortIo ℤ := fputc character stdout

def fwrite (buffer : Option ℕ) (size count : ℕ) (_stream : File) : PortIo ℤ :=
  match buffer with
  | none => pure 0
  | some buffer =>
    if size = 0 ∨ count = 0 then pure 0
    else if count > sizeMax / size then pure 0
    else do
      serialWriteN (some (readBytes m buffer (mul64 size count)))
      return count

end Functions

/-- A call with the memory at the time. -/
inductive StreamCall where
  | fprintf (m : Memory) (buffer : ℕ) (stream : File) (format : List UInt8)
      (arguments : List Argument)
  | printf (m : Memory) (buffer : ℕ) (format : List UInt8) (arguments : List Argument)
  | fputc (character : ℤ) (stream : File)
  | putchar (character : ℤ)
  | fwrite (m : Memory) (buffer : Option ℕ) (size count : ℕ) (stream : File)

def StreamCall.perform : StreamCall → Option (PortIo ℤ)
  | .fprintf m buffer stream format arguments => OutputStreams.fprintf m buffer stream format arguments
  | .printf m buffer format arguments => OutputStreams.printf m buffer format arguments
  | .fputc character stream => some (OutputStreams.fputc character stream)
  | .putchar character => some (OutputStreams.putchar character)
  | .fwrite m buffer size count stream => some (OutputStreams.fwrite m buffer size count stream)

def performAll : List StreamCall → Option (PortIo (List ℤ))
  | [] => some (pure [])
  | call :: calls =>
    call.perform.bind fun p => (performAll calls).map fun rest => do return (← p) :: (← rest)

/-- What a stream function is for: a text, and a result. -/
structure Output where
  text : List UInt8
  result : ℤ
  deriving DecidableEq, Repr

def Output.program (o : Output) : PortIo ℤ := do
  serialWriteN (some o.text)
  return o.result

/-- The first 2047 bytes of the formatted text, and its length. -/
def formatOutput (format : List UInt8) (arguments : List Argument) : Option Output :=
  (formatText format arguments).bind fun text =>
    if text.length + 1 < 2 ^ 64 then some ⟨text.take 2047, min text.length int32Max⟩ else none

/-- All of the bytes and the number of the elements, or nothing where there are none or too many. -/
def writeOutput (m : Memory) (buffer : Option ℕ) (size count : ℕ) : Output :=
  match buffer with
  | none => ⟨[], 0⟩
  | some buffer =>
    if size * count < 2 ^ 64 ∧ size * count ≠ 0 then ⟨readBytes m buffer (size * count), count⟩
    else ⟨[], 0⟩

def characterOutput (character : ℤ) : Output :=
  ⟨[UInt8.ofInt character], (UInt8.ofInt character).toNat⟩

def StreamCall.output : StreamCall → Option Output
  | .fprintf _ _ _ format arguments => formatOutput format arguments
  | .printf _ _ format arguments => formatOutput format arguments
  | .fputc character _ => some (characterOutput character)
  | .putchar character => some (characterOutput character)
  | .fwrite m buffer size count _ => some (writeOutput m buffer size count)

section Calls

theorem readBytes_writeBytes_prefix (m : Memory) (a : ℕ) (bytes rest : List UInt8) :
    readBytes (writeBytes m a (bytes ++ rest)) a bytes.length = bytes := by
  have hle : bytes.length ≤ (bytes ++ rest).length := by simp
  rw [← readBytes_take hle, readBytes_writeBytes, List.take_left]

/-- As much of the text is written as fits into the local array. -/
theorem writtenLength_min (length : ℕ) :
    writtenLength (min (length : ℤ) int32Max) = min 2047 length := by
  have hnonneg : ¬ min (length : ℤ) int32Max < 0 := by
    rw [int32Max]
    omega
  have hcount : (min (length : ℤ) int32Max).toNat = min length (2 ^ 31 - 1) := by
    rw [int32Max]
    omega
  simp only [writtenLength, if_neg hnonneg, hcount]
  split_ifs <;> omega

theorem vfprintf_eq {format : List UInt8} {arguments : List Argument} {o : Output}
    (h : formatOutput format arguments = some o) (m : Memory) (buffer : ℕ) (stream : File) :
    vfprintf m buffer stream format arguments = some o.program := by
  obtain ⟨text, htext, hguard⟩ := Option.bind_eq_some_iff.mp h
  split_ifs at hguard with hlength
  cases hguard
  have hread := readBytes_writeBytes_prefix m buffer (text.take 2047) [0]
  rw [List.length_take] at hread
  rw [vfprintf, vsnprintf_of_text htext hlength]
  simp only [Option.map_some, writtenLength_min]
  rw [if_neg (by decide), hread]
  rfl

theorem fputc_eq (character : ℤ) (stream : File) :
    fputc character stream = (characterOutput character).program := by
  simp [fputc, characterOutput, Output.program, serialWriteN, forEach]

/-- Neither test of `fwrite` lets the product of size and count wrap. -/
theorem fwrite_eq (m : Memory) (buffer : Option ℕ) (size count : ℕ) (stream : File) :
    fwrite m buffer size count stream = (writeOutput m buffer size count).program := by
  have hnone : (⟨[], 0⟩ : Output).program = pure 0 := by
    simp [Output.program, serialWriteN, forEach]
  cases buffer with
  | none => exact hnone.symm
  | some buffer =>
    unfold fwrite writeOutput
    dsimp only
    by_cases hempty : size = 0 ∨ count = 0
    · have hzero : size * count = 0 := Nat.mul_eq_zero.mpr hempty
      simp [hempty, hzero, hnone]
    · have hpos : size * count ≠ 0 := fun h => hempty (Nat.mul_eq_zero.mp h)
      have hfits : count > sizeMax / size ↔ ¬ size * count < 2 ^ 64 := by
        rw [gt_iff_lt, Nat.div_lt_iff_lt_mul (by omega), Nat.mul_comm count, sizeMax]
        omega
      by_cases hlt : size * count < 2 ^ 64
      · rw [if_neg hempty, if_neg (by rwa [hfits, not_not]), if_pos ⟨hlt, hpos⟩, mul64_eq hlt]
        rfl
      · rw [if_neg hempty, if_pos (hfits.mpr hlt), if_neg fun h => hlt h.1, hnone]

theorem perform_eq {call : StreamCall} {o : Output} (h : call.output = some o) :
    call.perform = some o.program := by
  cases call with
  | fprintf m buffer stream format arguments => exact vfprintf_eq h m buffer stream
  | printf m buffer format arguments => exact vfprintf_eq h m buffer stdout
  | fputc character stream =>
    cases h
    exact congrArg some (fputc_eq character stream)
  | putchar character =>
    cases h
    exact congrArg some (fputc_eq character stdout)
  | fwrite m buffer size count stream =>
    cases h
    exact congrArg some (fwrite_eq m buffer size count stream)

/-- The calls are one text after the other, and give their results. -/
theorem performAll_eq {calls : List StreamCall} {outputs : List Output}
    (h : calls.mapM StreamCall.output = some outputs) :
    performAll calls = some (do
      serialTexts (outputs.map Output.text)
      return outputs.map Output.result) := by
  induction calls generalizing outputs with
  | nil =>
    cases h
    simp [performAll, serialTexts, forEach]
  | cons call calls ih =>
    simp only [List.mapM_cons, Option.bind_eq_bind, Option.bind_eq_some_iff, Option.pure_def,
      Option.some.injEq] at h
    obtain ⟨o, ho, rest, hrest, rfl⟩ := h
    rw [performAll, perform_eq ho, ih hrest]
    simp [Output.program, serialTexts, serialWrite_eq_serialWriteN, forEach]

end Calls

section Delivery

variable {t : Timing}

/-- On a prompt line a list of calls of the stream functions, whatever the streams, arrives as the
texts one after the other: of a formatted text its first 2047 bytes, of `fwrite` all elements or
none. Every call returns the length of its whole text, its character, or the number of elements. -/
theorem streams_delivered (ht : Prompt t) (u : Uart) {calls : List StreamCall}
    {outputs : List Output} (h : calls.mapM StreamCall.output = some outputs) :
    ∃ p, performAll calls = some p ∧
      let initial := (run (uart t) serialInit u).2
      let final := run (uart t) p initial
      final.1 = outputs.map Output.result ∧ ∃ sent : List Frame,
        final.2.frames = initial.wire ++ sent ∧
        newlines (sent.map Frame.byte) = (outputs.map Output.text).flatten := by
  have hsends := serialTexts_sends ht u (outputs.map Output.text)
  refine ⟨_, performAll_eq h, by simp, _, ?_, newlines_standard _⟩
  simpa using hsends.frames

/-- A formatted text, a character and an empty write. -/
theorem streams_delivered_steadily :
    let t : Timing := ⟨fun _ => 1, fun _ => 0, fun _ _ => 0⟩
    ∃ p, performAll [.printf (fun _ => 0) 4096 (ascii "%d\n") [.int 7], .putchar 33,
        .fwrite (fun _ => 0) none 1 5 stderr] = some p ∧
      let initial := (run (uart t) serialInit ⟨0, 0, 0, 0, 0, 0, [], [], [], 0⟩).2
      let final := run (uart t) p initial
      final.1 = [2, 33, 0] ∧ ∃ sent : List Frame, final.2.frames = initial.wire ++ sent ∧
        newlines (sent.map Frame.byte) = ascii "7\n!" := by
  have houtputs : [StreamCall.printf (fun _ => 0) 4096 (ascii "%d\n") [.int 7], .putchar 33,
      .fwrite (fun _ => 0) none 1 5 stderr].mapM StreamCall.output =
        some [⟨ascii "7\n", 2⟩, ⟨ascii "!", 33⟩, ⟨[], 0⟩] := by
    decide +kernel
  exact streams_delivered (fun _ => ⟨0, by decide, Nat.one_pos⟩) _ houtputs

end Delivery

end JsOs.OutputStreams
