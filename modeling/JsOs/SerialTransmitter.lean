import JsOs.SerialLine

/-!
# A transmitter with a queue

A reference model of the transmitting half of a 16550, as its data sheet has it: registers behind
seven ports, the first two of which are the divisor while bit 7 of the line control is set, and a
queue from which bytes leave in their own time. How many leave before each access is a parameter.
-/

namespace JsOs.SerialTransmitter

open MachineWords PortPrograms PortProgram SerialModel SerialLine

/-- A byte on the wire, with the divisor and the line format it was sent with. -/
structure Frame where
  byte : UInt8
  divisor : ℕ
  format : UInt8
  deriving DecidableEq, Repr

structure Uart where
  divisorLow : UInt8
  divisorHigh : UInt8
  interruptEnable : UInt8
  fifoControl : UInt8
  lineControl : UInt8
  modemControl : UInt8
  pending : List UInt8
  wire : List Frame
  /-- Bytes that were written while the queue was full. -/
  lost : List UInt8
  accesses : ℕ

/-- By the number of the access: how many bytes have left since the one before, the other bits of
the line status, and what reads of other ports answer. -/
structure Timing where
  pace : ℕ → ℕ
  status : ℕ → UInt8
  answer : ℕ → UInt16 → UInt8

namespace Uart

variable (u : Uart)

def divisorAccess : Bool := u.lineControl &&& 0x80 ≠ 0

def loopback : Bool := u.modemControl &&& 0x10 ≠ 0

def capacity : ℕ := if u.fifoControl &&& 0x01 ≠ 0 then 16 else 1

def frame (c : UInt8) : Frame :=
  ⟨c, u.divisorLow.toNat + 256 * u.divisorHigh.toNat, u.lineControl &&& 0x7f⟩

/-- What has been sent, and what is still to be sent. -/
def frames : List Frame := u.wire ++ u.pending.map u.frame

/-- Time passes up to the next access. -/
def elapse (t : Timing) : Uart :=
  let count := t.pace u.accesses
  { u with
    wire := u.wire ++ if u.loopback then [] else (u.pending.take count).map u.frame
    pending := u.pending.drop count
    accesses := u.accesses + 1 }

def setData (c : UInt8) : Uart :=
  if u.divisorAccess then { u with divisorLow := c }
  else if u.pending.length < u.capacity then { u with pending := u.pending ++ [c] }
  else { u with lost := u.lost ++ [c] }

def setInterruptEnable (c : UInt8) : Uart :=
  if u.divisorAccess then { u with divisorHigh := c } else { u with interruptEnable := c }

/-- Bit 2 empties the queue, and so does a change of bit 0. -/
def setFifoControl (c : UInt8) : Uart :=
  { u with
    fifoControl := c
    pending := if c &&& 0x04 ≠ 0 ∨ c &&& 0x01 ≠ u.fifoControl &&& 0x01 then [] else u.pending }

def output (port : UInt16) (c : UInt8) : Uart :=
  if port = com1Port then u.setData c
  else if port = com1Port + 1 then u.setInterruptEnable c
  else if port = com1Port + 2 then u.setFifoControl c
  else if port = com1Port + 3 then { u with lineControl := c }
  else if port = com1Port + 4 then { u with modemControl := c }
  else u

/-- Bit 5 of the line status says that the queue is empty. -/
def lineStatus (t : Timing) : UInt8 :=
  if u.pending = [] then t.status u.accesses ||| 0x20 else t.status u.accesses &&& 0xdf

end Uart

def uart (t : Timing) : Device UInt16 UInt8 Uart where
  input port u :=
    let u := u.elapse t
    (if port = com1Port + 5 then u.lineStatus t else t.answer u.accesses port, u)
  output port c u := (u.elapse t).output port c

/-- The settings of `serial_init`. -/
structure Ready (u : Uart) : Prop where
  lineControl : u.lineControl = 0x03
  divisorLow : u.divisorLow = 0x01
  divisorHigh : u.divisorHigh = 0x00
  fifoControl : u.fifoControl = 0xc7
  modemControl : u.modemControl = 0x0b
  pending : u.pending.length ≤ 1

/-- A byte at divisor 1, with eight bits, no parity and one stop bit. -/
def standard (c : UInt8) : Frame := ⟨c, 1, 0x03⟩

variable {t : Timing} {u : Uart}

theorem Ready.frame (h : Ready u) : u.frame = standard := by
  funext c
  have hformat : (0x03 : UInt8) &&& 0x7f = 0x03 := rfl
  simp [Uart.frame, standard, h.lineControl, h.divisorLow, h.divisorHigh, hformat]

theorem Ready.divisorAccess (h : Ready u) : u.divisorAccess = false := by
  rw [Uart.divisorAccess, h.lineControl]
  rfl

theorem Ready.loopback (h : Ready u) : u.loopback = false := by
  rw [Uart.loopback, h.modemControl]
  rfl

theorem capacity_pos (u : Uart) : 0 < u.capacity := by
  unfold Uart.capacity
  split_ifs <;> omega

theorem Ready.elapse (h : Ready u) : Ready (u.elapse t) :=
  ⟨h.lineControl, h.divisorLow, h.divisorHigh, h.fifoControl, h.modemControl, by
    simpa [Uart.elapse] using Nat.le_trans (Nat.sub_le ..) h.pending⟩

/-- What leaves the queue is on the wire. -/
theorem Ready.frames_elapse (h : Ready u) : (u.elapse t).frames = u.frames := by
  have hframe := (h.elapse (t := t)).frame.trans h.frame.symm
  rw [Uart.frames, hframe, Uart.frames]
  simp [Uart.elapse, h.loopback]

theorem transmitterEmpty_lineStatus : transmitterEmpty (u.lineStatus t) = true ↔ u.pending = [] := by
  by_cases h : u.pending = []
  · have hset : (t.status u.accesses ||| 0x20) &&& 0x20 = 0x20 := by
      apply UInt8.toBitVec_inj.1
      ext i hi
      simp
      grind
    simp [Uart.lineStatus, transmitterEmpty, h, hset]
  · have hclear : (t.status u.accesses &&& 0xdf) &&& 0x20 = 0 := by
      rw [UInt8.and_assoc]
      exact UInt8.and_zero
    simp [Uart.lineStatus, transmitterEmpty, h, hclear]

/-- Bytes of a driver that has set the transmitter up: `sent` frames stand behind those of before,
and no byte has been lost but those of before. -/
structure Sends (before : List Frame) (lost : List UInt8) (sent : List UInt8) (u : Uart) : Prop where
  ready : Ready u
  frames : u.frames = before ++ sent.map standard
  lost : u.lost = lost

section Driver

variable {before : List Frame} {lost sent : List UInt8}

theorem Sends.elapse (h : Sends before lost sent u) : Sends before lost sent (u.elapse t) :=
  ⟨h.ready.elapse, h.ready.frames_elapse.trans h.frames, h.lost⟩

/-- A byte that comes while the queue is empty is sent. -/
theorem Sends.output (h : Sends before lost sent u) (hempty : u.pending = []) (c : UInt8) :
    Sends before lost (sent ++ [c]) (run (uart t) (platformOut8 com1Port c) u).2 := by
  have hlater := h.elapse (t := t)
  have hstill : (u.elapse t).pending = [] := by simp [Uart.elapse, hempty]
  have houtput : (run (uart t) (platformOut8 com1Port c) u).2 =
      { u.elapse t with pending := [c] } := by
    have hroom : 0 < (u.elapse t).capacity := capacity_pos _
    simp [platformOut8, run, uart, Uart.output, Uart.setData, hlater.ready.divisorAccess, hstill,
      hroom]
  rw [houtput]
  have hready : Ready { u.elapse t with pending := [c] } :=
    ⟨hlater.ready.lineControl, hlater.ready.divisorLow, hlater.ready.divisorHigh,
      hlater.ready.fifoControl, hlater.ready.modemControl, le_refl 1⟩
  have hwire : (u.elapse t).wire = before ++ sent.map standard := by
    rw [← hlater.frames, Uart.frames, hstill, List.map_nil, List.append_nil]
  refine ⟨hready, ?_, hlater.lost⟩
  rw [Uart.frames, hready.frame]
  simp [hwire]

/-- However long the driver waits, only time passes, and it stops on an idle transmitter. -/
theorem Sends.waits (h : Sends before lost sent u) (n : ℕ) :
    Sends before lost sent (run (uart t) (poll (com1Port + 5) transmitterEmpty n) u).2 ∧
      ((run (uart t) (poll (com1Port + 5) transmitterEmpty n) u).1 = true →
        (run (uart t) (poll (com1Port + 5) transmitterEmpty n) u).2.pending = []) := by
  refine poll_invariant (Sends before lost sent) (fun u => u.pending = []) (fun s hs => ?_) n h
  exact ⟨hs.elapse, fun h => by simpa [uart, transmitterEmpty_lineStatus] using h⟩

/-- One byte of the driver under any timing. -/
theorem Sends.putc (h : Sends before lost sent u) (c : UInt8) :
    ∃ sent', sent'.Sublist [c] ∧
      Sends before lost (sent ++ sent') (run (uart t) (serialPutcRaw c) u).2 := by
  obtain ⟨hsends, hpending⟩ := h.waits (t := t) spinLimit
  cases hresult : (run (uart t) (poll (com1Port + 5) transmitterEmpty spinLimit) u).1 with
  | false => exact ⟨[], List.nil_sublist _, by simpa [serialPutcRaw, hresult] using hsends⟩
  | true =>
    refine ⟨[c], List.Sublist.refl _, ?_⟩
    simpa [serialPutcRaw, hresult] using hsends.output (hpending hresult) c

/-- The queue moves on in every million of accesses. -/
def Prompt (t : Timing) : Prop := ∀ n, ∃ k < spinLimit, 0 < t.pace (n + k)

/-- A wait for a queue of at most one byte ends in time. -/
theorem poll_prompt (ht : Prompt t) (h : Ready u) :
    (run (uart t) (poll (com1Port + 5) transmitterEmpty spinLimit) u).1 = true := by
  obtain ⟨k, hk, hpace⟩ := ht u.accesses
  refine poll_succeeds (fun k (u : Uart) => u.pending.length ≤ 1 ∧ 0 < t.pace (u.accesses + k)) ?_
    hk ⟨h.pending, hpace⟩
  rintro k u ⟨hlength, hpace⟩
  have hempty : transmitterEmpty ((uart t).input (com1Port + 5) u).1 = true ↔
      (u.elapse t).pending = [] := by
    simp [uart, transmitterEmpty_lineStatus]
  cases k with
  | zero =>
    left
    rw [hempty]
    simp only [Nat.add_zero] at hpace
    simp [Uart.elapse]
    omega
  | succ k =>
    refine .inr ⟨k, Nat.lt_succ_self k, ?_, ?_⟩
    · simp [uart, Uart.elapse]
      omega
    · simpa [uart, Uart.elapse, Nat.add_assoc, Nat.add_comm 1] using hpace

/-- One byte of the driver to a prompt transmitter. -/
theorem Sends.putc_prompt (ht : Prompt t) (h : Sends before lost sent u) (c : UInt8) :
    Sends before lost (sent ++ [c]) (run (uart t) (serialPutcRaw c) u).2 := by
  obtain ⟨hsends, hpending⟩ := h.waits (t := t) spinLimit
  have hresult := poll_prompt ht h.ready
  simpa [serialPutcRaw, hresult] using hsends.output (hpending hresult) c

@[simp] theorem run_out (port : UInt16) (c : UInt8) :
    run (uart t) (platformOut8 port c) u = ((), (u.elapse t).output port c) := rfl

/-- From any state, the initialization leaves an empty queue, and loses nothing. -/
theorem serialInit_ready (t : Timing) (u : Uart) :
    Ready (run (uart t) serialInit u).2 ∧ (run (uart t) serialInit u).2.pending = [] ∧
      (run (uart t) serialInit u).2.lost = u.lost := by
  have hinterrupt (u : Uart) (c : UInt8) :
      u.output (com1Port + 1) c = u.setInterruptEnable c := rfl
  have hfifo (u : Uart) (c : UInt8) : u.output (com1Port + 2) c = u.setFifoControl c := rfl
  have hline (u : Uart) (c : UInt8) : u.output (com1Port + 3) c = { u with lineControl := c } := rfl
  have hmodem (u : Uart) (c : UInt8) : u.output (com1Port + 4) c = { u with modemControl := c } :=
    rfl
  have hdata (u : Uart) (c : UInt8) : u.output com1Port c = u.setData c := rfl
  have hlost : ((u.elapse t).setInterruptEnable 0).lost = u.lost := by
    unfold Uart.setInterruptEnable
    split_ifs <;> rfl
  -- the divisor is reached from the third access on, whatever the first one did
  have haccess (u : Uart) (h : u.lineControl = 0x80) : u.divisorAccess = true := by
    rw [Uart.divisorAccess, h]
    rfl
  simp only [serialInit, run_bind, run_out, hinterrupt, hfifo, hline, hmodem, hdata, add_zero]
  generalize (u.elapse t).setInterruptEnable 0 = v at hlost
  simp only [Uart.setData, Uart.setInterruptEnable, Uart.elapse, haccess, if_true]
  have hempties : (0xc7 : UInt8) &&& 0x04 ≠ 0 := by decide
  simp only [Uart.setFifoControl, hempties, true_or, ne_eq, not_false_eq_true, if_true]
  exact ⟨⟨rfl, rfl, rfl, rfl, rfl, by simp⟩, by simp, hlost⟩

end Driver

section Texts

/-- The texts, one call of `serial_write` for each. -/
def serialTexts (texts : List (List UInt8)) : PortIo Unit :=
  forEach (fun text => serialWrite (some text)) texts

theorem serialTexts_eq (texts : List (List UInt8)) :
    serialTexts texts = forEach serialPutcRaw (crlf texts.flatten) := by
  rw [crlf_flatten]
  exact forEach_flatMap serialWrite_eq texts

/-- After the initialization nothing is in the queue. -/
theorem serialInit_sends (t : Timing) (u : Uart) :
    Sends (run (uart t) serialInit u).2.wire u.lost [] (run (uart t) serialInit u).2 := by
  obtain ⟨hready, hpending, hlost⟩ := serialInit_ready t u
  exact ⟨hready, by simp [Uart.frames, hpending], hlost⟩

theorem serialTexts_sends {t : Timing} (ht : Prompt t) (u : Uart) (texts : List (List UInt8)) :
    Sends (run (uart t) serialInit u).2.wire u.lost (crlf texts.flatten)
      (run (uart t) (serialTexts texts) (run (uart t) serialInit u).2).2 := by
  rw [serialTexts_eq]
  exact forEach_invariant (Sends _ u.lost) (fun offered c u' hsends => hsends.putc_prompt ht c) _
    (serialInit_sends t u)

/-- The reader at the other end of a line that has sent a text. -/
theorem newlines_standard (text : List UInt8) :
    newlines (((crlf text).map standard).map Frame.byte) = text := by
  have hbytes : Frame.byte ∘ standard = id := rfl
  rw [List.map_map, hbytes, List.map_id, newlines_crlf]

/-- Under any timing no byte is lost in the queue, and what is sent is part of the texts, in their
order and with newlines preceded by carriage returns. -/
theorem serialTexts_safe (t : Timing) (u : Uart) (texts : List (List UInt8)) :
    let initial := (run (uart t) serialInit u).2
    let final := (run (uart t) (serialTexts texts) initial).2
    final.lost = u.lost ∧ ∃ sent : List UInt8, sent.Sublist (crlf texts.flatten) ∧
      final.frames = initial.wire ++ sent.map standard := by
  intro initial final
  obtain ⟨sent, hsublist, hsends⟩ : ∃ sent, sent.Sublist (crlf texts.flatten) ∧
      Sends initial.wire u.lost sent final := by
    unfold final
    rw [serialTexts_eq]
    refine forEach_invariant
      (fun offered u' => ∃ sent, sent.Sublist offered ∧ Sends initial.wire u.lost sent u') ?_ _
      ⟨[], .slnil, serialInit_sends t u⟩
    rintro offered c u' ⟨sent, hsublist, hsends⟩
    obtain ⟨sent', hone, hsends'⟩ := hsends.putc (t := t) c
    exact ⟨sent ++ sent', hsublist.append hone, hsends'⟩
  exact ⟨hsends.lost, sent, hsublist, hsends.frames⟩

/-- A prompt transmitter sends all of the texts at divisor 1 with eight bits, no parity and one stop
bit, and a reader that takes a carriage return and a newline for one newline reads the texts. -/
theorem serialTexts_recovered {t : Timing} (ht : Prompt t) (u : Uart) (texts : List (List UInt8)) :
    let initial := (run (uart t) serialInit u).2
    let final := (run (uart t) (serialTexts texts) initial).2
    ∃ sent : List Frame, final.frames = initial.wire ++ sent ∧
      (∀ frame ∈ sent, frame.divisor = 1 ∧ frame.format = 0x03) ∧
      newlines (sent.map Frame.byte) = texts.flatten ∧ final.pending.length ≤ 1 := by
  intro initial final
  have hsends : Sends initial.wire u.lost (crlf texts.flatten) final := serialTexts_sends ht u texts
  refine ⟨(crlf texts.flatten).map standard, hsends.frames, ?_, newlines_standard _,
    hsends.ready.pending⟩
  intro frame hframe
  obtain ⟨c, -, rfl⟩ := List.mem_map.mp hframe
  exact ⟨rfl, rfl⟩

/-- A line on which one byte leaves before each access. -/
theorem serialTexts_recovered_steadily :
    let t : Timing := ⟨fun _ => 1, fun _ => 0, fun _ _ => 0⟩
    let initial := (run (uart t) serialInit ⟨0, 0, 0, 0, 0x80, 0x10, [7], [], [], 0⟩).2
    let final := (run (uart t) (serialTexts [ascii "JS-OS: ", ascii "booting\n"]) initial).2
    ∃ sent : List Frame, final.frames = initial.wire ++ sent ∧
      (∀ frame ∈ sent, frame.divisor = 1 ∧ frame.format = 0x03) ∧
      newlines (sent.map Frame.byte) = ascii "JS-OS: booting\n" ∧ final.pending.length ≤ 1 :=
  serialTexts_recovered (t := ⟨fun _ => 1, fun _ => 0, fun _ _ => 0⟩)
    (fun _ => ⟨0, by decide, Nat.one_pos⟩) ⟨0, 0, 0, 0, 0x80, 0x10, [7], [], [], 0⟩
    [ascii "JS-OS: ", ascii "booting\n"]

end Texts

end JsOs.SerialTransmitter
