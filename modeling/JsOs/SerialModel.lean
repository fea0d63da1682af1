import JsOs.MachineWords
import JsOs.PortPrograms

/-!
# The serial port

`serial.c` as programs on the ports of the machine, and the reset through the keyboard controller
that waits in the same way. A string is its bytes without the terminating NUL, a counted text the
bytes that are counted; `none` is `NULL`.
-/

namespace JsOs.SerialModel

open MachineWords PortPrograms

abbrev PortIo := PortProgram UInt16 UInt8

def platformOut8 (port : UInt16) (value : UInt8) : PortIo Unit := .output port value (.ret ())

def com1Port : UInt16 := 0x3f8

def serialInit : PortIo Unit := do
  platformOut8 (com1Port + 1) 0x00
  platformOut8 (com1Port + 3) 0x80
  platformOut8 (com1Port + 0) 0x01
  platformOut8 (com1Port + 1) 0x00
  platformOut8 (com1Port + 3) 0x03
  platformOut8 (com1Port + 2) 0xc7
  platformOut8 (com1Port + 4) 0x0b

/-- The test of the line status in `serial_putc_raw`. -/
def transmitterEmpty (status : UInt8) : Bool := status &&& 0x20 ≠ 0

def spinLimit : ℕ := 1000000

def serialPutcRaw (character : UInt8) : PortIo Unit := do
  if ← poll (com1Port + 5) transmitterEmpty spinLimit then platformOut8 com1Port character

def serialPutc (character : UInt8) : PortIo Unit := do
  if character = chr '\n' then serialPutcRaw (chr '\r')
  serialPutcRaw character

def serialWriteN (text : Option (List UInt8)) : PortIo Unit :=
  match text with
  | none => pure ()
  | some text => forEach serialPutc text

/-- The text is that before the NUL. -/
def serialWrite (text : Option (List UInt8)) : PortIo Unit :=
  match text with
  | none => pure ()
  | some text => forEach serialPutc text

/-- `platform_reboot` up to the halt; the answer of the controller is busy while bit 1 is set. -/
def platformReboot : PortIo Unit := do
  let _ ← poll 0x64 (fun status => status &&& 0x02 = 0) 100000
  platformOut8 0x64 0xfe

end JsOs.SerialModel
