import JsOs.SerialModel

/-!
# What goes down the serial line

For any device at the ports: the driver writes a byte only when it has just read that the
transmitter is empty, and gives a byte up only after a million answers that it is not. For a
transmitter with a queue, this is enough for every byte to leave, in order, under any timing.
-/

namespace JsOs.SerialLine

open MachineWords PortPrograms PortProgram SerialModel

section LineEnds

/-- The bytes for one character: a newline is preceded by a carriage return. -/
def lineBytes (c : UInt8) : List UInt8 := if c = chr '\n' then [chr '\r', chr '\n'] else [c]

def crlf (text : List UInt8) : List UInt8 := text.flatMap lineBytes

/-- The reader at the other end: a carriage return and a newline are one newline. -/
def newlines : List UInt8 → List UInt8
  | c :: d :: rest =>
    if c = chr '\r' ∧ d = chr '\n' then chr '\n' :: newlines rest else c :: newlines (d :: rest)
  | rest => rest

theorem crlf_append (text text' : List UInt8) : crlf (text ++ text') = crlf text ++ crlf text' :=
  List.flatMap_append

theorem crlf_flatten (texts : List (List UInt8)) : crlf texts.flatten = texts.flatMap crlf := by
  induction texts with
  | nil => rfl
  | cons text texts ih => rw [List.flatten_cons, crlf_append, ih, List.flatMap_cons]

/-- No line begins with a newline that stands alone. -/
theorem crlf_head (text : List UInt8) : (crlf text).head? ≠ some (chr '\n') := by
  cases text with
  | nil => simp [crlf]
  | cons c text =>
    by_cases hc : c = chr '\n'
    · simp [crlf, lineBytes, hc]
      decide
    · simp [crlf, lineBytes, hc]

theorem newlines_cons {c : UInt8} {rest : List UInt8} (h : rest.head? ≠ some (chr '\n')) :
    newlines (c :: rest) = c :: newlines rest := by
  cases rest with
  | nil => simp [newlines]
  | cons d rest =>
    have hd : d ≠ chr '\n' := by simpa using h
    simp [newlines, hd]

/-- The reader recovers every text. -/
theorem newlines_crlf (text : List UInt8) : newlines (crlf text) = text := by
  induction text with
  | nil => rfl
  | cons c text ih =>
    by_cases hc : c = chr '\n'
    · have hcrlf : crlf (c :: text) = chr '\r' :: chr '\n' :: crlf text := by
        simp [crlf, lineBytes, hc]
      rw [hcrlf, newlines, if_pos ⟨rfl, rfl⟩, ih, hc]
    · have hcrlf : crlf (c :: text) = c :: crlf text := by simp [crlf, lineBytes, hc]
      rw [hcrlf, newlines_cons (crlf_head text), ih]

end LineEnds

section Driver

theorem serialPutc_eq (c : UInt8) : serialPutc c = forEach serialPutcRaw (lineBytes c) := by
  by_cases hc : c = chr '\n' <;> simp [serialPutc, lineBytes, hc, forEach]

/-- Newlines apart, a text is written byte by byte. -/
theorem serialWriteN_eq (text : List UInt8) :
    serialWriteN (some text) = forEach serialPutcRaw (crlf text) :=
  forEach_flatMap serialPutc_eq text

/-- Both loops hand the same bytes to the driver. -/
theorem serialWrite_eq_serialWriteN (text : Option (List UInt8)) :
    serialWrite text = serialWriteN text := by
  cases text with
  | none => rfl
  | some text => rfl

theorem serialWrite_eq (text : List UInt8) :
    serialWrite (some text) = forEach serialPutcRaw (crlf text) := by
  rw [serialWrite_eq_serialWriteN, serialWriteN_eq]

abbrev PortAccess := Access UInt16 UInt8

abbrev statusRead (status : UInt8) : PortAccess := .input (com1Port + 5) status

/-- The bytes that a list of accesses puts into the transmitter. -/
def written (log : List PortAccess) : List UInt8 :=
  log.filterMap fun
    | .output port c => if port = com1Port then some c else none
    | .input _ _ => none

/-- What becomes of bytes that are offered to the driver: it sends one as soon as it reads that the
transmitter is empty, and gives it up after so many answers that it is not. -/
inductive Transmits : List UInt8 → List UInt8 → List PortAccess → Prop
  | nil : Transmits [] [] []
  | sent {c status : UInt8} {busy offered sent : List UInt8} {log : List PortAccess}
      (hbusy : ∀ v ∈ busy, transmitterEmpty v = false) (hlength : busy.length < spinLimit)
      (hempty : transmitterEmpty status = true) (rest : Transmits offered sent log) :
      Transmits (c :: offered) (c :: sent)
        (busy.map statusRead ++ statusRead status :: .output com1Port c :: log)
  | givenUp {c : UInt8} {busy offered sent : List UInt8} {log : List PortAccess}
      (hbusy : ∀ v ∈ busy, transmitterEmpty v = false) (hlength : busy.length = spinLimit)
      (rest : Transmits offered sent log) :
      Transmits (c :: offered) sent (busy.map statusRead ++ log)

namespace Transmits

variable {offered sent : List UInt8} {log : List PortAccess}

theorem sublist (h : Transmits offered sent log) : sent.Sublist offered := by
  induction h with
  | nil => exact .slnil
  | sent _ _ _ _ ih => exact ih.cons_cons _
  | givenUp _ _ _ ih => exact ih.cons _

theorem written_busy (busy : List UInt8) (log : List PortAccess) :
    written (busy.map statusRead ++ log) = written log := by
  simp [written, List.filterMap_append, List.filterMap_map]

theorem written_eq (h : Transmits offered sent log) : written log = sent := by
  induction h with
  | nil => rfl
  | sent _ _ _ _ ih =>
    rw [written_busy]
    simp [written, ← ih]
  | givenUp _ _ _ ih => rw [written_busy, ih]

theorem length_le (h : Transmits offered sent log) :
    log.length ≤ (spinLimit + 1) * offered.length := by
  induction h with
  | nil => exact Nat.zero_le _
  | sent _ hlength _ _ ih =>
    simp only [List.length_append, List.length_map, List.length_cons, Nat.mul_succ]
    omega
  | givenUp _ hlength _ ih =>
    simp only [List.length_append, List.length_map, List.length_cons, Nat.mul_succ]
    omega

theorem getElem?_after (busy : List UInt8) (log : List PortAccess) (k : ℕ) :
    (busy.map statusRead ++ log)[busy.length + k]? = log[k]? := by
  rw [List.getElem?_append_right (by simp)]
  simp

/-- A write is not among the answers to a wait. -/
theorem getElem?_busy {busy : List UInt8} {i : ℕ} {port : UInt16} {c : UInt8}
    (hi : (busy.map statusRead ++ log)[i]? = some (.output port c)) :
    ∃ k, i = busy.length + k ∧ log[k]? = some (.output port c) := by
  have hle : busy.length ≤ i := by
    by_contra hlt
    rw [List.getElem?_append_left (by simpa using hlt)] at hi
    simp at hi
  obtain ⟨k, rfl⟩ := Nat.exists_eq_add_of_le hle
  exact ⟨k, rfl, by rwa [getElem?_after] at hi⟩

/-- In front of every write stands a status that found the transmitter empty. -/
theorem guarded (h : Transmits offered sent log) {i : ℕ} {port : UInt16} {c : UInt8}
    (hi : log[i]? = some (.output port c)) : port = com1Port ∧ ∃ j status, i = j + 1 ∧
      log[j]? = some (statusRead status) ∧ transmitterEmpty status = true := by
  induction h generalizing i with
  | nil => simp at hi
  | @sent c' status busy offered sent log _ _ hempty _ ih =>
    obtain ⟨k, rfl, hk⟩ := getElem?_busy hi
    match k with
    | 0 => simp at hk
    | 1 =>
      obtain ⟨rfl, rfl⟩ : com1Port = port ∧ c' = c := by simpa using hk
      exact ⟨rfl, busy.length, status, rfl, by simp, hempty⟩
    | k + 2 =>
      obtain ⟨hport, j, status', hj, hread, hempty'⟩ := ih (i := k) (by simpa using hk)
      refine ⟨hport, busy.length + (j + 2), status', by omega, ?_, hempty'⟩
      rw [getElem?_after]
      simpa using hread
  | @givenUp c' busy offered sent log _ _ _ ih =>
    obtain ⟨k, rfl, hk⟩ := getElem?_busy hi
    obtain ⟨hport, j, status, hj, hread, hempty⟩ := ih hk
    exact ⟨hport, busy.length + j, status, by omega, by rwa [getElem?_after], hempty⟩

/-- A byte is lost only to a transmitter that is not ready for a million answers in a row. -/
theorem all_sent (h : Transmits offered sent log)
    (hready : ∀ busy : List UInt8, busy.length = spinLimit →
      (∀ v ∈ busy, transmitterEmpty v = false) → ¬ busy.map statusRead <:+: log) :
    sent = offered := by
  induction h with
  | nil => rfl
  | @sent c status busy offered sent log _ _ _ _ ih =>
    refine congrArg _ (ih fun late hlength hlate hinfix => hready late hlength hlate ?_)
    exact hinfix.trans ⟨busy.map statusRead ++ [statusRead status, .output com1Port c], [], by simp⟩
  | @givenUp c busy offered sent log hbusy hlength _ _ =>
    exact absurd ⟨[], log, by simp⟩ (hready busy hlength hbusy)

end Transmits

variable {σ : Type*} (D : Device UInt16 UInt8 σ)

theorem forEach_transmits (offered : List UInt8) (s : σ) :
    ∃ sent, Transmits offered sent (accesses D (forEach serialPutcRaw offered) s) := by
  refine forEach_accesses (fun offered log => ∃ sent, Transmits offered sent log) ⟨[], .nil⟩ ?_
    offered s
  rintro c offered s log ⟨sent, hrest⟩
  obtain ⟨busy, hbusy, ⟨hresult, hlength, hlog⟩ | ⟨hresult, hlength, status, hempty, hlog⟩⟩ :=
    poll_accesses D (com1Port + 5) transmitterEmpty spinLimit s
  · refine ⟨sent, ?_⟩
    simpa [serialPutcRaw, hresult, hlog] using Transmits.givenUp (c := c) hbusy hlength hrest
  · refine ⟨c :: sent, ?_⟩
    have h := Transmits.sent (c := c) hbusy hlength hempty hrest
    simpa [serialPutcRaw, hresult, hlog, platformOut8, accesses] using h

/-- Whatever the device does: a write goes to the data port and directly follows a status that
found the transmitter empty; what is written is part of the text, in its order, newlines preceded by
carriage returns; and it is all of it, unless a million answers in a row found the transmitter busy.
-/
theorem serialWriteN_polled (text : List UInt8) (s : σ) :
    (∀ i port c, (accesses D (serialWriteN (some text)) s)[i]? = some (.output port c) →
      port = com1Port ∧ ∃ j status, i = j + 1 ∧
        (accesses D (serialWriteN (some text)) s)[j]? = some (statusRead status) ∧
        transmitterEmpty status = true) ∧
    (written (accesses D (serialWriteN (some text)) s)).Sublist (crlf text) ∧
    (accesses D (serialWriteN (some text)) s).length ≤ 1000001 * (crlf text).length ∧
    ((∀ busy : List UInt8, busy.length = 1000000 → (∀ v ∈ busy, transmitterEmpty v = false) →
        ¬ busy.map statusRead <:+: accesses D (serialWriteN (some text)) s) →
      written (accesses D (serialWriteN (some text)) s) = crlf text) := by
  rw [serialWriteN_eq]
  obtain ⟨sent, h⟩ := forEach_transmits D (crlf text) s
  refine ⟨fun i port c hi => h.guarded hi, ?_, h.length_le, fun hready => ?_⟩
  · rw [h.written_eq]
    exact h.sublist
  · rw [h.written_eq]
    exact h.all_sent hready

/-- The reset is asked for whatever the keyboard controller answers, once, and after at most a
hundred thousand answers. -/
theorem platformReboot_resets (s : σ) : ∃ answers : List UInt8, answers.length ≤ 100000 ∧
    accesses D platformReboot s = answers.map (.input 0x64) ++ [.output 0x64 0xfe] := by
  obtain ⟨busy, -, ⟨-, hlength, hlog⟩ | ⟨-, hlength, status, -, hlog⟩⟩ :=
    poll_accesses D 0x64 (fun status => status &&& 0x02 = 0) 100000 s
  · exact ⟨busy, hlength.le, by simp [platformReboot, hlog, platformOut8, accesses]⟩
  · refine ⟨busy ++ [status], ?_, by simp [platformReboot, hlog, platformOut8, accesses]⟩
    rw [List.length_append, List.length_singleton]
    exact hlength

end Driver

end JsOs.SerialLine
