import JsOs.FormatModel
import JsOs.OutputSinks

/-!
# Truncated output

The text of a format does not depend on the buffer: the sink keeps what fits of it, and counts all
of it.
-/

namespace JsOs.FormatTruncation

open CountedLoops ByteMemory MachineWords FormatModel OutputSinks

/-- The memory with the bytes written at an address. -/
def writeBytes (m : Memory) (a : ℕ) (bytes : List UInt8) : Memory :=
  fun x => if a ≤ x then (bytes[x - a]?).getD (m x) else m x

/-- The sink after the text. -/
def printed (m : Memory) (buffer size : ℕ) (text : List UInt8) : FormatSink :=
  ⟨writeBytes m buffer (text.take (size - 1)), buffer, size, text.length⟩

/-- The sink holds the text, as long as the length can be counted. -/
def Holds (m : Memory) (buffer size : ℕ) (text : List UInt8) (sink : FormatSink) : Prop :=
  text.length + 1 < 2 ^ 64 → sink = printed m buffer size text

section Bytes

variable {m : Memory} {a : ℕ} {bytes : List UInt8} {c : UInt8}

theorem writeBytes_nil (m : Memory) (a : ℕ) : writeBytes m a [] = m := by
  funext x
  simp [writeBytes]

theorem readBytes_writeBytes : readBytes (writeBytes m a bytes) a bytes.length = bytes := by
  apply List.ext_getElem
  · exact readBytes_length
  · intro i h₁ h₂
    simp [readBytes, writeBytes]

theorem writeBytes_of_notMem {x : ℕ} (h : ¬(a ≤ x ∧ x < a + bytes.length)) :
    writeBytes m a bytes x = m x := by
  unfold writeBytes
  by_cases ha : a ≤ x
  · rw [if_pos ha, List.getElem?_eq_none (by omega), Option.getD_none]
  · rw [if_neg ha]

theorem writeBytes_append (c : UInt8) :
    storeByte (writeBytes m a bytes) (a + bytes.length) c = writeBytes m a (bytes ++ [c]) := by
  funext x
  by_cases hx : x = a + bytes.length
  · rw [hx, storeByte_same]
    simp [writeBytes]
  · rw [storeByte_of_ne hx]
    unfold writeBytes
    by_cases ha : a ≤ x
    · have hne : x - a ≠ bytes.length := by omega
      rw [if_pos ha, if_pos ha]
      by_cases hlt : x - a < bytes.length
      · rw [List.getElem?_append_left hlt]
      · rw [List.getElem?_eq_none (by omega), List.getElem?_eq_none (by simp; omega)]
    · rw [if_neg ha, if_neg ha]

end Bytes

section Sinks

variable {m : Memory} {buffer size : ℕ}

theorem sinkCharacter_appends (sink : FormatSink) (c : UInt8) :
    Appends (Holds m buffer size) [c] sink (sinkCharacter sink c) := by
  intro text hsink hbound
  rw [List.length_append, List.length_singleton] at hbound
  rw [hsink (by omega)]
  have hsum : add64 text.length 1 = text.length + 1 := add64_eq (by omega)
  unfold sinkCharacter printed
  dsimp only
  rw [hsum, List.length_append, List.length_singleton]
  by_cases hroom : text.length + 1 < size
  · have hall : text.take (size - 1) = text := List.take_of_length_le (by omega)
    have hall' : (text ++ [c]).take (size - 1) = text ++ [c] :=
      List.take_of_length_le (by rw [List.length_append, List.length_singleton]; omega)
    simp only [if_pos (And.intro (show size ≠ 0 by omega) hroom), hall, hall', hsum,
      writeBytes_append]
  · have hcut : (text ++ [c]).take (size - 1) = text.take (size - 1) :=
      List.take_append_of_le_length (by omega)
    simp only [if_neg fun h : size ≠ 0 ∧ text.length + 1 < size => hroom h.2, hcut, hsum]

end Sinks

/-! What the printers print needs of a sink no more than that a character comes behind what it
holds. -/

section Printing

variable {H : List UInt8 → FormatSink → Prop}
  (hchar : ∀ sink c, Appends H [c] sink (sinkCharacter sink c))
include hchar

theorem sinkRepeat_appends (sink : FormatSink) (c : UInt8) (count : ℤ) :
    Appends H (List.replicate count.toNat c) sink (sinkRepeat sink c count) := by
  refine forRange_invariant
    (fun i t => Appends H (List.replicate i c) sink t) (Nat.zero_le _)
    (.refl sink) fun i t _ _ h => ?_
  rw [List.replicate_succ']
  exact h.trans (hchar t c)

theorem sinkText_prints {text : List UInt8} {length : ℕ} (h : length ≤ text.length) :
    Prints H (fun sink => sinkText sink text length) (some (text.take length)) := by
  intro sink
  refine forRangeM_invariant
    (fun i t => Appends H (text.take i) sink t) (Nat.zero_le _) (.refl sink)
    fun i t _ hi hA => ?_
  have hget : i < text.length := by omega
  refine ⟨sinkCharacter t text[i], by rw [List.getElem?_eq_getElem hget, Option.map_some], ?_⟩
  rw [List.take_succ_eq_append_getElem hget]
  exact hA.trans (hchar t _)

theorem sinkText_prints_all (text : List UInt8) :
    Prints H (fun sink => sinkText sink text text.length) (some text) := by
  have h : Prints H _ _ := sinkText_prints hchar (le_refl text.length)
  rwa [List.take_length] at h

/-- Padding on one side only. -/
theorem pad_appends (condition : Prop) [Decidable condition] (c : UInt8) (count : ℤ)
    (sink : FormatSink) :
    Appends H (if condition then List.replicate count.toNat c else []) sink
      (if condition then sinkRepeat sink c count else sink) := by
  by_cases h : condition
  · rw [if_pos h, if_pos h]
    exact sinkRepeat_appends hchar sink c count
  · rw [if_neg h, if_neg h]
    exact .refl sink

end Printing

section Texts

/-- What is printed of a string. -/
def stringText (d : Directive) (text : List UInt8) : Option (List UInt8) :=
  (strlen text).bind fun length =>
    (fieldPadding d.width (stringLength d.precision length)).map fun padding =>
      let spaces := List.replicate padding.toNat (chr ' ')
      (if !d.flags.left then spaces else []) ++ text.take (stringLength d.precision length) ++
        if d.flags.left then spaces else []

/-- What is printed of a prefix and digits. -/
def fieldText (d : Directive) (fieldPrefix temporary : List UInt8) : Option (List UInt8) :=
  let zeros := zeroCount d temporary.length
  (fieldPadding d.width (fieldPrefix.length + zeros + temporary.length)).map fun padding =>
    (if !d.flags.left ∧ (!d.flags.zero ∨ d.precision ≥ 0) then
      List.replicate padding.toNat (chr ' ') else []) ++ fieldPrefix ++
    (if !d.flags.left ∧ d.flags.zero ∧ d.precision < 0 then
      List.replicate padding.toNat (chr '0') else []) ++
    List.replicate (toInt32 zeros).toNat (chr '0') ++ temporary ++
    if d.flags.left then List.replicate padding.toNat (chr ' ') else []

def convertedText (d : Directive) : Converted → Option (List UInt8)
  | .string text => stringText d (text.getD (ascii "(null)" ++ [0]))
  | .field fieldPrefix temporary => fieldText d fieldPrefix temporary
  | .other => some (if d.conversion ≠ 0 then [d.conversion] else [])

/-- The text of a format. -/
def formatText (format : List UInt8) (args : List Argument) : Option (List UInt8) :=
  match format with
  | [] => some []
  | c :: format =>
    if c = 0 then some []
    else if c ≠ chr '%' then (formatText format args).map ([c] ++ ·)
    else if format.head? = some (chr '%') then
      (formatText format.tail args).map ([chr '%'] ++ ·)
    else match _h : scanDirective checkInt32 format args with
      | none => none
      | some (d, format, args) =>
        (convert d args).bind fun (converted, args) =>
          (convertedText d converted).bind fun text => (formatText format args).map (text ++ ·)
termination_by format.length
decreasing_by
  · exact Nat.lt_succ_self _
  · rw [List.length_tail, List.length_cons]
    omega
  · exact Nat.lt_succ_of_le (scanDirective_length _h)

end Texts

section Printers

variable {H : List UInt8 → FormatSink → Prop}
  (hchar : ∀ sink c, Appends H [c] sink (sinkCharacter sink c))

theorem strlen_le {text : List UInt8} {length : ℕ} (h : strlen text = some length) :
    length ≤ text.length := by
  induction text generalizing length with
  | nil => cases h
  | cons c text ih =>
    unfold strlen at h
    split_ifs at h
    · cases h
      exact Nat.zero_le _
    · obtain ⟨tail, htail, rfl⟩ := Option.map_eq_some_iff.mp h
      exact Nat.succ_le_succ (ih htail)

theorem stringLength_le (precision : ℤ) (length : ℕ) : stringLength precision length ≤ length := by
  unfold stringLength
  split_ifs <;> omega

include hchar

theorem printString_prints (d : Directive) (text : List UInt8) :
    Prints H (printString d text) (stringText d text) := by
  unfold stringText
  simp only [Option.map_eq_bind]
  apply Prints.select
  intro length hlength
  apply Prints.select
  intro padding _
  have hle := (stringLength_le d.precision length).trans (strlen_le hlength)
  exact ((sinkText_prints hchar hle).after (pad_appends hchar _ _ padding)).before (pad_appends hchar _ _ padding)

theorem printField_prints (d : Directive) (fieldPrefix temporary : List UInt8) :
    Prints H (printField d fieldPrefix temporary)
      (fieldText d fieldPrefix temporary) := by
  unfold fieldText
  simp only [Option.map_eq_bind]
  apply Prints.select
  intro padding _
  simp only [Function.comp_apply, List.append_assoc]
  exact ((sinkText_prints_all hchar fieldPrefix).bind
    ((((sinkText_prints_all hchar temporary).before (pad_appends hchar _ _ padding)).after
      fun sink => sinkRepeat_appends hchar sink _ _).after (pad_appends hchar _ _ padding))).after
    (pad_appends hchar _ _ padding)

theorem printConverted_prints (d : Directive) (converted : Converted) :
    Prints H (printConverted d converted) (convertedText d converted) := by
  cases converted with
  | string text => exact printString_prints hchar d _
  | field fieldPrefix temporary => exact printField_prints hchar d fieldPrefix temporary
  | other =>
    by_cases h : d.conversion ≠ 0
    · unfold convertedText printConverted
      simp only [if_pos h]
      exact .pure fun sink => hchar sink d.conversion
    · unfold convertedText printConverted
      simp only [if_neg h]
      exact .pure .refl

end Printers

section Formats

variable {m : Memory} {buffer size : ℕ}

theorem formatLoop_scan {c : UInt8} {format : List UInt8} {args : List Argument} (hnul : c ≠ 0)
    (hpercent : ¬c ≠ chr '%') (hnext : ¬format.head? = some (chr '%')) (sink : FormatSink) :
    formatLoop (c :: format) args sink =
      (scanDirective checkInt32 format args).bind fun (d, format, args) =>
        (convert d args).bind fun (converted, args) =>
          (printConverted d converted sink).bind fun sink => formatLoop format args sink := by
  rw [formatLoop, if_neg hnul, if_neg hpercent, if_neg hnext]
  split
  · rename_i hscan
    rw [hscan, Option.bind_none]
  · rename_i hscan
    rw [hscan, Option.bind_some]

/-- The loop prints the text of the format. -/
theorem formatLoop_prints {H : List UInt8 → FormatSink → Prop}
    (hchar : ∀ sink c, Appends H [c] sink (sinkCharacter sink c)) (format : List UInt8)
    (args : List Argument) : Prints H (fun sink => formatLoop format args sink)
      (formatText format args) := by
  fun_induction formatText format args with
  | case1 args =>
    simp only [formatLoop]
    exact .pure .refl
  | case2 args format =>
    simp only [formatLoop, if_true]
    exact .pure .refl
  | case3 args c format hnul hplain ih =>
    simp only [formatLoop, if_neg hnul, if_pos hplain]
    exact ih.after fun sink => hchar sink c
  | case4 args c format hnul hpercent hnext ih =>
    simp only [formatLoop, if_neg hnul, if_neg hpercent, if_pos hnext]
    exact ih.after fun sink => hchar sink (chr '%')
  | case5 args c format hnul hpercent hnext hscan =>
    simp only [formatLoop_scan hnul hpercent hnext, hscan]
    exact .undefined
  | case6 args c format hnul hpercent hnext d format' args' hscan ih =>
    simp only [formatLoop_scan hnul hpercent hnext, hscan, Option.bind_some]
    apply Prints.select
    intro converted _
    exact (printConverted_prints hchar d converted.1).bind (ih converted.2)

example : formatText (ascii "%3d%%") [.int 7] = some (ascii "  7%") := by decide +kernel

theorem vsnprintf_of_text {format : List UInt8} {args : List Argument} {text : List UInt8}
    (htext : formatText format args = some text) (hlength : text.length + 1 < 2 ^ 64) :
    vsnprintf m buffer size format args = some (min (text.length : ℤ) int32Max,
      if size = 0 then m else writeBytes m buffer (text.take (size - 1) ++ [0])) := by
  have hprints : Prints (Holds m buffer size) (formatLoop format args) (formatText format args) :=
    formatLoop_prints sinkCharacter_appends format args
  rw [htext] at hprints
  obtain ⟨sink, hsink, happends⟩ := hprints ⟨m, buffer, size, 0⟩
  have hempty : Holds m buffer size [] ⟨m, buffer, size, 0⟩ := fun _ => by
    rw [printed, List.take_nil, writeBytes_nil]
    rfl
  have hheld : sink = printed m buffer size text := happends [] hempty hlength
  have hmin : (if (text.length : ℤ) > int32Max then int32Max else (text.length : ℤ)) =
      min (text.length : ℤ) int32Max := by
    split_ifs <;> omega
  unfold vsnprintf
  rw [hsink, Option.map_some, hheld]
  unfold printed
  dsimp only
  rw [hmin]
  by_cases hsize : size = 0
  · rw [if_neg (not_not.mpr hsize), if_pos hsize, hsize, List.take_zero, writeBytes_nil]
  · have hend : (if text.length < size then text.length else size - 1) =
        (text.take (size - 1)).length := by
      rw [List.length_take]
      split_ifs <;> omega
    rw [if_pos hsize, if_neg hsize, hend, writeBytes_append]

/-- A format and arguments that make no text have no result, whatever the size is. If they make a
text, then for every size the result is the length of the text, at most `INT32_MAX`, the buffer holds
what fits of the text and a NUL, and nothing else is written. -/
theorem vsnprintf_truncates (format : List UInt8) (args : List Argument) :
    (formatText format args = none →
      ∀ m buffer size, vsnprintf m buffer size format args = none) ∧
    ∀ text, formatText format args = some text → text.length + 1 < 2 ^ 64 → ∀ m buffer size,
      ∃ m', vsnprintf m buffer size format args = some (min (text.length : ℤ) int32Max, m') ∧
        (size = 0 → m' = m) ∧
        (0 < size →
          readBytes m' buffer (min text.length (size - 1) + 1) = text.take (size - 1) ++ [0] ∧
          ∀ x, ¬(buffer ≤ x ∧ x ≤ buffer + min text.length (size - 1)) → m' x = m x) := by
  constructor
  · intro htext m buffer size
    have hprints : Prints (Holds m buffer size) (formatLoop format args) (formatText format args) :=
      formatLoop_prints sinkCharacter_appends format args
    rw [htext] at hprints
    unfold vsnprintf
    rw [hprints ⟨m, buffer, size, 0⟩, Option.map_none]
  · intro text htext hlength m buffer size
    refine ⟨_, vsnprintf_of_text htext hlength, fun hsize => if_pos hsize, fun hsize => ?_⟩
    have hcount : (text.take (size - 1) ++ [0]).length = min text.length (size - 1) + 1 := by
      rw [List.length_append, List.length_take, List.length_singleton, Nat.min_comm]
    rw [if_neg (by omega)]
    refine ⟨?_, fun x hx => writeBytes_of_notMem (by rw [hcount]; omega)⟩
    rw [← hcount]
    exact readBytes_writeBytes

/-- A padded number and a percent sign, in full and cut off after two characters. -/
theorem vsnprintf_truncates_padded :
    (∃ m', vsnprintf (fun _ => 1) 4096 8 (ascii "%3d%%") [.int 7] = some (4, m') ∧
      readBytes m' 4096 5 = ascii "  7%" ++ [0] ∧ m' 4101 = 1) ∧
    ∃ m', vsnprintf (fun _ => 1) 4096 3 (ascii "%3d%%") [.int 7] = some (4, m') ∧
      readBytes m' 4096 3 = ascii "  " ++ [0] ∧ m' 4099 = 1 := by
  have htext : formatText (ascii "%3d%%") [.int 7] = some (ascii "  7%") := by decide +kernel
  have h := (vsnprintf_truncates (ascii "%3d%%") [.int 7]).2 _ htext (by decide) (fun _ => 1) 4096
  constructor
  · obtain ⟨m', heq, -, hwritten⟩ := h 8
    obtain ⟨hbytes, hrest⟩ := hwritten (by decide)
    exact ⟨m', heq, hbytes, hrest 4101 (by decide)⟩
  · obtain ⟨m', heq, -, hwritten⟩ := h 3
    obtain ⟨hbytes, hrest⟩ := hwritten (by decide)
    exact ⟨m', heq, hbytes, hrest 4099 (by decide)⟩

end Formats

end JsOs.FormatTruncation
