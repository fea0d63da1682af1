import JsOs.MachineWords

/-!
# Strings

Functions of the kernel's libc that read strings. A pointer is the bytes that may be read from it
on; a read behind them is undefined.
-/

namespace JsOs.StringModel

open MachineWords

/-- The bytes before the NUL. -/
structure CString where
  text : List UInt8
  nul_notMem : 0 ∉ text

/-- The bytes that may be read, the NUL among them. -/
def CString.array (a : CString) : List UInt8 := a.text ++ [0]

theorem forall_byte {P : UInt8 → Prop} (h : ∀ k : Fin 256, P (UInt8.ofNat k)) (c : UInt8) : P c := by
  rw [← UInt8.ofNat_toNat (x := c)]
  exact h ⟨c.toNat, c.toNat_lt⟩

section Comparisons

def asciiLower (value : UInt8) : UInt8 :=
  if chr 'A' ≤ value ∧ value ≤ chr 'Z' then value + (chr 'a' - chr 'A') else value

/-- The loop of `strcmp` and `strcasecmp`, and the difference at its end. -/
def compareLoop (fold : UInt8 → UInt8) : List UInt8 → List UInt8 → Option ℤ
  | c :: left, d :: right =>
    if c ≠ 0 ∧ fold c = fold d then compareLoop fold left right
    else some ((fold c).toNat - (fold d).toNat)
  | _, _ => none

def strcmp (left right : List UInt8) : Option ℤ := compareLoop id left right

def strcasecmp (left right : List UInt8) : Option ℤ := compareLoop asciiLower left right

def strncmp : ℕ → List UInt8 → List UInt8 → Option ℤ
  | 0, _, _ => some 0
  | count + 1, a :: left, b :: right =>
    if a ≠ b then some (if a < b then -1 else 1)
    else if a = 0 then some 0
    else strncmp count left right
  | _, _, _ => none

def strncasecmp : ℕ → List UInt8 → List UInt8 → Option ℤ
  | 0, _, _ => some 0
  | count + 1, c :: left, d :: right =>
    if c ≠ 0 ∧ asciiLower c = asciiLower d then strncasecmp count left right
    else some ((asciiLower c).toNat - (asciiLower d).toNat)
  | _, _, _ => none

end Comparisons

section Search

/-- The inner loop of `strstr`, and whether `right` has come to the NUL at its end. -/
def matchesHere : List UInt8 → List UInt8 → Option Bool
  | _, [] => none
  | left, d :: right =>
    if d = 0 then some true
    else match left with
      | [] => none
      | c :: left => if c = d then matchesHere left right else some false

/-- The outer loop of `strstr`; the number counts how often `text` has been incremented. -/
def searchFrom (needle : List UInt8) : ℕ → List UInt8 → Option (Option ℕ)
  | _, [] => none
  | i, c :: text =>
    if c = 0 then some none
    else (matchesHere (c :: text) needle).bind fun found =>
      if found then some (some i) else searchFrom needle (i + 1) text

/-- The offset of the returned pointer in `text`, or `none` for `NULL`. -/
def strstr (text needle : List UInt8) : Option (Option ℕ) :=
  needle.head?.bind fun d => if d = 0 then some (some 0) else searchFrom needle 0 text

end Search

section Integers

def isDigit (c : UInt8) : Bool := chr '0' ≤ c ∧ c ≤ chr '9'

/-- Form feed and vertical tab have no escape sequence here. -/
def isSpace (c : UInt8) : Bool := c ∈ ascii " \t\n\r" ∨ c = 0x0c ∨ c = 0x0b

/-- The loop of `atoi`. -/
def readDigits : ℤ → List UInt8 → Option ℤ
  | _, [] => none
  | value, c :: text =>
    if chr '0' ≤ c ∧ c ≤ chr '9' then
      (checkInt32 (value * 10)).bind fun value =>
        (checkInt32 (value + (c.toNat - 48))).bind fun value => readDigits value text
    else some value

/-- A null pointer is `none`. -/
def atoi (text : Option (List UInt8)) : Option ℤ :=
  match text with
  | none => some 0
  | some text =>
    text.head?.bind fun c =>
      let negative := c = chr '-'
      let text := if c = chr '-' ∨ c = chr '+' then text.tail else text
      (readDigits 0 text).bind fun value => if negative then checkInt32 (-value) else some value

end Integers

end JsOs.StringModel
