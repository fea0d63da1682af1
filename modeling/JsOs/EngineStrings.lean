import JsOs.MachineWords

/-!
# Texts of the script engine

How the engine makes a string of a text of bytes, and a text of a string: `unicode_to_utf8` and
`unicode_from_utf8` of `cutils.c`, `JS_NewStringLen` and `JS_ToCString` of `quickjs.c`. An exception,
a null pointer and an `int` that overflows are all no result.
-/

namespace JsOs.EngineStrings

open MachineWords

/-- The last six bits, as they stand in every byte but the first. -/
def continuation (c : ℕ) : UInt8 := UInt8.ofNat (c &&& 0x3f ||| 0x80)

def unicodeToUtf8 (c : ℕ) : List UInt8 :=
  if c < 0x80 then [UInt8.ofNat c]
  else if c < 0x800 then [UInt8.ofNat (c >>> 6 ||| 0xc0), continuation c]
  else if c < 0x10000 then
    [UInt8.ofNat (c >>> 12 ||| 0xe0), continuation (c >>> 6), continuation c]
  else if c < 0x200000 then
    [UInt8.ofNat (c >>> 18 ||| 0xf0), continuation (c >>> 12), continuation (c >>> 6),
      continuation c]
  else if c < 0x4000000 then
    [UInt8.ofNat (c >>> 24 ||| 0xf8), continuation (c >>> 18), continuation (c >>> 12),
      continuation (c >>> 6), continuation c]
  else if c < 0x80000000 then
    [UInt8.ofNat (c >>> 30 ||| 0xfc), continuation (c >>> 24), continuation (c >>> 18),
      continuation (c >>> 12), continuation (c >>> 6), continuation c]
  else []

def utf8MinCode : List ℕ := [0x80, 0x800, 0x10000, 0x200000, 0x4000000]

def utf8FirstCodeMask : List ℕ := [0x1f, 0xf, 0x7, 0x3, 0x1]

/-- The `switch` of `unicode_from_utf8`: how many bytes follow the first. -/
def following (c : UInt8) : Option ℕ :=
  if 0xc0 ≤ c ∧ c ≤ 0xdf then some 1
  else if 0xe0 ≤ c ∧ c ≤ 0xef then some 2
  else if 0xf0 ≤ c ∧ c ≤ 0xf7 then some 3
  else if 0xf8 ≤ c ∧ c ≤ 0xfb then some 4
  else if 0xfc ≤ c ∧ c ≤ 0xfd then some 5
  else none

/-- The loop over the bytes that follow. -/
def readContinuations : ℕ → ℕ → List UInt8 → Option (ℕ × List UInt8)
  | 0, c, p => some (c, p)
  | l + 1, c, b :: p =>
    if b < 0x80 ∨ b ≥ 0xc0 then none else readContinuations l (c <<< 6 ||| b.toNat &&& 0x3f) p
  | _ + 1, _, [] => none

/-- The code and the bytes behind it, or nothing for -1. There are at least `maxLen` bytes. -/
def unicodeFromUtf8 (p : List UInt8) (maxLen : ℤ) : Option (ℕ × List UInt8) :=
  match p with
  | [] => none
  | c :: p =>
    if c < 0x80 then some (c.toNat, p)
    else (following c).bind fun l =>
      if (l : ℤ) > maxLen - 1 then none
      else (readContinuations l (c.toNat &&& utf8FirstCodeMask.getD (l - 1) 0) p).bind
        fun (c, p) => if c < utf8MinCode.getD (l - 1) 0 then none else some (c, p)

def isHiSurrogate (c : ℕ) : Bool := c >>> 10 = 0xd800 >>> 10

def isLoSurrogate (c : ℕ) : Bool := c >>> 10 = 0xdc00 >>> 10

def getHiSurrogate (c : ℕ) : ℕ := c >>> 10 - 0x10000 >>> 10 + 0xd800

def getLoSurrogate (c : ℕ) : ℕ := c &&& 0x3ff ||| 0xdc00

def fromSurrogate (hi lo : ℕ) : ℕ := 0x10000 + 0x400 * (hi - 0xd800) + (lo - 0xdc00)

/-- A string of the engine. -/
inductive JsString where
  | narrow (str8 : List UInt8)
  | wide (str16 : List UInt16)
  deriving DecidableEq, Repr

namespace JsString

def length : JsString → ℕ
  | .narrow str8 => str8.length
  | .wide str16 => str16.length

def isWideChar : JsString → Bool
  | .narrow _ => false
  | .wide _ => true

/-- The assignment to the element at the end. -/
def push (c : ℕ) : JsString → JsString
  | .narrow str8 => .narrow (str8 ++ [UInt8.ofNat c])
  | .wide str16 => .wide (str16 ++ [UInt16.ofNat c])

end JsString

def jsStringLenMax : ℕ := 2 ^ 30 - 1

section Memory

/-- The answers of the allocator to requests, one after the other, of so many bytes: nothing, or how
many bytes more than those can be used. -/
abbrev Allocator : Type := ℕ → ℕ → Option ℕ

/-- `sizeof(JSString)` -/
def sizeofJsString : ℕ := 12

/-- `sizeof(JSString) + (len << is_wide_char) + 1 - is_wide_char` -/
def stringBytes (len : ℤ) (isWideChar : Bool) : Option ℕ :=
  (checkInt32 (len * 2 ^ isWideChar.toNat)).map fun shifted =>
    ((sizeofJsString + shifted + 1 - isWideChar.toNat) % 2 ^ 64).toNat

variable (memory : Allocator)

/-- The string is not kept here, only whether there is one. -/
def jsAllocString (request : ℕ) (maxLen : ℤ) (isWideChar : Bool) : Option ℕ :=
  (stringBytes maxLen isWideChar).bind (memory request)

/-- The variables of a `StringBuffer` and the number of requests made for it; `len` is the length of
the string. After an error there is none. -/
structure StringBuffer where
  str : JsString
  size : ℤ
  requests : ℕ

/-- The `int` after `size += slack`. -/
def addSlack (size : ℤ) (slack : ℕ) : ℤ := toInt32 ((size + slack) % 2 ^ 32).toNat

def stringBufferInit (size : ℤ) : Option StringBuffer :=
  (jsAllocString memory 0 size false).map fun _ => ⟨.narrow [], size, 1⟩

/-- The buffer holds the narrow string `str8`. -/
def stringBufferWiden (s : StringBuffer) (str8 : List UInt8) (size : ℤ) : Option StringBuffer :=
  (jsAllocString memory s.requests size true).map fun slack =>
    ⟨.wide (str8.map UInt8.toUInt16), addSlack size (slack / 2), s.requests + 1⟩

def stringBufferRealloc (s : StringBuffer) (newLen c : ℕ) : Option StringBuffer :=
  if newLen > jsStringLenMax then none
  else
    (checkInt32 (s.size * 3)).bind fun tripled =>
      let newSize := min (max (newLen : ℤ) (tripled.tdiv 2)) jsStringLenMax
      let resize : Option StringBuffer :=
        (jsAllocString memory s.requests newSize s.str.isWideChar).map fun slack =>
          { s with
            size := min (addSlack newSize (slack / 2 ^ s.str.isWideChar.toNat)) jsStringLenMax
            requests := s.requests + 1 }
      match s.str with
      | .narrow str8 => if c ≥ 0x100 then stringBufferWiden memory s str8 newSize else resize
      | .wide _ => resize

/-- Room for one more character. -/
def makeRoom (s : StringBuffer) (c : ℕ) : Option StringBuffer :=
  if s.str.length ≥ s.size then stringBufferRealloc memory s (s.str.length + 1) c else some s

def stringBufferPutc8 (s : StringBuffer) (c : UInt8) : Option StringBuffer :=
  (makeRoom memory s c.toNat).map fun s => { s with str := s.str.push c.toNat }

def stringBufferPutc16Slow (s : StringBuffer) (c : ℕ) : Option StringBuffer :=
  (makeRoom memory s c).bind fun s =>
    match s.str with
    | .narrow str8 =>
      if c < 0x100 then some { s with str := s.str.push c }
      else (stringBufferWiden memory s str8 s.size).map fun s => { s with str := s.str.push c }
    | .wide _ => some { s with str := s.str.push c }

def stringBufferPutc16 (s : StringBuffer) (c : ℕ) : Option StringBuffer :=
  if s.str.length < s.size ∧ (s.str.isWideChar ∨ c < 0x100) then
    some { s with str := s.str.push c }
  else stringBufferPutc16Slow memory s c

def stringBufferWrite8 (s : StringBuffer) (p : List UInt8) : Option StringBuffer :=
  (if s.str.length + p.length > s.size then
    stringBufferRealloc memory s (s.str.length + p.length) 0 else some s).map fun s =>
      { s with str := p.foldl (fun str c => str.push c.toNat) s.str }

/-- The string stays where it is if it cannot be made smaller. -/
def stringBufferEnd (s : StringBuffer) : JsString :=
  if s.str.length = 0 then .narrow [] else s.str

def jsNewString8Len (buf : List UInt8) : Option JsString :=
  if buf.length ≤ 0 then some (.narrow [])
  else (jsAllocString memory 0 buf.length false).map fun _ => .narrow buf

end Memory

section Decoding

def isContinuation (b : UInt8) : Bool := 0x80 ≤ b ∧ b < 0xc0

/-- What `JS_NewStringLen` goes over after a byte that begins no character. -/
def skipInvalid (p : List UInt8) : List UInt8 :=
  match p.dropWhile isContinuation with
  | [] => []
  | _ :: p => p.dropWhile isContinuation

variable (memory : Allocator)

/-- A character of more than one byte. -/
def decodeCharacter (p : List UInt8) (b : StringBuffer) : Option (List UInt8 × StringBuffer) :=
  let invalid : Option (List UInt8 × StringBuffer) :=
    (stringBufferPutc16 memory b 0xfffd).map fun b => (skipInvalid p, b)
  match unicodeFromUtf8 p (toInt32 p.length) with
  | some (c, pNext) =>
    if c < 0x10000 then (stringBufferPutc16 memory b c).map fun b => (pNext, b)
    else if c ≤ 0x10ffff then
      (stringBufferPutc16 memory b (getHiSurrogate c)).bind fun b =>
        (stringBufferPutc16 memory b (getLoSurrogate c)).map fun b => (pNext, b)
    else invalid
  | none => invalid

/-- The loop of `JS_NewStringLen`; every round takes a byte, so there are no more rounds than
bytes. -/
def decodeLoop : ℕ → List UInt8 → StringBuffer → Option StringBuffer
  | fuel + 1, c :: p, b =>
    if c < 128 then (stringBufferPutc8 memory b c).bind fun b => decodeLoop fuel p b
    else (decodeCharacter memory (c :: p) b).bind fun x => decodeLoop fuel x.1 x.2
  | _, _, b => some b

def countAscii (buf : List UInt8) : ℕ := (buf.takeWhile (· < 128)).length

def jsNewStringLen (buf : List UInt8) : Option JsString :=
  let len1 := countAscii buf
  if len1 > jsStringLenMax then none
  else if buf.drop len1 = [] then jsNewString8Len memory buf
  else
    (stringBufferInit memory (toInt32 buf.length)).bind fun b =>
      (stringBufferWrite8 memory b (buf.take len1)).bind fun b =>
        (decodeLoop memory buf.length (buf.drop len1) b).map stringBufferEnd

end Decoding

section Encoding

/-- A narrow string, of which every character above 127 takes two bytes. -/
def encodeNarrow (c : UInt8) : List UInt8 :=
  if c < 0x80 then [c]
  else [UInt8.ofNat (c.toNat >>> 6 ||| 0xc0), continuation c.toNat]

/-- A wide string, of which a pair of surrogates is one character and a lone one stays. -/
def encodeWide : List UInt16 → List UInt8
  | [] => []
  | [c] => if c < 0x80 then [c.toUInt8] else unicodeToUtf8 c.toNat
  | c :: c1 :: src =>
    if c < 0x80 then c.toUInt8 :: encodeWide (c1 :: src)
    else if isHiSurrogate c.toNat ∧ isLoSurrogate c1.toNat then
      unicodeToUtf8 (fromSurrogate c.toNat c1.toNat) ++ encodeWide src
    else unicodeToUtf8 c.toNat ++ encodeWide (c1 :: src)

/-- `JS_ToCString` of a string, without the NUL at its end. -/
def jsToCString (memory : Allocator) : JsString → Option (List UInt8)
  | .narrow src =>
    let count := (src.map fun c => c.toNat >>> 7).sum
    if count = 0 then some src
    else (jsAllocString memory 0 (src.length + count) false).map fun _ => src.flatMap encodeNarrow
  | .wide src => (jsAllocString memory 0 (src.length * 3) false).map fun _ => encodeWide src

end Encoding

/-- A page of memory, in pieces of sixteen bytes. -/
def pageMemory : Allocator := fun _ bytes =>
  if bytes ≤ 4096 then some ((bytes + 15) / 16 * 16 - bytes) else none

example : jsNewStringLen pageMemory [0x61, 0xc3, 0xa9, 0xf0, 0x9f, 0x98, 0x80] =
    some (.wide [0x61, 0xe9, 0xd83d, 0xde00]) := by
  decide

end JsOs.EngineStrings
