import JsOs.ShellDialogue
import JsOs.Utf8Sequences
import Mathlib.Data.List.Chain
import Mathlib.Data.List.TakeWhile

/-!
# Texts through the script engine

`JS_NewStringLen` and `JS_ToCString` between texts of bytes and strings of 16-bit units. Every
string comes back from its text; a text comes back from its string exactly if it is a sequence of
characters in UTF-8, lone surrogates among them.
-/

namespace JsOs.TextPassage

open MachineWords EngineStrings Utf8Layout Utf8Sequences

def units : JsString → List UInt16
  | .narrow str8 => str8.map UInt8.toUInt16
  | .wide str16 => str16

/-- The string with these units that is narrow if it can be. -/
def shortest (us : List UInt16) : JsString :=
  if us.all (· < 0x100) then .narrow (us.map UInt16.toUInt8) else .wide us

/-- The units of a character. -/
def unitsOf (c : ℕ) : List UInt16 :=
  if c < 0x10000 then [UInt16.ofNat c]
  else [UInt16.ofNat (getHiSurrogate c), UInt16.ofNat (getLoSurrogate c)]

/-- The characters of units, where a pair of surrogates is one. -/
def codes : List UInt16 → List ℕ
  | [] => []
  | [c] => [c.toNat]
  | c :: c1 :: us =>
    if isHiSurrogate c.toNat ∧ isLoSurrogate c1.toNat then
      fromSurrogate c.toNat c1.toNat :: codes us
    else c.toNat :: codes (c1 :: us)

/-- Characters of which no two would be read as one. -/
structure Unpaired (cs : List ℕ) : Prop where
  le : ∀ c ∈ cs, c ≤ 0x10ffff
  apart : cs.IsChain fun c c1 => ¬(isHiSurrogate c ∧ isLoSurrogate c1)

def encode (cs : List ℕ) : List UInt8 := cs.flatMap unicodeToUtf8

variable {c c1 : ℕ} {cs : List ℕ} {us : List UInt16} {u : UInt16} {b : UInt8} {s : JsString}
variable {memory memory' : Allocator} {text : List UInt8}

section Surrogates

theorem isHiSurrogate_iff : isHiSurrogate c = true ↔ 0xd800 ≤ c ∧ c < 0xdc00 := by
  unfold isHiSurrogate
  rw [decide_eq_true_iff, Nat.shiftRight_eq_div_pow]
  omega

theorem isLoSurrogate_iff : isLoSurrogate c = true ↔ 0xdc00 ≤ c ∧ c < 0xe000 := by
  unfold isLoSurrogate
  rw [decide_eq_true_iff, Nat.shiftRight_eq_div_pow]
  omega

theorem getHiSurrogate_eq (c : ℕ) : getHiSurrogate c = c / 1024 - 64 + 0xd800 := by
  unfold getHiSurrogate
  rw [Nat.shiftRight_eq_div_pow]
  rfl

theorem getLoSurrogate_eq (c : ℕ) : getLoSurrogate c = 0xdc00 + c % 1024 := by
  unfold getLoSurrogate
  rw [show 0x3ff = 2 ^ 10 - 1 from rfl, Nat.and_two_pow_sub_one_eq_mod,
    show 0xdc00 = 2 ^ 10 * 55 from rfl, or_mark (Nat.mod_lt _ (by decide))]
  rfl

theorem toNat_ofNat16 (h : c < 0x10000) : (UInt16.ofNat c).toNat = c := by
  rw [UInt16.toNat_ofNat', Nat.mod_eq_of_lt h]

/-- A character beyond 16 bits is a pair of surrogates. -/
theorem surrogates_of_large (h : 0x10000 ≤ c) (h' : c ≤ 0x10ffff) :
    isHiSurrogate (UInt16.ofNat (getHiSurrogate c)).toNat = true ∧
      isLoSurrogate (UInt16.ofNat (getLoSurrogate c)).toNat = true ∧
      fromSurrogate (UInt16.ofNat (getHiSurrogate c)).toNat
        (UInt16.ofNat (getLoSurrogate c)).toNat = c := by
  have hhi := getHiSurrogate_eq c
  have hlo := getLoSurrogate_eq c
  rw [toNat_ofNat16 (by omega), toNat_ofNat16 (by omega), isHiSurrogate_iff, isLoSurrogate_iff]
  unfold fromSurrogate
  omega

/-- A pair of surrogates is a character beyond 16 bits. -/
theorem large_of_surrogates {u v : UInt16} (hu : isHiSurrogate u.toNat = true)
    (hv : isLoSurrogate v.toNat = true) : 0x10000 ≤ fromSurrogate u.toNat v.toNat ∧
      fromSurrogate u.toNat v.toNat ≤ 0x10ffff ∧
      unitsOf (fromSurrogate u.toNat v.toNat) = [u, v] := by
  rw [isHiSurrogate_iff] at hu
  rw [isLoSurrogate_iff] at hv
  have hlow : 0x10000 ≤ fromSurrogate u.toNat v.toNat := by
    unfold fromSurrogate
    omega
  refine ⟨hlow, by unfold fromSurrogate; omega, ?_⟩
  rw [unitsOf, if_neg (Nat.not_lt.mpr hlow), getHiSurrogate_eq, getLoSurrogate_eq]
  have hhi : fromSurrogate u.toNat v.toNat / 1024 - 64 + 0xd800 = u.toNat := by
    unfold fromSurrogate
    omega
  have hlo : 0xdc00 + fromSurrogate u.toNat v.toNat % 1024 = v.toNat := by
    unfold fromSurrogate
    omega
  rw [hhi, hlo, UInt16.ofNat_toNat, UInt16.ofNat_toNat]

end Surrogates

section Codes

theorem unitsOf_small (h : c < 0x10000) : unitsOf c = [UInt16.ofNat c] := if_pos h

theorem unitsOf_unit (u : UInt16) : unitsOf u.toNat = [u] := by
  rw [unitsOf_small u.toNat_lt, UInt16.ofNat_toNat]

theorem codes_unpaired {us : List UInt16} : ∀ {u : UInt16},
    (∀ v ∈ us.head?, ¬(isHiSurrogate u.toNat ∧ isLoSurrogate v.toNat)) →
      codes (u :: us) = u.toNat :: codes us := by
  cases us with
  | nil => exact fun _ => rfl
  | cons v us =>
    intro u h
    rw [codes, if_neg (h v rfl)]

/-- Units come back from their characters. -/
theorem flatMap_unitsOf_codes (us : List UInt16) : (codes us).flatMap unitsOf = us := by
  induction us using codes.induct with
  | case1 => rfl
  | case2 u => rw [codes, List.flatMap_singleton, unitsOf_unit]
  | case3 u v us h ih =>
    rw [codes, if_pos h, List.flatMap_cons, ih, (large_of_surrogates h.1 h.2).2.2]
    rfl
  | case4 u v us h ih =>
    rw [codes, if_neg h, List.flatMap_cons, ih, unitsOf_unit]
    rfl

theorem codes_le (us : List UInt16) : ∀ c ∈ codes us, c ≤ 0x10ffff := by
  induction us using codes.induct with
  | case1 => simp [codes]
  | case2 u =>
    have hu := u.toNat_lt
    rw [codes, List.forall_mem_singleton]
    omega
  | case3 u v us h ih =>
    rw [codes, if_pos h, List.forall_mem_cons]
    exact ⟨(large_of_surrogates h.1 h.2).2.1, ih⟩
  | case4 u v us h ih =>
    have hu := u.toNat_lt
    rw [codes, if_neg h, List.forall_mem_cons]
    exact ⟨by omega, ih⟩

/-- The first character is the first unit or beyond 16 bits. -/
theorem head?_codes (us : List UInt16) : ∀ c ∈ (codes us).head?,
    (∃ v ∈ us.head?, c = v.toNat) ∨ 0x10000 ≤ c := by
  cases us with
  | nil => simp [codes]
  | cons u us =>
    cases us with
    | nil => simp [codes]
    | cons v us =>
      intro c hc
      rw [codes] at hc
      split_ifs at hc with h
      · rw [List.head?_cons, Option.mem_some_iff] at hc
        subst hc
        exact .inr (large_of_surrogates h.1 h.2).1
      · rw [List.head?_cons, Option.mem_some_iff] at hc
        exact .inl ⟨u, rfl, hc.symm⟩

theorem unpaired_codes (us : List UInt16) : Unpaired (codes us) := by
  refine ⟨codes_le us, ?_⟩
  induction us using codes.induct with
  | case1 => exact .nil
  | case2 u => exact .singleton _
  | case3 u v us h ih =>
    rw [codes, if_pos h, List.isChain_cons]
    refine ⟨fun c _ hpair => ?_, ih⟩
    have hhi := isHiSurrogate_iff.mp hpair.1
    have hlarge := (large_of_surrogates h.1 h.2).1
    omega
  | case4 u v us h ih =>
    rw [codes, if_neg h, List.isChain_cons]
    refine ⟨fun c hc hpair => ?_, ih⟩
    rcases head?_codes (v :: us) c hc with ⟨w, hw, rfl⟩ | hlarge
    · cases hw
      exact h hpair
    · have hlo := isLoSurrogate_iff.mp hpair.2
      omega

/-- Units begin with a low surrogate only if the characters do. -/
theorem head?_flatMap_unitsOf (hle : ∀ c ∈ cs, c ≤ 0x10ffff) : ∀ v ∈ (cs.flatMap unitsOf).head?,
    isLoSurrogate v.toNat = true → ∃ c ∈ cs.head?, isLoSurrogate c = true := by
  cases cs with
  | nil => simp
  | cons c cs =>
    intro v hv hlo
    refine ⟨c, rfl, ?_⟩
    rw [List.flatMap_cons] at hv
    by_cases hsmall : c < 0x10000
    · rw [unitsOf_small hsmall] at hv
      obtain rfl := Option.mem_some_iff.mp hv
      rwa [toNat_ofNat16 hsmall] at hlo
    · rw [unitsOf, if_neg hsmall] at hv
      obtain rfl := Option.mem_some_iff.mp hv
      have hhi := (surrogates_of_large (Nat.le_of_not_lt hsmall) (hle c List.mem_cons_self)).1
      rw [isHiSurrogate_iff] at hhi
      rw [isLoSurrogate_iff] at hlo
      omega

/-- Characters come back from their units, unless two of them are read as one. -/
theorem codes_flatMap_unitsOf (h : Unpaired cs) : codes (cs.flatMap unitsOf) = cs := by
  obtain ⟨hle, hapart⟩ := h
  induction cs with
  | nil => rfl
  | cons c cs ih =>
    rw [List.isChain_cons] at hapart
    have hrest := ih (fun c hc => hle c (List.mem_cons_of_mem _ hc)) hapart.2
    rw [List.flatMap_cons]
    by_cases hsmall : c < 0x10000
    · rw [unitsOf_small hsmall, List.singleton_append, codes_unpaired, hrest, toNat_ofNat16 hsmall]
      rw [toNat_ofNat16 hsmall]
      intro v hv hpair
      obtain ⟨c', hc', hlo⟩ := head?_flatMap_unitsOf
        (fun c hc => hle c (List.mem_cons_of_mem _ hc)) v hv hpair.2
      exact hapart.1 c' hc' ⟨hpair.1, hlo⟩
    · have hmem := hle c List.mem_cons_self
      obtain ⟨hhi, hlo, hcode⟩ := surrogates_of_large (Nat.le_of_not_lt hsmall) hmem
      rw [unitsOf, if_neg hsmall]
      change codes (_ :: _ :: cs.flatMap unitsOf) = _
      rw [codes, if_pos ⟨hhi, hlo⟩, hcode, hrest]

end Codes

section Encoding

/-- A narrow character, as a character. -/
theorem encodeNarrow_eq (b : UInt8) : encodeNarrow b = unicodeToUtf8 b.toNat := by
  have hb := b.toNat_lt
  unfold encodeNarrow
  by_cases hascii : b < 0x80
  · have hlt : b.toNat < 0x80 := UInt8.lt_iff_toNat_lt.mp hascii
    rw [if_pos hascii, unicodeToUtf8_ascii hlt, UInt8.ofNat_toNat]
  · have hge : ¬b.toNat < 0x80 := fun h => hascii (UInt8.lt_iff_toNat_lt.mpr h)
    rw [if_neg hascii, unicodeToUtf8, if_neg hge, if_pos (by omega)]

theorem codes_narrow (str8 : List UInt8) :
    codes (str8.map UInt8.toUInt16) = str8.map UInt8.toNat := by
  induction str8 with
  | nil => rfl
  | cons b str8 ih =>
    have hb := b.toNat_lt
    rw [List.map_cons, List.map_cons, codes_unpaired, ih, UInt8.toNat_toUInt16]
    intro v _ hpair
    have hhi := isHiSurrogate_iff.mp hpair.1
    rw [UInt8.toNat_toUInt16] at hhi
    omega

theorem encodeWide_eq (us : List UInt16) : encodeWide us = encode (codes us) := by
  have hascii {u : UInt16} (hu : u < 0x80) : [u.toUInt8] = unicodeToUtf8 u.toNat := by
    rw [unicodeToUtf8_ascii (UInt16.lt_iff_toNat_lt.mp hu)]
    rfl
  induction us using codes.induct with
  | case1 => rfl
  | case2 u =>
    rw [encodeWide, codes, encode, List.flatMap_singleton]
    split_ifs with hu
    · exact hascii hu
    · rfl
  | case3 u v us h ih =>
    have hu : ¬u < 0x80 := fun hu => by
      have hlt : u.toNat < 0x80 := UInt16.lt_iff_toNat_lt.mp hu
      have hhi := isHiSurrogate_iff.mp h.1
      omega
    rw [encodeWide, codes, if_neg hu, if_pos h, if_pos h, ih]
    rfl
  | case4 u v us h ih =>
    rw [encodeWide, codes, if_neg h, if_neg h]
    split_ifs with hu
    · rw [ih, ← List.singleton_append, hascii hu]
      rfl
    · rw [ih]
      rfl

/-- Without a high bit every character is its own byte. -/
theorem flatMap_encodeNarrow {src : List UInt8} (h : (src.map fun c => c.toNat >>> 7).sum = 0) :
    src.flatMap encodeNarrow = src := by
  induction src with
  | nil => rfl
  | cons b src ih =>
    rw [List.map_cons, List.sum_cons, Nat.add_eq_zero_iff, Nat.shiftRight_eq_div_pow] at h
    have hascii : b < 0x80 := UInt8.lt_iff_toNat_lt.mpr (show b.toNat < 128 by omega)
    rw [List.flatMap_cons, ih h.2, encodeNarrow, if_pos hascii]
    rfl

theorem encode_units_narrow (str8 : List UInt8) :
    encode (codes (units (.narrow str8))) = str8.flatMap encodeNarrow := by
  rw [units, codes_narrow, encode, List.flatMap_map]
  exact List.flatMap_congr fun b _ => (encodeNarrow_eq b).symm

/-- The paths for narrow strings, with and without characters that take two bytes, and the one for
wide strings write the same text of the same units. -/
theorem jsToCString_text (h : jsToCString memory s = some text) :
    text = encode (codes (units s)) := by
  cases s with
  | wide us =>
    obtain ⟨_, -, rfl⟩ := Option.map_eq_some_iff.mp h
    exact encodeWide_eq us
  | narrow str8 =>
    rw [encode_units_narrow]
    unfold jsToCString at h
    dsimp only at h
    split_ifs at h with hcount
    · rw [flatMap_encodeNarrow hcount]
      exact (Option.some.inj h).symm
    · obtain ⟨_, -, rfl⟩ := Option.map_eq_some_iff.mp h
      rfl

/-- Requests of up to so many bytes are granted, and less than 2^30 bytes are given beyond them. -/
def Grants (memory : Allocator) (limit : ℕ) : Prop :=
  ∀ request, ∀ bytes ≤ limit, ∃ slack < 2 ^ 30, memory request bytes = some slack

theorem Grants.mono {limit limit' : ℕ} (h : Grants memory limit) (hle : limit' ≤ limit) :
    Grants memory limit' := fun request bytes hbytes => h request bytes (hbytes.trans hle)

theorem allocNarrow_granted {n limit : ℕ} (hgrants : Grants memory limit) (h : n < 2 ^ 31)
    (hlimit : 13 + n ≤ limit) (request : ℕ) :
    ∃ slack < 2 ^ 30, jsAllocString memory request n false = some slack := by
  have hbytes : stringBytes n false = some (13 + n) := by
    rw [stringBytes, Bool.toNat_false, pow_zero, mul_one, checkInt32_natCast h, Option.map_some,
      sizeofJsString]
    congr 1
    omega
  rw [jsAllocString, hbytes]
  exact hgrants request _ hlimit

theorem allocWide_granted {n limit : ℕ} (hgrants : Grants memory limit) (h : n < 2 ^ 30)
    (hlimit : 12 + 2 * n ≤ limit) (request : ℕ) :
    ∃ slack < 2 ^ 30, jsAllocString memory request n true = some slack := by
  have hbytes : stringBytes n true = some (12 + 2 * n) := by
    rw [stringBytes, Bool.toNat_true, pow_one, show (n : ℤ) * 2 = (2 * n : ℕ) by omega,
      checkInt32_natCast (by omega), Option.map_some, sizeofJsString]
    congr 1
    omega
  rw [jsAllocString, hbytes]
  exact hgrants request _ hlimit

theorem sum_marks_le (src : List UInt8) : (src.map fun c => c.toNat >>> 7).sum ≤ src.length := by
  induction src with
  | nil => exact Nat.zero_le 0
  | cons b src ih =>
    have hb := b.toNat_lt
    rw [List.map_cons, List.sum_cons, List.length_cons, Nat.shiftRight_eq_div_pow]
    omega

/-- Three bytes for each unit are enough. -/
theorem jsToCString_eq (hlength : 3 * (units s).length < 2 ^ 31)
    (hgrants : Grants memory (13 + 3 * (units s).length)) :
    jsToCString memory s = some (encode (codes (units s))) := by
  suffices hsome : ∃ text, jsToCString memory s = some text by
    obtain ⟨text, htext⟩ := hsome
    rw [htext, jsToCString_text htext]
  cases s with
  | wide us =>
    change 3 * us.length < 2 ^ 31 at hlength
    change Grants memory (13 + 3 * us.length) at hgrants
    obtain ⟨slack, -, hslack⟩ := allocNarrow_granted (n := us.length * 3) hgrants (by omega)
      (by omega) 0
    exact ⟨_, Option.map_eq_some_iff.mpr ⟨slack, hslack, rfl⟩⟩
  | narrow str8 =>
    have hunits : (units (.narrow str8)).length = str8.length := List.length_map ..
    have hcount := sum_marks_le str8
    rw [hunits] at hlength hgrants
    unfold jsToCString
    dsimp only
    split_ifs
    · exact ⟨_, rfl⟩
    · obtain ⟨slack, -, hslack⟩ := allocNarrow_granted
        (n := str8.length + (str8.map fun c => c.toNat >>> 7).sum) hgrants (by omega) (by omega) 0
      exact ⟨_, Option.map_eq_some_iff.mpr ⟨slack, hslack, rfl⟩⟩

end Encoding

section Lengths

theorem unicodeToUtf8_length (hle : c ≤ 0x10ffff) : 1 ≤ (unitsOf c).length ∧
    (unitsOf c).length ≤ (unicodeToUtf8 c).length ∧
    (unicodeToUtf8 c).length ≤ 3 * (unitsOf c).length := by
  unfold unicodeToUtf8 unitsOf
  by_cases hsmall : c < 0x10000
  · rw [if_pos hsmall, if_pos hsmall]
    split_ifs <;> simp
  · rw [if_neg hsmall, if_neg (by omega), if_neg (by omega), if_neg hsmall, if_pos (by omega)]
    simp

/-- Every character takes a unit at least, and there is a byte at least and three at most for each
unit. -/
theorem encode_length (hle : ∀ c ∈ cs, c ≤ 0x10ffff) : cs.length ≤ (cs.flatMap unitsOf).length ∧
    (cs.flatMap unitsOf).length ≤ (encode cs).length ∧
    (encode cs).length ≤ 3 * (cs.flatMap unitsOf).length := by
  induction cs with
  | nil => simp [encode]
  | cons c cs ih =>
    have hfirst := unicodeToUtf8_length (hle c List.mem_cons_self)
    have hrest := ih fun c hc => hle c (List.mem_cons_of_mem _ hc)
    unfold encode at hrest ⊢
    rw [List.flatMap_cons, List.flatMap_cons, List.length_append, List.length_append,
      List.length_cons]
    omega

end Lengths

section Decoding

variable {n room : ℕ} {buffer : StringBuffer}

theorem toUInt16_toUInt8 (h : u < 0x100) : u.toUInt8.toUInt16 = u := by
  have hlt : u.toNat < 0x100 := UInt16.lt_iff_toNat_lt.mp h
  rw [← UInt16.toNat_inj, UInt8.toNat_toUInt16, UInt16.toNat_toUInt8]
  omega

theorem map_toUInt16_toUInt8 (h : ∀ u ∈ us, u < 0x100) :
    (us.map UInt16.toUInt8).map UInt8.toUInt16 = us := by
  rw [List.map_map]
  exact (List.map_congr_left fun u hu => toUInt16_toUInt8 (h u hu)).trans (List.map_id us)

theorem fits_iff : us.all (· < 0x100) = true ↔ ∀ u ∈ us, u < 0x100 := by
  simp only [List.all_eq_true, decide_eq_true_eq]

theorem units_shortest (us : List UInt16) : units (shortest us) = us := by
  unfold shortest
  split_ifs with h
  · exact map_toUInt16_toUInt8 (fits_iff.mp h)
  · rfl

theorem ofNat16_toNat (b : UInt8) : UInt16.ofNat b.toNat = b.toUInt16 := by
  have hb := b.toNat_lt
  rw [← UInt16.toNat_inj, toNat_ofNat16 (by omega), UInt8.toNat_toUInt16]

theorem shortest_narrow (h : ∀ u ∈ us, u < 0x100) :
    shortest us = .narrow (us.map UInt16.toUInt8) := if_pos (fits_iff.mpr h)

theorem shortest_wide (h : ¬∀ u ∈ us, u < 0x100) : shortest us = .wide us :=
  if_neg (mt fits_iff.mp h)

theorem length_shortest (us : List UInt16) : (shortest us).length = us.length := by
  unfold shortest
  split_ifs
  · exact List.length_map ..
  · rfl

/-- A character that does not widen the string. -/
theorem push_shortest (hc : c < 0x10000) (h : (shortest us).isWideChar = true ∨ c < 0x100) :
    (shortest us).push c = shortest (us ++ [UInt16.ofNat c]) := by
  have hunit : UInt16.ofNat c < 0x100 ↔ c < 0x100 := by
    rw [UInt16.lt_iff_toNat_lt, toNat_ofNat16 hc]
    rfl
  by_cases hus : ∀ u ∈ us, u < 0x100
  · have hsmall : c < 0x100 := h.resolve_left (by rw [shortest_narrow hus]; exact Bool.false_ne_true)
    have hall : ∀ u ∈ us ++ [UInt16.ofNat c], u < 0x100 := by
      rw [List.forall_mem_append, List.forall_mem_singleton]
      exact ⟨hus, hunit.mpr hsmall⟩
    rw [shortest_narrow hus, shortest_narrow hall, JsString.push, List.map_append,
      List.map_singleton, UInt16.toUInt8_ofNat']
  · have hall : ¬∀ u ∈ us ++ [UInt16.ofNat c], u < 0x100 := by
      rw [List.forall_mem_append]
      exact fun h => hus h.1
    rw [shortest_wide hus, shortest_wide hall, JsString.push]

/-- A buffer that was made for `n` bytes holds the units, and has room for more. -/
structure Builds (n : ℕ) (us : List UInt16) (room : ℕ) (buffer : StringBuffer) : Prop where
  str_eq : buffer.str = shortest us
  room_le : ((us.length + room : ℕ) : ℤ) ≤ buffer.size
  narrow_size : (∀ u ∈ us, u < 0x100) → buffer.size = n

theorem Builds.mono {room' : ℕ} (h : Builds n us room buffer) (hle : room' ≤ room) :
    Builds n us room' buffer := by
  obtain ⟨hstr, hroom, hsize⟩ := h
  exact ⟨hstr, by omega, hsize⟩

theorem Builds.push (h : Builds n us (room + 1) buffer) (hc : c < 0x10000)
    (hfits : (shortest us).isWideChar = true ∨ c < 0x100) :
    Builds n (us ++ [UInt16.ofNat c]) room { buffer with str := buffer.str.push c } := by
  obtain ⟨hstr, hroom, hsize⟩ := h
  refine ⟨by rw [hstr]; exact push_shortest hc hfits, ?_, fun hall => hsize ?_⟩
  · rw [List.length_append, List.length_singleton]
    dsimp only
    omega
  · exact fun u hu => hall u (List.mem_append_left _ hu)

theorem Builds.makeRoom (h : Builds n us (room + 1) buffer) (c : ℕ) :
    makeRoom memory buffer c = some buffer := by
  have hroom := h.room_le
  refine if_neg ?_
  rw [h.str_eq, length_shortest]
  omega

theorem addSlack_eq {slack : ℕ} (h : n + slack < 2 ^ 31) : addSlack n slack = (n + slack : ℕ) := by
  have hsum : (((n : ℤ) + slack) % 2 ^ 32).toNat = n + slack := by omega
  rw [addSlack, hsum, toInt32_eq h]

variable (hn : n < 2 ^ 30) (hgrants : Grants memory (13 + 2 * n))

include hn hgrants

/-- The first character that needs it widens the buffer. -/
theorem widen_builds (hus : ∀ u ∈ us, u < 0x100) (h : Builds n us (room + 1) buffer)
    (hc : c < 0x10000) (hlarge : ¬c < 0x100) :
    ∃ buffer', (stringBufferWiden memory buffer (us.map UInt16.toUInt8) buffer.size).map
        (fun s => { s with str := s.str.push c }) = some buffer' ∧
      Builds n (us ++ [UInt16.ofNat c]) room buffer' := by
  obtain ⟨slack, hslack, halloc⟩ := allocWide_granted hgrants hn (by omega) buffer.requests
  have hroom := h.room_le
  have hsize := h.narrow_size hus
  have hwide : ¬∀ u ∈ us ++ [UInt16.ofNat c], u < 0x100 := by
    rw [List.forall_mem_append, List.forall_mem_singleton, UInt16.lt_iff_toNat_lt,
      toNat_ofNat16 hc]
    exact fun h => hlarge h.2
  rw [hsize, stringBufferWiden, halloc, Option.map_some, Option.map_some,
    map_toUInt16_toUInt8 hus, addSlack_eq (by omega)]
  refine ⟨_, rfl, ?_, ?_, fun hall => absurd hall hwide⟩
  · rw [shortest_wide hwide, JsString.push]
  · rw [List.length_append, List.length_singleton]
    dsimp only
    omega

theorem putc16_builds (h : Builds n us (room + 1) buffer) (hc : c < 0x10000) :
    ∃ buffer', stringBufferPutc16 memory buffer c = some buffer' ∧
      Builds n (us ++ [UInt16.ofNat c]) room buffer' := by
  have hroom := h.room_le
  have hlt : (buffer.str.length : ℤ) < buffer.size := by
    rw [h.str_eq, length_shortest]
    omega
  unfold stringBufferPutc16
  by_cases hfits : (shortest us).isWideChar = true ∨ c < 0x100
  · rw [if_pos ⟨hlt, by rwa [h.str_eq]⟩]
    exact ⟨_, rfl, h.push hc hfits⟩
  · obtain ⟨hnarrow, hlarge⟩ := not_or.mp hfits
    have hus : ∀ u ∈ us, u < 0x100 := by
      by_contra hwide
      rw [shortest_wide hwide] at hnarrow
      exact hnarrow rfl
    rw [if_neg (by rw [h.str_eq]; exact fun h => hfits h.2), stringBufferPutc16Slow, h.makeRoom,
      Option.bind_some, h.str_eq, shortest_narrow hus]
    dsimp only
    rw [if_neg hlarge]
    exact widen_builds hn hgrants hus h hc hlarge

omit hn hgrants in
theorem putc8_builds (memory : Allocator) (h : Builds n us (room + 1) buffer) (b : UInt8) :
    ∃ buffer', stringBufferPutc8 memory buffer b = some buffer' ∧
      Builds n (us ++ [b.toUInt16]) room buffer' := by
  have hb := b.toNat_lt
  have hpush := h.push (c := b.toNat) (by omega) (.inr hb)
  rw [ofNat16_toNat] at hpush
  refine ⟨_, ?_, hpush⟩
  rw [stringBufferPutc8, h.makeRoom, Option.map_some]

/-- A character of more than one byte, with others behind it. -/
theorem decodeCharacter_encode {rest : List UInt8} (hc : ¬c < 0x80) (hle : c ≤ 0x10ffff)
    (hlength : (unicodeToUtf8 c ++ rest).length < 2 ^ 31)
    (h : Builds n us (unicodeToUtf8 c ++ rest).length buffer) :
    ∃ buffer', decodeCharacter memory (unicodeToUtf8 c ++ rest) buffer = some (rest, buffer') ∧
      Builds n (us ++ unitsOf c) rest.length buffer' := by
  have hlt : c < 2 ^ 31 := by omega
  have hne := List.length_pos_of_ne_nil (unicodeToUtf8_ne_nil hlt)
  have hunits := (unicodeToUtf8_length hle).2.1
  rw [List.length_append] at hlength h
  have hread : unicodeFromUtf8 (unicodeToUtf8 c ++ rest)
      (toInt32 (unicodeToUtf8 c ++ rest).length) = some (c, rest) := by
    rw [List.length_append, toInt32_eq hlength]
    exact unicodeFromUtf8_encoded hlt (by omega) rest
  unfold decodeCharacter
  rw [hread]
  dsimp only
  by_cases hsmall : c < 0x10000
  · rw [unitsOf_small hsmall] at hunits ⊢
    obtain ⟨buffer', hput, h'⟩ := putc16_builds hn hgrants
      (h.mono (show rest.length + 1 ≤ _ by simp at hunits; omega)) hsmall
    rw [if_pos hsmall, hput]
    exact ⟨buffer', rfl, h'⟩
  · have hhi := getHiSurrogate_eq c
    have hlo := getLoSurrogate_eq c
    rw [unitsOf, if_neg hsmall] at hunits ⊢
    obtain ⟨buffer₁, hput₁, h₁⟩ := putc16_builds hn hgrants (c := getHiSurrogate c)
      (h.mono (show rest.length + 1 + 1 ≤ _ by simp at hunits; omega)) (by omega)
    obtain ⟨buffer₂, hput₂, h₂⟩ := putc16_builds hn hgrants (c := getLoSurrogate c) h₁ (by omega)
    rw [if_neg hsmall, if_pos hle, hput₁, Option.bind_some, hput₂]
    rw [List.append_assoc] at h₂
    exact ⟨buffer₂, rfl, h₂⟩

/-- The loop over a text of characters. -/
theorem decodeLoop_encode {fuel : ℕ} (hle : ∀ c ∈ cs, c ≤ 0x10ffff)
    (hlength : (encode cs).length < 2 ^ 31) (hfuel : (encode cs).length ≤ fuel)
    (h : Builds n us (encode cs).length buffer) :
    ∃ buffer', decodeLoop memory fuel (encode cs) buffer = some buffer' ∧
      Builds n (us ++ cs.flatMap unitsOf) 0 buffer' := by
  induction cs generalizing fuel us buffer with
  | nil =>
    rw [List.flatMap_nil, List.append_nil]
    exact ⟨buffer, by cases fuel <;> rfl, h⟩
  | cons c cs ih =>
    have hc := hle c List.mem_cons_self
    have hrest : ∀ c ∈ cs, c ≤ 0x10ffff := fun c hc => hle c (List.mem_cons_of_mem _ hc)
    rw [encode, List.flatMap_cons] at hlength hfuel h ⊢
    rw [List.flatMap_cons, ← List.append_assoc]
    obtain ⟨b, p, heq⟩ := List.exists_cons_of_ne_nil
      (unicodeToUtf8_ne_nil (show c < 2 ^ 31 by omega))
    have hascii : b < 0x80 ↔ c < 0x80 :=
      ascii_iff (show c < 2 ^ 31 by omega) (heq.symm.trans (List.append_nil _).symm)
    obtain ⟨fuel, rfl⟩ : ∃ n, fuel = n + 1 := by
      refine Nat.exists_eq_add_one.mpr ?_
      rw [heq, List.length_append, List.length_cons] at hfuel
      omega
    by_cases hlt : c < 0x80
    · rw [unicodeToUtf8_ascii hlt] at heq hlength hfuel h ⊢
      rw [List.singleton_append, List.length_cons] at hlength hfuel h
      have hunit : (UInt8.ofNat c).toUInt16 = UInt16.ofNat c := by
        rw [← ofNat16_toNat, toNat_ofNat (by omega)]
      cases heq
      obtain ⟨buffer₁, hput, h₁⟩ := putc8_builds memory h (UInt8.ofNat c)
      rw [hunit] at h₁
      rw [List.singleton_append, decodeLoop, if_pos (hascii.mpr hlt), hput, Option.bind_some,
        unitsOf_small (by omega)]
      exact ih hrest (by rw [encode]; omega) (by rw [encode]; omega) h₁
    · obtain ⟨buffer₁, hcharacter, h₁⟩ :=
        decodeCharacter_encode hn hgrants hlt hc hlength h
      rw [heq] at hcharacter hlength hfuel ⊢
      rw [List.cons_append] at hcharacter hlength hfuel ⊢
      rw [decodeLoop, if_neg (mt hascii.mp hlt), hcharacter, Option.bind_some]
      rw [List.length_cons, List.length_append] at hlength hfuel
      exact ih hrest (by rw [encode]; omega) (by rw [encode]; omega) h₁

omit hn hgrants

/-- The ASCII characters at the beginning of a text are its ASCII bytes. -/
theorem takeWhile_encode (hle : ∀ c ∈ cs, c ≤ 0x10ffff) :
    (encode cs).takeWhile (· < 128) = (cs.takeWhile (· < 0x80)).map UInt8.ofNat ∧
      (encode cs).dropWhile (· < 128) = encode (cs.dropWhile (· < 0x80)) := by
  induction cs with
  | nil => exact ⟨rfl, rfl⟩
  | cons c cs ih =>
    have hc := hle c List.mem_cons_self
    obtain ⟨htake, hdrop⟩ := ih fun c hc => hle c (List.mem_cons_of_mem _ hc)
    obtain ⟨b, p, heq⟩ := List.exists_cons_of_ne_nil
      (unicodeToUtf8_ne_nil (show c < 2 ^ 31 by omega))
    have hascii : b < 0x80 ↔ c < 0x80 :=
      ascii_iff (show c < 2 ^ 31 by omega) (heq.symm.trans (List.append_nil _).symm)
    have hflat : encode (c :: cs) = unicodeToUtf8 c ++ encode cs := List.flatMap_cons
    by_cases hlt : c < 0x80
    · have hbyte : UInt8.ofNat c < 128 := by
        rw [unicodeToUtf8_ascii hlt] at heq
        cases heq
        exact hascii.mpr hlt
      rw [hflat, unicodeToUtf8_ascii hlt, List.singleton_append,
        List.takeWhile_cons_of_pos (by simpa using hbyte),
        List.dropWhile_cons_of_pos (by simpa using hbyte),
        List.takeWhile_cons_of_pos (by simpa using hlt),
        List.dropWhile_cons_of_pos (by simpa using hlt), List.map_cons, htake, hdrop]
      exact ⟨rfl, rfl⟩
    · have hbyte : ¬b < 128 := mt hascii.mp hlt
      rw [List.takeWhile_cons_of_neg (by simpa using hlt),
        List.dropWhile_cons_of_neg (by simpa using hlt), hflat, heq, List.cons_append,
        List.takeWhile_cons_of_neg (by simpa using hbyte),
        List.dropWhile_cons_of_neg (by simpa using hbyte)]
      exact ⟨rfl, rfl⟩

theorem shortest_ascii (h : ∀ c ∈ cs, c < 0x80) :
    shortest (cs.flatMap unitsOf) = .narrow (cs.map UInt8.ofNat) := by
  have hunits : cs.flatMap unitsOf = cs.map UInt16.ofNat := by
    rw [List.map_eq_flatMap]
    exact List.flatMap_congr fun c hc => unitsOf_small ((h c hc).trans (by decide))
  have hsmall : ∀ u ∈ cs.map UInt16.ofNat, u < 0x100 := by
    intro u hu
    obtain ⟨c, hc, rfl⟩ := List.mem_map.mp hu
    have hlt := h c hc
    rw [UInt16.lt_iff_toNat_lt, toNat_ofNat16 (by omega)]
    exact hlt.trans (by decide)
  rw [hunits, shortest, if_pos (fits_iff.mpr hsmall), List.map_map]
  exact congrArg _ (List.map_congr_left fun c _ => UInt16.toUInt8_ofNat' c)

theorem stringBufferEnd_eq (h : buffer.str = shortest us) : stringBufferEnd buffer = shortest us := by
  unfold stringBufferEnd
  rw [h, length_shortest]
  split_ifs with hempty
  · rw [List.length_eq_zero_iff.mp hempty]
    rfl
  · rfl

theorem newString8Len_granted {limit : ℕ} (hgrants : Grants memory limit)
    (h : text.length < 2 ^ 31) (hlimit : 13 + text.length ≤ limit) :
    jsNewString8Len memory text = some (.narrow text) := by
  unfold jsNewString8Len
  split_ifs with hempty
  · rw [List.length_eq_zero_iff.mp (Nat.le_zero.mp hempty)]
  · obtain ⟨slack, -, halloc⟩ := allocNarrow_granted hgrants h hlimit 0
    rw [halloc, Option.map_some]

theorem foldl_push (str8 p : List UInt8) :
    p.foldl (fun str c => str.push c.toNat) (JsString.narrow str8) = .narrow (str8 ++ p) := by
  induction p generalizing str8 with
  | nil => rw [List.append_nil]; rfl
  | cons b p ih => rw [List.foldl_cons, JsString.push, UInt8.ofNat_toNat, ih, List.append_assoc]; rfl

/-- A buffer that holds the ASCII bytes at the beginning. -/
theorem write8_builds (hgrants : Grants memory (13 + 2 * n)) (hn : n < 2 ^ 30)
    {start : List ℕ} (hascii : ∀ c ∈ start, c < 0x80) (hle : start.length + room ≤ n) :
    ∃ buffer, ((stringBufferInit memory n).bind fun s =>
        stringBufferWrite8 memory s (start.map UInt8.ofNat)) = some buffer ∧
      Builds n (start.flatMap unitsOf) room buffer := by
  obtain ⟨slack, -, halloc⟩ := allocNarrow_granted hgrants (show n < 2 ^ 31 by omega) (by omega) 0
  have hunits : (start.flatMap unitsOf).length = start.length := by
    rw [← length_shortest, shortest_ascii hascii]
    exact List.length_map ..
  refine ⟨⟨.narrow (start.map UInt8.ofNat), n, 1⟩, ?_, (shortest_ascii hascii).symm, ?_, fun _ => rfl⟩
  · have hroom : ¬(((JsString.narrow []).length : ℤ) + (start.map UInt8.ofNat).length > n) := by
      rw [List.length_map, JsString.length, List.length_nil]
      omega
    rw [stringBufferInit, halloc, Option.map_some, Option.bind_some, stringBufferWrite8,
      if_neg hroom, Option.map_some, foldl_push, List.nil_append]
  · rw [hunits]
    dsimp only
    omega

/-- The string of a text of characters. -/
theorem jsNewStringLen_encode (hle : ∀ c ∈ cs, c ≤ 0x10ffff)
    (hlength : (encode cs).length < 2 ^ 30)
    (hgrants : Grants memory (13 + 2 * (encode cs).length)) :
    jsNewStringLen memory (encode cs) = some (shortest (cs.flatMap unitsOf)) := by
  obtain ⟨htake, hdrop⟩ := takeWhile_encode hle
  have hcount : countAscii (encode cs) = (cs.takeWhile (· < 0x80)).length := by
    rw [countAscii, htake, List.length_map]
  have hsplit := List.takeWhile_append_dropWhile (p := (· < 128)) (l := encode cs)
  have hfirst : (encode cs).take (countAscii (encode cs)) =
      (cs.takeWhile (· < 0x80)).map UInt8.ofNat := by
    rw [← htake]
    exact (List.prefix_iff_eq_take.mp (List.takeWhile_prefix _)).symm
  have hrest : (encode cs).drop (countAscii (encode cs)) = encode (cs.dropWhile (· < 0x80)) := by
    rw [← hdrop]
    conv_lhs => enter [2]; rw [← hsplit]
    exact List.drop_left
  have hascii : ∀ c ∈ cs.takeWhile (· < 0x80), c < 0x80 :=
    fun c hc => by simpa using List.mem_takeWhile_imp hc
  have hlengths : (cs.takeWhile (· < 0x80)).length + (encode (cs.dropWhile (· < 0x80))).length =
      (encode cs).length := by
    rw [← hsplit, List.length_append, htake, hdrop, List.length_map]
  have hle' : ∀ c ∈ cs.dropWhile (· < 0x80), c ≤ 0x10ffff :=
    fun c hc => hle c ((List.dropWhile_suffix _).subset hc)
  have hwhole := List.takeWhile_append_dropWhile (p := (· < 0x80)) (l := cs)
  have hmax : jsStringLenMax = 2 ^ 30 - 1 := rfl
  unfold jsNewStringLen
  dsimp only
  rw [if_neg (by omega)]
  split_ifs with hend
  · -- all characters are ASCII
    have hall : cs.takeWhile (· < 0x80) = cs := by
      rw [hrest] at hend
      have hnone := (encode_length hle').1.trans (encode_length hle').2.1
      rw [hend] at hnone
      rw [List.length_eq_zero_iff.mp (Nat.le_zero.mp hnone), List.append_nil] at hwhole
      exact hwhole
    rw [newString8Len_granted hgrants (by omega) (by omega),
      ← List.take_of_length_le (List.drop_eq_nil_iff.mp hend), hfirst, hall,
      shortest_ascii (hall ▸ hascii)]
  · obtain ⟨buffer, hwrite, h⟩ := write8_builds hgrants hlength hascii hlengths.le
    obtain ⟨buffer', hloop, h'⟩ := decodeLoop_encode hlength hgrants hle' (by omega)
      (show (encode (cs.dropWhile (· < 0x80))).length ≤ (encode cs).length by omega) h
    rw [← List.flatMap_append, hwhole] at h'
    rw [toInt32_eq (by omega), ← Option.bind_assoc, hfirst, hwrite, Option.bind_some, hrest, hloop,
      Option.map_some, stringBufferEnd_eq h'.str_eq]

end Decoding

section RoundTrips

/-! `memory` is how the allocator answers the first call, `memory'` the second. -/

/-- A text of characters that are not read as one comes back. -/
theorem text_comesBack (h : Unpaired cs) (hlength : 3 * (encode cs).length < 2 ^ 31)
    (hgrants : Grants memory (13 + 3 * (encode cs).length))
    (hgrants' : Grants memory' (13 + 3 * (encode cs).length)) :
    (jsNewStringLen memory (encode cs)).bind (jsToCString memory') = some (encode cs) := by
  obtain ⟨-, hunits, -⟩ := encode_length h.le
  rw [jsNewStringLen_encode h.le (by omega) (hgrants.mono (by omega)), Option.bind_some,
    jsToCString_eq, units_shortest, codes_flatMap_unitsOf h]
  · rw [units_shortest]
    omega
  · rw [units_shortest]
    exact hgrants'.mono (by omega)

/-- A text comes back from its string exactly if it is made of characters up to U+10FFFF, lone
surrogates among them, of which no two would be read as one. -/
theorem text_comesBack_iff (hlength : 3 * text.length < 2 ^ 31)
    (hgrants : Grants memory (13 + 3 * text.length))
    (hgrants' : Grants memory' (13 + 3 * text.length)) :
    (jsNewStringLen memory text).bind (jsToCString memory') = some text ↔
      ∃ cs, Unpaired cs ∧ text = encode cs := by
  constructor
  · intro h
    obtain ⟨s, -, hs⟩ := Option.bind_eq_some_iff.mp h
    exact ⟨codes (units s), unpaired_codes _, jsToCString_text hs⟩
  · rintro ⟨cs, hcs, rfl⟩
    exact text_comesBack hcs hlength hgrants hgrants'

theorem pageMemory_grants : Grants pageMemory 4096 := by
  intro _ bytes hbytes
  exact ⟨_, by omega, if_pos hbytes⟩

/-- Three letters, one of which takes two bytes, and a continuation byte alone. -/
theorem text_comesBack_iff_letters :
    (jsNewStringLen pageMemory [0x61, 0xc3, 0xa9, 0x62]).bind (jsToCString pageMemory) =
        some [0x61, 0xc3, 0xa9, 0x62] ∧
      ¬∃ cs, Unpaired cs ∧ [0x80, 0x61] = encode cs := by
  constructor
  · refine (text_comesBack_iff (by decide) (pageMemory_grants.mono (by decide))
      (pageMemory_grants.mono (by decide))).mpr ⟨[0x61, 0xe9, 0x62], ⟨by decide, ?_⟩, rfl⟩
    simp [isHiSurrogate]
  · rw [← text_comesBack_iff (by decide) (pageMemory_grants.mono (by decide))
      (pageMemory_grants.mono (by decide))]
    decide

/-- Every string comes back from its text, lone surrogates and all, and is then narrow if it can
be. -/
theorem string_comesBack (s : JsString) (h : 3 * (units s).length < 2 ^ 30)
    (hgrants : Grants memory (13 + 3 * (units s).length))
    (hgrants' : Grants memory' (13 + 6 * (units s).length)) :
    (jsToCString memory s).bind (jsNewStringLen memory') = some (shortest (units s)) := by
  have hle := codes_le (units s)
  obtain ⟨-, -, hbytes⟩ := encode_length hle
  rw [flatMap_unitsOf_codes] at hbytes
  rw [jsToCString_eq (by omega) hgrants, Option.bind_some,
    jsNewStringLen_encode hle (by omega) (hgrants'.mono (by omega)), flatMap_unitsOf_codes]

/-- A pair of surrogates and a lone one, and a wide string that could be narrow. -/
theorem string_comesBack_surrogates :
    (jsToCString pageMemory (.wide [0xd83d, 0xde00, 0xd83d, 0x61])).bind (jsNewStringLen pageMemory) =
        some (.wide [0xd83d, 0xde00, 0xd83d, 0x61]) ∧
      (jsToCString pageMemory (.wide [0xe9, 0x61])).bind (jsNewStringLen pageMemory) =
        some (.narrow [0xe9, 0x61]) :=
  ⟨string_comesBack (.wide [0xd83d, 0xde00, 0xd83d, 0x61]) (by decide)
      (pageMemory_grants.mono (by decide)) (pageMemory_grants.mono (by decide)),
    string_comesBack (.wide [0xe9, 0x61]) (by decide) (pageMemory_grants.mono (by decide))
      (pageMemory_grants.mono (by decide))⟩

theorem char_valid (c : Char) : c.toNat < 0xd800 ∨ 0xdfff < c.toNat ∧ c.toNat < 0x110000 := c.valid

/-- On the characters of Unicode `unicode_to_utf8` is UTF-8. -/
theorem unicodeToUtf8_char (c : Char) : unicodeToUtf8 c.toNat = String.utf8EncodeChar c := by
  have hvalid := char_valid c
  unfold String.utf8EncodeChar
  change c.val.toNat < _ ∨ _ ∧ c.val.toNat < _ at hvalid
  change unicodeToUtf8 c.val.toNat = _
  generalize c.val.toNat = n at *
  dsimp only
  split_ifs with h₁ h₂ h₃
  · exact unicodeToUtf8_ascii (Nat.lt_succ_of_le h₁)
  · have hneeds : Needs 1 n := ⟨by decide, by decide, Nat.lt_of_not_le h₁, Nat.lt_succ_of_le h₂⟩
    have hsequence : byteSequence 1 n =
        [UInt8.ofNat (0xc0 + n / 64), UInt8.ofNat (0x80 + n / 1 % 64)] := rfl
    rw [unicodeToUtf8_eq hneeds, hsequence, show 0xc0 + n / 64 = n / 64 % 0x20 + 0xc0 by omega,
      Nat.div_one, Nat.add_comm 0x80]
  · have hneeds : Needs 2 n := ⟨by decide, by decide, Nat.lt_of_not_le h₂, Nat.lt_succ_of_le h₃⟩
    have hsequence : byteSequence 2 n = [UInt8.ofNat (0xe0 + n / 4096),
        UInt8.ofNat (0x80 + n / 64 % 64), UInt8.ofNat (0x80 + n / 1 % 64)] := rfl
    rw [unicodeToUtf8_eq hneeds, hsequence, show 0xe0 + n / 4096 = n / 4096 % 0x10 + 0xe0 by omega,
      Nat.div_one, Nat.add_comm 0x80, Nat.add_comm 0x80]
  · have hneeds : Needs 3 n := ⟨by decide, by decide, Nat.lt_of_not_le h₃,
      show n < 0x200000 by omega⟩
    have hsequence : byteSequence 3 n = [UInt8.ofNat (0xf0 + n / 262144),
        UInt8.ofNat (0x80 + n / 4096 % 64), UInt8.ofNat (0x80 + n / 64 % 64),
        UInt8.ofNat (0x80 + n / 1 % 64)] := rfl
    rw [unicodeToUtf8_eq hneeds, hsequence,
      show 0xf0 + n / 262144 = n / 262144 % 0x08 + 0xf0 by omega, Nat.div_one, Nat.add_comm 0x80,
      Nat.add_comm 0x80, Nat.add_comm 0x80]

/-- Every text of Unicode characters comes back. -/
theorem unicode_comesBack (chars : List Char)
    (hlength : 3 * (chars.flatMap String.utf8EncodeChar).length < 2 ^ 31)
    (hgrants : Grants memory (13 + 3 * (chars.flatMap String.utf8EncodeChar).length))
    (hgrants' : Grants memory' (13 + 3 * (chars.flatMap String.utf8EncodeChar).length)) :
    (jsNewStringLen memory (chars.flatMap String.utf8EncodeChar)).bind (jsToCString memory') =
      some (chars.flatMap String.utf8EncodeChar) := by
  have hsame : chars.flatMap String.utf8EncodeChar = encode (chars.map Char.toNat) := by
    rw [encode, List.flatMap_map]
    exact List.flatMap_congr fun c _ => (unicodeToUtf8_char c).symm
  rw [hsame] at hlength hgrants hgrants' ⊢
  refine text_comesBack ⟨fun n hn => ?_, List.Pairwise.isChain ?_⟩ hlength hgrants
    hgrants'
  · obtain ⟨c, -, rfl⟩ := List.mem_map.mp hn
    have hvalid := char_valid c
    omega
  · refine List.pairwise_map.mpr (List.pairwise_of_forall fun c _ hpair => ?_)
    have hvalid := char_valid c
    have hhi := isHiSurrogate_iff.mp hpair.1
    omega

end RoundTrips

section Lines

open RuntimeModel ShellLines ShellDialogue

variable {line : List UInt8} {keys : List KeyboardEvent}

/-- What can be typed. -/
structure Typeable (line : List UInt8) : Prop where
  ascii : ∀ b ∈ line, b < 0x80
  length_le : line.length ≤ 1023

theorem Typeable.typeKey (h : Typeable line) (key : KeyboardEvent) :
    Typeable (typeKey line key) := by
  obtain ⟨hascii, hlength⟩ := h
  unfold ShellLines.typeKey
  cases key.type with
  | character =>
    dsimp only
    split_ifs with hprintable hshort
    · refine ⟨?_, by rw [List.length_append, List.length_singleton]; omega⟩
      rw [List.forall_mem_append, List.forall_mem_singleton]
      exact ⟨hascii, UInt8.lt_trans hprintable.2 (by decide)⟩
    · exact ⟨by simp, by simp⟩
    · exact ⟨hascii, hlength⟩
  | backspace =>
    refine ⟨fun b hb => hascii b (List.mem_of_mem_dropLast hb), ?_⟩
    dsimp only
    rw [List.length_dropLast]
    omega
  | enter => exact ⟨by simp, by simp⟩
  | interrupt => exact ⟨by simp, by simp⟩
  | other => exact ⟨hascii, hlength⟩

theorem Typeable.submitted (h : Typeable line) :
    ∀ source ∈ submitted line keys, Typeable source := by
  induction keys generalizing line with
  | nil => simp [ShellLines.submitted]
  | cons key keys ih =>
    rw [ShellLines.submitted]
    split_ifs
    · rw [List.forall_mem_cons]
      exact ⟨h, ih (h.typeKey key)⟩
    · exact ih (h.typeKey key)

/-- The script is given the line that has been typed, character by character. -/
theorem submitted_string (hgrants : Grants memory 1036) : ∀ source ∈ submitted [] keys,
    jsNewStringLen memory source = some (.narrow source) := by
  intro source hsource
  have h : Typeable source := Typeable.submitted ⟨by simp, by simp⟩ source hsource
  have hcount : countAscii source = source.length := by
    rw [countAscii, List.takeWhile_eq_self_iff.mpr fun b hb => by simpa using h.ascii b hb]
  have hlength := h.length_le
  have hmax : jsStringLenMax = 2 ^ 30 - 1 := rfl
  unfold jsNewStringLen
  dsimp only
  rw [hcount, if_neg (by omega), if_pos (List.drop_length ..)]
  exact newString8Len_granted hgrants (by omega) (by omega)

end Lines

end JsOs.TextPassage
