import JsOs.MemoryMoves
import Mathlib.Data.List.TakeWhile

/-!
# Copies of strings

`strcpy` and `strcat` end at the NUL that they read, `strncpy` at its count. A copy whose destination
lies in the string it copies overwrites the NUL before it comes to it, and never ends.
-/

namespace JsOs.StringMoves

open CountedLoops ByteMemory MemoryMoves

/-- `while ((*destination++ = *source++) != '\0') {}`, with at most `fuel` rounds. -/
def copyText : ℕ → ℕ → ℕ → Memory → Option Memory
  | 0, _, _, _ => none
  | fuel + 1, destination, source, m =>
    let c := m source
    let m := storeByte m destination c
    if c ≠ 0 then copyText fuel (destination + 1) (source + 1) m else some m

def strcpy (fuel destination source : ℕ) (m : Memory) : Option Memory :=
  copyText fuel destination source m

/-- The loop of `strlen` from the address `text` on. -/
def strlen : ℕ → ℕ → Memory → Option ℕ
  | 0, _, _ => none
  | fuel + 1, text, m => if m text ≠ 0 then (strlen fuel (text + 1) m).map (· + 1) else some 0

def strcat (fuel destination source : ℕ) (m : Memory) : Option Memory :=
  (strlen fuel destination m).bind fun length => copyText fuel (destination + length) source m

/-- The first loop of `strncpy`, with the number of rounds left and the index. -/
def copyUpTo (destination source : ℕ) : ℕ → ℕ → Memory → ℕ × Memory
  | 0, index, m => (index, m)
  | left + 1, index, m =>
    if m (source + index) ≠ 0 then
      copyUpTo destination source left (index + 1) (copyByte m destination source index)
    else (index, m)

def strncpy (m : Memory) (destination source count : ℕ) : Memory :=
  let (index, m) := copyUpTo destination source count 0 m
  forRange index count (fun i m => storeByte m (destination + i) 0) m

/-- The string at the address `a`. -/
structure TextAt (m : Memory) (a : ℕ) (text : List UInt8) : Prop where
  bytes : readBytes m a text.length = text
  nul : m (a + text.length) = 0
  nul_notMem : 0 ∉ text

variable {m m' : Memory} {a d s n fuel : ℕ} {c : UInt8} {text left right : List UInt8}

theorem readBytes_succ (m : Memory) (a n : ℕ) :
    readBytes m a (n + 1) = m a :: readBytes m (a + 1) n := by
  unfold readBytes
  rw [List.ofFn_succ]
  simp [Nat.add_comm, Nat.add_left_comm]

theorem readBytes_add (m : Memory) (a n k : ℕ) :
    readBytes m a (n + k) = readBytes m a n ++ readBytes m (a + n) k := by
  induction n generalizing a with
  | zero => simp [readBytes]
  | succ n ih =>
    rw [Nat.succ_add, readBytes_succ, readBytes_succ, ih, List.cons_append,
      Nat.add_assoc, Nat.add_comm 1]

namespace TextAt

@[simp] theorem nil_iff : TextAt m a [] ↔ m a = 0 :=
  ⟨fun h => h.nul, fun h => ⟨rfl, h, List.not_mem_nil⟩⟩

theorem cons_iff : TextAt m a (c :: text) ↔ m a = c ∧ c ≠ 0 ∧ TextAt m (a + 1) text := by
  constructor
  · rintro ⟨hbytes, hnul, hmem⟩
    rw [List.length_cons, readBytes_succ, List.cons_eq_cons] at hbytes
    rw [List.mem_cons, not_or] at hmem
    rw [List.length_cons, Nat.add_comm text.length, ← Nat.add_assoc] at hnul
    exact ⟨hbytes.1, Ne.symm hmem.1, hbytes.2, hnul, hmem.2⟩
  · rintro ⟨rfl, hc, hbytes, hnul, hmem⟩
    refine ⟨by rw [List.length_cons, readBytes_succ, hbytes], ?_, ?_⟩
    · rwa [List.length_cons, Nat.add_comm text.length, ← Nat.add_assoc]
    · rw [List.mem_cons, not_or]
      exact ⟨hc.symm, hmem⟩

/-- Only the bytes of the string count. -/
theorem congr (h : TextAt m s text) (heq : ∀ i, i ≤ text.length → m' (d + i) = m (s + i)) :
    TextAt m' d text where
  bytes := (readBytes_congr fun i hi => heq i hi.le).trans h.bytes
  nul := (heq _ (Nat.le_refl _)).trans h.nul
  nul_notMem := h.nul_notMem

/-- No byte before the end is a NUL. -/
theorem ne_zero (h : TextAt m a text) {i : ℕ} (hi : i < text.length) : m (a + i) ≠ 0 := by
  induction text generalizing a i with
  | nil => exact absurd hi (Nat.not_lt_zero i)
  | cons c text ih =>
    obtain ⟨rfl, hc, htail⟩ := cons_iff.mp h
    cases i with
    | zero => exact hc
    | succ i =>
      rw [Nat.add_comm i, ← Nat.add_assoc]
      exact ih htail (Nat.lt_of_succ_lt_succ hi)

theorem append (h : TextAt m (a + left.length) right) (hleft : readBytes m a left.length = left)
    (hmem : 0 ∉ left) : TextAt m a (left ++ right) where
  bytes := by rw [List.length_append, readBytes_add, hleft, h.bytes]
  nul := by rw [List.length_append, ← Nat.add_assoc, h.nul]
  nul_notMem := by
    rw [List.mem_append, not_or]
    exact ⟨hmem, h.nul_notMem⟩

end TextAt

theorem strlen_text (h : TextAt m a text) (hfuel : text.length < fuel) :
    strlen fuel a m = some text.length := by
  induction fuel generalizing a text with
  | zero => exact absurd hfuel (Nat.not_lt_zero _)
  | succ fuel ih =>
    cases text with
    | nil => exact if_neg (not_not.mpr (TextAt.nil_iff.mp h))
    | cons c text =>
      obtain ⟨rfl, hc, htail⟩ := TextAt.cons_iff.mp h
      rw [strlen, if_pos hc, ih htail (Nat.lt_of_succ_lt_succ hfuel), Option.map_some,
        List.length_cons]

/-- More rounds do not change what is found. -/
theorem strlen_add (h : strlen fuel a m = some n) (k : ℕ) : strlen (fuel + k) a m = some n := by
  induction fuel generalizing a n with
  | zero => exact absurd h (Option.some_ne_none n).symm
  | succ fuel ih =>
    rw [Nat.succ_add]
    unfold strlen at h ⊢
    by_cases hc : m a ≠ 0
    · rw [if_pos hc] at h ⊢
      obtain ⟨i, hi, rfl⟩ := Option.map_eq_some_iff.mp h
      rw [ih hi, Option.map_some]
    · rwa [if_neg hc] at h ⊢

theorem copyText_add (h : copyText fuel d s m = some m') (k : ℕ) :
    copyText (fuel + k) d s m = some m' := by
  induction fuel generalizing d s m with
  | zero => exact absurd h (Option.some_ne_none m').symm
  | succ fuel ih =>
    rw [Nat.succ_add]
    unfold copyText at h ⊢
    by_cases hc : m s ≠ 0
    · rw [if_pos hc] at h ⊢
      exact ih h
    · rwa [if_neg hc] at h ⊢

/-- What is found within some number of rounds is the length. -/
theorem strlen_eq (h : TextAt m a text) (hlen : strlen fuel a m = some n) : n = text.length := by
  have hmore := strlen_add hlen (text.length + 1)
  rw [strlen_text h (by omega)] at hmore
  exact (Option.some.inj hmore).symm

/-- One round of a copy that is not disturbed. -/
theorem moved_storeByte (h : d ≤ s ∨ s + n < d) :
    moved (storeByte m d (m s)) (d + 1) (s + 1) n = moved m d s (n + 1) := by
  funext x
  unfold moved
  rcases Nat.lt_trichotomy x d with hlt | rfl | hgt
  · rw [if_neg (by omega), if_neg (by omega), storeByte_of_ne hlt.ne]
  · rw [if_neg (by omega), if_pos (by omega), storeByte_same, Nat.sub_self, Nat.add_zero]
  · by_cases hx : x < d + (n + 1)
    · rw [if_pos (by omega), if_pos ⟨hgt.le, hx⟩, storeByte_of_ne (by omega),
        show s + 1 + (x - (d + 1)) = s + (x - d) by omega]
    · rw [if_neg (by omega), if_neg (by omega), storeByte_of_ne hgt.ne']

/-- The loop outside the string: it copies the string with its NUL. -/
theorem copyText_moves (h : TextAt m s text) (hout : d ≤ s ∨ s + text.length < d)
    (hfuel : text.length < fuel) :
    copyText fuel d s m = some (moved m d s (text.length + 1)) := by
  induction fuel generalizing d s m text with
  | zero => exact absurd hfuel (Nat.not_lt_zero _)
  | succ fuel ih =>
    cases text with
    | nil =>
      rw [List.length_nil] at hout ⊢
      rw [copyText, if_neg (not_not.mpr (TextAt.nil_iff.mp h)), ← moved_storeByte hout]
      refine congrArg some (funext fun x => (if_neg ?_).symm)
      omega
    | cons c text =>
      obtain ⟨rfl, hc, htail⟩ := TextAt.cons_iff.mp h
      rw [List.length_cons] at hout hfuel ⊢
      -- the rest of the string is not touched by the byte that is written
      have hrest : TextAt (storeByte m d (m s)) (s + 1) text :=
        htail.congr fun i hi => storeByte_of_ne (by omega) _
      rw [copyText, if_pos hc, ih hrest (by omega) (by omega), moved_storeByte hout]

/-- The loop into the string: every byte it will read is one that it has read. -/
theorem copyText_none (hlt : s < d) (hne : ∀ x, s ≤ x → x < d → m x ≠ 0) (fuel : ℕ) :
    copyText fuel d s m = none := by
  induction fuel generalizing d s m with
  | zero => rfl
  | succ fuel ih =>
    have hc := hne s (Nat.le_refl s) hlt
    rw [copyText, if_pos hc]
    apply ih (Nat.succ_lt_succ hlt)
    intro x hs hd
    rcases Nat.lt_or_eq_of_le (Nat.le_of_lt_succ hd) with hx | rfl
    · rw [storeByte_of_ne hx.ne]
      exact hne x (by omega) hx
    · rwa [storeByte_same]

/-- The loop ends unless the destination is behind the beginning of the string and not behind its
NUL; if it ends, it has copied the string with its NUL. -/
theorem copyText_iff (h : TextAt m s text) : (∃ fuel, copyText fuel d s m = some m') ↔
    (d ≤ s ∨ s + text.length < d) ∧ m' = moved m d s (text.length + 1) := by
  constructor
  · rintro ⟨fuel, hcopy⟩
    have hout : d ≤ s ∨ s + text.length < d := by
      by_contra hnot
      have hnone : copyText fuel d s m = none := by
        apply copyText_none (by omega)
        intro x hs hd
        have hx := h.ne_zero (show x - s < text.length by omega)
        rwa [Nat.add_sub_cancel' hs] at hx
      rw [hnone] at hcopy
      exact Option.some_ne_none m' hcopy.symm
    have hmore := copyText_add hcopy (text.length + 1)
    rw [copyText_moves h hout (by omega)] at hmore
    exact ⟨hout, (Option.some.inj hmore).symm⟩
  · rintro ⟨hout, rfl⟩
    exact ⟨text.length + 1, copyText_moves h hout (Nat.lt_succ_self _)⟩

theorem moved_text (h : TextAt m s text) : TextAt (moved m d s (text.length + 1)) d text :=
  h.congr fun i hi => by
    unfold moved
    rw [if_pos (by omega), Nat.add_sub_cancel_left]

/-- `strcpy` comes to an end exactly if the destination is not behind the beginning of the string,
or is behind its NUL. The string is then at the destination, and no other byte has changed. -/
theorem strcpy_ends_iff (h : TextAt m s text) (d : ℕ) :
    ((∃ fuel m', strcpy fuel d s m = some m') ↔ d ≤ s ∨ s + text.length < d) ∧
      ∀ fuel m', strcpy fuel d s m = some m' → TextAt m' d text ∧
        ∀ x, (x < d ∨ d + text.length < x) → m' x = m x := by
  refine ⟨⟨?_, fun hout => ?_⟩, fun fuel m' hcopy => ?_⟩
  · rintro ⟨fuel, m', hcopy⟩
    exact ((copyText_iff h).mp ⟨fuel, hcopy⟩).1
  · obtain ⟨fuel, hcopy⟩ := (copyText_iff h).mpr ⟨hout, rfl⟩
    exact ⟨fuel, _, hcopy⟩
  · obtain ⟨_, rfl⟩ := (copyText_iff h).mp ⟨fuel, hcopy⟩
    refine ⟨moved_text h, fun x hx => if_neg ?_⟩
    omega

/-- A string of two characters, copied onto its own second character and behind itself. -/
theorem strcpy_ends_iff_two :
    (¬∃ fuel m', strcpy fuel 1 0 (fun x => if x < 2 then 97 else 0) = some m') ∧
      ∃ fuel m', strcpy fuel 3 0 (fun x => if x < 2 then 97 else 0) = some m' := by
  have htext : TextAt (fun x => if x < 2 then 97 else 0) 0 [97, 97] := by
    simp [TextAt.cons_iff]
  constructor
  · rw [(strcpy_ends_iff htext 1).1]
    decide
  · rw [(strcpy_ends_iff htext 3).1]
    decide

/-- `strcat` comes to an end exactly if the end of the first string is not behind the beginning of
the second, or is behind its NUL. The strings then stand one behind the other at the destination, and
only the bytes of the second and its NUL have been written. -/
theorem strcat_ends_iff (hleft : TextAt m d left) (hright : TextAt m s right) :
    ((∃ fuel m', strcat fuel d s m = some m') ↔
        d + left.length ≤ s ∨ s + right.length < d + left.length) ∧
      ∀ fuel m', strcat fuel d s m = some m' → TextAt m' d (left ++ right) ∧
        ∀ x, (x < d + left.length ∨ d + left.length + right.length < x) → m' x = m x := by
  -- within any number of rounds, both loops have come to their ends or `strcat` has not
  have hstrcat (m' : Memory) : (∃ fuel, strcat fuel d s m = some m') ↔
      ∃ fuel, copyText fuel (d + left.length) s m = some m' := by
    constructor
    · rintro ⟨fuel, h⟩
      obtain ⟨n, hlen, hcopy⟩ := Option.bind_eq_some_iff.mp h
      rw [strlen_eq hleft hlen] at hcopy
      exact ⟨fuel, hcopy⟩
    · rintro ⟨fuel, h⟩
      refine ⟨fuel + (left.length + 1), Option.bind_eq_some_iff.mpr ⟨left.length, ?_, ?_⟩⟩
      · exact strlen_text hleft (by omega)
      · exact copyText_add h _
  refine ⟨⟨?_, fun hout => ?_⟩, fun fuel m' h => ?_⟩
  · rintro ⟨fuel, m', h⟩
    exact ((copyText_iff hright).mp ((hstrcat m').mp ⟨fuel, h⟩)).1
  · obtain ⟨fuel, h⟩ := (hstrcat _).mpr ((copyText_iff hright).mpr ⟨hout, rfl⟩)
    exact ⟨fuel, _, h⟩
  · obtain ⟨_, rfl⟩ := (copyText_iff hright).mp ((hstrcat m').mp ⟨fuel, h⟩)
    have hframe {x : ℕ} (hx : x < d + left.length ∨ d + left.length + right.length < x) :
        moved m (d + left.length) s (right.length + 1) x = m x := if_neg (by omega)
    refine ⟨(moved_text hright).append ?_ hleft.nul_notMem, fun x => hframe⟩
    exact (readBytes_congr fun i hi => hframe (.inl (by omega))).trans hleft.bytes

/-- No string can be appended to itself. -/
theorem strcat_ends_iff_self :
    ¬∃ fuel m', strcat fuel 0 0 (fun x => if x < 2 then 97 else 0) = some m' := by
  have htext : TextAt (fun x => if x < 2 then 97 else 0) 0 [97, 97] := by
    simp [TextAt.cons_iff]
  rw [(strcat_ends_iff htext htext).1]
  decide

/-- The bytes before the first NUL among the `count` bytes at `s`. -/
def initial (m : Memory) (s count : ℕ) : List UInt8 := (readBytes m s count).takeWhile (· ≠ 0)

theorem initial_length_le (m : Memory) (s count : ℕ) : (initial m s count).length ≤ count :=
  ((List.takeWhile_prefix _).length_le).trans_eq readBytes_length

theorem initial_succ (m : Memory) (s count : ℕ) : initial m s (count + 1) =
    if m s ≠ 0 then m s :: initial m (s + 1) count else [] := by
  unfold initial
  rw [readBytes_succ, List.takeWhile_cons]
  simp

theorem readBytes_initial (m : Memory) (s count : ℕ) :
    readBytes m s (initial m s count).length = initial m s count := by
  rw [← readBytes_take (initial_length_le m s count)]
  exact (List.prefix_iff_eq_take.mp (List.takeWhile_prefix _)).symm

theorem zero_notMem_initial (m : Memory) (s count : ℕ) : 0 ∉ initial m s count :=
  fun h => by simpa using List.mem_takeWhile_imp h

/-- The first loop of `strncpy`. -/
theorem copyUpTo_moves {count : ℕ} (hout : d ≤ s ∨ s + count ≤ d) (i : ℕ) :
    copyUpTo d s count i m = (i + (initial m (s + i) count).length,
      moved m (d + i) (s + i) (initial m (s + i) count).length) := by
  induction count generalizing i m with
  | zero =>
    refine congrArg (Prod.mk i) (funext fun x => (if_neg ?_).symm)
    rw [show initial m (s + i) 0 = [] from rfl, List.length_nil]
    omega
  | succ count ih =>
    rw [copyUpTo, initial_succ]
    by_cases hc : m (s + i) ≠ 0
    · have hsame : initial (copyByte m d s i) (s + (i + 1)) count =
          initial m (s + i + 1) count := by
        unfold initial copyByte
        rw [readBytes_congr fun j hj => storeByte_of_ne (by omega) _]
        rfl
      have hle := initial_length_le m (s + i + 1) count
      rw [if_pos hc, if_pos hc, ih (by omega), hsame, List.length_cons, Nat.add_assoc i,
        Nat.add_comm 1, ← Nat.add_assoc d, ← Nat.add_assoc s]
      exact congrArg (Prod.mk _) (moved_storeByte (by omega))
    · rw [if_neg hc, if_neg hc]
      refine congrArg (Prod.mk i) (funext fun x => (if_neg ?_).symm)
      rw [List.length_nil]
      omega

/-- The second loop of `strncpy`. -/
theorem pad_apply {i count : ℕ} (hle : i ≤ count) (x : ℕ) :
    forRange i count (fun i m => storeByte m (d + i) 0) m x =
      if d + i ≤ x ∧ x < d + count then 0 else m x := by
  refine forRange_invariant (fun j (t : Memory) => t x =
    if d + i ≤ x ∧ x < d + j then 0 else m x) hle (if_neg (by omega)).symm ?_
  intro j t _ _ ht
  by_cases hx : x = d + j
  · rw [if_pos (by omega), hx, storeByte_same]
  · rw [storeByte_of_ne hx, ht]
    congr 1
    exact propext ⟨fun h => by omega, fun h => by omega⟩

theorem strncpy_apply {count : ℕ} (hout : d ≤ s ∨ s + count ≤ d) (x : ℕ) :
    strncpy m d s count x =
      if d + (initial m s count).length ≤ x ∧ x < d + count then 0
      else moved m d s (initial m s count).length x := by
  unfold strncpy
  rw [copyUpTo_moves hout 0]
  simp only [Nat.zero_add, Nat.add_zero]
  exact pad_apply (initial_length_le m s count) x

theorem mem_readBytes : c ∈ readBytes m a n ↔ ∃ i, i < n ∧ m (a + i) = c := by
  unfold readBytes
  rw [List.mem_ofFn, Fin.exists_iff]
  simp

theorem initial_length_lt_iff {count : ℕ} :
    (initial m s count).length < count ↔ 0 ∈ readBytes m s count := by
  have hle := initial_length_le m s count
  constructor
  · intro hlt
    by_contra hnot
    have hall : initial m s count = readBytes m s count :=
      List.takeWhile_eq_self_iff.mpr fun c hc => by
        simpa using fun heq : c = 0 => hnot (heq ▸ hc)
    rw [hall, readBytes_length] at hlt
    exact lt_irrefl count hlt
  · intro hmem
    refine lt_of_le_of_ne hle fun heq => zero_notMem_initial m s count ?_
    rwa [← readBytes_initial, heq]

/-- `strncpy` writes the bytes before the first NUL and fills up with zeros; what it leaves is a
string exactly if there is a NUL among the `count` bytes at the source. -/
theorem strncpy_pads {count : ℕ} (hout : d ≤ s ∨ s + count ≤ d) :
    readBytes (strncpy m d s count) d count =
        initial m s count ++ List.replicate (count - (initial m s count).length) 0 ∧
      (∀ x, (x < d ∨ d + count ≤ x) → strncpy m d s count x = m x) ∧
      ((∃ text, TextAt (strncpy m d s count) d text ∧ text.length < count) ↔
        0 ∈ readBytes m s count) := by
  have hle := initial_length_le m s count
  have hfirst : readBytes (strncpy m d s count) d (initial m s count).length =
      initial m s count := by
    refine (readBytes_congr fun i hi => ?_).trans (readBytes_initial m s count)
    rw [strncpy_apply hout, if_neg (by omega)]
    unfold moved
    rw [if_pos (by omega), Nat.add_sub_cancel_left]
  have hpad {i : ℕ} (hi : i < count - (initial m s count).length) :
      strncpy m d s count (d + (initial m s count).length + i) = 0 := by
    rw [strncpy_apply hout, if_pos (by omega)]
  have hbytes : readBytes (strncpy m d s count) d count =
      initial m s count ++ List.replicate (count - (initial m s count).length) 0 := by
    rw [← readBytes_zero fun i => hpad]
    conv_rhs => enter [1]; rw [← hfirst]
    rw [← readBytes_add, Nat.add_sub_cancel' hle]
  refine ⟨hbytes, fun x hx => ?_, ?_⟩
  · rw [strncpy_apply hout, if_neg (by omega)]
    exact if_neg (by omega)
  · rw [← initial_length_lt_iff]
    constructor
    · rintro ⟨text, htext, hlt⟩
      -- otherwise the whole destination holds bytes of the source, none of them a NUL
      refine lt_of_le_of_ne hle fun heq => zero_notMem_initial m s count ?_
      rw [← hfirst, heq]
      exact mem_readBytes.mpr ⟨text.length, hlt, htext.nul⟩
    · exact fun hlt => ⟨initial m s count,
        ⟨hfirst, hpad (i := 0) (by omega), zero_notMem_initial m s count⟩, hlt⟩

/-- A string of two characters in a field of two bytes has no NUL, in one of three it has. -/
theorem strncpy_pads_two :
    (¬∃ text, TextAt (strncpy (fun x => if x < 2 then 97 else 0) 8 0 2) 8 text ∧
        text.length < 2) ∧
      ∃ text, TextAt (strncpy (fun x => if x < 2 then 97 else 0) 8 0 3) 8 text ∧
        text.length < 3 := by
  constructor
  · rw [(strncpy_pads (.inr (by decide))).2.2]
    decide
  · rw [(strncpy_pads (.inr (by decide))).2.2]
    decide

end JsOs.StringMoves
