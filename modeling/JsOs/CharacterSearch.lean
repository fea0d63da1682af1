import JsOs.StringMoves
import JsOs.StringOrder
import Mathlib.Order.Bounds.Basic

/-!
# Searching and comparing bytes

`memchr` and `strchr` give the first address of a byte, `strrchr` the last; the NUL of a string is
one of its bytes. `memcmp` compares bytes as unsigned numbers in lexicographic order.
-/

namespace JsOs.CharacterSearch

open ByteMemory KeyedComparisons StringOrder StringMoves

/-- The loop of `memcmp`, with the number of rounds left and the index. -/
def compareBytes (m : Memory) (left right : ℕ) : ℕ → ℕ → ℤ
  | 0, _ => 0
  | n + 1, i =>
    if m (left + i) ≠ m (right + i) then (if m (left + i) < m (right + i) then -1 else 1)
    else compareBytes m left right n (i + 1)

def memcmp (m : Memory) (left right count : ℕ) : ℤ := compareBytes m left right count 0

/-- The loop of `memchr`. -/
def searchBytes (m : Memory) (bytes : ℕ) (c : UInt8) : ℕ → ℕ → Option ℕ
  | 0, _ => none
  | n + 1, i => if m (bytes + i) = c then some (bytes + i) else searchBytes m bytes c n (i + 1)

/-- The address, or `none` for `NULL`. -/
def memchr (m : Memory) (memory : ℕ) (value : ℤ) (count : ℕ) : Option ℕ :=
  searchBytes m memory (UInt8.ofInt value) count 0

/-- `do { if (*text == (char)character) return text; } while (*text++ != '\0')`, with at most `fuel`
rounds. -/
def strchr (character : ℤ) : ℕ → ℕ → Memory → Option (Option ℕ)
  | 0, _, _ => none
  | fuel + 1, text, m =>
    if m text = UInt8.ofInt character then some (some text)
    else if m text ≠ 0 then strchr character fuel (text + 1) m else some none

/-- The loop of `strrchr`. -/
def lastFrom (character : ℤ) : ℕ → Option ℕ → ℕ → Memory → Option (Option ℕ)
  | 0, _, _, _ => none
  | fuel + 1, last, text, m =>
    let last := if m text = UInt8.ofInt character then some text else last
    if m text ≠ 0 then lastFrom character fuel last (text + 1) m else some last

def strrchr (character : ℤ) (fuel text : ℕ) (m : Memory) : Option (Option ℕ) :=
  lastFrom character fuel none text m

/-- The addresses of `c` among the `n` bytes at `a`. -/
def places (m : Memory) (a n : ℕ) (c : UInt8) : Set ℕ := {p | a ≤ p ∧ p < a + n ∧ m p = c}

variable {m : Memory} {a n i p fuel : ℕ} {c : UInt8} {text : List UInt8}

theorem mem_places : p ∈ places m a n c ↔ a ≤ p ∧ p < a + n ∧ m p = c := Iff.rfl

/-- The first byte and the others. -/
theorem mem_places_succ :
    p ∈ places m a (n + 1) c ↔ p = a ∧ m a = c ∨ p ∈ places m (a + 1) n c := by
  rw [mem_places, mem_places]
  constructor
  · rintro ⟨hle, hlt, hp⟩
    rcases Nat.eq_or_lt_of_le hle with rfl | hgt
    · exact .inl ⟨rfl, hp⟩
    · exact .inr ⟨hgt, by omega, hp⟩
  · rintro (⟨rfl, hp⟩ | ⟨hle, hlt, hp⟩)
    · exact ⟨Nat.le_refl p, by omega, hp⟩
    · exact ⟨by omega, by omega, hp⟩

/-- The result is the bound that `P` asks for, and none if the set is empty. -/
def Found (P : Set ℕ → ℕ → Prop) (s : Set ℕ) : Option ℕ → Prop
  | some p => P s p
  | none => s = ∅

abbrev Least : Set ℕ → Option ℕ → Prop := Found IsLeast

abbrev Greatest : Set ℕ → Option ℕ → Prop := Found IsGreatest

theorem Found.unique {P : Set ℕ → ℕ → Prop} {s : Set ℕ} {q r : Option ℕ}
    (hmem : ∀ p, P s p → p ∈ s) (hunique : ∀ p p', P s p → P s p' → p = p')
    (hq : Found P s q) (hr : Found P s r) : q = r := by
  cases q with
  | some p =>
    cases r with
    | some p' => exact congrArg some (hunique p p' hq hr)
    | none => exact absurd (hmem p hq) (hr ▸ Set.notMem_empty p)
  | none =>
    cases r with
    | some p => exact absurd (hmem p hr) (hq ▸ Set.notMem_empty p)
    | none => rfl

theorem places_zero (m : Memory) (a : ℕ) (c : UInt8) : places m a 0 c = ∅ :=
  Set.eq_empty_of_forall_notMem fun _ h => absurd h.2.1 (Nat.not_lt.mpr h.1)

theorem places_succ_of_ne (h : m a ≠ c) : places m a (n + 1) c = places m (a + 1) n c :=
  Set.ext fun _ => mem_places_succ.trans (or_iff_right fun hp => h hp.2)

/-- A first byte that is searched for is the result. -/
theorem Least.head (h : m a = c) : Least (places m a (n + 1) c) (some a) :=
  ⟨mem_places_succ.mpr (.inl ⟨rfl, h⟩), fun _ hp => hp.1⟩

/-- What the rest gives is the result, and the first byte only if the rest gives none. -/
theorem Greatest.cons {q : Option ℕ} (h : Greatest (places m (a + 1) n c) q) :
    Greatest (places m a (n + 1) c) (q.or (if m a = c then some a else none)) := by
  cases q with
  | some p =>
    refine ⟨mem_places_succ.mpr (.inr h.1), fun x hx => ?_⟩
    rcases mem_places_succ.mp hx with ⟨rfl, _⟩ | hx
    · exact (Nat.lt_of_succ_le h.1.1).le
    · exact h.2 hx
  | none =>
    rw [Option.none_or]
    by_cases ha : m a = c
    · rw [if_pos ha]
      refine ⟨mem_places_succ.mpr (.inl ⟨rfl, ha⟩), fun x hx => ?_⟩
      rcases mem_places_succ.mp hx with ⟨rfl, _⟩ | hx
      · exact Nat.le_refl x
      · exact absurd hx (h ▸ Set.notMem_empty x)
    · rw [if_neg ha, places_succ_of_ne ha]
      exact h

theorem searchBytes_least (bytes : ℕ) :
    Least (places m (bytes + i) n c) (searchBytes m bytes c n i) := by
  induction n generalizing i with
  | zero => exact places_zero m (bytes + i) c
  | succ n ih =>
    rw [searchBytes]
    by_cases hc : m (bytes + i) = c
    · rw [if_pos hc]
      exact .head hc
    · rw [if_neg hc, places_succ_of_ne hc]
      exact ih

theorem memchr_least (m : Memory) (memory : ℕ) (value : ℤ) (count : ℕ) :
    Least (places m memory count (UInt8.ofInt value)) (memchr m memory value count) :=
  searchBytes_least memory

theorem strchr_least (character : ℤ) (h : TextAt m a text) (hfuel : text.length < fuel) :
    ∃ r, strchr character fuel a m = some r ∧
      Least (places m a (text.length + 1) (UInt8.ofInt character)) r := by
  induction fuel generalizing a text with
  | zero => exact absurd hfuel (Nat.not_lt_zero _)
  | succ fuel ih =>
    rw [strchr]
    by_cases hc : m a = UInt8.ofInt character
    · rw [if_pos hc]
      exact ⟨some a, rfl, .head hc⟩
    · rw [if_neg hc, places_succ_of_ne hc]
      cases text with
      | nil =>
        rw [if_neg (not_not.mpr (TextAt.nil_iff.mp h))]
        exact ⟨none, rfl, places_zero m (a + 1) _⟩
      | cons d text =>
        obtain ⟨rfl, hd, htail⟩ := TextAt.cons_iff.mp h
        rw [if_pos hd]
        exact ih htail (Nat.lt_of_succ_lt_succ hfuel)

/-- The loop of `strrchr`: what was found before counts only if nothing is found now. -/
theorem lastFrom_greatest (character : ℤ) (h : TextAt m a text) (hfuel : text.length < fuel)
    (last : Option ℕ) :
    ∃ q, lastFrom character fuel last a m = some (q.or last) ∧
      Greatest (places m a (text.length + 1) (UInt8.ofInt character)) q := by
  induction fuel generalizing a text last with
  | zero => exact absurd hfuel (Nat.not_lt_zero _)
  | succ fuel ih =>
    have hlast (q : Option ℕ) : q.or (if m a = UInt8.ofInt character then some a else last) =
        (q.or (if m a = UInt8.ofInt character then some a else none)).or last := by
      rw [Option.or_assoc]
      split <;> rfl
    rw [lastFrom]
    cases text with
    | nil =>
      rw [if_neg (not_not.mpr (TextAt.nil_iff.mp h))]
      exact ⟨_, congrArg some (hlast none), Greatest.cons (q := none) (places_zero m (a + 1) _)⟩
    | cons d text =>
      obtain ⟨rfl, hd, htail⟩ := TextAt.cons_iff.mp h
      obtain ⟨q, hq, hgreatest⟩ := ih htail (Nat.lt_of_succ_lt_succ hfuel)
        (if m a = UInt8.ofInt character then some a else last)
      rw [if_pos hd, hq, hlast]
      exact ⟨_, rfl, hgreatest.cons⟩

/-- In every string, the NUL included, `strchr` finds the first place and `strrchr` the last, and
`memchr` over the same bytes finds what `strchr` does. -/
theorem characters_found (h : TextAt m a text) (character : ℤ) :
    ∃ first last, (∀ fuel, text.length < fuel →
        strchr character fuel a m = some first ∧ strrchr character fuel a m = some last) ∧
      Least (places m a (text.length + 1) (UInt8.ofInt character)) first ∧
      Greatest (places m a (text.length + 1) (UInt8.ofInt character)) last ∧
      memchr m a character (text.length + 1) = first := by
  have hfirst := memchr_least m a character (text.length + 1)
  obtain ⟨last, _, hlast⟩ := lastFrom_greatest character h
    (Nat.lt_succ_self _) none
  refine ⟨_, last, fun fuel hfuel => ⟨?_, ?_⟩, hfirst, hlast, rfl⟩
  · obtain ⟨r, hr, hleast⟩ := strchr_least character h hfuel
    rw [hr, Found.unique (fun p hp => hp.1) (fun p p' => IsLeast.unique) hleast hfirst]
  · obtain ⟨q, hq, hgreatest⟩ := lastFrom_greatest character h hfuel none
    rw [strrchr, hq, Option.or_none,
      Found.unique (fun p hp => hp.1) (fun p p' => IsGreatest.unique) hgreatest hlast]

/-- Both in `aba`: the letter `b`, and the NUL, which is its own first and last place. -/
theorem characters_found_aba : ∃ first last,
    (∀ fuel, 3 < fuel → strchr 98 fuel 0 (fun x => if x = 1 then 98 else if x < 3 then 97 else 0) =
        some first ∧
      strrchr 98 fuel 0 (fun x => if x = 1 then 98 else if x < 3 then 97 else 0) = some last) ∧
      first = some 1 := by
  have htext : TextAt (fun x => if x = 1 then 98 else if x < 3 then 97 else 0) 0 [97, 98, 97] := by
    simp [TextAt.cons_iff]
  obtain ⟨first, last, hrun, _, _, hmemchr⟩ := characters_found htext 98
  exact ⟨first, last, hrun, hmemchr.symm⟩

/-- `memcmp` compares the bytes as unsigned numbers, in lexicographic order. -/
theorem memcmp_agrees (m : Memory) (left right count : ℕ) :
    Agrees (memcmp m left right count) (sortKey id (readBytes m left count))
      (sortKey id (readBytes m right count)) := by
  have hloop (n i : ℕ) : Agrees (compareBytes m left right n i)
      (sortKey id (readBytes m (left + i) n)) (sortKey id (readBytes m (right + i) n)) := by
    induction n generalizing i with
    | zero => exact .refl _
    | succ n ih =>
      rw [compareBytes, readBytes_succ, readBytes_succ]
      by_cases hne : m (left + i) ≠ m (right + i)
      · have hne' : (m (left + i)).toNat ≠ (m (right + i)).toNat :=
          fun heq => hne (UInt8.toNat_inj.mp heq)
        rw [if_pos hne]
        refine Agrees.cons_ne ?_ hne'
        by_cases hlt : m (left + i) < m (right + i)
        · rw [if_pos hlt]
          exact .of_lt (by decide) (UInt8.lt_iff_toNat_lt.mp hlt)
        · rw [if_neg hlt]
          have hge := mt UInt8.lt_iff_toNat_lt.mpr hlt
          exact .of_gt (by decide) (lt_of_le_of_ne (Nat.not_lt.mp hge) hne'.symm)
      · rw [if_neg hne, not_not.mp hne]
        exact (ih (i + 1)).cons _
  exact hloop count 0

end JsOs.CharacterSearch
