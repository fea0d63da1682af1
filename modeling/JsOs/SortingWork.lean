import JsOs.QsortCorrectness
import Mathlib.Data.Nat.Log

/-!
# Sorting by any comparison function

What `qsort` does whatever the comparison function answers, also one that contradicts itself. It
comes to an end after a number of calls of the order `n log n`, and up to the last call of
`sift_down` it stays inside the array. That call follows the indices `0, 1, 3, 7, ...` until the
element it carries is not below the next one; it stays inside the array exactly if this happens
there, and if it does then the array has been permuted.
-/

namespace JsOs.SortingWork

open CountedLoops ByteMemory MachineWords QsortModel QsortCorrectness ImplicitHeaps

variable {compare : Comparator} {base size count last fuel root k : ℕ} {m : Memory}
variable {s s' t u : SortState}

/-- What the first comparison of a round is given, if it is made. -/
def Looked (last root : ℕ) (looked : List ℕ) : Prop :=
  looked = [] ∨ looked = [2 * root + 1, 2 * root + 2] ∧ 2 * root + 1 < last

/-- The child that is chosen in a round. -/
def Chosen (last root c : ℕ) : Prop := c = 2 * root + 1 ∨ c = 2 * root + 2 ∧ 2 * root + 1 < last

theorem greaterChild_cases (compare : Comparator) (base size : ℕ) (s : SortState)
    (hlast : last < 2 ^ 64) : ∃ c looked, Chosen last root c ∧ Looked last root looked ∧
      greaterChild compare base size last (2 * root + 1) s =
        (c, ⟨s.memory, looked ++ s.touched⟩) := by
  unfold greaterChild
  by_cases hlt : 2 * root + 1 < last
  · have hsucc : add64 (2 * root + 1) 1 = 2 * root + 2 := add64_eq (by omega)
    rw [if_pos hlt, hsucc]
    refine ⟨_, _, ?_, .inr ⟨rfl, hlt⟩, rfl⟩
    split
    · exact .inr ⟨rfl, hlt⟩
    · exact .inl rfl
  · rw [if_neg hlt]
    exact ⟨_, [], .inl rfl, .inl rfl, rfl⟩

/-- One round of `sift_down`: it is the last, or an element is carried to one of its children. -/
theorem siftDownFrom_cases (hlast : last < 2 ^ 64)
    (h : siftDownFrom compare base size last (fuel + 1) root s = some s') :
    sub64 last 1 / 2 < root ∧ s' = s ∨
      ∃ c looked, root ≤ sub64 last 1 / 2 ∧ Chosen last root c ∧ Looked last root looked ∧
        (0 ≤ compare (item base size s.memory root) (item base size s.memory c) ∧
            s' = ⟨s.memory, root :: c :: (looked ++ s.touched)⟩ ∨
          compare (item base size s.memory root) (item base size s.memory c) < 0 ∧
            siftDownFrom compare base size last fuel c
              (swapAt base size ⟨s.memory, root :: c :: (looked ++ s.touched)⟩ root c) =
                some s') := by
  rw [siftDownFrom] at h
  by_cases hinner : root ≤ sub64 last 1 / 2
  · have hbound : sub64 last 1 < 2 ^ 64 := Nat.mod_lt _ (by decide)
    have hindex : add64 (mul64 root 2) 1 = 2 * root + 1 := by
      rw [mul64_eq (by omega), add64_eq (by omega), Nat.mul_comm]
    obtain ⟨c, looked, hc, hlooked, hgreater⟩ := greaterChild_cases compare base size s hlast
    rw [if_pos hinner, hindex, hgreater] at h
    refine .inr ⟨c, looked, hinner, hc, hlooked, ?_⟩
    by_cases horder : 0 ≤ compare (item base size s.memory root) (item base size s.memory c)
    · exact .inl ⟨horder, (Option.some.inj ((if_pos horder).symm.trans h)).symm⟩
    · exact .inr ⟨not_le.mp horder, (if_neg horder).symm.trans h⟩
  · rw [if_neg hinner] at h
    exact .inl ⟨not_le.mp hinner, (Option.some.inj h).symm⟩

section Work

theorem Looked.length_le {looked : List ℕ} (h : Looked last root looked) : looked.length ≤ 2 := by
  rcases h with rfl | ⟨rfl, _⟩
  · exact Nat.zero_le 2
  · exact Nat.le_refl 2

theorem Chosen.ge {c : ℕ} (h : Chosen last root c) : 2 * (root + 1) ≤ c + 1 := by
  rcases h with rfl | ⟨rfl, _⟩ <;> omega

/-- `root + 1` at least doubles in each round, and in each round at most six addresses are
passed. -/
theorem siftDownFrom_work (hlast : last < 2 ^ 64) (hk : 2 * (sub64 last 1 / 2 + 1) ≤ (root + 1) * 2 ^ k)
    (h : siftDownFrom compare base size last fuel root s = some s') :
    s'.touched.length ≤ s.touched.length + 6 * k := by
  induction fuel generalizing root k s with
  | zero => cases h
  | succ fuel ih =>
    rcases siftDownFrom_cases hlast h with ⟨_, rfl⟩ | ⟨c, looked, hinner, hc, hlooked, hround⟩
    · exact Nat.le_add_right _ _
    · have htwo := hlooked.length_le
      cases k with
      | zero =>
        rw [pow_zero, Nat.mul_one] at hk
        omega
      | succ k =>
        rcases hround with ⟨_, rfl⟩ | ⟨_, hrest⟩
        · simp only [List.length_cons, List.length_append]
          omega
        · have hnext : 2 * (sub64 last 1 / 2 + 1) ≤ (c + 1) * 2 ^ k := calc
            _ ≤ (root + 1) * 2 ^ (k + 1) := hk
            _ = 2 * (root + 1) * 2 ^ k := by ring
            _ ≤ (c + 1) * 2 ^ k := Nat.mul_le_mul_right _ hc.ge
          have hle := ih hnext hrest
          simp only [swapAt, List.length_cons, List.length_append] at hle
          omega

end Work

section Bounds

theorem Looked.inBounds {looked : List ℕ} (h : Looked last root looked) (hlast : last < count) :
    ∀ i ∈ looked, i < count := by
  rcases h with rfl | ⟨rfl, hlt⟩
  · simp
  · intro i hi
    have := List.mem_pair.mp hi
    omega

/-- Below the end of the heap, a round stays inside the array. -/
theorem siftDownFrom_inBounds (hpos : 0 < last) (hlast : last < count) (hcount : count < 2 ^ 64)
    (hs : InBounds count s)
    (h : siftDownFrom compare base size last fuel root s = some s') : InBounds count s' := by
  have hhalf : sub64 last 1 / 2 = (last - 1) / 2 := by rw [sub64_eq (by omega) (by omega)]
  induction fuel generalizing root s with
  | zero => cases h
  | succ fuel ih =>
    rcases siftDownFrom_cases (by omega) h with ⟨_, rfl⟩ | ⟨c, looked, hinner, hc, hlooked, hround⟩
    · exact hs
    · rw [hhalf] at hinner
      have hroot : root < count := by omega
      have hchild : c < count := by
        rcases hc with rfl | ⟨rfl, hlt⟩ <;> omega
      have htouch : InBounds count ⟨s.memory, root :: c :: (looked ++ s.touched)⟩ := by
        intro i hi
        simp only [List.mem_cons, List.mem_append] at hi
        rcases hi with rfl | rfl | hi | hi
        · exact hroot
        · exact hchild
        · exact hlooked.inBounds hlast i hi
        · exact hs i hi
      rcases hround with ⟨_, rfl⟩ | ⟨_, hrest⟩
      · exact htouch
      · exact ih (htouch.touch hroot hchild rfl) hrest

end Bounds

section Contents

/-- The elements have been exchanged among each other, and no byte outside the array has changed. -/
structure Permuted (base size count : ℕ) (m m' : Memory) : Prop where
  rearranged : Rearranged count 0 count (item base size m) (item base size m')
  frame : ∀ x, x < base ∨ base + count * size ≤ x → m' x = m x

theorem Permuted.refl (base size count : ℕ) (m : Memory) : Permuted base size count m m :=
  ⟨.refl .., fun _ _ => rfl⟩

theorem Permuted.trans {m' m'' : Memory} (h : Permuted base size count m m')
    (h' : Permuted base size count m' m'') : Permuted base size count m m'' where
  rearranged := h.rearranged.trans h'.rearranged (Nat.le_refl _)
  frame x hx := (h'.frame x hx).trans (h.frame x hx)

theorem permuted_swapAt {i j : ℕ} (hfit : base + count * size < 2 ^ 64) (s : SortState)
    (hi : i < count) (hj : j < count) (hij : i ≠ j) :
    Permuted base size count s.memory (swapAt base size s i j).memory where
  rearranged := .of_swap (Nat.zero_le i) (Nat.zero_le j) hi hj fun _ =>
    item_swapAt hfit s hi hj hij
  frame x hx := by
    have hi' := element_eq hfit hi
    have hj' := element_eq hfit hj
    refine (swapElements_apply (elements_apart hfit hi hj hij) x).trans ?_
    rw [if_neg (by omega), if_neg (by omega)]

/-- As long as only elements of the array are touched, they are only exchanged. -/
theorem siftDownFrom_permuted (hfit : base + count * size < 2 ^ 64) (hlast : last < 2 ^ 64)
    (hs' : InBounds count s')
    (h : siftDownFrom compare base size last fuel root s = some s') :
    Permuted base size count s.memory s'.memory := by
  induction fuel generalizing root s with
  | zero => cases h
  | succ fuel ih =>
    rcases siftDownFrom_cases hlast h with ⟨_, rfl⟩ | ⟨c, looked, hinner, hc, hlooked, hround⟩
    · exact .refl ..
    · rcases hround with ⟨_, rfl⟩ | ⟨_, hrest⟩
      · exact .refl ..
      · have hroot : root < count := hs' root (siftDownFrom_touched hrest List.mem_cons_self)
        have hchild : c < count :=
          hs' c (siftDownFrom_touched hrest (List.mem_cons_of_mem _ List.mem_cons_self))
        have hne : root ≠ c := by
          have := hc.ge
          omega
        exact (permuted_swapAt hfit ⟨s.memory, root :: c :: (looked ++ s.touched)⟩
          hroot hchild hne).trans (ih hrest)

end Contents

section LastCall

/-- A round of the call with `end` zero, from an index one below a power of two. -/
theorem siftDownFrom_zero_cases (hcount : count < 2 ^ 64) (hroot : root + 1 = 2 ^ k)
    (hlt : root < count)
    (h : siftDownFrom compare base size 0 (fuel + 1) root s = some s') :
    0 ≤ compare (item base size s.memory root) (item base size s.memory (2 * root + 1)) ∧
        s' = ⟨s.memory, root :: (2 * root + 1) :: s.touched⟩ ∨
      compare (item base size s.memory root) (item base size s.memory (2 * root + 1)) < 0 ∧
        siftDownFrom compare base size 0 fuel (2 * root + 1)
          (swapAt base size ⟨s.memory, root :: (2 * root + 1) :: s.touched⟩ root (2 * root + 1)) =
            some s' := by
  have hsmall : root ≤ 2 ^ 63 - 1 := by
    have hk : k < 64 := (Nat.pow_lt_pow_iff_right (show 1 < 2 by decide)).mp (by omega)
    have := Nat.pow_le_pow_right (show 0 < 2 by decide) (show k ≤ 63 by omega)
    omega
  have hhalf : sub64 0 1 / 2 = 2 ^ 63 - 1 := by decide
  rcases siftDownFrom_cases (by decide) h with ⟨hend, _⟩ | ⟨c, looked, _, hc, hlooked, hround⟩
  · omega
  · obtain rfl : c = 2 * root + 1 := hc.resolve_right fun hno => Nat.not_lt_zero _ hno.2
    obtain rfl : looked = [] := hlooked.resolve_right fun hno => Nat.not_lt_zero _ hno.2
    exact hround

theorem inBounds_cons {i j : ℕ} : InBounds count ⟨m, i :: j :: s.touched⟩ ↔
    i < count ∧ j < count ∧ InBounds count s := by
  simp [InBounds]

/-- The call with `end` zero, from an index one below a power of two: it stays inside the array
exactly if the element that is carried down stops at one of the next such indices. -/
theorem siftDownFrom_inBounds_iff (hfit : base + count * size < 2 ^ 64) (hcount : count < 2 ^ 64)
    (hroot : root + 1 = 2 ^ k) (hlt : root < count)
    (h : siftDownFrom compare base size 0 fuel root s = some s') :
    InBounds count s' ↔ InBounds count s ∧ ∃ j, k < j ∧ 2 ^ j - 1 < count ∧
      0 ≤ compare (item base size s.memory root) (item base size s.memory (2 ^ j - 1)) := by
  induction fuel generalizing root k s with
  | zero => cases h
  | succ fuel ih =>
    have hpow : 2 ^ (k + 1) - 1 = 2 * root + 1 := by rw [pow_succ]; omega
    have hlater {j : ℕ} (hj : k < j) : j = k + 1 ∨ k + 1 < j ∧ 2 * root + 1 < 2 ^ j - 1 := by
      rcases Nat.eq_or_lt_of_le (Nat.succ_le_of_lt hj) with rfl | hlt
      · exact .inl rfl
      · have := Nat.pow_lt_pow_right (show 1 < 2 by decide) hlt
        rw [Nat.succ_eq_add_one] at this hlt
        exact .inr ⟨hlt, by omega⟩
    have hround := siftDownFrom_zero_cases hcount hroot hlt h
    by_cases hchild : 2 * root + 1 < count
    · rcases hround with ⟨hstop, rfl⟩ | ⟨hgo, hrest⟩
      · rw [inBounds_cons]
        constructor
        · exact fun hb => ⟨hb.2.2, k + 1, Nat.lt_succ_self k, by rwa [hpow], by rwa [hpow]⟩
        · exact fun hb => ⟨hlt, hchild, hb.1⟩
      · -- the element is carried on, and those behind it are where they were
        rw [ih (k := k + 1) (by omega) hchild hrest]
        refine and_congr ?_ (exists_congr fun j => ?_)
        · refine Iff.trans (b := InBounds count ⟨s.memory, root :: (2 * root + 1) :: s.touched⟩)
            ?_ ?_
          · exact inBounds_cons.trans ⟨fun hb => hb.2.2, fun hb => ⟨hlt, hchild, hb⟩⟩
          · exact inBounds_cons.trans ⟨fun hb => hb.2.2, fun hb => ⟨hlt, hchild, hb⟩⟩
        · have hitem {i : ℕ} (hi : i < count) := item_swapAt hfit
            ⟨s.memory, root :: (2 * root + 1) :: s.touched⟩ hlt hchild (by omega) hi
          rw [hitem hchild, Equiv.swap_apply_right]
          constructor
          · rintro ⟨hj, hin, hle⟩
            obtain ⟨_, hfar⟩ := (hlater (Nat.lt_of_succ_lt hj)).resolve_left hj.ne'
            rw [hitem hin, Equiv.swap_apply_of_ne_of_ne (by omega) hfar.ne'] at hle
            exact ⟨Nat.lt_of_succ_lt hj, hin, hle⟩
          · rintro ⟨hj, hin, hle⟩
            rcases hlater hj with rfl | ⟨hj', hfar⟩
            · rw [hpow] at hle
              exact absurd hle (not_le.mpr hgo)
            · rw [hitem hin, Equiv.swap_apply_of_ne_of_ne (by omega) hfar.ne']
              exact ⟨hj', hin, hle⟩
    · have hmem : 2 * root + 1 ∈ s'.touched := by
        rcases hround with ⟨_, rfl⟩ | ⟨_, hrest⟩
        · exact List.mem_cons_of_mem _ List.mem_cons_self
        · exact siftDownFrom_touched hrest (List.mem_cons_of_mem _ List.mem_cons_self)
      refine iff_of_false (fun hb => hchild (hb _ hmem)) ?_
      rintro ⟨_, j, hj, hin, _⟩
      rcases hlater hj with rfl | ⟨_, hfar⟩
      · exact hchild (hpow ▸ hin)
      · exact hchild (hfar.trans hin)

end LastCall

section Runs

variable (hfit : base + count * size < 2 ^ 64) (hcount : count < 2 ^ 64)

/-- What holds after so many addresses have been passed at most. -/
structure Sofar (base size count : ℕ) (m : Memory) (work : ℕ) (t : SortState) : Prop where
  inBounds : InBounds count t
  permuted : Permuted base size count m t.memory
  length_le : t.touched.length ≤ work

theorem Sofar.mono {work work' : ℕ} (h : Sofar base size count m work t) (hle : work ≤ work') :
    Sofar base size count m work' t := { h with length_le := h.length_le.trans hle }

include hfit

theorem Sofar.swap {work i j : ℕ} (h : Sofar base size count m work t) (hi : i < count)
    (hj : j < count) (hij : i ≠ j) :
    Sofar base size count m (work + 2) (swapAt base size t i j) where
  inBounds := h.inBounds.touch hi hj rfl
  permuted := h.permuted.trans (permuted_swapAt hfit t hi hj hij)
  length_le := Nat.add_le_add_right h.length_le 2

include hcount

theorem Sofar.sift {work : ℕ} (compare : Comparator) (start : ℕ)
    (h : Sofar base size count m work t) (hk : count ≤ 2 ^ k)
    (hpos : 0 < last) (hlast : last < count) (hstart : start < count) :
    ∃ t', siftDown compare base size start last t = some t' ∧
      Sofar base size count m (work + 6 * k) t' := by
  obtain ⟨t', ht'⟩ : ∃ t', siftDown compare base size start last t = some t' :=
    siftDown_total (by omega) (by omega) t
  have hbounds := siftDownFrom_inBounds hpos hlast hcount h.inBounds ht'
  have hhalf : 2 * (sub64 last 1 / 2 + 1) ≤ (start + 1) * 2 ^ k := by
    rw [sub64_eq (by omega) (by omega)]
    have hle : 2 ^ k ≤ (start + 1) * 2 ^ k := Nat.le_mul_of_pos_left _ (Nat.succ_pos start)
    omega
  refine ⟨t', ht', hbounds, ?_, ?_⟩
  · exact h.permuted.trans (siftDownFrom_permuted hfit (by omega) hbounds ht')
  · exact (siftDownFrom_work (by omega) hhalf ht').trans
      (Nat.add_le_add_right h.length_le _)

theorem heapify_sofar (compare : Comparator) (m : Memory) (htwo : 2 ≤ count) (hk : count ≤ 2 ^ k) :
    ∃ t, heapify compare base size count ⟨m, []⟩ = some t ∧
      Sofar base size count m (6 * k * (count / 2)) t := by
  have hlast : sub64 count 1 = count - 1 := sub64_eq (by omega) hcount
  unfold heapify
  rw [hlast]
  refine countDownM_invariant (fun start t =>
    Sofar base size count m (6 * k * (count / 2 - start)) t) ?_ fun start t hstart ht => ?_
  · exact ⟨by simp [InBounds], .refl .., Nat.zero_le _⟩
  · obtain ⟨t', heq, h⟩ := ht.sift hfit hcount compare start hk
      (show 0 < count - 1 by omega) (by omega) (by omega)
    refine ⟨t', heq, h.mono ?_⟩
    rw [show count / 2 - start = count / 2 - (start + 1) + 1 by omega, Nat.mul_succ]

/-- The second loop: all its rounds but the last stay inside the array. -/
theorem extract_sofar {work : ℕ} (compare : Comparator) (htwo : 2 ≤ count) (hk : count ≤ 2 ^ k)
    (hs : Sofar base size count m work s) :
    ∃ s' v, extract compare base size count s = some s' ∧
      Sofar base size count m (work + (6 * k + 2) * (count - 2) + 2) v ∧
      siftDown compare base size 0 0 v = some s' := by
  have hlast : sub64 count 1 = count - 1 := sub64_eq (by omega) hcount
  unfold extract
  rw [hlast]
  have hround (last : ℕ) (t : SortState) (hlt : last < count - 1)
      (ht : Sofar base size count m (work + (6 * k + 2) * (count - 1 - (last + 1))) t) :
      ∃ t', extractRound compare base size (last + 1) t = some t' ∧
        (last ≠ 0 → Sofar base size count m (work + (6 * k + 2) * (count - 1 - last)) t') ∧
        (last = 0 → ∃ v, Sofar base size count m (work + (6 * k + 2) * (count - 2) + 2) v ∧
          siftDown compare base size 0 0 v = some t') := by
    have hswap := ht.swap (i := 0) (j := last + 1) hfit (by omega) (by omega) (by omega)
    rcases Nat.eq_zero_or_pos last with rfl | hpos
    · obtain ⟨t', heq⟩ : ∃ t', siftDown compare base size 0 0 (swapAt base size t 0 1) = some t' :=
        siftDown_total (by decide) (by decide) _
      rw [show count - 1 - (0 + 1) = count - 2 by omega] at hswap
      exact ⟨t', heq, fun h => absurd rfl h, fun _ => ⟨_, hswap, heq⟩⟩
    · obtain ⟨t', heq, h⟩ := hswap.sift hfit hcount compare 0 hk hpos (by omega) (by omega)
      refine ⟨t', heq, fun _ => h.mono ?_, fun h => absurd h hpos.ne'⟩
      rw [show count - 1 - last = count - 1 - (last + 1) + 1 by omega, Nat.mul_succ]
      omega
  obtain ⟨s', hrun, hend⟩ := countDownM_invariant (fun last t =>
      (last ≠ 0 → Sofar base size count m (work + (6 * k + 2) * (count - 1 - last)) t) ∧
      (last = 0 → ∃ v, Sofar base size count m (work + (6 * k + 2) * (count - 2) + 2) v ∧
        siftDown compare base size 0 0 v = some t))
    ⟨fun _ => hs.mono (Nat.le_add_right _ _), fun h => by omega⟩
    (fun last t hlt ht => hround last t hlt (ht.1 (Nat.succ_ne_zero last)))
  obtain ⟨v, hv, heq⟩ := hend.2 rfl
  exact ⟨s', v, hrun, hv, heq⟩

end Runs

theorem work_le (htwo : 2 ≤ count) (k : ℕ) :
    6 * k * (count / 2) + (6 * k + 2) * (count - 2) + 2 ≤ count * (9 * k + 2) := by
  have hfirst : 6 * k * (count / 2) ≤ 3 * k * count := calc
    6 * k * (count / 2) = 3 * k * (2 * (count / 2)) := by ring
    _ ≤ 3 * k * count := Nat.mul_le_mul_left _ (Nat.mul_div_le count 2)
  have hsecond : (6 * k + 2) * (count - 2) + (6 * k + 2) * 2 = (6 * k + 2) * count := by
    rw [← Nat.mul_add, Nat.sub_add_cancel htwo]
  have hsum : 3 * k * count + (6 * k + 2) * count = count * (9 * k + 2) := by ring
  omega

/-- Whatever the comparison function answers: `qsort` comes to an end, having passed no more than
`count * (9 * log count + 2) + 384` addresses; before the last call of `sift_down` it has permuted
the array; the last call stays inside the array exactly if the element it carries is not below one
of those at `1, 3, 7, ...`; and if it does, then the array has been permuted in the end. -/
theorem qsort_any_comparator (base count size : ℕ) (compare : Comparator) (m : Memory)
    (hbase : base ≠ 0) (hsize : size ≠ 0) (htwo : 2 ≤ count) (hfit : base + count * size < 2 ^ 64) :
    ∃ v s', qsort base count size (some compare) m = some s' ∧
      siftDown compare base size 0 0 v = some s' ∧
      InBounds count v ∧ Permuted base size count m v.memory ∧
      (InBounds count s' ↔ ∃ j, 0 < j ∧ 2 ^ j - 1 < count ∧
        0 ≤ compare (item base size v.memory 0) (item base size v.memory (2 ^ j - 1))) ∧
      (InBounds count s' → Permuted base size count m s'.memory) ∧
      s'.touched.length ≤ count * (9 * Nat.clog 2 count + 2) + 384 := by
  have hcount : count < 2 ^ 64 := count_lt (Nat.pos_of_ne_zero hsize) hfit
  have hk : count ≤ 2 ^ Nat.clog 2 count := Nat.le_pow_clog (by decide) count
  obtain ⟨t, hheapify, ht⟩ := heapify_sofar hfit hcount compare m htwo hk
  obtain ⟨s', v, hextract, hv, hlast⟩ := extract_sofar hfit hcount compare htwo hk ht
  have hguard : ¬(base = 0 ∨ count < 2 ∨ size = 0) := by
    rintro (h | h | h)
    · exact hbase h
    · exact absurd h (not_lt.mpr htwo)
    · exact hsize h
  refine ⟨v, s', ?_, hlast, hv.inBounds, hv.permuted, ?_, fun hb => ?_, ?_⟩
  · unfold qsort
    dsimp only
    rw [if_neg hguard, hheapify, Option.bind_some]
    exact hextract
  · rw [siftDownFrom_inBounds_iff (k := 0) hfit hcount rfl (by omega) hlast]
    exact and_iff_right hv.inBounds
  · exact hv.permuted.trans (siftDownFrom_permuted hfit (by decide) hb hlast)
  · -- the index arithmetic of the last call stops it after 64 rounds
    have hrounds := siftDownFrom_work (k := 64) (by decide) (by decide) hlast
    have hlength := hv.length_le
    have hwork := work_le htwo (Nat.clog 2 count)
    omega

/-- A comparison function that finds every element below every other carries the first one out of the
array; one that finds all alike does not. -/
theorem qsort_any_comparator_constant :
    (∃ s', qsort 100 5 1 (some fun _ _ => -1) (fun _ => 0) = some s' ∧ ¬InBounds 5 s') ∧
      ∃ s', qsort 100 5 1 (some fun _ _ => 0) (fun _ => 0) = some s' ∧ InBounds 5 s' := by
  constructor
  · obtain ⟨v, s', hrun, _, _, _, hiff, _⟩ := qsort_any_comparator 100 5 1 (fun _ _ => -1)
      (fun _ => 0) (by decide) (by decide) (by decide) (by decide)
    refine ⟨s', hrun, fun hb => ?_⟩
    obtain ⟨_, _, _, hle⟩ := hiff.mp hb
    exact absurd hle (by decide)
  · obtain ⟨v, s', hrun, _, _, _, hiff, _⟩ := qsort_any_comparator 100 5 1 (fun _ _ => 0)
      (fun _ => 0) (by decide) (by decide) (by decide) (by decide)
    exact ⟨s', hrun, hiff.mpr ⟨1, by decide, by decide, by decide⟩⟩

end JsOs.SortingWork
