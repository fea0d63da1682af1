import JsOs.ImplicitHeaps
import JsOs.QsortModel

/-!
# What `qsort` does

`sift_down` keeps the heap order for every `end` above zero, so both loops do what a heap sort
does until the very last call. There `end` is zero, `(end - 1) / 2` is the largest `size_t` value
halved, and the loop runs on past the sorted array unless the two least elements are equal.
-/

namespace JsOs.QsortCorrectness

open CountedLoops ByteMemory MachineWords ImplicitHeaps QsortModel

/-- The sign of `compare` comes from a total preorder on the elements in `S`. -/
structure TotalPreorderOn (compare : Comparator) (S : List UInt8 → Prop) : Prop where
  trans : ∀ x y z, S x → S y → S z → compare x y ≤ 0 → compare y z ≤ 0 → compare x z ≤ 0
  flip : ∀ x y, S x → S y → (compare x y ≤ 0 ↔ 0 ≤ compare y x)

/-- `x` may stand above `y` in a heap. -/
def Above (compare : Comparator) (x y : List UInt8) : Prop := 0 ≤ compare x y

section Order

variable {compare : Comparator} {S : List UInt8 → Prop} {x y z : List UInt8}

theorem TotalPreorderOn.refl (h : TotalPreorderOn compare S) (hx : S x) : Above compare x x := by
  rcases le_total (compare x x) 0 with hle | hle
  · exact (h.flip x x hx hx).mp hle
  · exact hle

theorem TotalPreorderOn.total (h : TotalPreorderOn compare S) (hx : S x) (hy : S y)
    (hlt : compare x y < 0) : Above compare y x := (h.flip x y hx hy).mp (le_of_lt hlt)

theorem TotalPreorderOn.above_trans (h : TotalPreorderOn compare S) (hx : S x) (hy : S y)
    (hz : S z) (hxy : Above compare x y) (hyz : Above compare y z) : Above compare x z := by
  have hyx := (h.flip y x hy hx).mpr hxy
  have hzy := (h.flip z y hz hy).mpr hyz
  exact (h.flip z x hz hx).mp (h.trans z y x hz hy hx hzy hyx)

end Order

section Swap

variable {m : Memory} {a b base size count i j k : ℕ}

theorem swapElements_apply (h : a + size ≤ b ∨ b + size ≤ a) (x : ℕ) :
    swapElements m a b size x =
      if a ≤ x ∧ x < a + size then m (b + (x - a))
      else if b ≤ x ∧ x < b + size then m (a + (x - b)) else m x := by
  suffices hloop : ∀ y, swapElements m a b size y =
      if a ≤ y ∧ y < a + size then m (b + (y - a))
      else if b ≤ y ∧ y < b + size then m (a + (y - b)) else m y from hloop x
  refine forRange_invariant (fun i (t : Memory) => ∀ y, t y =
      if a ≤ y ∧ y < a + i then m (b + (y - a))
      else if b ≤ y ∧ y < b + i then m (a + (y - b)) else m y) (Nat.zero_le size) ?_ ?_
  · intro y
    rw [if_neg (by omega), if_neg (by omega)]
  · intro i t _ hi ht y
    have hta : t (a + i) = m (a + i) := by rw [ht, if_neg (by omega), if_neg (by omega)]
    have htb : t (b + i) = m (b + i) := by rw [ht, if_neg (by omega), if_neg (by omega)]
    by_cases hyb : y = b + i
    · subst hyb
      simp only [storeByte_same, hta]
      rw [if_neg (by omega), if_pos (by omega), Nat.add_sub_cancel_left]
    rw [storeByte_of_ne hyb]
    by_cases hya : y = a + i
    · subst hya
      rw [storeByte_same, htb, if_pos (by omega), Nat.add_sub_cancel_left]
    rw [storeByte_of_ne hya, ht]
    by_cases hin : a ≤ y ∧ y < a + i
    · rw [if_pos hin, if_pos (by omega)]
    rw [if_neg hin, if_neg (show ¬(a ≤ y ∧ y < a + (i + 1)) by omega)]
    by_cases hin' : b ≤ y ∧ y < b + i
    · rw [if_pos hin', if_pos (by omega)]
    · rw [if_neg hin', if_neg (by omega)]

variable (hfit : base + count * size < 2 ^ 64)

include hfit

theorem element_eq (hi : i < count) : element base size i = base + i * size ∧
    base + i * size + size ≤ base + count * size := by
  have hle : (i + 1) * size ≤ count * size := Nat.mul_le_mul_right size hi
  rw [Nat.succ_mul] at hle
  unfold element
  rw [mul64_eq (by omega), add64_eq (by omega)]
  omega

theorem elements_apart (hi : i < count) (hj : j < count) (hij : i ≠ j) :
    element base size i + size ≤ element base size j ∨
      element base size j + size ≤ element base size i := by
  rw [(element_eq hfit hi).1, (element_eq hfit hj).1]
  rcases Nat.lt_or_gt_of_ne hij with hlt | hlt
  · have hle : (i + 1) * size ≤ j * size := Nat.mul_le_mul_right size hlt
    rw [Nat.succ_mul] at hle
    omega
  · have hle : (j + 1) * size ≤ i * size := Nat.mul_le_mul_right size hlt
    rw [Nat.succ_mul] at hle
    omega

/-- `swap_elements` exchanges two elements and leaves the others alone. -/
theorem item_swapAt (s : SortState) (hi : i < count) (hj : j < count) (hij : i ≠ j)
    (hk : k < count) : item base size (swapAt base size s i j).memory k =
      item base size s.memory (Equiv.swap i j k) := by
  have hapart := elements_apart hfit hi hj hij
  unfold item swapAt
  apply readBytes_congr
  intro x hx
  dsimp only
  rw [swapElements_apply hapart]
  by_cases hki : k = i
  · subst hki
    rw [if_pos (by omega), Equiv.swap_apply_left, Nat.add_sub_cancel_left]
  by_cases hkj : k = j
  · subst hkj
    rw [if_neg (by omega), if_pos (by omega), Equiv.swap_apply_right, Nat.add_sub_cancel_left]
  have hki' := elements_apart hfit hk hi hki
  have hkj' := elements_apart hfit hk hj hkj
  rw [if_neg (by omega), if_neg (by omega), Equiv.swap_apply_of_ne_of_ne hki hkj]

end Swap

section SiftDown

variable {compare : Comparator} {base size count last : ℕ} {S : List UInt8 → Prop}
variable {s : SortState}

/-- Every index passed to `compare` or `swap_elements` so far is an index of the array. -/
def InBounds (count : ℕ) (s : SortState) : Prop := ∀ i ∈ s.touched, i < count

theorem InBounds.touch {t : SortState} {i j : ℕ} (h : InBounds count s) (hi : i < count)
    (hj : j < count) (ht : t.touched = i :: j :: s.touched) : InBounds count t := by
  intro k hk
  rw [ht] at hk
  rcases List.mem_cons.mp hk with rfl | hk
  · exact hi
  rcases List.mem_cons.mp hk with rfl | hk
  · exact hj
  · exact h k hk

/-- The child of `root` that is compared with it has no greater sibling. -/
theorem greaterChild_spec {root : ℕ} (hcmp : TotalPreorderOn compare S) (hcount : count < 2 ^ 64)
    (hS : ∀ i, i < count → S (item base size s.memory i)) (hlast : last < count)
    (hchild : 2 * root + 1 ≤ last) (hb : InBounds count s) : ∃ c t,
    greaterChild compare base size last (2 * root + 1) s = (c, t) ∧ t.memory = s.memory ∧
      InBounds count t ∧ IsChild c root ∧ c ≤ last ∧
      ∀ d, IsChild d root → d < last + 1 → d ≠ c →
        Above compare (item base size s.memory c) (item base size s.memory d) := by
  unfold greaterChild
  split_ifs with hlt
  · have hsucc : add64 (2 * root + 1) 1 = 2 * root + 2 := add64_eq (by omega)
    have hb' : InBounds count (compareAt compare base size s (2 * root + 1) (2 * root + 2)).2 :=
      hb.touch (i := 2 * root + 1) (j := 2 * root + 2) (by omega) (by omega) rfl
    rw [hsucc]
    dsimp only
    split_ifs with horder
    · refine ⟨_, _, rfl, rfl, hb', Or.inr rfl, by omega, fun d hd hdn hne => ?_⟩
      obtain rfl : d = 2 * root + 1 := by
        rcases hd with hd | hd <;> omega
      exact hcmp.total (hS _ (by omega)) (hS _ (by omega)) horder
    · refine ⟨_, _, rfl, rfl, hb', Or.inl rfl, by omega, fun d hd hdn hne => ?_⟩
      obtain rfl : d = 2 * root + 2 := by
        rcases hd with hd | hd <;> omega
      exact not_lt.mp horder
  · refine ⟨_, _, rfl, rfl, hb, Or.inl rfl, hchild, fun d hd hdn hne => ?_⟩
    rcases hd with hd | hd <;> omega

variable (hfit : base + count * size < 2 ^ 64) (hcount : count < 2 ^ 64)
variable (hcmp : TotalPreorderOn compare S)

include hfit hcount hcmp

/-- With a last index above zero, `sift_down` repairs the heap below `root`. -/
theorem siftDownFrom_spec (lo last root fuel : ℕ) (hpos : 0 < last) (hlast : last < count) (hlo : lo ≤ root)
    (hroot : root ≤ last) (hfuel : last < fuel + root)
    (hS : ∀ i, i < count → S (item base size s.memory i)) (hb : InBounds count s)
    (hheap : HeapBut (Above compare) (item base size s.memory) lo (last + 1) root) :
    ∃ s', siftDownFrom compare base size last fuel root s = some s' ∧
      HeapFrom (Above compare) (item base size s'.memory) lo (last + 1) ∧
      Rearranged count root (last + 1) (item base size s.memory) (item base size s'.memory) ∧
      InBounds count s' := by
  induction fuel generalizing root s with
  | zero => omega
  | succ fuel ih =>
    have hhalf : sub64 last 1 / 2 = (last - 1) / 2 := by rw [sub64_eq (by omega) (by omega)]
    rw [siftDownFrom, hhalf]
    split_ifs with hinner
    · have hindex : add64 (mul64 root 2) 1 = 2 * root + 1 := by
        rw [mul64_eq (by omega), add64_eq (by omega), Nat.mul_comm]
      obtain ⟨c, t, hgreater, hmem, hbt, hc, hcl, hsibling⟩ :=
        greaterChild_spec hcmp hcount hS hlast (show 2 * root + 1 ≤ last by omega) hb
      have hlt := hc.lt
      rw [hindex, hgreater]
      dsimp only [compareAt]
      rw [hmem]
      split_ifs with horder
      · -- the root stands above its greater child, hence above both
        refine ⟨_, rfl, ?_, ?_, hbt.touch (i := root) (j := c) (by omega) (by omega) rfl⟩
        · refine hheap.heap fun d hd hdn => ?_
          by_cases hdc : d = c
          · rw [hdc]
            exact horder
          · exact hcmp.above_trans (hS _ (by omega)) (hS _ (by omega)) (hS _ (by omega)) horder
              (hsibling d hd hdn hdc)
        · exact .refl ..
      · let t' : SortState := ⟨s.memory, root :: c :: t.touched⟩
        let u := swapAt base size t' root c
        have hu : ∀ i, i < count → item base size u.memory i =
            item base size s.memory (Equiv.swap root c i) := fun i hi =>
          item_swapAt hfit t' (by omega) (by omega) (by omega) hi
        have hre : Rearranged count root (last + 1) (item base size s.memory)
            (item base size u.memory) :=
          .of_swap (le_refl _) (by omega) (by omega) (by omega) hu
        have hbt' : InBounds count t' := hbt.touch (i := root) (j := c) (by omega) (by omega) rfl
        have hbu : InBounds count u := hbt'.touch (i := root) (j := c) (by omega) (by omega) rfl
        have hheap' : HeapBut (Above compare) (item base size u.memory) lo (last + 1) c :=
          hheap.swap hlo hc (by omega)
            (hcmp.total (hS _ (by omega)) (hS _ (by omega)) (not_le.mp horder)) hsibling
            fun i hi => hu i (by omega)
        obtain ⟨s', heq, hheap'', hre', hb'⟩ := ih c (by omega) hcl (by omega)
          (fun i hi => hre.values (by omega) hS hi) hbu hheap'
        exact ⟨s', heq, hheap'', hre.trans (hre'.mono (by omega) (le_refl _)) (by omega), hb'⟩
    · -- a root without children
      refine ⟨s, rfl, hheap.heap fun d hd hdn => ?_, .refl .., hb⟩
      rcases hd with hd | hd <;> omega

/-- The first loop builds a heap. -/
theorem heapify_spec (htwo : 2 ≤ count)
    (hS : ∀ i, i < count → S (item base size s.memory i)) (hb : InBounds count s) :
    ∃ s', heapify compare base size count s = some s' ∧
      HeapFrom (Above compare) (item base size s'.memory) 0 count ∧
      Rearranged count 0 count (item base size s.memory) (item base size s'.memory) ∧
      InBounds count s' := by
  have hlast : sub64 count 1 = count - 1 := sub64_eq (by omega) hcount
  unfold heapify
  rw [hlast]
  refine countDownM_invariant (fun start t =>
    HeapFrom (Above compare) (item base size t.memory) start count ∧
    Rearranged count 0 count (item base size s.memory) (item base size t.memory) ∧
    InBounds count t) ⟨fun i c hi hc hcn => ?_, .refl .., hb⟩ ?_
  · -- the second half has no children
    rcases hc with hc | hc <;> omega
  · rintro start t hstart ⟨hheap, hre, hbt⟩
    have hspec := siftDownFrom_spec hfit hcount hcmp start (count - 1) start siftFuel (by omega)
      (by omega) (le_refl _) (by omega) (by unfold siftFuel; omega) (fun i hi => hre.values (le_refl _) hS hi) hbt
    rw [Nat.sub_add_cancel (by omega)] at hspec
    obtain ⟨s', heq, hheap', hre', hb'⟩ := hspec hheap.but
    exact ⟨s', heq, hheap', hre.trans (hre'.mono (Nat.zero_le _) (le_refl _)) (le_refl _), hb'⟩

/-- What the second loop keeps: a heap up to `last`, and behind it the greatest elements in
order. -/
structure Extracting (compare : Comparator) (base size count last : ℕ) (f : ℕ → List UInt8)
    (t : SortState) : Prop where
  heap : HeapFrom (Above compare) (item base size t.memory) 0 (last + 1)
  sorted : ∀ i j, i ≤ j → last < j → j < count →
    Above compare (item base size t.memory j) (item base size t.memory i)
  rearranged : Rearranged count 0 count f (item base size t.memory)
  inBounds : InBounds count t

/-- Swapping the root of the heap behind the heap. -/
theorem Extracting.swap {f : ℕ → List UInt8} {t : SortState} (hpos : 0 < last)
    (hlast : last < count) (hf : ∀ i, i < count → S (f i))
    (E : Extracting compare base size count last f t) :
    let u := swapAt base size t 0 last
    HeapBut (Above compare) (item base size u.memory) 0 last 0 ∧
      (∀ i j, i ≤ j → last - 1 < j → j < count →
        Above compare (item base size u.memory j) (item base size u.memory i)) ∧
      Rearranged count 0 count f (item base size u.memory) ∧ InBounds count u := by
  intro u
  have hu : ∀ i, i < count → item base size u.memory i =
      item base size t.memory (Equiv.swap 0 last i) := fun i hi =>
    item_swapAt hfit t (by omega) hlast (by omega) hi
  have ht : ∀ i, i < count → S (item base size t.memory i) := fun i hi =>
    E.rearranged.values (le_refl _) hf hi
  have hother : ∀ i, i < count → i ≠ 0 → i ≠ last → item base size u.memory i =
      item base size t.memory i := fun i hi h₁ h₂ => by
    rw [hu i hi, Equiv.swap_apply_of_ne_of_ne h₁ h₂]
  have hfirst : item base size u.memory 0 = item base size t.memory last := by
    rw [hu 0 (by omega), Equiv.swap_apply_left]
  have hback : item base size u.memory last = item base size t.memory 0 := by
    rw [hu last hlast, Equiv.swap_apply_right]
  have htop : ∀ i, i ≤ last → Above compare (item base size t.memory 0)
      (item base size t.memory i) := fun i hi =>
    E.heap.top (fun i hi => hcmp.refl (ht i (by omega)))
      (fun i j k hi hj hk => hcmp.above_trans (ht i (by omega)) (ht j (by omega))
        (ht k (by omega))) (by omega)
  have hre : Rearranged count 0 count (item base size t.memory) (item base size u.memory) :=
    .of_swap (Nat.zero_le _) (Nat.zero_le _) (by omega) hlast hu
  refine ⟨⟨fun i c _ hne hc hcn => ?_, fun i c _ hchild => absurd hchild.lt (by omega)⟩, ?_,
    E.rearranged.trans hre (le_refl _),
    E.inBounds.touch (i := 0) (j := last) (by omega) hlast rfl⟩
  · have hlt := hc.lt
    rw [hother i (by omega) hne (by omega), hother c (by omega) (by omega) (by omega)]
    exact E.heap i c (Nat.zero_le _) hc (by omega)
  · intro i j hij hj hjn
    by_cases hjl : j = last
    · subst hjl
      rw [hback]
      by_cases hi0 : i = 0
      · rw [hi0, hfirst]
        exact htop j (le_refl _)
      by_cases hij' : i = j
      · rw [hij', hback]
        exact hcmp.refl (ht 0 (by omega))
      · rw [hother i (by omega) hi0 hij']
        exact htop i (by omega)
    rw [hother j hjn (by omega) hjl]
    by_cases hi0 : i = 0
    · rw [hi0, hfirst]
      exact E.sorted last j (by omega) (by omega) hjn
    by_cases hil : i = last
    · rw [hil, hback]
      exact E.sorted 0 j (by omega) (by omega) hjn
    · rw [hother i (by omega) hi0 hil]
      exact E.sorted i j hij (by omega) hjn

/-- One round of the second loop, while more than the root is left. -/
theorem Extracting.round {f : ℕ → List UInt8} {t : SortState} (hpos : 0 < last)
    (hlast : last + 1 < count) (hf : ∀ i, i < count → S (f i))
    (E : Extracting compare base size count (last + 1) f t) :
    ∃ s', siftDown compare base size 0 last (swapAt base size t 0 (last + 1)) = some s' ∧
      Extracting compare base size count last f s' := by
  obtain ⟨hheap, hsorted, hre, hb⟩ := E.swap hfit hcount hcmp (by omega) hlast hf
  obtain ⟨s', heq, hheap', hre', hb'⟩ := siftDownFrom_spec hfit hcount hcmp 0 last 0 siftFuel hpos
    (by omega) (le_refl _) (Nat.zero_le _) (by unfold siftFuel; omega)
    (fun i hi => hre.values (le_refl _) hf hi) hb hheap
  refine ⟨s', heq, hheap', fun i j hij hj hjn => ?_,
    hre.trans (hre'.mono (le_refl _) (by omega)) (le_refl _), hb'⟩
  rw [hre'.outside hjn (by omega)]
  by_cases hil : i ≤ last
  · obtain ⟨k, -, hk, heq⟩ := hre'.inside (show i < count by omega) (Nat.zero_le _)
      (show i < last + 1 by omega)
    rw [heq]
    exact hsorted k j (by omega) (by omega) hjn
  · rw [hre'.outside (by omega) (by omega)]
    exact hsorted i j hij (by omega) hjn

/-- The second loop up to its last call of `sift_down`. -/
theorem extract_spec (htwo : 2 ≤ count) {f : ℕ → List UInt8} (hf : ∀ i, i < count → S (f i))
    (E : Extracting compare base size count (count - 1) f s)
    (htotal : ∀ t, ∃ s', siftDown compare base size 0 0 t = some s') :
    ∃ s' u, extract compare base size count s = some s' ∧
      Extracting compare base size count 1 f u ∧
      siftDown compare base size 0 0 (swapAt base size u 0 1) = some s' := by
  have hlast : sub64 count 1 = count - 1 := sub64_eq (by omega) hcount
  unfold extract
  rw [hlast]
  have hround : ∀ last t, last < count - 1 →
      (last + 1 ≠ 0 → Extracting compare base size count (last + 1) f t) →
      ∃ s', extractRound compare base size (last + 1) t = some s' ∧
        (last ≠ 0 → Extracting compare base size count last f s') ∧
        (last = 0 → ∃ u, Extracting compare base size count 1 f u ∧
          siftDown compare base size 0 0 (swapAt base size u 0 1) = some s') := by
    intro last t hlt ht
    have Et := ht (Nat.succ_ne_zero _)
    rcases Nat.eq_zero_or_pos last with rfl | hpos
    · obtain ⟨s', heq⟩ := htotal (swapAt base size t 0 1)
      exact ⟨s', heq, fun h => absurd rfl h, fun _ => ⟨t, Et, heq⟩⟩
    · obtain ⟨s', heq, E'⟩ := Et.round hfit hcount hcmp hpos (by omega) hf
      exact ⟨s', heq, fun _ => E', fun h => by omega⟩
  obtain ⟨s', hrun, hend⟩ := countDownM_invariant (fun last t =>
      (last ≠ 0 → Extracting compare base size count last f t) ∧
      (last = 0 → ∃ u, Extracting compare base size count 1 f u ∧
        siftDown compare base size 0 0 (swapAt base size u 0 1) = some t))
    ⟨fun _ => E, fun h => by omega⟩ (fun last t hlt ht => hround last t hlt ht.1)
  obtain ⟨u, Eu, heq⟩ := hend.2 rfl
  exact ⟨s', u, hrun, Eu, heq⟩

end SiftDown

section LastCall

variable {compare : Comparator} {base size count last : ℕ} {S : List UInt8 → Prop}
variable {s s' : SortState}

/-- Without any assumption on the array: the chosen child is one of the two, and is at most one
index past `child`. -/
theorem greaterChild_bounds (hlast : last < 2 ^ 64) {child : ℕ} (hchild : child < 2 ^ 64) :
    child ≤ (greaterChild compare base size last child s).1 ∧
      (greaterChild compare base size last child s).1 < 2 ^ 64 := by
  unfold greaterChild
  split_ifs with hlt
  · have hsucc : add64 child 1 = child + 1 := add64_eq (by omega)
    dsimp only
    rw [hsucc]
    split_ifs <;> omega
  · exact ⟨le_refl _, hchild⟩

/-- `sift_down` always ends: `root` grows in each round until the index arithmetic stops it. -/
theorem siftDownFrom_total (hlast : last < 2 ^ 64) (fuel root : ℕ) (hroot : root < 2 ^ 64)
    (hfuel : 2 ^ 64 ≤ fuel + root) (s : SortState) :
    ∃ s', siftDownFrom compare base size last fuel root s = some s' := by
  induction fuel generalizing root s with
  | zero => omega
  | succ fuel ih =>
    rw [siftDownFrom]
    split_ifs with hinner
    · have hhalf : sub64 last 1 < 2 ^ 64 := Nat.mod_lt _ (by decide)
      have hindex : add64 (mul64 root 2) 1 = 2 * root + 1 := by
        rw [mul64_eq (by omega), add64_eq (by omega), Nat.mul_comm]
      have hbounds : 2 * root + 1 ≤ (greaterChild compare base size last (2 * root + 1) s).1 ∧
          (greaterChild compare base size last (2 * root + 1) s).1 < 2 ^ 64 :=
        greaterChild_bounds hlast (by omega)
      rw [hindex]
      cases hgreater : greaterChild compare base size last (2 * root + 1) s with
      | mk c t =>
        rw [hgreater] at hbounds
        dsimp only at hbounds ⊢
        split_ifs
        · exact ⟨_, rfl⟩
        · exact ih c hbounds.2 (by omega) _
    · exact ⟨s, rfl⟩

theorem siftDown_total (hlast : last < 2 ^ 64) {start : ℕ} (hstart : start < 2 ^ 64)
    (s : SortState) : ∃ s', siftDown compare base size start last s = some s' :=
  siftDownFrom_total hlast siftFuel start hstart (by unfold siftFuel; omega) s

theorem greaterChild_touched (last child : ℕ) (s : SortState) :
    s.touched ⊆ (greaterChild compare base size last child s).2.touched := by
  unfold greaterChild
  split_ifs
  · exact fun i hi => List.mem_cons_of_mem _ (List.mem_cons_of_mem _ hi)
  · exact fun i hi => hi

/-- The record only grows. -/
theorem siftDownFrom_touched {fuel root : ℕ}
    (h : siftDownFrom compare base size last fuel root s = some s') : s.touched ⊆ s'.touched := by
  induction fuel generalizing root s with
  | zero => cases h
  | succ fuel ih =>
    rw [siftDownFrom] at h
    split_ifs at h with hinner
    · have hsub : s.touched ⊆
          (greaterChild compare base size last (add64 (mul64 root 2) 1) s).2.touched :=
        greaterChild_touched ..
      cases hgreater : greaterChild compare base size last (add64 (mul64 root 2) 1) s with
      | mk c t =>
        rw [hgreater] at h hsub
        dsimp only [compareAt] at h hsub
        have hcons : t.touched ⊆ root :: c :: t.touched := fun i hi =>
          List.mem_cons_of_mem _ (List.mem_cons_of_mem _ hi)
        split_ifs at h with horder
        · obtain rfl := Option.some.inj h
          exact fun i hi => hcons (hsub hi)
        · exact fun i hi => ih h (List.mem_cons_of_mem _ (List.mem_cons_of_mem _ (hcons (hsub hi))))
    · obtain rfl := Option.some.inj h
      exact fun i hi => hi

/-- The call with `end` zero: an element at `root` below all others is carried past the end of
the array. -/
theorem siftDown_escapes (hfit : base + count * size < 2 ^ 64) (hcount : count < 2 ^ 64)
    {fuel root k : ℕ} (hk : root + 1 = 2 ^ k) (hroot : root < count)
    (hleast : ∀ j, j < count → j ≠ root →
      compare (item base size s.memory root) (item base size s.memory j) < 0)
    (h : siftDownFrom compare base size 0 fuel root s = some s') :
    ∃ i ∈ s'.touched, count ≤ i := by
  induction fuel generalizing root k s with
  | zero => cases h
  | succ fuel ih =>
    -- `root` is one less than a power of two, so it does not skip the bound `2 ^ 63 - 1`
    have hsmall : root ≤ 2 ^ 63 - 1 := by
      have hlt : k < 64 := (Nat.pow_lt_pow_iff_right (show 1 < 2 by decide)).mp (by omega)
      have := Nat.pow_le_pow_right (show 0 < 2 by decide) (show k ≤ 63 by omega)
      omega
    have hhalf : sub64 0 1 / 2 = 2 ^ 63 - 1 := by decide
    have hindex : add64 (mul64 root 2) 1 = 2 * root + 1 := by
      rw [mul64_eq (by omega), add64_eq (by omega), Nat.mul_comm]
    rw [siftDownFrom, hhalf, if_pos hsmall, hindex] at h
    simp only [greaterChild, Nat.not_lt_zero, if_false, compareAt] at h
    by_cases hchild : 2 * root + 1 < count
    · rw [if_neg (not_le.mpr (hleast _ hchild (by omega)))] at h
      refine ih (k := k + 1) (by rw [pow_succ]; omega) hchild (fun j hj hne => ?_) h
      have hu : ∀ i, i < count → item base size (swapAt base size
          ⟨s.memory, root :: (2 * root + 1) :: s.touched⟩ root (2 * root + 1)).memory i =
          item base size s.memory (Equiv.swap root (2 * root + 1) i) := fun i hi =>
        item_swapAt hfit ⟨s.memory, root :: (2 * root + 1) :: s.touched⟩ hroot hchild (by omega) hi
      rw [hu _ hchild, hu j hj, Equiv.swap_apply_right]
      by_cases hjr : j = root
      · rw [hjr, Equiv.swap_apply_left]
        exact hleast _ hchild (by omega)
      · rw [Equiv.swap_apply_of_ne_of_ne hjr hne]
        exact hleast j hj hjr
    · refine ⟨2 * root + 1, ?_, by omega⟩
      split_ifs at h with horder
      · obtain rfl := Option.some.inj h
        simp
      · exact siftDownFrom_touched h (by simp [swapAt])

theorem siftFuel_ne_zero : siftFuel ≠ 0 := by
  unfold siftFuel
  omega

/-- The call with `end` zero on two elements that are in heap order. -/
theorem siftDownFrom_stops {fuel : ℕ}
    (h : 0 ≤ compare (item base size s.memory 0) (item base size s.memory 1)) :
    siftDownFrom compare base size 0 (fuel + 1) 0 s =
      some ⟨s.memory, 0 :: 1 :: s.touched⟩ := by
  have hindex : add64 (mul64 0 2) 1 = 1 := by decide
  rw [siftDownFrom, if_pos (Nat.zero_le _), hindex]
  simp only [greaterChild, Nat.not_lt_zero, if_false, compareAt]
  rw [if_pos h]

end LastCall

section Qsort

variable {compare : Comparator} {base size count : ℕ} {m : Memory}

/-- Two different elements are least. -/
def LeastTwice (compare : Comparator) (count : ℕ) (f : ℕ → List UInt8) : Prop :=
  ∃ i j, i < count ∧ j < count ∧ i ≠ j ∧
    ∀ k, k < count → compare (f i) (f k) ≤ 0 ∧ compare (f j) (f k) ≤ 0

/-- What is asked of `qsort`: it touches no index outside the array, permutes it and leaves it
in order. -/
structure Sorts (compare : Comparator) (base size count : ℕ) (m : Memory) (s' : SortState) :
    Prop where
  inBounds : ∀ i ∈ s'.touched, i < count
  perm : ((List.range count).map (item base size s'.memory)).Perm
    ((List.range count).map (item base size m))
  sorted : ∀ i j, i ≤ j → j < count →
    compare (item base size s'.memory i) (item base size s'.memory j) ≤ 0

theorem le_of_above {g : ℕ → List UInt8} {S : List UInt8 → Prop} {i j : ℕ}
    (hcmp : TotalPreorderOn compare S) (hg : ∀ i, i < count → S (g i))
    (hsorted : ∀ i j, i ≤ j → 0 < j → j < count → Above compare (g j) (g i)) (hij : i ≤ j)
    (hj : j < count) : compare (g i) (g j) ≤ 0 := by
  rcases Nat.eq_zero_or_pos j with rfl | hpos
  · obtain rfl := Nat.le_zero.mp hij
    exact (hcmp.flip _ _ (hg _ hj) (hg _ hj)).mpr (hcmp.refl (hg _ hj))
  · exact (hcmp.flip _ _ (hg i (by omega)) (hg j hj)).mpr (hsorted i j hij hpos hj)

/-- In a sorted rearrangement the least element stands first, so it occurs twice exactly when the
second one is not greater. -/
theorem leastTwice_iff {f g : ℕ → List UInt8} {S : List UInt8 → Prop} (htwo : 2 ≤ count)
    (hcmp : TotalPreorderOn compare S) (hf : ∀ i, i < count → S (f i))
    (hre : Rearranged count 0 count f g)
    (hsorted : ∀ i j, i ≤ j → 0 < j → j < count → Above compare (g j) (g i)) :
    LeastTwice compare count f ↔ 0 ≤ compare (g 0) (g 1) := by
  have hg : ∀ i, i < count → S (g i) := fun i hi => hre.values (le_refl _) hf hi
  have hle : ∀ i j, i ≤ j → j < count → compare (g i) (g j) ≤ 0 :=
    fun i j hij hj => le_of_above hcmp hg hsorted hij hj
  obtain ⟨σ, hσ, hgσ⟩ := hre
  have hσ' : ∀ i, i < 0 ∨ count ≤ i → σ.symm i = i := fun i hi => by
    rw [Equiv.symm_apply_eq, hσ i hi]
  have hfg : ∀ i, i < count → f i = g (σ.symm i) := fun i hi => by
    rw [hgσ _ (perm_lt hσ' (le_refl _) hi), Equiv.apply_symm_apply]
  constructor
  · rintro ⟨i, j, hi, hj, hij, hleast⟩
    have hmin : ∀ i, i < count → (∀ k, k < count → compare (f i) (f k) ≤ 0) →
        0 < σ.symm i → 0 ≤ compare (g 0) (g 1) := by
      intro i hi hleast hpos
      have hi' := perm_lt hσ' (le_refl _) hi
      have h₁ := hle 1 (σ.symm i) hpos hi'
      have h₂ := hleast (σ 0) (perm_lt hσ (le_refl _) (by omega))
      rw [hfg i hi, ← hgσ 0 (by omega)] at h₂
      exact (hcmp.flip _ _ (hg 1 (by omega)) (hg 0 (by omega))).mp
        (hcmp.trans _ _ _ (hg 1 (by omega)) (hg _ hi') (hg 0 (by omega)) h₁ h₂)
    have hne : σ.symm i ≠ σ.symm j := fun heq => hij (σ.symm.injective heq)
    rcases Nat.eq_zero_or_pos (σ.symm i) with hzero | hpos
    · exact hmin j hj (fun k hk => (hleast k hk).2) (by omega)
    · exact hmin i hi (fun k hk => (hleast k hk).1) hpos
  · intro h01
    have h10 := (hcmp.flip _ _ (hg 1 (by omega)) (hg 0 (by omega))).mpr h01
    have hσ0 := perm_lt hσ (le_refl _) (show 0 < count by omega)
    have hσ1 := perm_lt hσ (le_refl _) (show 1 < count by omega)
    refine ⟨σ 0, σ 1, hσ0, hσ1, fun heq => by simpa using σ.injective heq, fun k hk => ?_⟩
    have hk' := perm_lt hσ' (le_refl _) hk
    rw [← hgσ 0 (by omega), ← hgσ 1 (by omega), hfg k hk]
    have h₀ := hle 0 (σ.symm k) (Nat.zero_le _) hk'
    exact ⟨h₀, hcmp.trans _ _ _ (hg 1 (by omega)) (hg 0 (by omega)) (hg _ hk') h10 h₀⟩

/-- The state before the last call of `sift_down`, for which nothing is left to do. -/
structure BeforeLast (compare : Comparator) (base size count : ℕ) (m : Memory) (v : SortState) :
    Prop where
  inBounds : InBounds count v
  rearranged : Rearranged count 0 count (item base size m) (item base size v.memory)
  sorted : ∀ i j, i ≤ j → 0 < j → j < count →
    Above compare (item base size v.memory j) (item base size v.memory i)

section Last

variable {v s' : SortState}

theorem BeforeLast.values (B : BeforeLast compare base size count m v) :
    ∀ i, i < count → ∃ k, k < count ∧ item base size v.memory i = item base size m k := by
  have hf : ∀ i, i < count → ∃ k, k < count ∧ item base size m i = item base size m k :=
    fun i hi => ⟨i, hi, rfl⟩
  exact fun i hi => B.rearranged.values (P := fun x => ∃ k, k < count ∧ x = item base size m k)
    (le_refl _) hf hi

theorem count_lt (hsize : 0 < size) (hfit : base + count * size < 2 ^ 64) : count < 2 ^ 64 :=
  (Nat.le_mul_of_pos_right count hsize).trans_lt ((Nat.le_add_left _ base).trans_lt hfit)

variable (hcmp : TotalPreorderOn compare fun x => ∃ i, i < count ∧ x = item base size m i)

include hcmp

theorem qsort_beforeLast (hbase : base ≠ 0) (hsize : size ≠ 0) (hfit : base + count * size < 2 ^ 64)
    (htwo : 2 ≤ count) : ∃ v s', qsort base count size (some compare) m = some s' ∧
      BeforeLast compare base size count m v ∧ siftDown compare base size 0 0 v = some s' := by
  have hcount : count < 2 ^ 64 := count_lt (Nat.pos_of_ne_zero hsize) hfit
  have hf : ∀ i, i < count → ∃ k, k < count ∧ item base size m i = item base size m k :=
    fun i hi => ⟨i, hi, rfl⟩
  obtain ⟨s₁, heq₁, hheap, hre₁, hb₁⟩ := heapify_spec (s := ⟨m, []⟩) hfit hcount hcmp htwo hf
    (by simp [InBounds])
  have hlast : count - 1 + 1 = count := by omega
  obtain ⟨s₂, u, heq₂, E, hlastCall⟩ := extract_spec (s := s₁) hfit hcount hcmp htwo hf
    ⟨by rwa [hlast], fun i j _ hj hjn => by omega, hre₁, hb₁⟩
    (siftDown_total (by omega) (by omega))
  have hguard : ¬(base = 0 ∨ count < 2 ∨ size = 0) := by
    rintro (h | h | h)
    · exact hbase h
    · exact absurd h (not_lt.mpr htwo)
    · exact hsize h
  obtain ⟨-, hsorted, hre, hb⟩ := E.swap hfit hcount hcmp Nat.one_pos (by omega) hf
  refine ⟨swapAt base size u 0 1, s₂, ?_, ⟨hb, hre, fun i j hij hj => ?_⟩, hlastCall⟩
  · unfold qsort
    dsimp only
    rw [if_neg hguard, heq₁, Option.bind_some]
    exact heq₂
  · exact hsorted i j hij (by omega)

/-- The first element is below all others, so the last call carries it away. -/
theorem BeforeLast.escapes (B : BeforeLast compare base size count m v)
    (hfit : base + count * size < 2 ^ 64) (hcount : count < 2 ^ 64) (htwo : 2 ≤ count)
    (hlt : compare (item base size v.memory 0) (item base size v.memory 1) < 0)
    (hlast : siftDown compare base size 0 0 v = some s') : ∃ i ∈ s'.touched, count ≤ i := by
  refine siftDown_escapes (k := 0) hfit hcount rfl (by omega) (fun j hj hj0 => ?_) hlast
  by_contra hnot
  have hv := B.values
  have h1j := B.sorted 1 j (by omega) (by omega) hj
  have habove := hcmp.above_trans (hv 0 (by omega)) (hv j hj) (hv 1 (by omega)) (not_lt.mp hnot) h1j
  exact absurd habove (not_le.mpr hlt)

theorem BeforeLast.sorts (B : BeforeLast compare base size count m v) (htwo : 2 ≤ count)
    (h01 : 0 ≤ compare (item base size v.memory 0) (item base size v.memory 1))
    (hlast : siftDown compare base size 0 0 v = some s') :
    Sorts compare base size count m s' := by
  have hstop : siftDown compare base size 0 0 v = some ⟨v.memory, 0 :: 1 :: v.touched⟩ := by
    unfold siftDown
    obtain ⟨fuel, hfuel⟩ := Nat.exists_eq_succ_of_ne_zero siftFuel_ne_zero
    rw [hfuel]
    exact siftDownFrom_stops h01
  have hsorted : ∀ i j, i ≤ j → j < count →
      compare (item base size v.memory i) (item base size v.memory j) ≤ 0 :=
    fun i j hij hj => le_of_above hcmp (B.values) B.sorted hij hj
  obtain rfl := Option.some.inj (hstop.symm.trans hlast)
  exact ⟨B.inBounds.touch (i := 0) (j := 1) (by omega) (by omega) rfl,
    B.rearranged.perm (le_refl _), hsorted⟩

end Last

/-- `qsort` sorts, within the array, exactly when there is nothing to do or two elements are
least. -/
theorem qsort_sorts_iff (hbase : base ≠ 0) (hsize : size ≠ 0)
    (hfit : base + count * size < 2 ^ 64)
    (hcmp : TotalPreorderOn compare fun x => ∃ i, i < count ∧ x = item base size m i) :
    (∃ s', qsort base count size (some compare) m = some s' ∧ Sorts compare base size count m s') ↔
      count < 2 ∨ LeastTwice compare count (item base size m) := by
  by_cases hsmall : count < 2
  · refine iff_of_true ⟨⟨m, []⟩, by simp [qsort, hsmall], by simp, .refl _, ?_⟩ (Or.inl hsmall)
    intro i j hij hj
    obtain rfl : i = j := by omega
    have hmem : ∃ k, k < count ∧ item base size m i = item base size m k := ⟨i, hj, rfl⟩
    exact (hcmp.flip _ _ hmem hmem).mpr (hcmp.refl hmem)
  have htwo : 2 ≤ count := by omega
  have hcount : count < 2 ^ 64 := count_lt (Nat.pos_of_ne_zero hsize) hfit
  obtain ⟨v, s₁, hrun, B, hlast⟩ := qsort_beforeLast hcmp hbase hsize hfit htwo
  rw [or_iff_right hsmall, leastTwice_iff htwo hcmp (fun i hi => ⟨i, hi, rfl⟩) B.rearranged B.sorted]
  constructor
  · rintro ⟨s', heq, hsorts⟩
    obtain rfl := Option.some.inj (hrun.symm.trans heq)
    by_contra hlt
    obtain ⟨i, hi, hout⟩ := B.escapes hcmp hfit hcount htwo (not_le.mp hlt) hlast
    exact absurd (hsorts.inBounds i hi) (not_lt.mpr hout)
  · intro h01
    exact ⟨s₁, hrun, B.sorts hcmp htwo h01 hlast⟩

/-- The comparison of two unsigned bytes. -/
def compareBytes : Comparator := fun x y => (x.headD 0).toNat - (y.headD 0).toNat

theorem compareBytes_totalPreorder (S : List UInt8 → Prop) : TotalPreorderOn compareBytes S where
  trans x y z _ _ _ h h' := by
    unfold compareBytes at *
    omega
  flip x y _ _ := by
    unfold compareBytes
    omega

/-- Two bytes at address 100. -/
def pairMemory (a b : UInt8) : Memory := storeByte (storeByte (fun _ => 0) 100 a) 101 b

/-- After the first loop of `qsort` every element stands below its parent, the elements are those of
the array, and no index outside it has been compared or exchanged. -/
theorem heapify_builds_heap (htwo : 2 ≤ count) (hsize : 1 ≤ size)
    (hfit : base + count * size < 2 ^ 64)
    (hcmp : TotalPreorderOn compare fun x => ∃ i, i < count ∧ x = item base size m i) :
    ∃ s', heapify compare base size count ⟨m, []⟩ = some s' ∧
      ((List.range count).map (item base size s'.memory)).Perm
        ((List.range count).map (item base size m)) ∧
      (∀ i, 0 < i → i < count →
        0 ≤ compare (item base size s'.memory ((i - 1) / 2)) (item base size s'.memory i)) ∧
      ∀ i ∈ s'.touched, i < count := by
  have hcount : count < 2 ^ 64 := count_lt hsize hfit
  have hb : InBounds count ⟨m, []⟩ := fun i hi => absurd hi List.not_mem_nil
  obtain ⟨s', heq, hheap, hre, hb'⟩ := heapify_spec (s := ⟨m, []⟩) hfit hcount hcmp htwo
    (fun i hi => ⟨i, hi, rfl⟩) hb
  refine ⟨s', heq, hre.perm (le_refl _), fun i hpos hi => ?_, hb'⟩
  have hchild : IsChild i ((i - 1) / 2) := by
    unfold IsChild
    omega
  exact hheap _ i (Nat.zero_le _) hchild hi

theorem heapify_builds_heap_pair :
    ∃ s', heapify compareBytes 100 1 2 ⟨pairMemory 1 2, []⟩ = some s' ∧
      ((List.range 2).map (item 100 1 s'.memory)).Perm
        ((List.range 2).map (item 100 1 (pairMemory 1 2))) ∧
      (∀ i, 0 < i → i < 2 →
        0 ≤ compareBytes (item 100 1 s'.memory ((i - 1) / 2)) (item 100 1 s'.memory i)) ∧
      ∀ i ∈ s'.touched, i < 2 :=
  heapify_builds_heap (by decide) (by decide) (by decide) (compareBytes_totalPreorder _)

theorem qsort_sorts_iff_equalPair :
    (∃ s', qsort 100 2 1 (some compareBytes) (pairMemory 7 7) = some s' ∧
      Sorts compareBytes 100 1 2 (pairMemory 7 7) s') ↔
    2 < 2 ∨ LeastTwice compareBytes 2 (item 100 1 (pairMemory 7 7)) :=
  qsort_sorts_iff (by decide) (by decide) (by decide) (compareBytes_totalPreorder _)

/-- The two bytes 2, 1 come out as they went in, and the index 3 has been compared. -/
theorem qsort_pair_fails : ∃ s', qsort 100 2 1 (some compareBytes) (pairMemory 2 1) = some s' ∧
    3 ∈ s'.touched ∧ item 100 1 s'.memory 0 = [2] ∧ item 100 1 s'.memory 1 = [1] := by
  have h : ((qsort 100 2 1 (some compareBytes) (pairMemory 2 1)).map fun s' =>
      (decide (3 ∈ s'.touched), item 100 1 s'.memory 0, item 100 1 s'.memory 1)) =
      some (true, [2], [1]) := by decide +kernel
  obtain ⟨s', heq, hview⟩ := Option.map_eq_some_iff.mp h
  simp only [Prod.mk.injEq, decide_eq_true_eq] at hview
  exact ⟨s', heq, hview⟩

end Qsort

end JsOs.QsortCorrectness
