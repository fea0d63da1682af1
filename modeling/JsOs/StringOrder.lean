import JsOs.KeyedComparisons
import JsOs.StringModel

/-!
# The order of strings

`strcmp`, `strncmp`, `strcasecmp` and `strncasecmp` compare the bytes of strings as unsigned numbers
in lexicographic order, the last two after folding, the counted ones only the first bytes.
-/

namespace JsOs.StringOrder

open MachineWords KeyedComparisons StringModel

section Bytes

theorem asciiLower_eq_zero (c : UInt8) : asciiLower c = 0 ↔ c = 0 :=
  forall_byte (P := fun c => asciiLower c = 0 ↔ c = 0) (by decide +kernel) c

/-- Folding changes no byte above ASCII, and leaves ASCII within itself. -/
theorem asciiLower_high (c : UInt8) : 128 ≤ (asciiLower c).toNat ↔ 128 ≤ c.toNat :=
  forall_byte (P := fun c => 128 ≤ (asciiLower c).toNat ↔ 128 ≤ c.toNat) (by decide +kernel) c

end Bytes

/-- What is compared of a string. -/
def sortKey (fold : UInt8 → UInt8) (text : List UInt8) : List ℕ :=
  text.map fun c => (fold c).toNat

section Loops

variable {fold : UInt8 → UInt8} {a b left right : List UInt8} {c d : UInt8}

/-- At a NUL, or where two bytes differ, the difference decides. -/
theorem difference_agrees (hfold : ∀ c, fold c = 0 ↔ c = 0) (ha : 0 ∉ a) (hb : 0 ∉ b)
    (hleft : a ++ [0] = c :: left) (hright : b ++ [0] = d :: right)
    (h : ¬(c ≠ 0 ∧ fold c = fold d)) :
    Agrees ((fold c).toNat - (fold d).toNat) (sortKey fold a) (sortKey fold b) ∧
      ∀ count, Agrees ((fold c).toNat - (fold d).toNat) ((sortKey fold a).take (count + 1))
        ((sortKey fold b).take (count + 1)) := by
  have hzero : (fold 0).toNat = 0 := UInt8.toNat_inj.mpr ((hfold 0).mpr rfl)
  have hpos {c : UInt8} (hc : c ≠ 0) : 0 < (fold c).toNat :=
    Nat.pos_of_ne_zero fun h => hc ((hfold c).mp (UInt8.toNat_inj.mp h))
  cases a with
  | nil =>
    cases hleft
    cases b with
    | nil =>
      cases hright
      rw [sub_self]
      exact ⟨.refl [], fun count => .refl []⟩
    | cons d b =>
      cases hright
      have hd := hpos fun heq : d = 0 => hb (heq ▸ List.mem_cons_self)
      have hneg : ((fold 0).toNat : ℤ) - (fold d).toNat < 0 := by omega
      exact ⟨.nil_cons hneg, fun count => .nil_cons hneg⟩
  | cons c a =>
    cases hleft
    have hc : c ≠ 0 := fun heq => ha (heq ▸ List.mem_cons_self)
    cases b with
    | nil =>
      cases hright
      have hc := hpos hc
      have hpos : 0 < ((fold c).toNat : ℤ) - (fold 0).toNat := by omega
      exact ⟨.cons_nil hpos, fun count => .cons_nil hpos⟩
    | cons d b =>
      cases hright
      have hne : (fold c).toNat ≠ (fold d).toNat := fun heq =>
        h ⟨hc, UInt8.toNat_inj.mp heq⟩
      exact ⟨(agrees_sub _ _).cons_ne hne, fun count => (agrees_sub _ _).cons_ne hne⟩

/-- Otherwise both strings go on. -/
theorem strings_go_on (hfold : ∀ c, fold c = 0 ↔ c = 0) (hleft : a ++ [0] = c :: left)
    (hright : b ++ [0] = d :: right) (h : c ≠ 0 ∧ fold c = fold d) :
    ∃ a' b', a = c :: a' ∧ b = d :: b' ∧ left = a' ++ [0] ∧ right = b' ++ [0] := by
  have hd : d ≠ 0 := fun heq => h.1 ((hfold c).mp (h.2.trans ((hfold d).mpr heq)))
  cases a with
  | nil => exact absurd (List.cons.inj hleft).1.symm h.1
  | cons c a =>
    cases hleft
    cases b with
    | nil => exact absurd (List.cons.inj hright).1.symm hd
    | cons d b =>
      cases hright
      exact ⟨a, b, rfl, rfl, rfl, rfl⟩

theorem exists_head (a : List UInt8) : ∃ c left, a ++ [0] = c :: left := by
  cases a with
  | nil => exact ⟨0, [], rfl⟩
  | cons c a => exact ⟨c, a ++ [0], rfl⟩

theorem compareLoop_agrees (hfold : ∀ c, fold c = 0 ↔ c = 0) (ha : 0 ∉ a) (hb : 0 ∉ b) :
    ∃ r, compareLoop fold (a ++ [0]) (b ++ [0]) = some r ∧
      Agrees r (sortKey fold a) (sortKey fold b) := by
  induction a generalizing b with
  | nil =>
    obtain ⟨d, right, hright⟩ := exists_head b
    rw [hright]
    have hstop : ¬((0 : UInt8) ≠ 0 ∧ fold 0 = fold d) := fun h => h.1 rfl
    exact ⟨_, if_neg hstop, (difference_agrees hfold ha hb rfl hright hstop).1⟩
  | cons c a ih =>
    obtain ⟨d, right, hright⟩ := exists_head b
    rw [hright, List.cons_append]
    by_cases h : c ≠ 0 ∧ fold c = fold d
    · obtain ⟨a', b', -, rfl, -, rfl⟩ :=
        strings_go_on hfold (List.cons_append : c :: a ++ [0] = c :: (a ++ [0])) hright h
      obtain ⟨r, hr, hagrees⟩ := ih (fun h => ha (List.mem_cons_of_mem c h))
        (fun h => hb (List.mem_cons_of_mem d h))
      refine ⟨r, (if_pos h).trans hr, ?_⟩
      unfold sortKey at hagrees ⊢
      rw [List.map_cons, List.map_cons, h.2]
      exact hagrees.cons _
    · exact ⟨_, if_neg h, (difference_agrees hfold ha hb rfl hright h).1⟩

/-- A step of a counted comparison: it ends, or takes its result from the rest of the strings. -/
theorem counted_agrees (hfold : ∀ c, fold c = 0 ↔ c = 0)
    {compare : ℕ → List UInt8 → List UInt8 → Option ℤ} (hzero : ∀ l m, compare 0 l m = some 0)
    (hends : ∀ count c d l m, ¬(c ≠ 0 ∧ fold c = fold d) →
      ∃ r, compare (count + 1) (c :: l) (d :: m) = some r ∧
        (r < 0 ↔ (fold c).toNat < (fold d).toNat) ∧ (0 < r ↔ (fold d).toNat < (fold c).toNat))
    (hgoes : ∀ count c d l m, c ≠ 0 ∧ fold c = fold d →
      compare (count + 1) (c :: l) (d :: m) = compare count l m)
    (count : ℕ) (ha : 0 ∉ a) (hb : 0 ∉ b) :
    ∃ r, compare count ((a ++ [0]).take count) ((b ++ [0]).take count) = some r ∧
      Agrees r ((sortKey fold a).take count) ((sortKey fold b).take count) := by
  induction count generalizing a b with
  | zero => exact ⟨0, hzero _ _, .refl []⟩
  | succ count ih =>
    obtain ⟨c, left, hleft⟩ := exists_head a
    obtain ⟨d, right, hright⟩ := exists_head b
    rw [hleft, hright, List.take_succ_cons, List.take_succ_cons]
    by_cases h : c ≠ 0 ∧ fold c = fold d
    · obtain ⟨a, b, rfl, rfl, rfl, rfl⟩ := strings_go_on hfold hleft hright h
      obtain ⟨r, hr, hagrees⟩ := ih (fun h => ha (List.mem_cons_of_mem c h))
        (fun h => hb (List.mem_cons_of_mem d h))
      refine ⟨r, (hgoes count c d _ _ h).trans hr, ?_⟩
      unfold sortKey at hagrees ⊢
      rw [List.map_cons, List.map_cons, h.2, List.take_succ_cons, List.take_succ_cons]
      exact hagrees.cons _
    · obtain ⟨r, hr, hneg, hpos⟩ := hends count c d (left.take count) (right.take count) h
      refine ⟨r, hr, ((difference_agrees hfold ha hb hleft hright h).2 count).congr ?_ ?_⟩
      · rw [hneg]
        omega
      · rw [hpos]
        omega

theorem strncmp_agrees (count : ℕ) (ha : 0 ∉ a) (hb : 0 ∉ b) :
    ∃ r, strncmp count ((a ++ [0]).take count) ((b ++ [0]).take count) = some r ∧
      Agrees r ((sortKey id a).take count) ((sortKey id b).take count) := by
  refine counted_agrees (fun c => Iff.rfl) (fun l m => rfl) ?_ ?_ count ha hb
  · intro count c d l m h
    by_cases heq : c = d
    · have hc : c = 0 := by
        by_contra hc
        exact h ⟨hc, heq⟩
      refine ⟨0, (if_neg (not_not.mpr heq)).trans (if_pos hc), ?_, ?_⟩ <;>
        rw [heq] <;> exact iff_of_false (lt_irrefl _) (lt_irrefl _)
    · refine ⟨_, if_pos heq, ?_⟩
      have hne : c.toNat ≠ d.toNat := fun h => heq (UInt8.toNat_inj.mp h)
      simp only [UInt8.lt_iff_toNat_lt]
      split_ifs <;> omega
  · intro count c d l m h
    exact (if_neg (not_not.mpr h.2)).trans (if_neg h.1)

theorem strncasecmp_agrees (count : ℕ) (ha : 0 ∉ a) (hb : 0 ∉ b) :
    ∃ r, strncasecmp count ((a ++ [0]).take count) ((b ++ [0]).take count) = some r ∧
      Agrees r ((sortKey asciiLower a).take count) ((sortKey asciiLower b).take count) := by
  refine counted_agrees asciiLower_eq_zero (fun l m => rfl) ?_ ?_ count ha hb
  · intro count c d l m h
    exact ⟨_, if_neg h, by omega, by omega⟩
  · intro count c d l m h
    exact if_pos h

end Loops

section Strings

/-- The bytes as unsigned numbers. -/
def bytes (a : CString) : List ℕ := sortKey id a.text

/-- The bytes after `A` to `Z` have become `a` to `z`. -/
def foldedBytes (a : CString) : List ℕ := sortKey asciiLower a.text

theorem strcmp_orders : Orders bytes fun a b => strcmp a.array b.array := fun a b =>
  compareLoop_agrees (fun _ => Iff.rfl) a.nul_notMem b.nul_notMem

theorem strcasecmp_orders : Orders foldedBytes fun a b => strcasecmp a.array b.array := fun a b =>
  compareLoop_agrees asciiLower_eq_zero a.nul_notMem b.nul_notMem

theorem strncmp_orders (count : ℕ) : Orders (fun a => (bytes a).take count)
    fun a b => strncmp count (a.array.take count) (b.array.take count) := fun a b =>
  strncmp_agrees count a.nul_notMem b.nul_notMem

theorem strncasecmp_orders (count : ℕ) : Orders (fun a => (foldedBytes a).take count)
    fun a b => strncasecmp count (a.array.take count) (b.array.take count) := fun a b =>
  strncasecmp_agrees count a.nul_notMem b.nul_notMem

variable {p s t : List UInt8} {c d : UInt8}

/-- Behind a common prefix a greater byte decides. -/
theorem sortKey_lt {fold : UInt8 → UInt8} (h : (fold d).toNat < (fold c).toNat) :
    sortKey fold (p ++ d :: t) < sortKey fold (p ++ c :: s) ∧
      ∀ count, p.length < count → (sortKey fold (p ++ d :: t)).take count <
        (sortKey fold (p ++ c :: s)).take count := by
  unfold sortKey
  simp only [List.map_append, List.map_cons]
  induction p with
  | nil =>
    refine ⟨List.Lex.rel h, fun count hcount => ?_⟩
    obtain ⟨count, rfl⟩ : ∃ k, count = k + 1 := ⟨count - 1, by simp at hcount; omega⟩
    exact List.Lex.rel h
  | cons x p ih =>
    refine ⟨List.Lex.cons ih.1, fun count hcount => ?_⟩
    rw [List.length_cons] at hcount
    obtain ⟨count, rfl⟩ : ∃ k, count = k + 1 := ⟨count - 1, by omega⟩
    exact List.Lex.cons (ih.2 count (by omega))

theorem sortKey_length (fold : UInt8 → UInt8) (text : List UInt8) :
    (sortKey fold text).length = text.length := List.length_map _

theorem bytes_take {a : CString} {count : ℕ} (h : a.text.length < count) :
    (bytes a).take count = bytes a :=
  List.take_of_length_le ((sortKey_length id a.text).trans_le h.le)

/-- A comparison by a key, in which a byte from 128 on stands above all of ASCII where the first
difference is one that is looked at. -/
structure Ranks (key : CString → List ℕ) (within : ℕ → Prop)
    (compare : CString → CString → Option ℤ) : Prop where
  orders : Orders key compare
  preorder : IsPreorder CString (AtMost compare)
  total : Std.Total (AtMost compare)
  high : ∀ (p s t : List UInt8) (c d : UInt8) (a b : CString), within p.length →
    a.text = p ++ c :: s → b.text = p ++ d :: t → 128 ≤ c.toNat → d.toNat < 128 →
      Exceeds compare a b

theorem Ranks.of_orders {fold : UInt8 → UInt8}
    (hfold : ∀ c, 128 ≤ (fold c).toNat ↔ 128 ≤ c.toNat)
    {key : CString → List ℕ} {within : ℕ → Prop} {compare : CString → CString → Option ℤ}
    (h : Orders key compare)
    (hkey : ∀ (p s t : List UInt8) (c d : UInt8) (a b : CString), within p.length →
      a.text = p ++ c :: s → b.text = p ++ d :: t → (fold d).toNat < (fold c).toNat →
        key b < key a) : Ranks key within compare where
  orders := h
  preorder := h.isPreorder
  total := h.total
  high p s t c d a b hwithin ha hb hc hd := by
    have hc' := (hfold c).mpr hc
    have hd' := mt (hfold d).mp (not_le.mpr hd)
    exact (h.exceeds_iff a b).mpr (hkey p s t c d a b hwithin ha hb (by omega))

/-- The four comparisons are those of the bytes and of the folded bytes, in full or up to `count`,
and read neither behind the NUL of a string nor behind the first `count` bytes. Where `count` is
above both lengths `strcmp` and `strncmp` agree on equality. -/
theorem comparisons_ranked (count : ℕ) :
    Ranks bytes (fun _ => True) (fun a b => strcmp a.array b.array) ∧
    Ranks (fun a => (bytes a).take count) (· < count)
      (fun a b => strncmp count (a.array.take count) (b.array.take count)) ∧
    Ranks foldedBytes (fun _ => True) (fun a b => strcasecmp a.array b.array) ∧
    Ranks (fun a => (foldedBytes a).take count) (· < count)
      (fun a b => strncasecmp count (a.array.take count) (b.array.take count)) ∧
    ∀ a b : CString, a.text.length < count → b.text.length < count →
      (strcmp a.array b.array = some 0 ↔
        strncmp count (a.array.take count) (b.array.take count) = some 0) := by
  refine ⟨.of_orders (fun _ => Iff.rfl) strcmp_orders ?_,
    .of_orders (fun _ => Iff.rfl) (strncmp_orders count) ?_,
    .of_orders asciiLower_high strcasecmp_orders ?_,
    .of_orders asciiLower_high (strncasecmp_orders count) ?_, ?_⟩
  · intro p s t c d a b _ ha hb h
    unfold bytes
    rw [ha, hb]
    exact (sortKey_lt h).1
  · intro p s t c d a b hwithin ha hb h
    unfold bytes
    rw [ha, hb]
    exact (sortKey_lt h).2 count hwithin
  · intro p s t c d a b _ ha hb h
    unfold foldedBytes
    rw [ha, hb]
    exact (sortKey_lt h).1
  · intro p s t c d a b hwithin ha hb h
    unfold foldedBytes
    rw [ha, hb]
    exact (sortKey_lt h).2 count hwithin
  · intro a b ha hb
    rw [strcmp_orders.eq_zero_iff, (strncmp_orders count).eq_zero_iff, bytes_take ha,
      bytes_take hb]

example : strcasecmp (ascii "Apple" ++ [0]) (ascii "aPPlX" ++ [0]) = some (-19) := by decide

end Strings

end JsOs.StringOrder
