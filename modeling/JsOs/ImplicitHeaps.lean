import Mathlib.Logic.Equiv.Basic
import Mathlib.Data.List.Nodup
import Mathlib.Data.List.Range

/-!
# Implicit heaps

A sequence is read as a binary tree: the children of `i` are `2 * i + 1` and `2 * i + 2`. `r a b`
says that `a` may stand above `b`. The swap of a node with its greater child moves the one place
where the heap order may fail a level down; at the root of a heap stands its greatest element.
Nothing is assumed of `r` beyond what each rule names.
-/

namespace JsOs.ImplicitHeaps

variable {α : Type*}

def IsChild (c i : ℕ) : Prop := c = 2 * i + 1 ∨ c = 2 * i + 2

/-- The nodes from `lo` on stand above their children below `n`. -/
def HeapFrom (r : α → α → Prop) (f : ℕ → α) (lo n : ℕ) : Prop :=
  ∀ i c, lo ≤ i → IsChild c i → c < n → r (f i) (f c)

/-- As `HeapFrom`, but nothing is known of `hole` itself; its parent stands above its children. -/
structure HeapBut (r : α → α → Prop) (f : ℕ → α) (lo n hole : ℕ) : Prop where
  order : ∀ i c, lo ≤ i → i ≠ hole → IsChild c i → c < n → r (f i) (f c)
  across : ∀ i c, lo ≤ i → IsChild hole i → IsChild c hole → c < n → r (f i) (f c)

variable {r : α → α → Prop} {f g : ℕ → α} {lo hi n hole c : ℕ}

theorem IsChild.lt {c i : ℕ} (h : IsChild c i) : i < c := by
  unfold IsChild at h
  omega

theorem IsChild.parent_unique {c i j : ℕ} (h : IsChild c i) (h' : IsChild c j) : i = j := by
  unfold IsChild at h h'
  omega

theorem HeapFrom.but (h : HeapFrom r f (lo + 1) n) : HeapBut r f lo n lo where
  order i c hi hne := h i c (by omega)
  across i c hi hchild := absurd hchild.lt (by omega)

theorem HeapBut.heap (h : HeapBut r f lo n hole)
    (hhole : ∀ c, IsChild c hole → c < n → r (f hole) (f c)) : HeapFrom r f lo n := by
  intro i c hi hc hcn
  by_cases hne : i = hole
  · subst hne
    exact hhole c hc hcn
  · exact h.order i c hi hne hc hcn

/-- One step of sifting down. -/
theorem HeapBut.swap (h : HeapBut r f lo n hole) (hlo : lo ≤ hole) (hc : IsChild c hole)
    (hcn : c < n) (hgreater : r (f c) (f hole))
    (hsibling : ∀ d, IsChild d hole → d < n → d ≠ c → r (f c) (f d))
    (hg : ∀ i, i < n → g i = f (Equiv.swap hole c i)) : HeapBut r g lo n c := by
  have hlt := hc.lt
  have hroot : g hole = f c := by rw [hg hole (by omega), Equiv.swap_apply_left]
  have hchild : g c = f hole := by rw [hg c hcn, Equiv.swap_apply_right]
  have hother : ∀ i, i < n → i ≠ hole → i ≠ c → g i = f i := fun i hi h₁ h₂ => by
    rw [hg i hi, Equiv.swap_apply_of_ne_of_ne h₁ h₂]
  constructor
  · intro i d hi hne hd hdn
    have hid := hd.lt
    by_cases hih : i = hole
    · subst hih
      rw [hroot]
      by_cases hdc : d = c
      · rw [hdc, hchild]
        exact hgreater
      · rw [hother d hdn (by omega) hdc]
        exact hsibling d hd hdn hdc
    · rw [hother i (by omega) hih hne]
      by_cases hdh : d = hole
      · rw [hdh, hroot]
        exact h.across i c hi (hdh ▸ hd) hc hcn
      · have hdc : d ≠ c := fun heq => hih ((heq ▸ hd).parent_unique hc)
        rw [hother d hdn hdh hdc]
        exact h.order i d hi hih hd hdn
  · intro i d hi hi' hd hdn
    obtain rfl := hi'.parent_unique hc
    have hcd := hd.lt
    rw [hroot, hother d hdn (by omega) (by omega)]
    exact h.order c d (by omega) (by omega) hd hdn

/-- The root of a heap is its greatest element. -/
theorem HeapFrom.top (h : HeapFrom r f 0 n) (hrefl : ∀ i, i < n → r (f i) (f i))
    (htrans : ∀ i j k, i < n → j < n → k < n → r (f i) (f j) → r (f j) (f k) → r (f i) (f k))
    {i : ℕ} (hi : i < n) : r (f 0) (f i) := by
  induction i using Nat.strong_induction_on with
  | _ i ih =>
    rcases Nat.eq_zero_or_pos i with rfl | hpos
    · exact hrefl 0 hi
    · have hchild : IsChild i ((i - 1) / 2) := by
        unfold IsChild
        omega
      have hparent := hchild.lt
      exact htrans 0 _ i (by omega) (by omega) hi (ih _ hparent (by omega))
        (h _ i (Nat.zero_le _) hchild hi)

/-- The first `n` values of `g` are those of `f`, exchanged within `lo ≤ i < hi`. -/
def Rearranged (n lo hi : ℕ) (f g : ℕ → α) : Prop :=
  ∃ σ : Equiv.Perm ℕ, (∀ i, i < lo ∨ hi ≤ i → σ i = i) ∧ ∀ i, i < n → g i = f (σ i)

/-- A permutation that fixes everything outside a range stays inside it. -/
theorem perm_inside {σ : Equiv.Perm ℕ} (h : ∀ i, i < lo ∨ hi ≤ i → σ i = i) {i : ℕ}
    (hl : lo ≤ i) (hh : i < hi) : lo ≤ σ i ∧ σ i < hi := by
  by_contra hout
  have heq : σ i = i := σ.injective (h (σ i) (by omega))
  omega

theorem perm_lt {σ : Equiv.Perm ℕ} (h : ∀ i, i < lo ∨ hi ≤ i → σ i = i) (hn : hi ≤ n) {i : ℕ}
    (hi' : i < n) : σ i < n := by
  by_cases hin : lo ≤ i ∧ i < hi
  · have := perm_inside h hin.1 hin.2
    omega
  · rw [h i (by omega)]
    exact hi'

namespace Rearranged

variable {k : ℕ → α}

theorem refl (n lo hi : ℕ) (f : ℕ → α) : Rearranged n lo hi f f :=
  ⟨Equiv.refl ℕ, fun _ _ => rfl, fun _ _ => rfl⟩

theorem trans (h : Rearranged n lo hi f g) (h' : Rearranged n lo hi g k) (hn : hi ≤ n) :
    Rearranged n lo hi f k := by
  obtain ⟨σ, hσ, hg⟩ := h
  obtain ⟨τ, hτ, hk⟩ := h'
  refine ⟨τ.trans σ, fun i hi' => ?_, fun i hi' => ?_⟩
  · rw [Equiv.trans_apply, hτ i hi', hσ i hi']
  · rw [hk i hi', hg _ (perm_lt hτ hn hi'), Equiv.trans_apply]

theorem mono {lo' hi' : ℕ} (h : Rearranged n lo hi f g) (hl : lo' ≤ lo) (hh : hi ≤ hi') :
    Rearranged n lo' hi' f g := by
  obtain ⟨σ, hσ, hg⟩ := h
  exact ⟨σ, fun i hi => hσ i (by omega), hg⟩

theorem of_swap {i j : ℕ} (hi' : lo ≤ i) (hj : lo ≤ j) (hih : i < hi) (hjh : j < hi)
    (hg : ∀ k, k < n → g k = f (Equiv.swap i j k)) : Rearranged n lo hi f g :=
  ⟨Equiv.swap i j, fun k hk => Equiv.swap_apply_of_ne_of_ne (by omega) (by omega), hg⟩

theorem outside (h : Rearranged n lo hi f g) {i : ℕ} (hi' : i < n) (hout : i < lo ∨ hi ≤ i) :
    g i = f i := by
  obtain ⟨σ, hσ, hg⟩ := h
  rw [hg i hi', hσ i hout]

theorem values {P : α → Prop} (h : Rearranged n lo hi f g) (hn : hi ≤ n)
    (hP : ∀ i, i < n → P (f i)) {i : ℕ} (hi' : i < n) : P (g i) := by
  obtain ⟨σ, hσ, hg⟩ := h
  rw [hg i hi']
  exact hP _ (perm_lt hσ hn hi')

/-- Each value inside comes from inside. -/
theorem inside (h : Rearranged n lo hi f g) {i : ℕ} (hi' : i < n) (hl : lo ≤ i) (hh : i < hi) :
    ∃ j, lo ≤ j ∧ j < hi ∧ g i = f j := by
  obtain ⟨σ, hσ, hg⟩ := h
  obtain ⟨h₁, h₂⟩ := perm_inside hσ hl hh
  exact ⟨σ i, h₁, h₂, hg i hi'⟩

theorem perm (h : Rearranged n lo hi f g) (hn : hi ≤ n) :
    ((List.range n).map g).Perm ((List.range n).map f) := by
  obtain ⟨σ, hσ, hg⟩ := h
  have hmap : (List.range n).map g = ((List.range n).map σ).map f := by
    rw [List.map_map]
    exact List.map_congr_left fun i hi => hg i (List.mem_range.mp hi)
  rw [hmap]
  apply List.Perm.map
  have hnodup : ((List.range n).map σ).Nodup := List.nodup_range.map σ.injective
  refine (List.perm_ext_iff_of_nodup hnodup List.nodup_range).mpr fun x => ?_
  simp only [List.mem_map, List.mem_range]
  constructor
  · rintro ⟨i, hi', rfl⟩
    exact perm_lt hσ hn hi'
  · intro hx
    have hσ' : ∀ i, i < lo ∨ hi ≤ i → σ.symm i = i := fun i hi' => by
      rw [Equiv.symm_apply_eq, hσ i hi']
    exact ⟨σ.symm x, perm_lt hσ' hn hx, σ.apply_symm_apply x⟩

end Rearranged

end JsOs.ImplicitHeaps
