import JsOs.TableGrowth
import Mathlib.Order.Nat

/-!
# Tables that a path lacks

How many tables have to be linked before a path leads to the last level, and what is left of that
number, for this path and for every other, after some of them have been linked along one path.
-/

namespace JsOs.AbsentTables

open TableTrees TableGrowth

variable {T I V : Type*}

/-- The tables missing on the path: from the first missing one on, all down to the last level. -/
def absent (c : Contents T I V) (path : ℕ → I) : ℕ → T → ℕ
  | 0, _ => 0
  | n + 1, t => match c (n + 1) t (path (n + 1)) with
    | .empty => n + 1
    | .value _ => 0
    | .table t' => absent c path n t'

section Walks

variable {c c' : Contents T I V} {path path' : ℕ → I} {n k : ℕ} {t t' x : T} {v : V}

theorem absent_empty (h : c (n + 1) t (path (n + 1)) = .empty) : absent c path (n + 1) t = n + 1 := by
  rw [absent, h]

theorem absent_value (h : c (n + 1) t (path (n + 1)) = .value v) : absent c path (n + 1) t = 0 := by
  rw [absent, h]

theorem absent_table (h : c (n + 1) t (path (n + 1)) = .table t') :
    absent c path (n + 1) t = absent c path n t' := by
  rw [absent, h]

theorem absent_le (c : Contents T I V) (path : ℕ → I) (n : ℕ) (t : T) : absent c path n t ≤ n := by
  induction n generalizing t with
  | zero => exact le_refl 0
  | succ n ih =>
    cases h : c (n + 1) t (path (n + 1)) with
    | empty => exact (absent_empty h).le
    | value v => exact (absent_value h).trans_le (Nat.zero_le _)
    | table t' => exact (absent_table h).trans_le ((ih t').trans (Nat.le_succ n))

/-- Of a blank table every path lacks all that is below. -/
theorem absent_blank (h : ∀ i, c n t i = .empty) : absent c path n t = n := by
  cases n with
  | zero => rfl
  | succ n => exact absent_empty (h _)

theorem absent_congr (h : ∀ x, Reaches c n t x → ∀ k i, c' k x i = c k x i) :
    absent c' path n t = absent c path n t := by
  induction n generalizing t with
  | zero => rfl
  | succ n ih =>
    have hentry := h t .self (n + 1) (path (n + 1))
    cases hc : c (n + 1) t (path (n + 1)) with
    | empty => rw [absent_empty hc, absent_empty (hentry.trans hc)]
    | value v => rw [absent_value hc, absent_value (hentry.trans hc)]
    | table t' =>
      rw [absent_table hc, absent_table (hentry.trans hc)]
      exact ih fun x hx => h x (.below hc hx)

/-- Whether the table that a path enters at a level is missing depends on the levels from there on
only. -/
theorem lt_absent_path (h : ∀ m, k < m → m ≤ n → path' m = path m) :
    k < absent c path' n t ↔ k < absent c path n t := by
  induction n generalizing t with
  | zero => exact Iff.rfl
  | succ n ih =>
    by_cases hk : k < n + 1
    · have hsame := h (n + 1) hk (le_refl _)
      cases hc : c (n + 1) t (path (n + 1)) with
      | empty => rw [absent_empty hc, absent_empty (by rwa [hsame])]
      | value v => rw [absent_value hc, absent_value (by rwa [hsame])]
      | table t' =>
        rw [absent_table hc, absent_table (by rwa [hsame])]
        exact ih fun m hm hle => h m hm (Nat.le_succ_of_le hle)
    · have hle := absent_le c path (n + 1) t
      have hle' := absent_le c path' (n + 1) t
      omega

end Walks

/-- From `c` to `c'` tables are linked along a path, `spent` in number: no path lacks more than
before, and none has come to end at a value. -/
structure Links (path : ℕ → I) (n : ℕ) (t : T) (spent : ℕ) (c c' : Contents T I V) : Prop where
  others : ∀ path' : ℕ → I, absent c' path' n t ≤ absent c path' n t
  spent_eq : absent c' path n t + spent = absent c path n t
  values : ∀ (path' : ℕ → I) k v, ending c' path' n t = .value k v → ending c path' n t = .value k v

namespace Links

variable {fresh fresh' mid : T → Prop} {path : ℕ → I} {n spent : ℕ} {t u : T} {target : Ending T V}
  {c c₁ c' : Contents T I V}

theorem refl (path : ℕ → I) (n : ℕ) (t : T) (c : Contents T I V) : Links path n t 0 c c :=
  ⟨fun _ => le_refl _, Nat.add_zero _, fun _ _ _ h => h⟩

/-- On the last level nothing is lacking. -/
theorem last (path : ℕ → I) (t : T) (c c' : Contents T I V) : Links path 0 t 0 c c' :=
  ⟨fun _ => le_refl _, rfl, fun _ _ _ h => by cases h⟩

/-- The links are below one entry of the root. -/
theorem of_child (hroot : ∀ j, j ≠ path (n + 1) → c' (n + 1) t j = c (n + 1) t j)
    (hothers : ∀ j w, j ≠ path (n + 1) → c (n + 1) t j = .table w →
      ∀ x, Reaches c n w x → ∀ k i, c' k x i = c k x i)
    (hchild : c' (n + 1) t (path (n + 1)) = .table u)
    (hle : ∀ path' : ℕ → I, path' (n + 1) = path (n + 1) →
      absent c' path' n u ≤ absent c path' (n + 1) t)
    (hspent : absent c' path n u + spent = absent c path (n + 1) t)
    (hvalues : ∀ (path' : ℕ → I) k v, path' (n + 1) = path (n + 1) →
      ending c' path' n u = .value k v → ending c path' (n + 1) t = .value k v) :
    Links path (n + 1) t spent c c' := by
  refine ⟨fun path' => ?_, by rw [absent_table hchild, hspent], fun path' k v h => ?_⟩ <;>
    by_cases hsame : path' (n + 1) = path (n + 1)
  · rw [absent_table (by rw [hsame, hchild])]
    exact hle path' hsame
  · have hentry := hroot _ hsame
    cases hc : c (n + 1) t (path' (n + 1)) with
    | empty => rw [absent_empty hc, absent_empty (hentry.trans hc)]
    | value v => rw [absent_value hc, absent_value (hentry.trans hc)]
    | table w =>
      rw [absent_table hc, absent_table (hentry.trans hc)]
      exact (absent_congr (hothers _ w hsame hc)).le
  · rw [ending_table (by rw [hsame, hchild])] at h
    exact hvalues path' k v hsame h
  · have hentry := hroot _ hsame
    cases hc : c (n + 1) t (path' (n + 1)) with
    | empty =>
      rw [ending_empty (hentry.trans hc)] at h
      cases h
    | value w =>
      rw [ending_value (hentry.trans hc)] at h
      rw [ending_value hc, h]
    | table w =>
      rw [ending_table (hentry.trans hc), ending_congr (hothers _ w hsame hc)] at h
      rw [ending_table hc, h]

/-- Links in the subtree that the path enters. -/
theorem below (L : Links path n u spent c c') (G : Grows fresh fresh' path n u target c c')
    (hone : OnePath c (n + 1) t) (hfresh : ∀ x, fresh x → ¬Reaches c (n + 1) t x)
    (hentry : c (n + 1) t (path (n + 1)) = .table u) : Links path (n + 1) t spent c c' := by
  have hroot : ∀ k j, c' k t j = c k t j :=
    G.frame t (hone.not_reaches_self hentry) fun h => hfresh t h .self
  refine of_child (fun j _ => hroot _ j) (fun j w hj hw x hx => ?_) ((hroot _ _).trans hentry)
    (fun path' hpath => ?_) (by rw [absent_table hentry, L.spent_eq]) fun path' k v hpath h => ?_
  · exact G.frame x (hone.apart hw hentry hj hx) fun h => hfresh x h (.below hw hx)
  · rw [absent_table (by rw [hpath, hentry])]
    exact L.others path'
  · rw [ending_table (by rw [hpath, hentry])]
    exact L.values path' k v h

/-- A blank fresh table is linked, and further ones below it. -/
theorem link (L : Links path n u spent c₁ c') (G : Grows mid fresh' path n u target c₁ c')
    (hone : OnePath c (n + 1) t) (hfresh : ∀ x, fresh x → ¬Reaches c (n + 1) t x)
    (hu : fresh u) (hmid : ∀ x, mid x → fresh x ∧ x ≠ u)
    (hempty : c (n + 1) t (path (n + 1)) = .empty)
    (hlink : c₁ (n + 1) t (path (n + 1)) = .table u) (hblank : ∀ k j, c₁ k u j = .empty)
    (hsame : ∀ x k j, x ≠ u → x ≠ t ∨ j ≠ path (n + 1) → c₁ k x j = c k x j) :
    Links path (n + 1) t (spent + 1) c c' := by
  have hout : ∀ x, Reaches c (n + 1) t x → x ≠ u := fun x hx h => hfresh u hu (h ▸ hx)
  have hlater : ∀ x, Reaches c (n + 1) t x → ∀ k j, c' k x j = c₁ k x j := fun x hx =>
    G.frame x (fun h => hout x hx (reaches_blank hblank h)) fun h => hfresh x (hmid x h).1 hx
  have hroot := hlater t .self
  refine of_child (fun j hj => ?_) (fun j w hj hw x hx k m => ?_) ((hroot _ _).trans hlink)
    (fun path' hpath => ?_) ?_ fun path' k v hpath h => ?_
  · rw [hroot, hsame t _ _ (hout t .self) (Or.inr hj)]
  · have hreach : Reaches c (n + 1) t x := .below hw hx
    have hxt : x ≠ t := fun h => hone.not_reaches_self hw (h ▸ hx)
    rw [hlater x hreach, hsame x k m (hout x hreach) (Or.inl hxt)]
  · rw [absent_empty (by rw [hpath, hempty])]
    exact (absent_le c' path' n u).trans (Nat.le_succ n)
  · rw [absent_empty hempty, ← Nat.add_assoc, L.spent_eq, absent_blank (hblank n)]
  · have hvalue := L.values path' k v h
    cases n with
    | zero => cases hvalue
    | succ n =>
      rw [ending_empty (hblank _ _)] at hvalue
      cases hvalue

end Links

end JsOs.AbsentTables
