import Mathlib.Data.List.Basic

/-!
# Trees of tables

A tree is kept as the contents of its tables. At each level an entry is empty, holds a value, or
names the table of the next level down; at level 0 there is no such table. A path gives the index
to follow at each level.
-/

namespace JsOs.TableTrees

inductive Entry (T V : Type*) where
  | empty
  | value (v : V)
  | table (t : T)

/-- The entry of a table at a level and an index. -/
abbrev Contents (T I V : Type*) := ℕ → T → I → Entry T V

variable {T I V : Type*}

/-- The value on the path and the level where it stands. -/
def lookup (c : Contents T I V) (path : ℕ → I) : ℕ → T → Option (ℕ × V)
  | 0, t => match c 0 t (path 0) with
    | .value v => some (0, v)
    | _ => none
  | n + 1, t => match c (n + 1) t (path (n + 1)) with
    | .empty => none
    | .value v => some (n + 1, v)
    | .table t' => lookup c path n t'

/-- The indices lead from table `t` of level `n` down to table `t'`. -/
inductive Leads (c : Contents T I V) : ℕ → T → List I → T → Prop
  | here {n t} : Leads c n t [] t
  | step {n t t' t'' i is} (entry : c (n + 1) t i = .table t') (rest : Leads c n t' is t'') :
      Leads c (n + 1) t (i :: is) t''

def Reaches (c : Contents T I V) (n : ℕ) (t t' : T) : Prop := ∃ is, Leads c n t is t'

/-- No table below `t` is reached in two ways. -/
def OnePath (c : Contents T I V) (n : ℕ) (t : T) : Prop :=
  ∀ t' is js, Leads c n t is t' → Leads c n t js t' → is = js

section Walks

variable {c c' : Contents T I V} {path : ℕ → I} {n : ℕ} {t t' u x : T} {i j : I}

theorem Reaches.self : Reaches c n t t := ⟨[], .here⟩

theorem Reaches.below (h : c (n + 1) t i = .table t') (hx : Reaches c n t' x) :
    Reaches c (n + 1) t x := by
  obtain ⟨is, hx⟩ := hx
  exact ⟨i :: is, .step h hx⟩

theorem lookup_empty (h : c (n + 1) t (path (n + 1)) = .empty) : lookup c path (n + 1) t = none := by
  rw [lookup, h]

theorem lookup_value {v : V} (h : c n t (path n) = .value v) : lookup c path n t = some (n, v) := by
  cases n <;> rw [lookup, h]

theorem lookup_table (h : c (n + 1) t (path (n + 1)) = .table t') :
    lookup c path (n + 1) t = lookup c path n t' := by
  rw [lookup, h]

theorem lookup_blank (h : ∀ i, c n t i = .empty) : lookup c path n t = none := by
  cases n <;> rw [lookup, h]

theorem reaches_blank (h : ∀ k i, c k t i = .empty) (hx : Reaches c n t x) : x = t := by
  obtain ⟨is, hx⟩ := hx
  cases hx with
  | here => rfl
  | step entry _ => rw [h] at entry; cases entry

theorem onePath_blank (h : ∀ k i, c k t i = .empty) : OnePath c n t := by
  intro x is js hi hj
  cases hi with
  | here =>
    cases hj with
    | here => rfl
    | step entry _ => rw [h] at entry; cases entry
  | step entry _ => rw [h] at entry; cases entry

/-- A lookup depends on nothing but the tables it can reach. -/
theorem lookup_congr (h : ∀ x, Reaches c n t x → ∀ k i, c' k x i = c k x i) :
    lookup c' path n t = lookup c path n t := by
  induction n generalizing t with
  | zero => rw [lookup, lookup, h t .self]
  | succ n ih =>
    have hentry := h t .self (n + 1) (path (n + 1))
    cases hc : c (n + 1) t (path (n + 1)) with
    | empty => rw [lookup_empty hc, lookup_empty (hentry.trans hc)]
    | value v => rw [lookup_value hc, lookup_value (hentry.trans hc)]
    | table t' =>
      rw [lookup_table hc, lookup_table (hentry.trans hc)]
      exact ih fun x hx => h x (.below hc hx)

theorem OnePath.child (h : OnePath c (n + 1) t) (hc : c (n + 1) t i = .table t') :
    OnePath c n t' := by
  intro x is js hi hj
  have heq := h x (i :: is) (i :: js) (.step hc hi) (.step hc hj)
  exact (List.cons.inj heq).2

theorem OnePath.not_reaches_self (h : OnePath c (n + 1) t) (hc : c (n + 1) t i = .table t') :
    ¬Reaches c n t' t := by
  rintro ⟨is, hx⟩
  cases h t (i :: is) [] (.step hc hx) .here

theorem OnePath.apart (h : OnePath c (n + 1) t) (hi : c (n + 1) t i = .table t')
    (hj : c (n + 1) t j = .table u) (hne : i ≠ j) (hx : Reaches c n t' x) : ¬Reaches c n u x := by
  obtain ⟨is, hx⟩ := hx
  rintro ⟨js, hy⟩
  exact hne (List.cons.inj (h x (i :: is) (j :: js) (.step hi hx) (.step hj hy))).1

end Walks

/-- From `c` to `c'` the tree at `t` changes along one path only, with the help of fresh tables:
the path ends in `result`, and every other path ends where it did. -/
structure Grafts (fresh : T → Prop) (path : ℕ → I) (n : ℕ) (t : T) (result : Option (ℕ × V))
    (c c' : Contents T I V) : Prop where
  frame : ∀ x, ¬Reaches c n t x → ¬fresh x → ∀ k i, c' k x i = c k x i
  others : ∀ path' : ℕ → I, (∃ k, k ≤ n ∧ path' k ≠ path k) →
    lookup c' path' n t = lookup c path' n t
  result_eq : lookup c' path n t = result

namespace Grafts

variable {fresh : T → Prop} {path : ℕ → I} {n : ℕ} {t u : T} {result : Option (ℕ × V)}
  {c c₁ c' : Contents T I V}

theorem refl (c : Contents T I V) : Grafts fresh path n t (lookup c path n t) c c :=
  ⟨fun _ _ _ _ _ => rfl, fun _ _ => rfl, rfl⟩

/-- The last entry of the path is written. -/
theorem write {v : V} (hentry : c' 0 t (path 0) = .value v)
    (hsame : ∀ x k i, x ≠ t ∨ i ≠ path 0 → c' k x i = c k x i) :
    Grafts fresh path 0 t (some (0, v)) c c' := by
  refine ⟨fun x hx _ k i => hsame x k i (Or.inl fun h => hx (h ▸ .self)), fun path' hk => ?_,
    lookup_value hentry⟩
  obtain ⟨k, hk, hne⟩ := hk
  obtain rfl := Nat.le_zero.mp hk
  rw [lookup, lookup, hsame t 0 (path' 0) (Or.inr hne)]

/-- A change in the subtree that the path enters is a change of the tree. -/
theorem below (hone : OnePath c (n + 1) t) (hfresh : ∀ x, fresh x → ¬Reaches c (n + 1) t x)
    (hentry : c (n + 1) t (path (n + 1)) = .table u) (G : Grafts fresh path n u result c c') :
    Grafts fresh path (n + 1) t result c c' := by
  have hroot : ∀ k i, c' k t i = c k t i :=
    G.frame t (hone.not_reaches_self hentry) fun h => hfresh t h .self
  refine ⟨fun x hx hold => G.frame x (fun h => hx (.below hentry h)) hold, ?_, ?_⟩
  · intro path' hk
    by_cases hsame : path' (n + 1) = path (n + 1)
    · have hentry' : c (n + 1) t (path' (n + 1)) = .table u := by rw [hsame, hentry]
      rw [lookup_table ((hroot _ _).trans hentry'), lookup_table hentry']
      obtain ⟨k, hle, hne⟩ := hk
      exact G.others path' ⟨k, Nat.le_of_lt_succ (Nat.lt_of_le_of_ne hle fun h => hne (h ▸ hsame)), hne⟩
    · cases hc : c (n + 1) t (path' (n + 1)) with
      | empty => rw [lookup_empty hc, lookup_empty ((hroot _ _).trans hc)]
      | value v => rw [lookup_value hc, lookup_value ((hroot _ _).trans hc)]
      | table w =>
        rw [lookup_table hc, lookup_table ((hroot _ _).trans hc)]
        refine lookup_congr fun x hx => G.frame x ?_ fun h => hfresh x h (.below hc hx)
        exact hone.apart hc hentry hsame hx
  · rw [lookup_table ((hroot _ _).trans hentry), G.result_eq]

/-- A blank fresh table is linked where the path was empty, and the change continues in it. -/
theorem link {fresh' : T → Prop} (hone : OnePath c (n + 1) t)
    (hfresh : ∀ x, fresh x → ¬Reaches c (n + 1) t x) (hu : fresh u)
    (hfresh' : ∀ x, fresh' x → fresh x)
    (hempty : c (n + 1) t (path (n + 1)) = .empty)
    (hlink : c₁ (n + 1) t (path (n + 1)) = .table u) (hblank : ∀ k i, c₁ k u i = .empty)
    (hsame : ∀ x k i, x ≠ u → x ≠ t ∨ i ≠ path (n + 1) → c₁ k x i = c k x i)
    (G : Grafts fresh' path n u result c₁ c') : Grafts fresh path (n + 1) t result c c' := by
  have hout : ∀ x, Reaches c (n + 1) t x → x ≠ u := fun x hx h => hfresh u hu (h ▸ hx)
  have hlater : ∀ x, x ≠ u → ¬fresh' x → ∀ k i, c' k x i = c₁ k x i :=
    fun x hx => G.frame x fun h => hx (reaches_blank hblank h)
  have hkeep : ∀ x, Reaches c (n + 1) t x → ¬fresh' x := fun x hx h => hfresh x (hfresh' x h) hx
  have hroot := hlater t (hout t .self) (hkeep t .self)
  refine ⟨fun x hx hnot k i => ?_, fun path' hk => ?_, ?_⟩
  · have hxu : x ≠ u := fun h => hnot (h ▸ hu)
    have hxt : x ≠ t := fun h => hx (h ▸ .self)
    rw [hlater x hxu (fun h => hnot (hfresh' x h)), hsame x k i hxu (Or.inl hxt)]
  · by_cases hat : path' (n + 1) = path (n + 1)
    · obtain ⟨k, hle, hne⟩ := hk
      have hk' : k ≤ n := Nat.le_of_lt_succ (Nat.lt_of_le_of_ne hle fun h => hne (h ▸ hat))
      have hempty' : c (n + 1) t (path' (n + 1)) = .empty := by rw [hat, hempty]
      have hlink' : c' (n + 1) t (path' (n + 1)) = .table u := by rw [hroot, hat, hlink]
      rw [lookup_empty hempty', lookup_table hlink', G.others path' ⟨k, hk', hne⟩,
        lookup_blank fun i => hblank n i]
    · have hentry : c' (n + 1) t (path' (n + 1)) = c (n + 1) t (path' (n + 1)) := by
        rw [hroot, hsame t _ _ (hout t .self) (Or.inr hat)]
      cases hc : c (n + 1) t (path' (n + 1)) with
      | empty => rw [lookup_empty hc, lookup_empty (hentry.trans hc)]
      | value v => rw [lookup_value hc, lookup_value (hentry.trans hc)]
      | table w =>
        rw [lookup_table hc, lookup_table (hentry.trans hc)]
        refine lookup_congr fun x hx k i => ?_
        have hreach : Reaches c (n + 1) t x := .below hc hx
        have hxt : x ≠ t := fun h => hone.not_reaches_self hc (h ▸ hx)
        rw [hlater x (hout x hreach) (hkeep x hreach), hsame x k i (hout x hreach) (Or.inl hxt)]
  · rw [lookup_table ((hroot _ _).trans hlink), G.result_eq]

end Grafts

end JsOs.TableTrees
