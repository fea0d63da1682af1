import JsOs.TableTrees

/-!
# Trees that grow

A tree of tables grows along one path: values of the last level change, and fresh tables are linked
where there was nothing. What a path led to before, it leads to afterwards, and the tree still has
one path to each of its tables.
-/

namespace JsOs.TableGrowth

open TableTrees

variable {T I V W : Type*}

/-- The values of the entries mapped, level by level. -/
def mapEntry (f : V → W) : Entry T V → Entry T W
  | .empty => .empty
  | .value v => .value (f v)
  | .table t => .table t

def mapContents (f : ℕ → V → W) (c : Contents T I V) : Contents T I W :=
  fun n t i => mapEntry (f n) (c n t i)

/-- Where a path ends: at a missing table, at a value above the last level, or in a table of the
last level. -/
inductive Ending (T V : Type*) where
  | missing
  | value (n : ℕ) (v : V)
  | bottom (t : T)

def ending (c : Contents T I V) (path : ℕ → I) : ℕ → T → Ending T V
  | 0, t => .bottom t
  | n + 1, t => match c (n + 1) t (path (n + 1)) with
    | .empty => .missing
    | .value v => .value (n + 1) v
    | .table t' => ending c path n t'

section Maps

variable {c : Contents T I V} {f : ℕ → V → W} {path : ℕ → I} {n : ℕ} {t t' x : T} {i : I}
  {is : List I}

theorem mapContents_table : mapContents f c n t i = .table t' ↔ c n t i = .table t' := by
  unfold mapContents
  cases h : c n t i <;> simp [mapEntry]

theorem leads_map : Leads (mapContents f c) n t is x ↔ Leads c n t is x := by
  constructor
  · intro h
    induction h with
    | here => exact .here
    | step entry _ ih => exact .step (mapContents_table.mp entry) ih
  · intro h
    induction h with
    | here => exact .here
    | step entry _ ih => exact .step (mapContents_table.mpr entry) ih

theorem reaches_map : Reaches (mapContents f c) n t x ↔ Reaches c n t x :=
  exists_congr fun _ => leads_map

theorem onePath_map : OnePath (mapContents f c) n t ↔ OnePath c n t := by
  simp only [OnePath, leads_map]

theorem lookup_map : lookup (mapContents f c) path n t =
    (lookup c path n t).map fun found => (found.1, f found.1 found.2) := by
  induction n generalizing t with
  | zero =>
    unfold lookup mapContents
    cases c 0 t (path 0) <;> rfl
  | succ n ih =>
    unfold lookup
    dsimp only [mapContents]
    cases c (n + 1) t (path (n + 1)) with
    | empty => rfl
    | value v => rfl
    | table t' => exact ih

end Maps

section Endings

variable {c c' : Contents T I V} {path path' : ℕ → I} {n k : ℕ} {t t' u x : T} {v : V} {i : I}
  {is : List I}

theorem ending_empty (h : c (n + 1) t (path (n + 1)) = .empty) :
    ending c path (n + 1) t = .missing := by
  rw [ending, h]

theorem ending_value (h : c (n + 1) t (path (n + 1)) = .value v) :
    ending c path (n + 1) t = .value (n + 1) v := by
  rw [ending, h]

theorem ending_table (h : c (n + 1) t (path (n + 1)) = .table t') :
    ending c path (n + 1) t = ending c path n t' := by
  rw [ending, h]

theorem lookup_of_missing (h : ending c path n t = .missing) : lookup c path n t = none := by
  induction n generalizing t with
  | zero => cases h
  | succ n ih =>
    cases hc : c (n + 1) t (path (n + 1)) with
    | empty => exact lookup_empty hc
    | value v =>
      rw [ending_value hc] at h
      cases h
    | table t' =>
      rw [ending_table hc] at h
      rw [lookup_table hc]
      exact ih h

theorem lookup_of_value (h : ending c path n t = .value k v) : lookup c path n t = some (k, v) := by
  induction n generalizing t with
  | zero => cases h
  | succ n ih =>
    cases hc : c (n + 1) t (path (n + 1)) with
    | empty =>
      rw [ending_empty hc] at h
      cases h
    | value w =>
      rw [ending_value hc] at h
      cases h
      exact lookup_value hc
    | table t' =>
      rw [ending_table hc] at h
      rw [lookup_table hc]
      exact ih h

theorem lookup_of_bottom (h : ending c path n t = .bottom x) :
    lookup c path n t = lookup c path 0 x := by
  induction n generalizing t with
  | zero =>
    cases h
    rfl
  | succ n ih =>
    cases hc : c (n + 1) t (path (n + 1)) with
    | empty =>
      rw [ending_empty hc] at h
      cases h
    | value w =>
      rw [ending_value hc] at h
      cases h
    | table t' =>
      rw [ending_table hc] at h
      rw [lookup_table hc]
      exact ih h

/-- A value that is found from the last level stands there. -/
theorem level_of_bottom (h : ending c path n t = .bottom x) {found : ℕ × V}
    (hfound : lookup c path n t = some found) : found.1 = 0 := by
  rw [lookup_of_bottom h, lookup] at hfound
  cases hc : c 0 x (path 0) <;> rw [hc] at hfound <;> cases hfound
  rfl

/-- Paths that agree down to the last level find the same value. -/
theorem lookup_path (h : ∀ k, k ≤ n → path' k = path k) :
    lookup c path' n t = lookup c path n t := by
  induction n generalizing t with
  | zero => rw [lookup, lookup, h 0 (Nat.le_refl 0)]
  | succ n ih =>
    unfold lookup
    rw [h (n + 1) (Nat.le_refl _)]
    cases c (n + 1) t (path (n + 1)) with
    | empty => rfl
    | value v => rfl
    | table t' => exact ih fun k hk => h k (Nat.le_succ_of_le hk)

theorem ending_congr (h : ∀ x, Reaches c n t x → ∀ k i, c' k x i = c k x i) :
    ending c' path n t = ending c path n t := by
  induction n generalizing t with
  | zero => rfl
  | succ n ih =>
    have hentry := h t .self (n + 1) (path (n + 1))
    cases hc : c (n + 1) t (path (n + 1)) with
    | empty => rw [ending_empty hc, ending_empty (hentry.trans hc)]
    | value v => rw [ending_value hc, ending_value (hentry.trans hc)]
    | table t' =>
      rw [ending_table hc, ending_table (hentry.trans hc)]
      exact ih fun x hx => h x (.below hc hx)

/-- Where nothing that could be reached has changed, nothing else is reached. -/
theorem leads_of_congr (h : ∀ x, Reaches c n t x → ∀ k i, c' k x i = c k x i)
    (hx : Leads c' n t is x) : Leads c n t is x := by
  induction hx with
  | here => exact .here
  | step entry _ ih =>
    have hentry := (h _ .self _ _).symm.trans entry
    exact .step hentry (ih fun y hy => h y (.below hentry hy))

end Endings

/-- From `c` to `c'` the tree at `t` grows: fresh tables may be linked, but not those that are fresh
still. In the end the path leads to `target`. -/
structure Grows (fresh fresh' : T → Prop) (path : ℕ → I) (n : ℕ) (t : T) (target : Ending T V)
    (c c' : Contents T I V) : Prop where
  frame : ∀ x, ¬Reaches c n t x → ¬fresh x → ∀ k i, c' k x i = c k x i
  remaining : ∀ x, fresh' x → fresh x
  onePath : OnePath c' n t
  reaches : ∀ x, Reaches c' n t x → Reaches c n t x ∨ fresh x ∧ ¬fresh' x
  endings : ∀ path', ending c path' n t ≠ .missing → ending c' path' n t = ending c path' n t
  target_eq : ending c' path n t = target

namespace Grows

variable {fresh fresh' mid : T → Prop} {path : ℕ → I} {n : ℕ} {t u : T} {target : Ending T V}
  {c c₁ c' : Contents T I V}

theorem refl (h : OnePath c n t) : Grows fresh fresh path n t (ending c path n t) c c :=
  ⟨fun _ _ _ _ _ => rfl, fun _ hx => hx, h, fun _ hx => Or.inl hx, fun _ _ => rfl, rfl⟩

/-- The last level is written. -/
theorem write (hsame : ∀ x, x ≠ t → ∀ k i, c' k x i = c k x i) :
    Grows fresh fresh path 0 t (.bottom t) c c' := by
  have hhere : ∀ x is, Leads c' 0 t is x → x = t ∧ is = [] := fun x is hx => by
    cases hx
    exact ⟨rfl, rfl⟩
  refine ⟨fun x hx _ => hsame x fun h => hx (h ▸ .self), fun _ hx => hx, fun x is js hi hj => ?_,
    fun x hx => ?_, fun _ _ => rfl, rfl⟩
  · rw [(hhere x is hi).2, (hhere x js hj).2]
  · obtain ⟨is, hx⟩ := hx
    rw [(hhere x is hx).1]
    exact Or.inl .self

/-- A path through the entry goes on in `u`, any other is as it was. -/
theorem leads_of_child {i : I} (hroot : ∀ j, j ≠ i → c' (n + 1) t j = c (n + 1) t j)
    (hothers : ∀ j w, j ≠ i → c (n + 1) t j = .table w → ∀ x, Reaches c n w x →
      ∀ k i, c' k x i = c k x i)
    (hchild : c' (n + 1) t i = .table u) {x : T} {is : List I} (hx : Leads c' (n + 1) t is x) :
    (∃ is', is = i :: is' ∧ Leads c' n u is' x) ∨
      Leads c (n + 1) t is x ∧ ∀ is', is ≠ i :: is' := by
  cases hx with
  | here => exact Or.inr ⟨.here, fun _ h => by cases h⟩
  | @step _ _ t' _ j js entry rest =>
    by_cases hj : j = i
    · subst hj
      obtain rfl := Entry.table.inj (hchild.symm.trans entry)
      exact Or.inl ⟨js, rfl, rest⟩
    · have hold := (hroot j hj).symm.trans entry
      refine Or.inr ⟨.step hold (leads_of_congr (hothers j t' hj hold) rest), fun is' h => ?_⟩
      exact hj (List.cons.inj h).1

/-- The growth is below one entry of the root. -/
theorem of_child (hone : OnePath c (n + 1) t) (hfresh : ∀ x, fresh x → ¬Reaches c (n + 1) t x)
    (hframe : ∀ x, ¬Reaches c (n + 1) t x → ¬fresh x → ∀ k i, c' k x i = c k x i)
    (hremaining : ∀ x, fresh' x → fresh x)
    (hroot : ∀ j, j ≠ path (n + 1) → c' (n + 1) t j = c (n + 1) t j)
    (hothers : ∀ j w, j ≠ path (n + 1) → c (n + 1) t j = .table w →
      ∀ x, Reaches c n w x → ∀ k i, c' k x i = c k x i)
    (hchild : c' (n + 1) t (path (n + 1)) = .table u) (honeChild : OnePath c' n u)
    (hreaches : ∀ x, Reaches c' n u x →
      (∃ is, Leads c (n + 1) t (path (n + 1) :: is) x) ∨ fresh x ∧ ¬fresh' x)
    (hendings : ∀ path' : ℕ → I, path' (n + 1) = path (n + 1) →
      ending c path' (n + 1) t ≠ .missing → ending c' path' (n + 1) t = ending c path' (n + 1) t)
    (htarget : ending c' path n u = target) :
    Grows fresh fresh' path (n + 1) t target c c' := by
  generalize hi : path (n + 1) = i at *
  have hcases := fun x is => @leads_of_child _ _ _ n t u c c' i hroot hothers hchild x is
  -- a table is not reached both ways
  have hmixed : ∀ x is, Reaches c' n u x → Leads c (n + 1) t is x → ∃ is', is = i :: is' := by
    intro x is hnew hold
    rcases hreaches x hnew with ⟨ks, hks⟩ | ⟨hx, -⟩
    · exact ⟨ks, hone x is (i :: ks) hold hks⟩
    · exact absurd ⟨is, hold⟩ (hfresh x hx)
  refine ⟨hframe, hremaining, fun x is js his hjs => ?_, fun x hx => ?_, fun path' hpath => ?_, ?_⟩
  · rcases hcases x is his with ⟨is', rfl, hi'⟩ | ⟨hi', hne⟩
    · rcases hcases x js hjs with ⟨js', rfl, hj'⟩ | ⟨hj', hne'⟩
      · rw [honeChild x is' js' hi' hj']
      · obtain ⟨ks, hks⟩ := hmixed x js ⟨is', hi'⟩ hj'
        exact absurd hks (hne' ks)
    · rcases hcases x js hjs with ⟨js', rfl, hj'⟩ | ⟨hj', hne'⟩
      · obtain ⟨ks, hks⟩ := hmixed x is ⟨js', hj'⟩ hi'
        exact absurd hks (hne ks)
      · exact hone x is js hi' hj'
  · obtain ⟨is, hx⟩ := hx
    rcases hcases x is hx with ⟨is', -, hx'⟩ | ⟨hx', -⟩
    · exact (hreaches x ⟨is', hx'⟩).imp_left fun ⟨js, hjs⟩ => ⟨i :: js, hjs⟩
    · exact Or.inl ⟨is, hx'⟩
  · by_cases hsame : path' (n + 1) = i
    · exact hendings path' hsame hpath
    · have hentry := hroot _ hsame
      cases hc : c (n + 1) t (path' (n + 1)) with
      | empty => exact absurd (ending_empty hc) hpath
      | value v => rw [ending_value hc, ending_value (hentry.trans hc)]
      | table w =>
        rw [ending_table hc, ending_table (hentry.trans hc)]
        exact ending_congr (hothers _ w hsame hc)
  · rw [← htarget, ending_table (by rwa [hi])]

/-- The subtree that the path enters grows. -/
theorem below (G : Grows fresh fresh' path n u target c c') (hone : OnePath c (n + 1) t)
    (hfresh : ∀ x, fresh x → ¬Reaches c (n + 1) t x)
    (hentry : c (n + 1) t (path (n + 1)) = .table u) :
    Grows fresh fresh' path (n + 1) t target c c' := by
  have hroot : ∀ k j, c' k t j = c k t j :=
    G.frame t (hone.not_reaches_self hentry) fun h => hfresh t h .self
  have hchild : c' (n + 1) t (path (n + 1)) = .table u := (hroot _ _).trans hentry
  refine of_child hone hfresh (fun x hx => G.frame x fun h => hx (.below hentry h)) G.remaining
    (fun j _ => hroot _ j) (fun j w hj hw x hx => ?_) hchild G.onePath (fun x hx => ?_)
    (fun path' hpath hmissing => ?_) G.target_eq
  · exact G.frame x (hone.apart hw hentry hj hx) fun h => hfresh x h (.below hw hx)
  · refine (G.reaches x hx).imp_left fun hold => ?_
    obtain ⟨is, hold⟩ := hold
    exact ⟨is, .step hentry hold⟩
  · rw [ending_table (by rwa [hpath])] at hmissing ⊢
    rw [ending_table (by rwa [hpath])]
    exact G.endings path' hmissing

/-- A blank fresh table is linked where there was nothing, and grows. -/
theorem link (G : Grows mid fresh' path n u target c₁ c') (hone : OnePath c (n + 1) t)
    (hfresh : ∀ x, fresh x → ¬Reaches c (n + 1) t x)
    (hu : fresh u) (hmid : ∀ x, mid x → fresh x ∧ x ≠ u)
    (hempty : c (n + 1) t (path (n + 1)) = .empty)
    (hlink : c₁ (n + 1) t (path (n + 1)) = .table u) (hblank : ∀ k j, c₁ k u j = .empty)
    (hsame : ∀ x k j, x ≠ u → x ≠ t ∨ j ≠ path (n + 1) → c₁ k x j = c k x j) :
    Grows fresh fresh' path (n + 1) t target c c' := by
  have hout : ∀ x, Reaches c (n + 1) t x → x ≠ u := fun x hx h => hfresh u hu (h ▸ hx)
  have hlater : ∀ x, x ≠ u → ¬mid x → ∀ k j, c' k x j = c₁ k x j := fun x hx =>
    G.frame x fun h => hx (reaches_blank hblank h)
  have hkeep : ∀ x, Reaches c (n + 1) t x → ¬mid x := fun x hx h => hfresh x (hmid x h).1 hx
  have hroot := hlater t (hout t .self) (hkeep t .self)
  refine of_child hone hfresh (fun x hx hnot k j => ?_) (fun x hx => (hmid x (G.remaining x hx)).1)
    (fun j hj => ?_) (fun j w hj hw x hx k m => ?_) ((hroot _ _).trans hlink) G.onePath
    (fun x hx => ?_) (fun path' hpath hmissing => ?_) G.target_eq
  · have hxu : x ≠ u := fun h => hnot (h ▸ hu)
    have hxt : x ≠ t := fun h => hx (h ▸ .self)
    rw [hlater x hxu fun h => hnot (hmid x h).1, hsame x k j hxu (Or.inl hxt)]
  · rw [hroot, hsame t _ _ (hout t .self) (Or.inr hj)]
  · have hreach : Reaches c (n + 1) t x := .below hw hx
    have hxt : x ≠ t := fun h => hone.not_reaches_self hw (h ▸ hx)
    rw [hlater x (hout x hreach) (hkeep x hreach), hsame x k m (hout x hreach) (Or.inl hxt)]
  · rcases G.reaches x hx with hold | ⟨hx', hnot⟩
    · rw [reaches_blank hblank hold]
      exact Or.inr ⟨hu, fun h => (hmid u (G.remaining u h)).2 rfl⟩
    · exact Or.inr ⟨(hmid x hx').1, hnot⟩
  · exact absurd (ending_empty (by rwa [hpath])) hmissing

end Grows

end JsOs.TableGrowth
