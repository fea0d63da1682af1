import JsOs.StringModel

/-!
# Searching a string

`strstr` returns the first place at which the needle stands, and reads neither string behind its
NUL.
-/

namespace JsOs.StringSearch

open MachineWords StringModel

variable {text needle left right : List UInt8}

/-- The needle stands at `i`, and nowhere before. -/
structure FirstOccurrence (needle text : List UInt8) (i : ℕ) : Prop where
  occurs : needle <+: text.drop i
  first : ∀ j, j < i → ¬needle <+: text.drop j

theorem FirstOccurrence.unique {i j : ℕ} (h : FirstOccurrence needle text i)
    (h' : FirstOccurrence needle text j) : i = j := by
  rcases lt_trichotomy i j with hlt | heq | hgt
  · exact absurd h.occurs (h'.first i hlt)
  · exact heq
  · exact absurd h'.occurs (h.first j hgt)

theorem matchesHere_nul (left : List UInt8) : matchesHere left [0] = some true := by
  cases left <;> rfl

theorem matchesHere_cons {c d : UInt8} (hd : d ≠ 0) (left right : List UInt8) :
    matchesHere (c :: left) (d :: right) =
      if c = d then matchesHere left right else some false := by
  conv_lhs => unfold matchesHere
  exact if_neg hd

/-- The inner loop: the candidate may end in the middle of the needle. -/
theorem matchesHere_eq (hright : 0 ∉ right) :
    matchesHere (left ++ [0]) (right ++ [0]) = some (decide (right <+: left)) := by
  induction right generalizing left with
  | nil =>
    rw [decide_eq_true List.nil_prefix]
    exact matchesHere_nul _
  | cons d right ih =>
    have hd : d ≠ 0 := fun heq => hright (heq ▸ List.mem_cons_self)
    have hright' : 0 ∉ right := fun h => hright (List.mem_cons_of_mem d h)
    cases left with
    | nil =>
      have hnot : ¬d :: right <+: [] := fun h => List.cons_ne_nil d right (List.prefix_nil.mp h)
      rw [decide_eq_false hnot]
      exact (matchesHere_cons hd [] (right ++ [0])).trans (if_neg hd.symm)
    | cons c left =>
      rw [List.cons_append, List.cons_append, matchesHere_cons hd]
      by_cases hc : c = d
      · rw [if_pos hc, ih hright', hc]
        simp only [List.cons_prefix_cons, true_and]
      · have hnot : ¬d :: right <+: c :: left := fun h => hc (List.cons_prefix_cons.mp h).1.symm
        rw [if_neg hc, decide_eq_false hnot]

/-- The outer loop: what has been passed holds no occurrence. -/
theorem searchFrom_eq (htext : 0 ∉ text) (hneedle : 0 ∉ needle) (hne : needle ≠ []) (k : ℕ) :
    (∃ i, searchFrom (needle ++ [0]) k (text ++ [0]) = some (some (k + i)) ∧
      FirstOccurrence needle text i) ∨
    searchFrom (needle ++ [0]) k (text ++ [0]) = some none ∧ ∀ i, ¬needle <+: text.drop i := by
  induction text generalizing k with
  | nil =>
    refine .inr ⟨if_pos rfl, fun i h => ?_⟩
    rw [List.drop_nil] at h
    exact hne (List.prefix_nil.mp h)
  | cons c text ih =>
    have hc : c ≠ 0 := fun heq => htext (heq ▸ List.mem_cons_self)
    have hround : searchFrom (needle ++ [0]) k (c :: text ++ [0]) =
        if needle <+: c :: text then some (some k)
        else searchFrom (needle ++ [0]) (k + 1) (text ++ [0]) := by
      rw [List.cons_append, searchFrom, if_neg hc, ← List.cons_append, matchesHere_eq hneedle,
        Option.bind_some]
      simp only [decide_eq_true_eq]
    rw [hround]
    by_cases h : needle <+: c :: text
    · rw [if_pos h]
      exact .inl ⟨0, rfl, h, fun j hj => absurd hj (Nat.not_lt_zero j)⟩
    · rw [if_neg h]
      rcases ih (fun hmem => htext (List.mem_cons_of_mem c hmem)) (k + 1) with
        ⟨i, hi, hfirst⟩ | ⟨hnone, hnot⟩
      · refine .inl ⟨i + 1, by rw [hi, Nat.add_right_comm, Nat.add_assoc], hfirst.occurs, ?_⟩
        intro j hj
        cases j with
        | zero => exact h
        | succ j => exact hfirst.first j (Nat.lt_of_succ_lt_succ hj)
      · refine .inr ⟨hnone, fun i => ?_⟩
        cases i with
        | zero => exact h
        | succ i => exact hnot i

/-- An empty needle stands at the beginning of every text. -/
theorem strstr_nil (text : List UInt8) : strstr text [0] = some (some 0) := by
  unfold strstr
  rw [List.head?_cons, Option.bind_some, if_pos rfl]

theorem strstr_cons {d : UInt8} (hd : d ≠ 0) (text right : List UInt8) :
    strstr text (d :: right) = searchFrom (d :: right) 0 text := by
  unfold strstr
  rw [List.head?_cons, Option.bind_some, if_neg hd]

/-- `strstr` returns `text + i` for the first `i` at which the needle stands, and `NULL` if there is
none. -/
theorem strstr_first (text needle : CString) : ∃ r, strstr text.array needle.array = some r ∧
    (∀ i, r = some i ↔ FirstOccurrence needle.text text.text i) ∧
    (r = none ↔ ∀ i, ¬needle.text <+: text.text.drop i) := by
  obtain ⟨needle, hneedle⟩ := needle
  have hfound {i : ℕ} (h : FirstOccurrence needle text.text i) :
      (∀ j, some i = some j ↔ FirstOccurrence needle text.text j) ∧
        (some i = none ↔ ∀ j, ¬needle <+: text.text.drop j) := by
    refine ⟨fun j => ⟨fun heq => ?_, fun h' => congrArg some (h.unique h')⟩, ?_⟩
    · rwa [← Option.some.inj heq]
    · exact iff_of_false (Option.some_ne_none i) fun hnot => hnot i h.occurs
  cases needle with
  | nil =>
    have hzero : FirstOccurrence [] text.text 0 :=
      ⟨List.nil_prefix, fun j hj => absurd hj (Nat.not_lt_zero j)⟩
    exact ⟨some 0, strstr_nil text.array, hfound hzero⟩
  | cons d needle =>
    have hd : d ≠ 0 := fun heq => hneedle (heq ▸ List.mem_cons_self)
    have hstrstr := strstr_cons hd text.array (needle ++ [0])
    rcases searchFrom_eq text.nul_notMem hneedle (List.cons_ne_nil d needle) 0 with
      ⟨i, hi, hfirst⟩ | ⟨hnone, hnot⟩
    · rw [Nat.zero_add] at hi
      exact ⟨some i, hstrstr.trans hi, hfound hfirst⟩
    · refine ⟨none, hstrstr.trans hnone, fun i => ?_, iff_of_true rfl hnot⟩
      exact iff_of_false (Option.some_ne_none i).symm fun h => hnot i h.occurs

example : strstr (ascii "ababac" ++ [0]) (ascii "abac" ++ [0]) = some (some 2) := by decide

end JsOs.StringSearch
