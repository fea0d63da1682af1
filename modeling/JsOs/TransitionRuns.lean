import Mathlib.Logic.Basic
import Mathlib.Tactic.SplitIfs

/-!
# Runs of a labelled transition relation

Finite runs with their labels, the induction rule for invariants, and forward simulation.
-/

namespace JsOs.TransitionRuns

variable {σ τ α : Type*}

/-- `Run step s as t`: the steps labelled `as` lead from `s` to `t`. -/
inductive Run (step : σ → α → σ → Prop) : σ → List α → σ → Prop
  | nil (s : σ) : Run step s [] s
  | cons {s t u : σ} {a : α} {as : List α} (head : step s a t) (tail : Run step t as u) :
      Run step s (a :: as) u

namespace Run

variable {step : σ → α → σ → Prop} {s t : σ} {as : List α}

/-- What one step preserves, a run preserves. -/
theorem invariant (I : σ → Prop) (hstep : ∀ s a t, I s → step s a t → I t)
    (h : Run step s as t) (hs : I s) : I t := by
  induction h with
  | nil => exact hs
  | cons head _ ih => exact ih (hstep _ _ _ hs head)

/-- What every step from an invariant state shows in its label, all labels of a run show. -/
theorem invariant_labels (I : σ → Prop) (P : α → Prop)
    (hstep : ∀ s a t, I s → step s a t → I t ∧ P a) (h : Run step s as t) (hs : I s) :
    I t ∧ ∀ a ∈ as, P a := by
  induction h with
  | nil => exact ⟨hs, fun a ha => absurd ha List.not_mem_nil⟩
  | cons head _ ih =>
    obtain ⟨hI, hP⟩ := hstep _ _ _ hs head
    obtain ⟨hlast, hrest⟩ := ih hI
    refine ⟨hlast, fun a ha => ?_⟩
    rcases List.mem_cons.mp ha with rfl | ha
    · exact hP
    · exact hrest a ha

theorem append {u : σ} {bs : List α} (h : Run step s as t) (h' : Run step t bs u) :
    Run step s (as ++ bs) u := by
  induction h with
  | nil => exact h'
  | cons head _ ih => exact .cons head (ih h')

/-- Forward simulation: if every step from related states can be answered, so can every run. -/
theorem simulate {step' : τ → α → τ → Prop} (R : σ → τ → Prop)
    (hstep : ∀ s a t x, R s x → step s a t → ∃ y, step' x a y ∧ R t y)
    (h : Run step s as t) {x : τ} (hx : R s x) : ∃ y, Run step' x as y ∧ R t y := by
  induction h generalizing x with
  | nil => exact ⟨x, .nil x, hx⟩
  | cons head _ ih =>
    obtain ⟨y, hy, hR⟩ := hstep _ _ _ _ hx head
    obtain ⟨z, hz, hR'⟩ := ih hR
    exact ⟨z, .cons hy hz, hR'⟩

/-- A run that leaves a set of states has a step that leaves it. -/
theorem exists_leaving {P : σ → Prop} (h : Run step s as t) (hs : P s) (ht : ¬ P t) :
    ∃ as₁ a as₂ u v, as = as₁ ++ a :: as₂ ∧ Run step s as₁ u ∧ step u a v ∧ P u ∧ ¬ P v := by
  induction h with
  | nil => exact absurd hs ht
  | @cons s u t a as head _ ih =>
    by_cases hu : P u
    · obtain ⟨as₁, b, as₂, v, w, rfl, hrun, hstep, hv, hw⟩ := ih hu ht
      exact ⟨a :: as₁, b, as₂, v, w, rfl, .cons head hrun, hstep, hv, hw⟩
    · exact ⟨[], a, as, s, u, rfl, .nil s, head, hs, hu⟩

theorem mono {step' : σ → α → σ → Prop} (hstep : ∀ s a t, step s a t → step' s a t)
    (h : Run step s as t) : Run step' s as t := by
  induction h with
  | nil => exact .nil _
  | cons head _ ih => exact .cons (hstep _ _ _ head) ih

/-- Steps that have a label in another system. -/
theorem relabel {β : Type*} {step' : σ → β → σ → Prop} (hstep : ∀ s a t, step s a t → ∃ b, step' s b t)
    (h : Run step s as t) : ∃ bs, Run step' s bs t := by
  induction h with
  | nil s => exact ⟨[], .nil s⟩
  | cons head _ ih =>
    obtain ⟨b, hb⟩ := hstep _ _ _ head
    obtain ⟨bs, hbs⟩ := ih
    exact ⟨b :: bs, .cons hb hbs⟩

/-- The runs of a function. -/
theorem eq_foldl {f : σ → α → σ} (h : Run (fun s a t => f s a = t) s as t) : as.foldl f s = t := by
  induction h with
  | nil => rfl
  | cons head _ ih => rw [List.foldl_cons, head, ih]

/-- Where the steps can be computed, so can the runs; `view` is what is looked at in the last
state. -/
theorem of_foldlM {β : Type*} {next : σ → α → Option σ}
    (hnext : ∀ s a t, next s a = some t → step s a t) (view : σ → β) {v : β}
    (h : (as.foldlM next s).map view = some v) : ∃ t, Run step s as t ∧ view t = v := by
  induction as generalizing s with
  | nil => exact ⟨s, .nil s, Option.some.inj h⟩
  | cons a as ih =>
    cases hs : next s a with
    | none => simp [List.foldlM, hs] at h
    | some u =>
      obtain ⟨t, hrun, ht⟩ := ih (s := u) (by simpa [List.foldlM, hs] using h)
      exact ⟨t, .cons (hnext s a u hs) hrun, ht⟩

end Run

section Calls

variable {γ ρ : Type*} (legal : σ → γ → Prop) (call : σ → γ → Option (ρ × σ))

/-- A system that is driven by calls: a step is a legal call together with its result. -/
def CallStep (s : σ) (e : γ × ρ) (t : σ) : Prop := legal s e.1 ∧ call s e.1 = some (e.2, t)

/-- The state after the call, if the call is legal and has this result. -/
def nextCall [DecidableEq ρ] [∀ s c, Decidable (legal s c)] (s : σ) (e : γ × ρ) : Option σ :=
  if legal s e.1 then (call s e.1).bind fun x => if x.1 = e.2 then some x.2 else none else none

variable {legal call}

theorem callStep_of_next [DecidableEq ρ] [∀ s c, Decidable (legal s c)] {s t : σ} {e : γ × ρ}
    (h : nextCall legal call s e = some t) : CallStep legal call s e t := by
  unfold nextCall at h
  split_ifs at h with hl
  obtain ⟨⟨result, u⟩, hcall, h⟩ := Option.bind_eq_some_iff.mp h
  dsimp only at h
  split_ifs at h with hr
  exact ⟨hl, by rw [hcall, ← hr, ← Option.some.inj h]⟩

/-- Runs of calls can be computed; `view` is what is looked at in the last state. -/
theorem Run.of_nextCall [DecidableEq ρ] [∀ s c, Decidable (legal s c)] {β : Type*} {s : σ}
    {es : List (γ × ρ)} (view : σ → β) {v : β}
    (h : (es.foldlM (nextCall legal call) s).map view = some v) :
    ∃ t, Run (CallStep legal call) s es t ∧ view t = v :=
  Run.of_foldlM (fun _ _ _ => callStep_of_next) view h

end Calls

end JsOs.TransitionRuns
