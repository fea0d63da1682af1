import Mathlib.Data.List.Basic

/-!
# Output through a sink

A printer works on the state of a sink and may be undefined. It prints a text if, whatever the sink
holds already, the text comes behind it; what holding means is a parameter. A printer that is
undefined is so for every sink.
-/

namespace JsOs.OutputSinks

variable {α σ : Type*} {Holds : List α → σ → Prop}

/-- From `s` to `s'` the text is appended to whatever the sink holds. -/
def Appends (Holds : List α → σ → Prop) (text : List α) (s s' : σ) : Prop :=
  ∀ before, Holds before s → Holds (before ++ text) s'

theorem Appends.refl (s : σ) : Appends Holds [] s s := fun before h => by
  rwa [List.append_nil]

theorem Appends.trans {text text' : List α} {s s' s'' : σ} (h : Appends Holds text s s')
    (h' : Appends Holds text' s' s'') : Appends Holds (text ++ text') s s'' := fun before hs => by
  rw [← List.append_assoc]
  exact h' _ (h _ hs)

/-- The printer prints the text, or is undefined where there is none. -/
def Prints (Holds : List α → σ → Prop) (f : σ → Option σ) : Option (List α) → Prop
  | none => ∀ s, f s = none
  | some text => ∀ s, ∃ s', f s = some s' ∧ Appends Holds text s s'

namespace Prints

variable {f g : σ → Option σ} {text text' : Option (List α)}

theorem pure {f : σ → σ} {t : List α} (h : ∀ s, Appends Holds t s (f s)) :
    Prints Holds (fun s => some (f s)) (some t) := fun s => ⟨f s, rfl, h s⟩

theorem undefined : Prints Holds (fun _ => none) none := fun _ => rfl

/-- One printer after the other. -/
theorem bind (h : Prints Holds f text) (h' : Prints Holds g text') :
    Prints Holds (fun s => (f s).bind g) (text.bind fun t => text'.map (t ++ ·)) := by
  cases text with
  | none =>
    intro s
    change (f s).bind g = none
    rw [h s, Option.bind_none]
  | some t =>
    cases text' with
    | none =>
      intro s
      obtain ⟨s', hs', -⟩ := h s
      change (f s).bind g = none
      rw [hs', Option.bind_some]
      exact h' s'
    | some t' =>
      intro s
      obtain ⟨s', hs', hA⟩ := h s
      obtain ⟨s'', hs'', hA'⟩ := h' s'
      refine ⟨s'', ?_, hA.trans hA'⟩
      change (f s).bind g = some s''
      rw [hs', Option.bind_some, hs'']

/-- A step that always succeeds, before a printer. -/
theorem after {step : σ → σ} {t : List α} (h : ∀ s, Appends Holds t s (step s))
    (h' : Prints Holds g text) : Prints Holds (fun s => g (step s)) (text.map (t ++ ·)) :=
  (pure h).bind h'

/-- A step that always succeeds, behind a printer. -/
theorem before {step : σ → σ} {t : List α} (h : Prints Holds f text)
    (h' : ∀ s, Appends Holds t s (step s)) :
    Prints Holds (fun s => (f s).map step) (text.map (· ++ t)) := by
  cases text with
  | none =>
    intro s
    change (f s).map step = none
    rw [h s, Option.map_none]
  | some t' =>
    intro s
    obtain ⟨s', hs', hA⟩ := h s
    refine ⟨step s', ?_, hA.trans (h' s')⟩
    change (f s).map step = some (step s')
    rw [hs', Option.map_some]

/-- A computation that does not look at the sink decides what is printed. -/
theorem select {β : Type*} (x : Option β) {f : β → σ → Option σ} {text : β → Option (List α)}
    (h : ∀ b, x = some b → Prints Holds (f b) (text b)) :
    Prints Holds (fun s => x.bind fun b => f b s) (x.bind text) := by
  cases x with
  | none => exact undefined
  | some b => exact h b rfl

end Prints

end JsOs.OutputSinks
