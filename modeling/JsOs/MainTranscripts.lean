import JsOs.ReentrantPrograms

/-!
# Transcripts of main programs

A program at the bottom of the stack goes on for ever. Its transcript is what it has done itself:
the actions it has taken, the answers to its requests and the functions it has invoked. Nothing is
assumed of these functions, of guest code and of the environment.
-/

namespace JsOs.MainTranscripts

open TransitionRuns ReentrantPrograms

/-- One thing that a main program does. -/
inductive Item (A R V F : Type) where
  | acted (a : A)
  | answered (r : R) (v : V)
  | invoked (f : F)
  deriving DecidableEq, Repr

variable {Γ A O R V F : Type} (S : System Γ A O R V F)

/-- What the main program does in an event; an answer comes from the environment or from guest code
that has come to its end. -/
def items (s : Machine Γ A O R V F) (e : Event Γ V F) : List (Item A R V F) :=
  match e, s.control, s.stack with
  | .run, .code (.act a _), [] => [.acted a]
  | .run, .code (.invoke f _), [] => [.invoked f]
  | .reply v, .code (.request r _), [] => [.answered r v]
  | .finish v, _, [.guest _ r _] => [.answered r v]
  | _, _, _ => []

/-- A step of the machine, with the transcript. -/
def RecordedStep (x : Machine Γ A O R V F × List (Item A R V F)) (e : Event Γ V F)
    (y : Machine Γ A O R V F × List (Item A R V F)) : Prop :=
  S.step x.1 e = some y.1 ∧ y.2 = x.2 ++ items x.1 e

section Rules

variable (keeps : List (Item A R V F) → Prop) (jumps : F → List (Item A R V F) → Prop)

/-- From this transcript on the program keeps to what every transcript is to satisfy, up to the next
jump. -/
def Says : Program A O R V F → List (Item A R V F) → Prop
  | .ret _, _ => False
  | .act a next, l => keeps l ∧ Says next (l ++ [.acted a])
  | .observe next, l => keeps l ∧ ∀ o, Says (next o) l
  | .request r next, l => keeps l ∧ ∀ v, Says (next v) (l ++ [.answered r v])
  | .invoke f next, l => keeps l ∧ keeps (l ++ [.invoked f]) ∧
      ∀ v, Says (next v) (l ++ [.invoked f])
  | .jump f, l => keeps l ∧ jumps f l

/-- A frame at the bottom of the stack that goes on as the main program. -/
def Waits : Frame Γ A O R V F → List (Item A R V F) → Prop
  | .call next, l => ∀ v, Says keeps jumps (next v) l
  | .guest _ r next, l => ∀ v, Says keeps jumps (next v) (l ++ [.answered r v])

/-- The invariant of recorded runs: the main program runs, or it waits. -/
inductive Recorded : Machine Γ A O R V F × List (Item A R V F) → Prop
  | main {γ : Γ} {p : Program A O R V F} {l : List (Item A R V F)} (own : Says keeps jumps p l) :
      Recorded (⟨γ, .code p, []⟩, l)
  | away {γ : Γ} {control : Control A O R V F} {inner : List (Frame Γ A O R V F)}
      {frame : Frame Γ A O R V F} {l : List (Item A R V F)} (kept : keeps l)
      (waits : Waits keeps jumps frame l) : Recorded (⟨γ, control, inner ++ [frame]⟩, l)

variable {S} {keeps} {jumps} {γ : Γ} {p : Program A O R V F} {control : Control A O R V F}
  {inner : List (Frame Γ A O R V F)} {frame : Frame Γ A O R V F} {l : List (Item A R V F)}
  {e : Event Γ V F} {x y : Machine Γ A O R V F × List (Item A R V F)}

theorem Says.kept (h : Says keeps jumps p l) : keeps l := by
  cases p with
  | ret v => exact h.elim
  | _ => exact h.1

theorem Recorded.kept (h : Recorded keeps jumps x) : keeps x.2 := by
  cases h with
  | main hsays => exact hsays.kept
  | away hkept _ => exact hkept

/-- Above a frame that stays on the stack, the main program does nothing. -/
theorem items_above {f : Frame Γ A O R V F} (h : ∀ v, e ≠ .finish v) :
    items ⟨γ, control, inner ++ [f]⟩ e = [] := by
  have hne : inner ++ [f] ≠ [] := List.append_ne_nil_of_right_ne_nil _ (List.cons_ne_nil _ _)
  unfold items
  split
  · rename_i hstack
    exact absurd hstack hne
  · rename_i hstack
    exact absurd hstack hne
  · rename_i hstack
    exact absurd hstack hne
  · exact absurd rfl (h _)
  · rfl

/-- Only the return of a function, or the end of guest code, takes a frame from the bottom. -/
theorem step_bottom {t : Machine Γ A O R V F}
    (h : S.step ⟨γ, control, inner ++ [frame]⟩ e = some t) :
    (∃ v next, e = .run ∧ inner = [] ∧ frame = .call next ∧ t = ⟨γ, .code (next v), []⟩) ∨
      (∃ v entry r next, e = .finish v ∧ inner = [] ∧ frame = .guest entry r next ∧
        t = ⟨γ, .code (next v), []⟩) ∨
      (∃ inner', t.stack = inner' ++ [frame]) ∧ items ⟨γ, control, inner ++ [frame]⟩ e = [] := by
  generalize hstack : inner ++ [frame] = stack at h
  cases System.step_moves h with
  | stop => exact absurd hstack (List.append_ne_nil_of_right_ne_nil _ (List.cons_ne_nil _ _))
  | @back _ v next rest =>
    cases inner with
    | nil =>
      cases hstack
      exact .inl ⟨v, next, rfl, rfl, rfl, rfl⟩
    | cons f inner =>
      cases hstack
      exact .inr (.inr ⟨⟨inner, rfl⟩, rfl⟩)
  | @finish _ v entry r next rest =>
    cases inner with
    | nil =>
      cases hstack
      exact .inr (.inl ⟨v, entry, r, next, rfl, rfl, rfl, rfl⟩)
    | cons f inner =>
      cases hstack
      refine .inr (.inr ⟨⟨inner, rfl⟩, ?_⟩)
      cases inner <;> rfl
  | @invoke _ _ next =>
    rw [← hstack]
    exact .inr (.inr ⟨⟨.call next :: inner, rfl⟩, items_above fun v hv => by cases hv⟩)
  | @enter _ r next =>
    rw [← hstack]
    exact .inr (.inr ⟨⟨.guest γ r next :: inner, rfl⟩, items_above fun v hv => by cases hv⟩)
  | _ =>
    rw [← hstack]
    exact .inr (.inr ⟨⟨inner, rfl⟩, items_above fun v hv => by cases hv⟩)

/-- A step of the main program. -/
theorem Says.step (hbody : ∀ f l, jumps f l → Says keeps jumps (S.body f) l)
    (h : Says keeps jumps p l) (hstep : RecordedStep S (⟨γ, .code p, []⟩, l) e y) :
    Recorded keeps jumps y := by
  obtain ⟨t, l'⟩ := y
  obtain ⟨hstep, hitems⟩ := hstep
  dsimp only at hstep hitems
  cases System.step_moves hstep with
  | stop => exact h.elim
  | act => exact hitems ▸ .main h.2
  | observe => exact (hitems.trans (List.append_nil l)) ▸ .main (h.2 _)
  | @invoke _ f next =>
    have haway : Recorded keeps jumps
        ((⟨γ, .code (S.body f), [] ++ [.call next]⟩ : Machine Γ A O R V F), l') :=
      .away (hitems ▸ h.2.1) (hitems ▸ h.2.2)
    exact haway
  | jump => exact (hitems.trans (List.append_nil l)) ▸ .main (hbody _ _ h.2)
  | reply => exact hitems ▸ .main (h.2 _)
  | @enter _ r next =>
    rw [hitems.trans (List.append_nil l)]
    have haway : Recorded keeps jumps
        ((⟨γ, .guest, [] ++ [.guest γ r next]⟩ : Machine Γ A O R V F), l) := .away h.1 h.2
    exact haway
  | call away => exact absurd rfl (away p)
  | pass => exact (hitems.trans (List.append_nil l)) ▸ .main h

theorem Recorded.step (hbody : ∀ f l, jumps f l → Says keeps jumps (S.body f) l)
    (h : Recorded keeps jumps x) (hstep : RecordedStep S x e y) : Recorded keeps jumps y := by
  cases h with
  | main hsays => exact hsays.step hbody hstep
  | @away γ control inner frame l hkept hwaits =>
    obtain ⟨t, l'⟩ := y
    obtain ⟨hstep, hitems⟩ := hstep
    dsimp only at hstep hitems
    rcases step_bottom hstep with ⟨v, next, rfl, rfl, rfl, rfl⟩ |
      ⟨v, entry, r, next, rfl, rfl, rfl, rfl⟩ | ⟨⟨inner', hstack⟩, hnone⟩
    · have hsame : items ⟨γ, control, ([] : List (Frame Γ A O R V F)) ++ [.call next]⟩ .run =
          ([] : List (Item A R V F)) := items_above fun v hv => by cases hv
      rw [hitems, hsame, List.append_nil]
      exact .main (hwaits v)
    · exact hitems ▸ .main (hwaits v)
    · obtain ⟨γ', control', stack⟩ := t
      dsimp only at hstack
      rw [hitems, hnone, List.append_nil, hstack]
      exact .away hkept hwaits

/-- Whatever functions, guest code and the environment do, every transcript of the main program is
as it is to be, and so is what the program knows where it jumps. -/
theorem run_says (hbody : ∀ f l, jumps f l → Says keeps jumps (S.body f) l)
    (hmain : Says keeps jumps p []) {es : List (Event Γ V F)}
    (hrun : Run (RecordedStep S) (⟨γ, .code p, []⟩, []) es y) :
    keeps y.2 ∧ ∀ f, y.1.control = .code (.jump f) → y.1.stack = [] → jumps f y.2 := by
  have h : Recorded keeps jumps y := hrun.invariant (Recorded keeps jumps)
    (fun _ _ _ h hstep => h.step hbody hstep) (.main hmain)
  refine ⟨h.kept, fun f hcontrol hstack => ?_⟩
  cases h with
  | main hsays =>
    cases hcontrol
    exact hsays.2
  | away => exact absurd hstack (List.append_ne_nil_of_right_ne_nil _ (List.cons_ne_nil _ _))

end Rules

end JsOs.MainTranscripts
