import JsOs.ReentrantPrograms

/-!
# Main loops

A program at the bottom of the stack goes round in a loop and invokes functions. The functions, and
guest code that they enter, may do anything that keeps an invariant of the shared state. A record is
kept of what the main program itself does, and assertions on the shared state and the record go
along with it from jump to jump.
-/

namespace JsOs.MainLoops

open TransitionRuns ReentrantPrograms

/-- The invariant, what may happen between two steps of a program, what is recorded of actions, of
answers, of invocations and of returns to the main program, and what is to hold where it jumps and
where it invokes. -/
structure Watch (Γ A R V F G : Type) where
  keeps : Γ → Prop
  passes : Γ → Γ → Prop
  acted : A → Γ → G → G
  replied : R → V → G → G
  invoked : F → G → G
  returned : Γ → G → G
  jumps : F → Γ → G → Prop
  invokes : F → Γ → G → Prop

variable {Γ A O R V F G : Type} (S : System Γ A O R V F) (W : Watch Γ A R V F G)

/-- The record after an event: of the main program, or of the return from the last function above
it. -/
def Watch.record (s : Machine Γ A O R V F) (e : Event Γ V F) (g : G) : G :=
  match e, s.control with
  | .run, .code (.act a _) => if s.stack = [] then W.acted a s.shared g else g
  | .run, .code (.invoke f _) => if s.stack = [] then W.invoked f g else g
  | .run, .code (.ret _) => if s.stack.length = 1 then W.returned s.shared g else g
  | .reply v, .code (.request r _) => if s.stack = [] then W.replied r v g else g
  | _, _ => g

/-- Guest code keeps the invariant, and none is run by requests of the main program itself. -/
def Watch.Permits (s : Machine Γ A O R V F) : Event Γ V F → Prop
  | .enter => s.stack ≠ []
  | .pass γ => s.control = .guest ∧ W.keeps γ ∨ W.passes s.shared γ
  | _ => True

/-- A step of the machine, with the record. -/
def WatchedStep (x : Machine Γ A O R V F × G) (e : Event Γ V F) (y : Machine Γ A O R V F × G) :
    Prop :=
  W.Permits x.1 e ∧ S.step x.1 e = some y.1 ∧ y.2 = W.record x.1 e x.2

/-- The next state and its record, unless guest code is entered or the environment acts. -/
def watchedNext (x : Machine Γ A O R V F × G) (e : Event Γ V F) :
    Option (Machine Γ A O R V F × G) :=
  match e with
  | .enter | .pass _ => none
  | e => (S.step x.1 e).map fun t => (t, W.record x.1 e x.2)

/-- From here on the main program meets its assertions, up to the next jump. -/
def Main : Program A O R V F → Γ → G → Prop
  | .ret _, _, _ => False
  | .act a next, γ, g => ∀ γ', W.passes γ γ' → Main next (S.act a γ') (W.acted a γ' g)
  | .observe next, γ, g => ∀ γ', W.passes γ γ' → Main (next (S.view γ')) γ' g
  | .request r next, γ, g => ∀ v γ', W.passes γ γ' → Main (next v) γ' (W.replied r v g)
  | .invoke f next, γ, g => (∀ γ', W.passes γ γ' → W.invokes f γ' g) ∧
      ∀ v γ', W.keeps γ' → Main (next v) γ' (W.returned γ' (W.invoked f g))
  | .jump f, γ, g => ∀ γ', W.passes γ γ' → W.jumps f γ' g

/-- What the rule for runs asks for. -/
structure Watch.Sound : Prop where
  refl : ∀ γ, W.passes γ γ
  trans : ∀ γ γ' γ'', W.passes γ γ' → W.passes γ' γ'' → W.passes γ γ''
  keeps_pass : ∀ γ γ', W.passes γ γ' → W.keeps γ → W.keeps γ'
  keeps_act : ∀ a γ, W.keeps γ → W.keeps (S.act a γ)
  body : ∀ f γ g, W.jumps f γ g → Main S W (S.body f) γ g

/-- The invariant of watched runs: the main program runs, or waits for a function. -/
inductive Driven : Machine Γ A O R V F × G → Prop
  | main {γ : Γ} {p : Program A O R V F} {g : G} (keeps : W.keeps γ) (main : Main S W p γ g) :
      Driven (⟨γ, .code p, []⟩, g)
  | away {γ : Γ} {control : Control A O R V F} {inner : List (Frame Γ A O R V F)}
      {next : V → Program A O R V F} {g : G} (keeps : W.keeps γ)
      (back : ∀ v γ', W.keeps γ' → Main S W (next v) γ' (W.returned γ' g)) :
      Driven (⟨γ, control, inner ++ [.call next]⟩, g)

section Rules

variable {S} {W} {γ γ' : Γ} {g : G} {p : Program A O R V F} {control : Control A O R V F}
  {inner : List (Frame Γ A O R V F)} {next : V → Program A O R V F} {e : Event Γ V F}
  {x y : Machine Γ A O R V F × G}

theorem Main.elapse (hW : W.Sound S) (h : Main S W p γ g) (hpass : W.passes γ γ') :
    Main S W p γ' g := by
  cases p with
  | ret v => exact h
  | act a next => exact fun γ'' hlater => h γ'' (hW.trans _ _ _ hpass hlater)
  | observe next => exact fun γ'' hlater => h γ'' (hW.trans _ _ _ hpass hlater)
  | request r next => exact fun v γ'' hlater => h v γ'' (hW.trans _ _ _ hpass hlater)
  | invoke f next => exact ⟨fun γ'' hlater => h.1 γ'' (hW.trans _ _ _ hpass hlater), h.2⟩
  | jump f => exact fun γ'' hlater => h γ'' (hW.trans _ _ _ hpass hlater)

theorem keeps_step (hW : W.Sound S) {s t : Machine Γ A O R V F} (hkeeps : W.keeps s.shared)
    (hpermits : W.Permits s e) (hstep : S.step s e = some t) : W.keeps t.shared := by
  rcases System.step_shared hstep with hsame | ⟨a, next, -, -, hact⟩ | ⟨γ, rfl, hpass⟩
  · rwa [hsame]
  · rw [hact]
    exact hW.keeps_act a _ hkeeps
  · rw [hpass]
    rcases hpermits with ⟨-, hguest⟩ | hlater
    · exact hguest
    · exact hW.keeps_pass _ _ hlater hkeeps

/-- A step of the main program. -/
theorem Main.step (hW : W.Sound S) (hkeeps : W.keeps γ) (h : Main S W p γ g)
    (hstep : WatchedStep S W (⟨γ, .code p, []⟩, g) e y) : Driven S W y := by
  obtain ⟨t, g'⟩ := y
  obtain ⟨hpermits, hstep, hrecord⟩ := hstep
  cases hrecord
  cases System.step_moves hstep with
  | stop => exact h.elim
  | act => exact .main (hW.keeps_act _ γ hkeeps) (h γ (hW.refl γ))
  | observe => exact .main hkeeps (h γ (hW.refl γ))
  | @invoke _ f next =>
    have hinner : Driven S W (⟨γ, .code (S.body f), [] ++ [.call next]⟩, W.invoked f g) :=
      .away hkeeps h.2
    exact hinner
  | @jump _ f => exact .main hkeeps (hW.body f γ g (h γ (hW.refl γ)))
  | @reply _ v => exact .main hkeeps (h v γ (hW.refl γ))
  | enter => exact absurd rfl hpermits
  | call away => exact absurd rfl (away p)
  | @pass _ γ' =>
    have hpass : W.passes γ γ' := hpermits.resolve_left fun hguest => by cases hguest.1
    exact .main (hW.keeps_pass γ γ' hpass hkeeps) (h.elapse hW hpass)

/-- Above the main program nothing is recorded, but for the return to it. -/
theorem Watch.record_away (h : ∀ v, e = .run → control = .code (.ret v) → inner ≠ []) :
    W.record ⟨γ, control, inner ++ [.call next]⟩ e g = g := by
  have hne : inner ++ [.call next] ≠ [] := by simp
  unfold Watch.record
  split
  · exact if_neg hne
  · exact if_neg hne
  · rename_i v hcontrol
    have hinner := h v rfl hcontrol
    refine if_neg fun hlength => hinner (List.length_eq_zero_iff.mp ?_)
    simpa using hlength
  · exact if_neg hne
  · rfl

/-- A step while the main program waits. -/
theorem Driven.away_step (hW : W.Sound S) (hkeeps : W.keeps γ)
    (hback : ∀ v γ', W.keeps γ' → Main S W (next v) γ' (W.returned γ' g))
    (hstep : WatchedStep S W (⟨γ, control, inner ++ [.call next]⟩, g) e y) : Driven S W y := by
  obtain ⟨t, g'⟩ := y
  obtain ⟨hpermits, hstep, hrecord⟩ := hstep
  have hkeeps' : W.keeps t.shared := keeps_step hW hkeeps hpermits hstep
  dsimp only at hstep hrecord
  rw [hrecord]
  rcases System.step_above hstep with ⟨v, rfl, rfl, rfl, rfl⟩ | ⟨inner', hstack⟩
  · exact .main hkeeps (hback v γ hkeeps)
  · have hinner : ∀ v, e = .run → control = .code (.ret v) → inner ≠ [] := by
      rintro v rfl rfl rfl
      cases hstep
      exact List.append_ne_nil_of_right_ne_nil _ (List.cons_ne_nil _ _) hstack.symm
    rw [W.record_away hinner]
    obtain ⟨γ', control', stack⟩ := t
    cases hstack
    exact .away hkeeps' hback

theorem Driven.step (hW : W.Sound S) (h : Driven S W x) (hstep : WatchedStep S W x e y) :
    Driven S W y := by
  cases h with
  | main hkeeps hmain => exact hmain.step hW hkeeps hstep
  | away hkeeps hback => exact Driven.away_step hW hkeeps hback hstep

theorem Driven.keeps (h : Driven S W x) : W.keeps x.1.shared := by
  cases h with
  | main hkeeps _ => exact hkeeps
  | away hkeeps _ => exact hkeeps

/-- With nothing above the main program, it runs. -/
theorem Driven.main_of_empty (h : Driven S W x) (hcontrol : x.1.control = .code p)
    (hstack : x.1.stack = []) : Main S W p x.1.shared x.2 := by
  cases h with
  | main _ hmain =>
    cases hcontrol
    exact hmain
  | away => exact absurd hstack (List.append_ne_nil_of_right_ne_nil _ (List.cons_ne_nil _ _))

/-- Whatever functions and guest code do, the main program meets its assertions wherever it jumps
and wherever it invokes a function. -/
theorem run_driven (hW : W.Sound S) (hkeeps : W.keeps γ) (hmain : Main S W p γ g)
    {es : List (Event Γ V F)} (hrun : Run (WatchedStep S W) (⟨γ, .code p, []⟩, g) es y) :
    W.keeps y.1.shared ∧
      (∀ f, y.1.control = .code (.jump f) → y.1.stack = [] → W.jumps f y.1.shared y.2) ∧
      ∀ f next, y.1.control = .code (.invoke f next) → y.1.stack = [] →
        W.invokes f y.1.shared y.2 := by
  have h : Driven S W y := hrun.invariant (Driven S W) (fun _ _ _ h hstep => h.step hW hstep)
    (.main hkeeps hmain)
  exact ⟨h.keeps, fun f hcontrol hstack => h.main_of_empty hcontrol hstack _ (hW.refl _),
    fun f next hcontrol hstack => (h.main_of_empty hcontrol hstack).1 _ (hW.refl _)⟩

/-- Runs without guest code can be computed. -/
theorem watchedStep_of_next (h : watchedNext S W x e = some y) : WatchedStep S W x e y := by
  cases e with
  | enter => cases h
  | pass γ => cases h
  | _ =>
    obtain ⟨t, hstep, rfl⟩ := Option.map_eq_some_iff.mp h
    exact ⟨trivial, hstep, rfl⟩

end Rules

end JsOs.MainLoops
