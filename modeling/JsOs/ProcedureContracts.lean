import JsOs.ReentrantPrograms

/-!
# Pre- and postconditions of reentrant programs

Each function has a precondition and a postcondition, which relates the shared state at its entry to
its value and the shared state at its return; each request has a condition under which it may be
made. Guest code runs in some requests only and in ready states only, and it calls some functions
only. What guest code and the environment do to the shared state is a preorder. If every body meets
the contract of its function, then in every run every request is made under its condition.
-/

namespace JsOs.ProcedureContracts

open TransitionRuns ReentrantPrograms

variable {Γ A O R V F : Type}

structure Specification (Γ R V F : Type) where
  needs : F → Γ → Prop
  gives : F → Γ → V → Γ → Prop
  asks : R → Γ → Prop
  enters : R → Prop
  calls : F → Prop
  ready : Γ → Prop
  keeps : Γ → Γ → Prop
  keeps_refl : ∀ γ, keeps γ γ
  keeps_trans : ∀ γ γ' γ'', keeps γ γ' → keeps γ' γ'' → keeps γ γ''
  ready_keeps : ∀ γ γ', keeps γ γ' → ready γ → ready γ'
  needs_call : ∀ f γ, calls f → ready γ → needs f γ
  gives_call : ∀ f γ v γ', calls f → gives f γ v γ' → keeps γ γ'

/-- The assumptions, for one event; no function is called from outside. -/
def Specification.Allows (C : Specification Γ R V F) (s : Machine Γ A O R V F) : Event Γ V F → Prop
  | .enter => ∀ r next, s.control = .code (.request r next) → C.enters r
  | .call f => s.control = .guest ∧ C.calls f
  | .pass γ => C.keeps s.shared γ
  | _ => True

variable (S : System Γ A O R V F) (C : Specification Γ R V F)

def AllowedStep (s : Machine Γ A O R V F) (e : Event Γ V F) (t : Machine Γ A O R V F) : Prop :=
  C.Allows s e ∧ S.step s e = some t

/-- From this shared state on, the program makes requests and calls under their conditions, and
returns as `Q` says. -/
def Meets (Q : V → Γ → Prop) : Program A O R V F → Γ → Prop
  | .ret v, γ => ∀ γ', C.keeps γ γ' → Q v γ'
  | .act a next, γ => ∀ γ', C.keeps γ γ' → Meets Q next (S.act a γ')
  | .observe next, γ => ∀ γ', C.keeps γ γ' → Meets Q (next (S.view γ')) γ'
  | .request r next, γ => ∀ γ', C.keeps γ γ' → C.asks r γ' ∧ (C.enters r → C.ready γ') ∧
      ∀ v, Meets Q (next v) γ'
  | .invoke f next, γ => ∀ γ', C.keeps γ γ' → C.needs f γ' ∧
      ∀ v γ'', C.gives f γ' v γ'' → Meets Q (next v) γ''
  | .jump f, γ => ∀ γ', C.keeps γ γ' → C.needs f γ' ∧ ∀ v γ'', C.gives f γ' v γ'' → Q v γ''

/-- Every body meets the contract of its function. -/
def Valid : Prop := ∀ f γ, C.needs f γ → Meets S C (C.gives f γ) (S.body f) γ

/-- The stack takes a value and a shared state that satisfy `Q`. -/
inductive Waits : List (Frame Γ A O R V F) → (V → Γ → Prop) → Prop
  | nil {Q : V → Γ → Prop} : Waits [] Q
  | call {next : V → Program A O R V F} {stack : List (Frame Γ A O R V F)} {Q Q' : V → Γ → Prop}
      (hnext : ∀ v γ, Q v γ → Meets S C Q' (next v) γ) (hrest : Waits stack Q') :
      Waits (.call next :: stack) Q
  | guest {entry : Γ} {r : R} {next : V → Program A O R V F} {stack : List (Frame Γ A O R V F)}
      {Q Q' : V → Γ → Prop} (hready : C.ready entry) (hback : ∀ v γ, Q v γ → C.keeps entry γ)
      (hnext : ∀ v γ, C.keeps entry γ → Meets S C Q' (next v) γ) (hrest : Waits stack Q') :
      Waits (.guest entry r next :: stack) Q

/-- The invariant of allowed runs. -/
inductive Ok : Machine Γ A O R V F → Prop
  | idle {γ : Γ} : Ok ⟨γ, .idle, []⟩
  | code {γ : Γ} {p : Program A O R V F} {stack : List (Frame Γ A O R V F)} {Q : V → Γ → Prop}
      (hcode : Meets S C Q p γ) (hstack : Waits S C stack Q) : Ok ⟨γ, .code p, stack⟩
  | guest {γ entry : Γ} {r : R} {next : V → Program A O R V F} {stack : List (Frame Γ A O R V F)}
      {Q : V → Γ → Prop} (hready : C.ready entry) (hkeeps : C.keeps entry γ)
      (hnext : ∀ v γ, C.keeps entry γ → Meets S C Q (next v) γ) (hrest : Waits S C stack Q) :
      Ok ⟨γ, .guest, .guest entry r next :: stack⟩

variable {S C} {γ γ' : Γ} {p : Program A O R V F} {stack : List (Frame Γ A O R V F)}
variable {Q Q' : V → Γ → Prop}

theorem Meets.elapse (h : Meets S C Q p γ) (hkeeps : C.keeps γ γ') : Meets S C Q p γ' := by
  cases p with
  | _ => exact fun γ'' hlater => h γ'' (C.keeps_trans _ _ _ hkeeps hlater)

theorem Meets.mono (h : Meets S C Q p γ) (hQ : ∀ v γ, Q v γ → Q' v γ) : Meets S C Q' p γ := by
  induction p generalizing γ with
  | ret v => exact fun γ' hkeeps => hQ v γ' (h γ' hkeeps)
  | act a next ih => exact fun γ' hkeeps => ih (h γ' hkeeps)
  | observe next ih => exact fun γ' hkeeps => ih _ (h γ' hkeeps)
  | request r next ih =>
    intro γ' hkeeps
    obtain ⟨hasks, hready, hnext⟩ := h γ' hkeeps
    exact ⟨hasks, hready, fun v => ih v (hnext v)⟩
  | invoke f next ih =>
    intro γ' hkeeps
    obtain ⟨hneeds, hnext⟩ := h γ' hkeeps
    exact ⟨hneeds, fun v γ'' hgives => ih v (hnext v γ'' hgives)⟩
  | jump f =>
    intro γ' hkeeps
    obtain ⟨hneeds, hnext⟩ := h γ' hkeeps
    exact ⟨hneeds, fun v γ'' hgives => hQ v γ'' (hnext v γ'' hgives)⟩

/-- One step of an allowed run. -/
theorem Ok.step {s t : Machine Γ A O R V F} {e : Event Γ V F} (hvalid : Valid S C) (hs : Ok S C s)
    (h : AllowedStep S C s e t) : Ok S C t := by
  obtain ⟨hallows, hstep⟩ := h
  cases System.step_moves hstep with
  | stop => exact .idle
  | back =>
    cases hs with
    | code hcode hstack =>
      cases hstack with
      | call hnext hrest => exact .code (hnext _ _ (hcode _ (C.keeps_refl _))) hrest
  | resume =>
    cases hs with
    | code hcode hstack =>
      cases hstack with
      | guest hready hback hnext hrest =>
        exact .guest hready (hback _ _ (hcode _ (C.keeps_refl _))) hnext hrest
  | act =>
    cases hs with
    | code hcode hstack => exact .code (hcode _ (C.keeps_refl _)) hstack
  | observe =>
    cases hs with
    | code hcode hstack => exact .code (hcode _ (C.keeps_refl _)) hstack
  | invoke =>
    cases hs with
    | code hcode hstack =>
      obtain ⟨hneeds, hnext⟩ := hcode _ (C.keeps_refl _)
      exact .code (hvalid _ _ hneeds) (.call hnext hstack)
  | jump =>
    cases hs with
    | code hcode hstack =>
      obtain ⟨hneeds, hgives⟩ := hcode _ (C.keeps_refl _)
      exact .code ((hvalid _ _ hneeds).mono hgives) hstack
  | reply =>
    cases hs with
    | code hcode hstack => exact .code ((hcode _ (C.keeps_refl _)).2.2 _) hstack
  | enter =>
    cases hs with
    | code hcode hstack =>
      obtain ⟨_, hready, hnext⟩ := hcode _ (C.keeps_refl _)
      exact .guest (hready (hallows _ _ rfl)) (C.keeps_refl _)
        (fun v γ hkeeps => (hnext v).elapse hkeeps) hstack
  | finish =>
    cases hs with
    | guest hready hkeeps hnext hrest => exact .code (hnext _ _ hkeeps) hrest
  | call haway =>
    obtain ⟨rfl, hcalls⟩ := hallows
    cases hs with
    | guest hready hkeeps hnext hrest =>
      have hneeds := C.needs_call _ _ hcalls (C.ready_keeps _ _ hkeeps hready)
      refine .code (hvalid _ _ hneeds) (.guest hready (fun v γ hgives => ?_) hnext hrest)
      exact C.keeps_trans _ _ _ hkeeps (C.gives_call _ _ _ _ hcalls hgives)
  | pass =>
    cases hs with
    | idle => exact .idle
    | code hcode hstack => exact .code (hcode.elapse hallows) hstack
    | guest hready hkeeps hnext hrest =>
      exact .guest hready (C.keeps_trans _ _ _ hkeeps hallows) hnext hrest

/-- In an allowed run of a function whose precondition holds, every request is made under its
condition, and every function is continued with its precondition. -/
theorem run_meets {f : F} {es : List (Event Γ V F)} {s : Machine Γ A O R V F} (hvalid : Valid S C)
    (hneeds : C.needs f γ) (hrun : Run (AllowedStep S C) ⟨γ, .code (S.body f), []⟩ es s) :
    Ok S C s :=
  hrun.invariant (Ok S C) (fun _ _ _ hs hstep => hs.step hvalid hstep)
    (.code (hvalid f γ hneeds) .nil)

theorem Ok.asks {s : Machine Γ A O R V F} {r : R} {next : V → Program A O R V F} (hs : Ok S C s)
    (h : s.control = .code (.request r next)) : C.asks r s.shared := by
  cases hs with
  | code hcode hstack =>
    cases h
    exact (hcode _ (C.keeps_refl _)).1
  | _ => cases h

theorem Ok.needs {s : Machine Γ A O R V F} {f : F} (hs : Ok S C s)
    (h : s.control = .code (.jump f)) : C.needs f s.shared := by
  cases hs with
  | code hcode hstack =>
    cases h
    exact (hcode _ (C.keeps_refl _)).1
  | _ => cases h

/-- Guest code runs in ready states. -/
theorem Ok.ready {s : Machine Γ A O R V F} (hs : Ok S C s) (h : s.control = .guest) :
    C.ready s.shared := by
  cases hs with
  | guest hready hkeeps hnext hrest => exact C.ready_keeps _ _ hkeeps hready
  | _ => cases h

section Triples

variable (S C)

/-- What guest code and the environment leave true. -/
def Specification.Stable (I : Γ → Prop) : Prop := ∀ γ γ', C.keeps γ γ' → I γ → I γ'

/-- Where `I` holds, the program meets `Q`. -/
def Triple (I : Γ → Prop) (p : Program A O R V F) (Q : V → Γ → Prop) : Prop :=
  ∀ γ, I γ → Meets S C Q p γ

variable {S C} {I : Γ → Prop} {next : V → Program A O R V F}

namespace Triple

theorem weaken {I' : Γ → Prop} (hI : ∀ γ, I γ → I' γ) (h : Triple S C I' p Q) : Triple S C I p Q :=
  fun γ hγ => h γ (hI γ hγ)

theorem ret (hI : C.Stable I) {v : V} (h : ∀ γ, I γ → Q v γ) : Triple S C I (.ret v) Q :=
  fun γ hγ γ' hkeeps => h γ' (hI γ γ' hkeeps hγ)

theorem act (I' : Γ → Prop) (hI : C.Stable I) {a : A} (hact : ∀ γ, I γ → I' (S.act a γ))
    (h : Triple S C I' p Q) : Triple S C I (.act a p) Q :=
  fun γ hγ γ' hkeeps => h _ (hact γ' (hI γ γ' hkeeps hγ))

theorem observe (hI : C.Stable I) {next : O → Program A O R V F}
    (h : ∀ γ, I γ → Meets S C Q (next (S.view γ)) γ) : Triple S C I (.observe next) Q :=
  fun γ hγ γ' hkeeps => h γ' (hI γ γ' hkeeps hγ)

theorem request (hI : C.Stable I) {r : R} (hasks : ∀ γ, I γ → C.asks r γ)
    (henters : C.enters r → ∀ γ, I γ → C.ready γ) (h : ∀ v, Triple S C I (next v) Q) :
    Triple S C I (.request r next) Q := by
  intro γ hγ γ' hkeeps
  have hγ' := hI γ γ' hkeeps hγ
  exact ⟨hasks γ' hγ', fun hr => henters hr γ' hγ', fun v => h v γ' hγ'⟩

theorem invoke (I' : V → Γ → Prop) (hI : C.Stable I) {f : F} (hneeds : ∀ γ, I γ → C.needs f γ)
    (hgives : ∀ γ v γ', I γ → C.gives f γ v γ' → I' v γ')
    (h : ∀ v, Triple S C (I' v) (next v) Q) : Triple S C I (.invoke f next) Q := by
  intro γ hγ γ' hkeeps
  have hγ' := hI γ γ' hkeeps hγ
  exact ⟨hneeds γ' hγ', fun v γ'' hv => h v γ'' (hgives γ' v γ'' hγ' hv)⟩

theorem jump (hI : C.Stable I) {f : F} (hneeds : ∀ γ, I γ → C.needs f γ)
    (hgives : ∀ γ v γ', I γ → C.gives f γ v γ' → Q v γ') : Triple S C I (.jump f) Q := by
  intro γ hγ γ' hkeeps
  have hγ' := hI γ γ' hkeeps hγ
  exact ⟨hneeds γ' hγ', fun v γ'' hv => hgives γ' v γ'' hγ' hv⟩

end Triple

end Triples

section Steady

variable (S C) (J : Γ → Prop)

/-- A program that changes nothing but what guest code may change, and that asks for no more than
`J`. -/
def Steady : Program A O R V F → Prop
  | .ret _ => True
  | .act a next => (∀ γ, C.keeps γ (S.act a γ)) ∧ Steady next
  | .observe next => ∀ o, Steady (next o)
  | .request r next => (∀ γ, J γ → C.asks r γ) ∧ ∀ v, Steady (next v)
  | .invoke f next => C.calls f ∧ ∀ v, Steady (next v)
  | .jump f => ∀ γ, J γ → C.needs f γ ∧ ∀ v γ', C.gives f γ v γ' → C.keeps γ γ'

variable {S C J}

/-- Where `J` holds, a steady program keeps what guest code keeps. -/
theorem Steady.meets (hstable : C.Stable J) (hready : ∀ γ, J γ → C.ready γ)
    (h : Steady S C J p) (hJ : J γ) : Meets S C (fun _ γ' => C.keeps γ γ') p γ := by
  -- the entry stays where it is while the program goes on
  suffices hfrom : ∀ entry, C.keeps entry γ → Meets S C (fun _ γ' => C.keeps entry γ') p γ from
    hfrom γ (C.keeps_refl γ)
  intro entry hkeeps
  induction p generalizing γ with
  | ret v => exact fun γ' hlater => C.keeps_trans _ _ _ hkeeps hlater
  | act a next ih =>
    intro γ' hlater
    have hact := C.keeps_trans _ _ _ hlater (h.1 γ')
    exact ih h.2 (hstable _ _ hact hJ) (C.keeps_trans _ _ _ hkeeps hact)
  | observe next ih =>
    exact fun γ' hlater => ih _ (h _) (hstable _ _ hlater hJ) (C.keeps_trans _ _ _ hkeeps hlater)
  | request r next ih =>
    intro γ' hlater
    have hJ' := hstable _ _ hlater hJ
    exact ⟨h.1 γ' hJ', fun _ => hready γ' hJ', fun v =>
      ih v (h.2 v) hJ' (C.keeps_trans _ _ _ hkeeps hlater)⟩
  | invoke f next ih =>
    intro γ' hlater
    have hJ' := hstable _ _ hlater hJ
    refine ⟨C.needs_call f γ' h.1 (hready γ' hJ'), fun v γ'' hgives => ?_⟩
    have hcall := C.gives_call _ _ _ _ h.1 hgives
    exact ih v (h.2 v) (hstable _ _ hcall hJ')
      (C.keeps_trans _ _ _ hkeeps (C.keeps_trans _ _ _ hlater hcall))
  | jump f =>
    intro γ' hlater
    obtain ⟨hneeds, hgives⟩ := h γ' (hstable _ _ hlater hJ)
    refine ⟨hneeds, fun v γ'' hv => ?_⟩
    exact C.keeps_trans _ _ _ hkeeps (C.keeps_trans _ _ _ hlater (hgives v γ'' hv))

end Steady

end JsOs.ProcedureContracts
