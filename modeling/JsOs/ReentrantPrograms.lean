import JsOs.TransitionRuns

/-!
# Programs whose requests call back

A program acts on a shared state, looks at it, makes requests of an environment and invokes
functions. To answer a request the environment may run guest code, and guest code may call
functions in turn, so that requests nest. A contract says what is assumed of the environment and
what the shared state has to satisfy when guest code is entered from outside.
-/

namespace JsOs.ReentrantPrograms

open TransitionRuns

/-- Programs over actions `A`, observations `O`, requests `R`, values `V` and functions `F`. -/
inductive Program (A O R V F : Type) where
  | ret (v : V)
  | act (a : A) (next : Program A O R V F)
  | observe (next : O → Program A O R V F)
  | request (r : R) (next : V → Program A O R V F)
  | invoke (f : F) (next : V → Program A O R V F)
  | jump (f : F)

structure System (Γ A O R V F : Type) where
  act : A → Γ → Γ
  view : Γ → O
  body : F → Program A O R V F

/-- Who waits below: a program for a function, or a program for a request that runs guest code,
with the shared state at the entry. -/
inductive Frame (Γ A O R V F : Type) where
  | call (next : V → Program A O R V F)
  | guest (entry : Γ) (r : R) (next : V → Program A O R V F)

inductive Control (A O R V F : Type) where
  | idle
  | code (p : Program A O R V F)
  | guest

structure Machine (Γ A O R V F : Type) where
  shared : Γ
  control : Control A O R V F
  stack : List (Frame Γ A O R V F)

/-- A step of the program; an answer; guest code entered and left; a call of a function, by guest
code or from outside; a change of the shared state by the environment. -/
inductive Event (Γ V F : Type) where
  | run
  | reply (v : V)
  | enter
  | finish (v : V)
  | call (f : F)
  | pass (γ : Γ)

variable {Γ A O R V F : Type}

section Semantics

variable (S : System Γ A O R V F)

def System.runStep (s : Machine Γ A O R V F) : Option (Machine Γ A O R V F) :=
  match s.control with
  | .code (.ret v) =>
    match s.stack with
    | [] => some { s with control := .idle }
    | .call next :: stack => some { s with control := .code (next v), stack := stack }
    | .guest .. :: _ => some { s with control := .guest }
  | .code (.act a next) => some { s with shared := S.act a s.shared, control := .code next }
  | .code (.observe next) => some { s with control := .code (next (S.view s.shared)) }
  | .code (.invoke f next) =>
    some { s with control := .code (S.body f), stack := .call next :: s.stack }
  | .code (.jump f) => some { s with control := .code (S.body f) }
  | _ => none

def System.step (s : Machine Γ A O R V F) : Event Γ V F → Option (Machine Γ A O R V F)
  | .run => S.runStep s
  | .reply v =>
    match s.control with
    | .code (.request _ next) => some { s with control := .code (next v) }
    | _ => none
  | .enter =>
    match s.control with
    | .code (.request r next) =>
      some { s with control := .guest, stack := .guest s.shared r next :: s.stack }
    | _ => none
  | .finish v =>
    match s.control, s.stack with
    | .guest, .guest _ _ next :: stack => some { s with control := .code (next v), stack := stack }
    | _, _ => none
  | .call f =>
    match s.control with
    | .code _ => none
    | _ => some { s with control := .code (S.body f) }
  | .pass γ => some { s with shared := γ }

def Frame.entry : Frame Γ A O R V F → Option Γ
  | .call _ => none
  | .guest γ _ _ => some γ

/-- The shared states at the entries to guest code that is still on the stack, innermost first. -/
def entries (stack : List (Frame Γ A O R V F)) : List Γ := stack.filterMap Frame.entry

def outermostEntry (stack : List (Frame Γ A O R V F)) : Option Γ := (entries stack).getLast?

variable {S}

/-- The steps, one by one. -/
inductive System.Moves (S : System Γ A O R V F) :
    Machine Γ A O R V F → Event Γ V F → Machine Γ A O R V F → Prop where
  | stop {γ v} : Moves S ⟨γ, .code (.ret v), []⟩ .run ⟨γ, .idle, []⟩
  | back {γ v next stack} :
      Moves S ⟨γ, .code (.ret v), .call next :: stack⟩ .run ⟨γ, .code (next v), stack⟩
  | resume {γ v entry r next stack} : Moves S ⟨γ, .code (.ret v), .guest entry r next :: stack⟩ .run
      ⟨γ, .guest, .guest entry r next :: stack⟩
  | act {γ a next stack} :
      Moves S ⟨γ, .code (.act a next), stack⟩ .run ⟨S.act a γ, .code next, stack⟩
  | observe {γ next stack} :
      Moves S ⟨γ, .code (.observe next), stack⟩ .run ⟨γ, .code (next (S.view γ)), stack⟩
  | invoke {γ f next stack} :
      Moves S ⟨γ, .code (.invoke f next), stack⟩ .run ⟨γ, .code (S.body f), .call next :: stack⟩
  | jump {γ f stack} : Moves S ⟨γ, .code (.jump f), stack⟩ .run ⟨γ, .code (S.body f), stack⟩
  | reply {γ v r next stack} :
      Moves S ⟨γ, .code (.request r next), stack⟩ (.reply v) ⟨γ, .code (next v), stack⟩
  | enter {γ r next stack} :
      Moves S ⟨γ, .code (.request r next), stack⟩ .enter ⟨γ, .guest, .guest γ r next :: stack⟩
  | finish {γ v entry r next stack} :
      Moves S ⟨γ, .guest, .guest entry r next :: stack⟩ (.finish v) ⟨γ, .code (next v), stack⟩
  | call {γ control f stack} (away : ∀ p, control ≠ .code p) :
      Moves S ⟨γ, control, stack⟩ (.call f) ⟨γ, .code (S.body f), stack⟩
  | pass {γ γ' control stack} : Moves S ⟨γ, control, stack⟩ (.pass γ') ⟨γ', control, stack⟩

theorem System.runStep_moves {s t : Machine Γ A O R V F} (h : S.runStep s = some t) :
    S.Moves s .run t := by
  obtain ⟨γ, control, stack⟩ := s
  cases control with
  | idle => cases h
  | guest => cases h
  | code p =>
    cases p with
    | ret v =>
      cases stack with
      | nil =>
        cases h
        exact .stop
      | cons frame stack =>
        cases frame with
        | call next =>
          cases h
          exact .back
        | guest entry r next =>
          cases h
          exact .resume
    | act a next =>
      cases h
      exact .act
    | observe next =>
      cases h
      exact .observe
    | request r next => cases h
    | invoke f next =>
      cases h
      exact .invoke
    | jump f =>
      cases h
      exact .jump

theorem System.step_moves {s t : Machine Γ A O R V F} {e : Event Γ V F} (h : S.step s e = some t) :
    S.Moves s e t := by
  obtain ⟨γ, control, stack⟩ := s
  cases e with
  | run => exact System.runStep_moves h
  | reply v =>
    simp only [System.step] at h
    split at h <;> cases h
    exact .reply
  | enter =>
    simp only [System.step] at h
    split at h <;> cases h
    exact .enter
  | finish v =>
    simp only [System.step] at h
    split at h <;> cases h
    exact .finish
  | call f =>
    simp only [System.step] at h
    split at h
    · cases h
    · rename_i haway
      cases h
      exact .call haway
  | pass γ' =>
    cases h
    exact .pass

/-- Where a frame of guest code comes from. -/
theorem System.step_guest {s t : Machine Γ A O R V F} {e : Event Γ V F} {γ : Γ} {r : R}
    {next : V → Program A O R V F} (h : S.step s e = some t) (hframe : .guest γ r next ∈ t.stack) :
    .guest γ r next ∈ s.stack ∨ e = .enter ∧ s.control = .code (.request r next) := by
  cases System.step_moves h with
  | back | finish => exact .inl (List.mem_cons_of_mem _ hframe)
  | invoke =>
    cases hframe with
    | tail _ hframe => exact .inl hframe
  | enter =>
    cases hframe with
    | head => exact .inr ⟨rfl, rfl⟩
    | tail _ hframe => exact .inl hframe
  | _ => exact .inl hframe

/-- What a step makes of the shared state. -/
theorem System.step_shared {s t : Machine Γ A O R V F} {e : Event Γ V F} (h : S.step s e = some t) :
    t.shared = s.shared ∨
      (∃ a next, e = .run ∧ s.control = .code (.act a next) ∧ t.shared = S.act a s.shared) ∨
      ∃ γ, e = .pass γ ∧ t.shared = γ := by
  cases System.step_moves h with
  | act => exact .inr (.inl ⟨_, _, rfl, rfl, rfl⟩)
  | pass => exact .inr (.inr ⟨_, rfl, rfl⟩)
  | _ => exact .inl rfl

/-- A call at the bottom of the stack waits until the function above it returns. -/
theorem System.step_above {γ : Γ} {control : Control A O R V F} {inner : List (Frame Γ A O R V F)}
    {next : V → Program A O R V F} {e : Event Γ V F} {t : Machine Γ A O R V F}
    (h : S.step ⟨γ, control, inner ++ [.call next]⟩ e = some t) :
    (∃ v, e = .run ∧ control = .code (.ret v) ∧ inner = [] ∧ t = ⟨γ, .code (next v), []⟩) ∨
      ∃ inner', t.stack = inner' ++ [.call next] := by
  generalize hstack : inner ++ [.call next] = stack at h
  cases System.step_moves h with
  | stop => exact absurd hstack (List.append_ne_nil_of_right_ne_nil _ (List.cons_ne_nil _ _))
  | back =>
    cases inner with
    | nil =>
      cases hstack
      exact .inl ⟨_, rfl, rfl, rfl, rfl⟩
    | cons frame inner =>
      cases hstack
      exact .inr ⟨inner, rfl⟩
  | finish =>
    cases inner with
    | nil => cases hstack
    | cons frame inner =>
      cases hstack
      exact .inr ⟨inner, rfl⟩
  | @invoke _ _ f => exact .inr ⟨.call f :: inner, congrArg (.call f :: ·) hstack.symm⟩
  | @enter _ r f =>
    exact .inr ⟨.guest γ r f :: inner, congrArg (.guest γ r f :: ·) hstack.symm⟩
  | _ => exact .inr ⟨inner, hstack.symm⟩

end Semantics

/-- What is assumed: how the environment changes the shared state, when an action is taken, which
requests enter guest code while none is running, and while some is, which answers requests get and
which functions it calls. What is to hold when guest code is entered is `ready`. -/
structure Contract (Γ A R V F : Type) where
  elapses : Γ → Γ → Prop
  takes : A → Γ → Prop
  enters : R → Prop
  answers : R → V → Prop
  calls : F → Prop
  ready : Γ → Prop
  elapses_refl : ∀ γ, elapses γ γ
  elapses_trans : ∀ γ γ' γ'', elapses γ γ' → elapses γ' γ'' → elapses γ γ''

/-- The assumptions, for one event. -/
def Contract.Clean (C : Contract Γ A R V F) (s : Machine Γ A O R V F) : Event Γ V F → Prop
  | .run => ∀ a next, s.control = .code (.act a next) → C.takes a s.shared
  | .reply v => ∀ r next, s.control = .code (.request r next) → entries s.stack ≠ [] → C.answers r v
  | .enter => ∀ r next, s.control = .code (.request r next) → entries s.stack = [] → C.enters r
  | .finish v => ∀ γ r next stack, s.stack = .guest γ r next :: stack → entries stack ≠ [] →
      C.answers r v
  | .call f => s.control = .guest → C.calls f
  | .pass γ => C.elapses s.shared γ

def CleanStep (S : System Γ A O R V F) (C : Contract Γ A R V F) (s : Machine Γ A O R V F)
    (e : Event Γ V F) (t : Machine Γ A O R V F) : Prop := C.Clean s e ∧ S.step s e = some t

section Rules

variable (S : System Γ A O R V F) (C : Contract Γ A R V F)

/-- Outside guest code: from this shared state on, the program makes no request that enters guest
code before the state is ready. -/
def Safe : Program A O R V F → Γ → Prop
  | .ret _, _ => True
  | .act a next, γ => ∀ γ', C.elapses γ γ' → C.takes a γ' → Safe next (S.act a γ')
  | .observe next, γ => ∀ γ', C.elapses γ γ' → Safe (next (S.view γ')) γ'
  | .request r next, γ => (C.enters r → ∀ γ', C.elapses γ γ' → C.ready γ') ∧
      ∀ v γ', C.elapses γ γ' → Safe (next v) γ'
  | .invoke _ next, _ => ∀ v γ', Safe (next v) γ'
  | .jump _, _ => True

/-- Called by guest code: the program changes nothing that time alone does not change. -/
def Quiet : Program A O R V F → Prop
  | .ret _ => True
  | .act a next => (∀ γ, C.elapses γ (S.act a γ)) ∧ Quiet next
  | .observe next => ∀ o, Quiet (next o)
  | .request r next => ∀ v, C.answers r v → Quiet (next v)
  | .invoke _ _ => False
  | .jump _ => False

variable {S C} {γ γ' : Γ} {p : Program A O R V F} {stack : List (Frame Γ A O R V F)}

theorem Safe.elapse (h : Safe S C p γ) (hpass : C.elapses γ γ') : Safe S C p γ' := by
  cases p with
  | ret v => trivial
  | act a next => exact fun γ'' hlater => h γ'' (C.elapses_trans _ _ _ hpass hlater)
  | observe next => exact fun γ'' hlater => h γ'' (C.elapses_trans _ _ _ hpass hlater)
  | request r next =>
    exact ⟨fun henter γ'' hlater => h.1 henter γ'' (C.elapses_trans _ _ _ hpass hlater),
      fun v γ'' hlater => h.2 v γ'' (C.elapses_trans _ _ _ hpass hlater)⟩
  | invoke f next => exact h
  | jump f => trivial

namespace Safe

variable {next : Program A O R V F}

theorem act {a : A} (h : ∀ γ, Safe S C next γ) : Safe S C (.act a next) γ :=
  fun _ _ _ => h _

theorem observe {next : O → Program A O R V F} (h : ∀ o γ, Safe S C (next o) γ) :
    Safe S C (.observe next) γ := fun _ _ => h _ _

/-- A request that is assumed not to enter guest code may be made in any state. -/
theorem request {r : R} {next : V → Program A O R V F} (hr : ¬C.enters r)
    (h : ∀ v γ, Safe S C (next v) γ) : Safe S C (.request r next) γ :=
  ⟨fun henter => absurd henter hr, fun v γ' _ => h v γ'⟩

/-- Any request may be made after an action that makes the state ready. -/
theorem prepare {a : A} {r : R} {next : V → Program A O R V F}
    (hready : ∀ γ γ', C.takes a γ → C.elapses (S.act a γ) γ' → C.ready γ')
    (h : ∀ v γ, Safe S C (next v) γ) : Safe S C (.act a (.request r next)) γ :=
  fun γ' _ htakes => ⟨fun _ γ'' hpass => hready γ' γ'' htakes hpass, fun v γ'' _ => h v γ''⟩

theorem invoke {f : F} {next : V → Program A O R V F} (h : ∀ v γ, Safe S C (next v) γ) :
    Safe S C (.invoke f next) γ := h

end Safe

variable (S C)

/-- A frame below all guest code. -/
def Outer : Frame Γ A O R V F → Prop
  | .call next => ∀ v γ, Safe S C (next v) γ
  | .guest .. => False

/-- A frame above the outermost guest code. -/
def Inner : Frame Γ A O R V F → Prop
  | .call _ => False
  | .guest _ r next => ∀ v, C.answers r v → Quiet S C (next v)

/-- Guest code is on the stack: it was entered in a ready state, and since then nothing but time has
touched the shared state. -/
structure Inside (γ : Γ) (stack : List (Frame Γ A O R V F)) (entry : Γ) (r : R)
    (next : V → Program A O R V F) (inner outer : List (Frame Γ A O R V F)) : Prop where
  stack_eq : stack = inner ++ .guest entry r next :: outer
  inner_quiet : ∀ frame ∈ inner, Inner S C frame
  outer_safe : ∀ frame ∈ outer, Outer S C frame
  next_safe : ∀ v γ', C.elapses entry γ' → Safe S C (next v) γ'
  ready : C.ready entry
  elapsed : C.elapses entry γ

/-- The invariant of clean runs. -/
inductive Guarded : Machine Γ A O R V F → Prop
  | idle {γ : Γ} : Guarded ⟨γ, .idle, []⟩
  | outside {γ : Γ} {p : Program A O R V F} {stack : List (Frame Γ A O R V F)}
      (frames : ∀ frame ∈ stack, Outer S C frame) (safe : Safe S C p γ) :
      Guarded ⟨γ, .code p, stack⟩
  | guest {γ entry : Γ} {r : R} {next : V → Program A O R V F}
      {stack inner outer : List (Frame Γ A O R V F)}
      (inside : Inside S C γ stack entry r next inner outer) : Guarded ⟨γ, .guest, stack⟩
  | callback {γ entry : Γ} {p : Program A O R V F} {r : R} {next : V → Program A O R V F}
      {stack inner outer : List (Frame Γ A O R V F)}
      (inside : Inside S C γ stack entry r next inner outer) (quiet : Quiet S C p) :
      Guarded ⟨γ, .code p, stack⟩

variable {S} {C} {entry : Γ} {r : R} {next : V → Program A O R V F}
  {inner outer : List (Frame Γ A O R V F)}

theorem entries_outer (h : ∀ frame ∈ stack, Outer S C frame) : entries stack = [] := by
  apply List.filterMap_eq_nil_iff.mpr
  intro frame hframe
  have hout := h frame hframe
  cases frame with
  | call next => rfl
  | guest γ r next => exact hout.elim

theorem Inside.outermost (h : Inside S C γ stack entry r next inner outer) :
    outermostEntry stack = some entry := by
  unfold outermostEntry
  rw [h.stack_eq]
  unfold entries
  rw [List.filterMap_append, List.filterMap_cons]
  have hout : outer.filterMap Frame.entry = [] := entries_outer h.outer_safe
  simp [hout, Frame.entry]

theorem Inside.entries_ne (h : Inside S C γ stack entry r next inner outer) : entries stack ≠ [] := by
  intro hnil
  have hlast := h.outermost
  unfold outermostEntry at hlast
  rw [hnil] at hlast
  cases hlast

theorem Inside.elapse (h : Inside S C γ stack entry r next inner outer) (hpass : C.elapses γ γ') :
    Inside S C γ' stack entry r next inner outer :=
  ⟨h.stack_eq, h.inner_quiet, h.outer_safe, h.next_safe, h.ready,
    C.elapses_trans _ _ _ h.elapsed hpass⟩

theorem Inside.push {e : Γ} {q : R} {f : V → Program A O R V F}
    (h : Inside S C γ stack entry r next inner outer)
    (hquiet : ∀ v, C.answers q v → Quiet S C (f v)) :
    Inside S C γ (.guest e q f :: stack) entry r next (.guest e q f :: inner) outer := by
  refine ⟨by rw [h.stack_eq]; rfl, fun frame hframe => ?_, h.outer_safe, h.next_safe, h.ready,
    h.elapsed⟩
  cases hframe with
  | head => exact hquiet
  | tail _ hrest => exact h.inner_quiet frame hrest

/-- Guest code is left: either more of it waits below, or it was the outermost. -/
theorem Inside.finish {e : Γ} {q : R} {f : V → Program A O R V F} {v : V}
    (h : Inside S C γ (.guest e q f :: stack) entry r next inner outer)
    (hanswer : entries stack ≠ [] → C.answers q v) : Guarded S C ⟨γ, .code (f v), stack⟩ := by
  have heq := h.stack_eq
  cases inner with
  | nil =>
    cases heq
    exact .outside h.outer_safe (h.next_safe v γ h.elapsed)
  | cons frame inner =>
    cases heq
    have hinside : Inside S C γ (inner ++ .guest entry r next :: outer) entry r next inner outer :=
      ⟨rfl, fun frame hframe => h.inner_quiet frame (List.mem_cons_of_mem _ hframe), h.outer_safe,
        h.next_safe, h.ready, h.elapsed⟩
    exact .callback hinside (h.inner_quiet _ List.mem_cons_self v (hanswer hinside.entries_ne))

/-- The frame on top of guest code is one of guest code. -/
theorem Inside.top (h : Inside S C γ stack entry r next inner outer) :
    ∃ e q f rest, stack = .guest e q f :: rest := by
  cases inner with
  | nil => exact ⟨entry, r, next, outer, h.stack_eq⟩
  | cons frame inner =>
    have hframe := h.inner_quiet frame List.mem_cons_self
    cases frame with
    | call f => exact hframe.elim
    | guest e q f => exact ⟨e, q, f, _, h.stack_eq⟩

variable {t : Machine Γ A O R V F} {e : Event Γ V F}

theorem Guarded.outside_run (hbody : ∀ f γ, Safe S C (S.body f) γ)
    (hclean : C.Clean ⟨γ, .code p, stack⟩ .run) (hframes : ∀ frame ∈ stack, Outer S C frame)
    (hsafe : Safe S C p γ) (hstep : S.runStep ⟨γ, .code p, stack⟩ = some t) : Guarded S C t := by
  cases System.runStep_moves hstep with
  | stop => exact .idle
  | @back _ v =>
    exact .outside (fun frame h => hframes frame (List.mem_cons_of_mem _ h))
      (hframes _ List.mem_cons_self v γ)
  | resume => exact (hframes _ List.mem_cons_self).elim
  | @act _ a next =>
    exact .outside hframes (hsafe γ (C.elapses_refl γ) (hclean a next rfl))
  | observe => exact .outside hframes (hsafe γ (C.elapses_refl γ))
  | @invoke _ f next =>
    refine .outside (fun frame h => ?_) (hbody f γ)
    cases h with
    | head => exact fun v γ => hsafe v γ
    | tail _ h => exact hframes frame h
  | @jump _ f => exact .outside hframes (hbody f γ)

theorem Inside.run (h : Inside S C γ stack entry r next inner outer) (hquiet : Quiet S C p)
    (hstep : S.runStep ⟨γ, .code p, stack⟩ = some t) : Guarded S C t := by
  cases p with
  | ret v =>
    obtain ⟨e, q, f, rest, hstack⟩ := h.top
    subst hstack
    cases hstep
    exact .guest h
  | act a next =>
    cases hstep
    exact .callback (h.elapse (hquiet.1 γ)) hquiet.2
  | observe next =>
    cases hstep
    exact .callback h (hquiet _)
  | request r next => cases hstep
  | invoke f next => exact hquiet.elim
  | jump f => exact hquiet.elim

section Steps

variable {s : Machine Γ A O R V F} {v : V}

theorem Guarded.run (hbody : ∀ f γ, Safe S C (S.body f) γ) (H : Guarded S C s)
    (hclean : C.Clean s .run) (hstep : S.step s .run = some t) : Guarded S C t := by
  cases H with
  | idle => cases hstep
  | outside hframes hsafe => exact Guarded.outside_run hbody hclean hframes hsafe hstep
  | guest h => cases hstep
  | callback h hquiet => exact h.run hquiet hstep

theorem Guarded.reply (H : Guarded S C s) (hclean : C.Clean s (.reply v))
    (hstep : S.step s (.reply v) = some t) : Guarded S C t := by
  cases H with
  | idle => cases hstep
  | @outside γ p stack hframes hsafe =>
    cases p with
    | request r next =>
      cases hstep
      exact .outside hframes (hsafe.2 v γ (C.elapses_refl γ))
    | _ => cases hstep
  | guest h => cases hstep
  | @callback γ entry p r next stack inner outer h hquiet =>
    cases p with
    | request q f =>
      cases hstep
      exact .callback h (hquiet v (hclean q f rfl h.entries_ne))
    | _ => cases hstep

/-- Outside guest code the state is ready at the entry; inside there is one more frame. -/
theorem Guarded.enter (H : Guarded S C s) (hclean : C.Clean s .enter)
    (hstep : S.step s .enter = some t) : Guarded S C t := by
  cases H with
  | idle => cases hstep
  | @outside γ p stack hframes hsafe =>
    cases p with
    | request r next =>
      cases hstep
      have hready := hsafe.1 (hclean r next rfl (entries_outer hframes)) γ (C.elapses_refl γ)
      have hinside : Inside S C γ (.guest γ r next :: stack) γ r next [] stack :=
        ⟨rfl, fun frame h => absurd h List.not_mem_nil, hframes, hsafe.2, hready,
          C.elapses_refl γ⟩
      exact .guest hinside
    | _ => cases hstep
  | guest h => cases hstep
  | @callback γ entry p r next stack inner outer h hquiet =>
    cases p with
    | request q f =>
      cases hstep
      exact .guest (h.push hquiet)
    | _ => cases hstep

theorem Guarded.finish (H : Guarded S C s) (hclean : C.Clean s (.finish v))
    (hstep : S.step s (.finish v) = some t) : Guarded S C t := by
  cases H with
  | idle => cases hstep
  | outside hframes hsafe => cases hstep
  | @guest γ entry r next stack inner outer h =>
    obtain ⟨e, q, f, rest, hstack⟩ := h.top
    subst hstack
    cases hstep
    exact h.finish (hclean e q f rest rfl)
  | callback h hquiet => cases hstep

theorem Guarded.call {f : F} (hbody : ∀ f γ, Safe S C (S.body f) γ)
    (hcalls : ∀ f, C.calls f → Quiet S C (S.body f)) (H : Guarded S C s)
    (hclean : C.Clean s (.call f)) (hstep : S.step s (.call f) = some t) : Guarded S C t := by
  cases H with
  | @idle γ =>
    cases hstep
    exact .outside (fun frame h => absurd h List.not_mem_nil) (hbody f γ)
  | outside hframes hsafe => cases hstep
  | guest h =>
    cases hstep
    exact .callback h (hcalls f (hclean rfl))
  | callback h hquiet => cases hstep

theorem Guarded.pass (H : Guarded S C s) (hclean : C.Clean s (.pass γ'))
    (hstep : S.step s (.pass γ') = some t) : Guarded S C t := by
  cases H with
  | idle =>
    cases hstep
    exact .idle
  | outside hframes hsafe =>
    cases hstep
    exact .outside hframes (hsafe.elapse hclean)
  | guest h =>
    cases hstep
    exact .guest (h.elapse hclean)
  | callback h hquiet =>
    cases hstep
    exact .callback (h.elapse hclean) hquiet

/-- What one clean step preserves. -/
theorem Guarded.step (hbody : ∀ f γ, Safe S C (S.body f) γ)
    (hcalls : ∀ f, C.calls f → Quiet S C (S.body f)) (H : Guarded S C s) (h : CleanStep S C s e t) :
    Guarded S C t := by
  obtain ⟨hclean, hstep⟩ := h
  cases e with
  | run => exact H.run hbody hclean hstep
  | reply v => exact H.reply hclean hstep
  | enter => exact H.enter hclean hstep
  | finish v => exact H.finish hclean hstep
  | call f => exact H.call hbody hcalls hclean hstep
  | pass γ' => exact H.pass hclean hstep

end Steps

/-- Whenever guest code runs in a clean run, only the environment has touched the shared state since
the outermost guest code was entered, and then it was ready. -/
theorem run_guarded (hbody : ∀ f γ, Safe S C (S.body f) γ)
    (hcalls : ∀ f, C.calls f → Quiet S C (S.body f)) {es : List (Event Γ V F)}
    (hrun : Run (CleanStep S C) ⟨γ, .idle, []⟩ es t) (hguest : t.control = .guest) :
    ∃ entry, outermostEntry t.stack = some entry ∧ C.ready entry ∧ C.elapses entry t.shared := by
  have H : Guarded S C t := hrun.invariant (Guarded S C)
    (fun _ _ _ H h => H.step hbody hcalls h) .idle
  cases H with
  | idle => cases hguest
  | outside hframes hsafe => cases hguest
  | @guest γ entry r next stack inner outer h => exact ⟨entry, h.outermost, h.ready, h.elapsed⟩
  | callback h hquiet => cases hguest

end Rules

end JsOs.ReentrantPrograms
