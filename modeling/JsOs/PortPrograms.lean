import Mathlib.Data.List.Basic

/-!
# Programs on ports

A program reads ports and writes to them, and a device answers. A device may change its state at
each access, so what happens between two accesses is part of it too. The rules are for sequences,
for loops over a list, and for waits: the reading of one port until a test holds of the answer.
-/

namespace JsOs.PortPrograms

inductive PortProgram (ι α β : Type) where
  | ret (b : β)
  | input (port : ι) (next : α → PortProgram ι α β)
  | output (port : ι) (value : α) (next : PortProgram ι α β)

structure Device (ι α : Type) (σ : Type*) where
  input : ι → σ → α × σ
  output : ι → α → σ → σ

inductive Access (ι α : Type) where
  | input (port : ι) (value : α)
  | output (port : ι) (value : α)
  deriving DecidableEq, Repr

variable {ι α β γ δ : Type} {σ : Type*}

namespace PortProgram

def bind : PortProgram ι α β → (β → PortProgram ι α γ) → PortProgram ι α γ
  | .ret b, f => f b
  | .input port next, f => .input port fun v => (next v).bind f
  | .output port value next, f => .output port value (next.bind f)

instance : Monad (PortProgram ι α) where
  pure := .ret
  bind := bind

theorem bind_ret (p : PortProgram ι α β) : p.bind .ret = p := by
  induction p with
  | ret b => rfl
  | input port next ih => exact congrArg _ (funext ih)
  | output port value next ih => exact congrArg _ ih

theorem bind_assoc (p : PortProgram ι α β) (f : β → PortProgram ι α γ)
    (g : γ → PortProgram ι α δ) : (p.bind f).bind g = p.bind fun b => (f b).bind g := by
  induction p with
  | ret b => rfl
  | input port next ih => exact congrArg _ (funext ih)
  | output port value next ih => exact congrArg _ ih

instance : LawfulMonad (PortProgram ι α) :=
  LawfulMonad.mk' (PortProgram ι α) bind_ret (fun _ _ => rfl) bind_assoc

/-- The result and the state of the device at the end. -/
def run (D : Device ι α σ) : PortProgram ι α β → σ → β × σ
  | .ret b, s => (b, s)
  | .input port next, s => run D (next (D.input port s).1) (D.input port s).2
  | .output port value next, s => run D next (D.output port value s)

/-- The accesses of a run, in their order. -/
def accesses (D : Device ι α σ) : PortProgram ι α β → σ → List (Access ι α)
  | .ret _, _ => []
  | .input port next, s =>
    .input port (D.input port s).1 :: accesses D (next (D.input port s).1) (D.input port s).2
  | .output port value next, s => .output port value :: accesses D next (D.output port value s)

variable (D : Device ι α σ)

@[simp] theorem run_pure (b : β) (s : σ) : run D (pure b : PortProgram ι α β) s = (b, s) := rfl

@[simp] theorem accesses_pure (b : β) (s : σ) : accesses D (pure b : PortProgram ι α β) s = [] :=
  rfl

@[simp] theorem run_bind (p : PortProgram ι α β) (f : β → PortProgram ι α γ) (s : σ) :
    run D (p >>= f) s = run D (f (run D p s).1) (run D p s).2 := by
  change run D (p.bind f) s = _
  induction p generalizing s with
  | ret b => rfl
  | input port next ih => exact ih _ _
  | output port value next ih => exact ih _

@[simp] theorem accesses_bind (p : PortProgram ι α β) (f : β → PortProgram ι α γ) (s : σ) :
    accesses D (p >>= f) s = accesses D p s ++ accesses D (f (run D p s).1) (run D p s).2 := by
  change accesses D (p.bind f) s = _
  induction p generalizing s with
  | ret b => rfl
  | input port next ih => simp [bind, accesses, run, ih]
  | output port value next ih => simp [bind, accesses, run, ih]

@[simp] theorem run_map (p : PortProgram ι α β) (f : β → γ) (s : σ) :
    run D (f <$> p) s = (f (run D p s).1, (run D p s).2) := by
  rw [map_eq_pure_bind, run_bind, run_pure]

end PortProgram

open PortProgram

section Loops

/-- `for (i = 0; i < n; i++) f(items[i]);`. -/
def forEach (f : γ → PortProgram ι α Unit) : List γ → PortProgram ι α Unit
  | [] => pure ()
  | c :: items => f c >>= fun _ => forEach f items

variable {D : Device ι α σ} {f : γ → PortProgram ι α Unit}

theorem forEach_append (f : γ → PortProgram ι α Unit) (items items' : List γ) :
    forEach f (items ++ items') = forEach f items >>= fun _ => forEach f items' := by
  induction items with
  | nil => simp [forEach]
  | cons c items ih => simp [forEach, ih]

/-- A loop whose rounds are loops is one loop. -/
theorem forEach_flatMap {f : γ → PortProgram ι α Unit} {g : δ → PortProgram ι α Unit}
    {h : γ → List δ} (hf : ∀ c, f c = forEach g (h c)) (items : List γ) :
    forEach f items = forEach g (items.flatMap h) := by
  induction items with
  | nil => rfl
  | cons c items ih => rw [forEach, hf, ih, List.flatMap_cons, forEach_append]

/-- What holds before the loop of the empty list and is carried over each item holds after it. -/
theorem forEach_invariant (I : List γ → σ → Prop)
    (hstep : ∀ done c s, I done s → I (done ++ [c]) (run D (f c) s).2) (items : List γ) {s : σ}
    (hs : I [] s) : I items (run D (forEach f items) s).2 := by
  suffices hrest : ∀ done t, I done t → I (done ++ items) (run D (forEach f items) t).2 from
    hrest [] s hs
  induction items with
  | nil =>
    intro done t ht
    simpa [forEach] using ht
  | cons c items ih =>
    intro done t ht
    have hnext := ih (done ++ [c]) _ (hstep done c t ht)
    simpa [forEach] using hnext

/-- The accesses of a loop are those of its rounds. -/
theorem forEach_accesses (P : List γ → List (Access ι α) → Prop) (hnil : P [] [])
    (hcons : ∀ c items s rest, P items rest → P (c :: items) (accesses D (f c) s ++ rest))
    (items : List γ) (s : σ) : P items (accesses D (forEach f items) s) := by
  induction items generalizing s with
  | nil => exact hnil
  | cons c items ih =>
    simp only [forEach, accesses_bind]
    exact hcons c items s _ (ih _)

end Loops

section Waits

/-- Read the port until the test holds, at most so many times; the result is whether it held. -/
def poll (port : ι) (test : α → Bool) : ℕ → PortProgram ι α Bool
  | 0 => .ret false
  | n + 1 => .input port fun v => if test v then .ret true else poll port test n

variable {D : Device ι α σ} {port : ι} {test : α → Bool} {n : ℕ} {s : σ}

/-- A wait reads its port and nothing else: the test fails of all answers, and there are as many as
allowed, or of all but the last. -/
theorem poll_accesses (D : Device ι α σ) (port : ι) (test : α → Bool) (n : ℕ) (s : σ) :
    ∃ failed : List α, (∀ v ∈ failed, test v = false) ∧
      ((run D (poll port test n) s).1 = false ∧ failed.length = n ∧
          accesses D (poll port test n) s = failed.map (.input port) ∨
        (run D (poll port test n) s).1 = true ∧ failed.length < n ∧ ∃ v, test v = true ∧
          accesses D (poll port test n) s = failed.map (.input port) ++ [.input port v]) := by
  induction n generalizing s with
  | zero => exact ⟨[], by simp, .inl ⟨rfl, rfl, rfl⟩⟩
  | succ n ih =>
    by_cases hv : test (D.input port s).1 = true
    · refine ⟨[], by simp, .inr ⟨?_, Nat.succ_pos n, (D.input port s).1, hv, ?_⟩⟩
      · simp [poll, run, hv]
      · simp [poll, accesses, hv]
    · have hfalse : test (D.input port s).1 = false := Bool.not_eq_true _ ▸ hv
      obtain ⟨failed, hfailed, hcases⟩ := ih (D.input port s).2
      have hall : ∀ v ∈ (D.input port s).1 :: failed, test v = false := by
        intro v hmem
        rcases List.mem_cons.mp hmem with rfl | hmem
        · exact hfalse
        · exact hfailed v hmem
      refine ⟨(D.input port s).1 :: failed, hall, ?_⟩
      rcases hcases with ⟨hresult, hlength, haccesses⟩ | ⟨hresult, hlength, v, htest, haccesses⟩
      · left
        simpa [poll, run, accesses, hfalse, hlength, haccesses] using hresult
      · right
        refine ⟨by simpa [poll, run, hfalse] using hresult, Nat.succ_lt_succ hlength, v, htest, ?_⟩
        simp [poll, accesses, hfalse, haccesses]

/-- What reads of the port keep, a wait keeps, and what holds after a successful read holds after a
successful wait. -/
theorem poll_invariant (I : σ → Prop) (Q : σ → Prop)
    (hread : ∀ s, I s → I (D.input port s).2 ∧ (test (D.input port s).1 → Q (D.input port s).2))
    (n : ℕ) (hs : I s) :
    I (run D (poll port test n) s).2 ∧
      ((run D (poll port test n) s).1 = true → Q (run D (poll port test n) s).2) := by
  induction n generalizing s with
  | zero => exact ⟨hs, fun h => by cases h⟩
  | succ n ih =>
    obtain ⟨hI, hQ⟩ := hread s hs
    by_cases hv : test (D.input port s).1 = true
    · simpa [poll, run, hv] using ⟨hI, hQ hv⟩
    · simpa [poll, run, hv] using ih hI

/-- A wait succeeds if the device is to be ready soon enough: `R k` says that it is ready after at
most `k` more failures. -/
theorem poll_succeeds (R : ℕ → σ → Prop)
    (hread : ∀ k s, R k s → test (D.input port s).1 = true ∨ ∃ j < k, R j (D.input port s).2)
    {k : ℕ} (hk : k < n) (hs : R k s) : (run D (poll port test n) s).1 = true := by
  induction n generalizing s k with
  | zero => exact absurd hk (Nat.not_lt_zero k)
  | succ n ih =>
    by_cases hv : test (D.input port s).1 = true
    · simp [poll, run, hv]
    · obtain ⟨j, hj, hR⟩ := (hread k s hs).resolve_left hv
      simpa [poll, run, hv] using ih (by omega) hR

end Waits

end JsOs.PortPrograms
