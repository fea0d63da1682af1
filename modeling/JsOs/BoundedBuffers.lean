import Mathlib.Data.List.Basic

/-!
# Bounded buffers

A buffer is filled from its beginning. A write outside it is undefined, so that a computation that
has a result has stayed inside.
-/

namespace JsOs.BoundedBuffers

variable {α : Type*}

/-- `output[length++] = c` in a buffer of the given size. -/
def push (capacity : ℕ) (output : List α) (c : α) : Option (List α) :=
  if output.length < capacity then some (output ++ [c]) else none

def pushAll (capacity : ℕ) (output text : List α) : Option (List α) :=
  text.foldlM (push capacity) output

/-- Exchange two elements that have been written. -/
def exchange (output : List α) (i j : ℕ) : Option (List α) :=
  output[i]?.bind fun a => output[j]?.map fun b => (output.set i b).set j a

variable {capacity : ℕ} {output text : List α}

theorem push_eq (h : output.length < capacity) (c : α) :
    push capacity output c = some (output ++ [c]) := if_pos h

theorem push_ite (condition : Prop) [Decidable condition] (h : output.length < capacity) (c : α) :
    (if condition then push capacity output c else some output) =
      some (output ++ if condition then [c] else []) := by
  by_cases hc : condition
  · rw [if_pos hc, if_pos hc, push_eq h]
  · rw [if_neg hc, if_neg hc, List.append_nil]

theorem pushAll_eq (h : output.length + text.length ≤ capacity) :
    pushAll capacity output text = some (output ++ text) := by
  induction text generalizing output with
  | nil => exact congrArg some (List.append_nil _).symm
  | cons c text ih =>
    rw [List.length_cons] at h
    have hnext : pushAll capacity (output ++ [c]) text = some (output ++ [c] ++ text) :=
      ih (by rw [List.length_append, List.length_singleton]; omega)
    unfold pushAll at hnext ⊢
    rw [List.foldlM_cons, push_eq (by omega), Option.bind_eq_bind, Option.bind_some, hnext,
      List.append_assoc, List.singleton_append]

theorem exchange_eq {i j : ℕ} (hi : i < output.length) (hj : j < output.length) :
    exchange output i j = some ((output.set i output[j]).set j output[i]) := by
  unfold exchange
  rw [List.getElem?_eq_getElem hi, List.getElem?_eq_getElem hj, Option.bind_some, Option.map_some]

end JsOs.BoundedBuffers
