/-!
# Queues

First in, first out, as two lists: the front in order and the back reversed.  Each element is
moved from the back to the front once.  The view is `toList`, and each operation has one lemma
about it.
-/

namespace SweepRegex

/-- A queue; the next element is the first of `front`, the newest the first of `back`. -/
structure Queue (α : Type) where
  front : List α
  back : List α

namespace Queue

variable {α : Type}

/-! ## Algorithm -/

/-- No elements. -/
def empty : Queue α := ⟨[], []⟩

/-- The elements, the next one first. -/
def toList (q : Queue α) : List α := q.front ++ q.back.reverse

/-- Adds an element behind all others. -/
def enqueue (q : Queue α) (x : α) : Queue α := ⟨q.front, x :: q.back⟩

/-- The next element and the queue without it. -/
def dequeue? (q : Queue α) : Option (α × Queue α) :=
  match q.front with
  | x :: front => some (x, ⟨front, q.back⟩)
  | [] =>
    match q.back.reverse with
    | x :: front => some (x, ⟨front, []⟩)
    | [] => none

/-! ## Lemmas -/

@[simp] theorem toList_empty : (empty : Queue α).toList = [] := rfl

@[simp] theorem toList_enqueue (q : Queue α) (x : α) :
    (q.enqueue x).toList = q.toList ++ [x] := by
  simp [enqueue, toList]

theorem mem_toList_enqueue {q : Queue α} {x y : α} :
    y ∈ (q.enqueue x).toList ↔ y ∈ q.toList ∨ y = x := by
  rw [toList_enqueue, List.mem_append, List.mem_singleton]

theorem toList_of_dequeue? {q r : Queue α} {x : α} (h : q.dequeue? = some (x, r)) :
    q.toList = x :: r.toList := by
  unfold dequeue? at h
  split at h
  · rename_i y front hf
    cases h
    simp [toList, hf]
  · rename_i hf
    split at h
    · rename_i y front hb
      cases h
      simp [toList, hf, hb]
    · cases h

theorem dequeue?_eq_none_iff (q : Queue α) : q.dequeue? = none ↔ q.toList = [] := by
  constructor
  · intro h
    unfold dequeue? at h
    split at h
    · cases h
    · rename_i hf
      split at h
      · cases h
      · rename_i hb
        simp [toList, hf, hb]
  · intro h
    cases hq : q.dequeue? with
    | none => rfl
    | some xr =>
      have := toList_of_dequeue? (x := xr.1) (r := xr.2) hq
      rw [h] at this
      cases this

end Queue

end SweepRegex
