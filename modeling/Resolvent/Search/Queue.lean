/-
# Queues

First in, first out. A queue keeps its newest items in a second list, newest
first, and turns that list round when the first one is used up. What a queue
holds is its `toList`, oldest item first; the operations are described by what
they do to it.
-/

namespace Resolvent

/-- Items waiting in the order of their arrival, and their number. -/
structure Queue (α : Type) where
  front : List α
  back : List α
  size : Nat
  size_eq : size = front.length + back.length

namespace Queue

variable {α : Type}

/-- The waiting items, oldest first. -/
def toList (q : Queue α) : List α :=
  q.front ++ q.back.reverse

/-- The queue with nothing in it. -/
def empty : Queue α :=
  ⟨[], [], 0, rfl⟩

/-- A queue with one more item at its end. -/
def push (q : Queue α) (x : α) : Queue α where
  front := q.front
  back := x :: q.back
  size := q.size + 1
  size_eq := by have := q.size_eq; simp only [List.length_cons]; omega

/-- A queue with several more items at its end, in order. -/
def pushAll (q : Queue α) (xs : List α) : Queue α :=
  xs.foldl push q

/-- The oldest item and the queue without it, or nothing if no item waits. -/
def pop? (q : Queue α) : Option (α × Queue α) :=
  match h : q.front with
  | x :: front =>
    some (x, ⟨front, q.back, q.size - 1, by
      have := q.size_eq; rw [h, List.length_cons] at this; omega⟩)
  | [] =>
    match hb : q.back.reverse with
    | [] => none
    | x :: front =>
      some (x, ⟨front, [], q.size - 1, by
        have hs := q.size_eq
        have hl := congrArg List.length hb
        rw [h] at hs
        simp only [List.length_reverse, List.length_cons, List.length_nil] at hl hs ⊢
        omega⟩)

/-- Whether nothing waits. -/
def isEmpty (q : Queue α) : Bool :=
  q.size == 0

/-- The size of a queue is the number of its items. -/
theorem size_eq_length (q : Queue α) : q.size = q.toList.length := by
  simp [toList, q.size_eq]

@[simp] theorem toList_empty : (empty : Queue α).toList = [] := rfl

/-- An item that is pushed comes last. -/
@[simp] theorem toList_push (q : Queue α) (x : α) : (q.push x).toList = q.toList ++ [x] := by
  simp [toList, push]

/-- Items that are pushed come last, in their order. -/
@[simp] theorem toList_pushAll (q : Queue α) (xs : List α) :
    (q.pushAll xs).toList = q.toList ++ xs := by
  induction xs generalizing q with
  | nil => simp [pushAll]
  | cons x xs ih =>
    rw [pushAll, List.foldl_cons, ← pushAll, ih, toList_push, List.append_assoc,
      List.singleton_append]

/-- A queue is empty if it has no items. -/
theorem isEmpty_iff (q : Queue α) : q.isEmpty ↔ q.toList = [] := by
  simp [isEmpty, size_eq_length]

/-- Popping takes the oldest item. -/
theorem toList_of_pop? {q rest : Queue α} {x : α} (h : q.pop? = some (x, rest)) :
    q.toList = x :: rest.toList := by
  unfold pop? at h
  split at h
  · next hf =>
    obtain ⟨rfl, rfl⟩ := Prod.mk.inj (Option.some.inj h)
    simp [toList, hf]
  · next hf =>
    split at h
    · cases h
    · next hb =>
      obtain ⟨rfl, rfl⟩ := Prod.mk.inj (Option.some.inj h)
      simp [toList, hf, hb]

/-- Popping fails only on an empty queue. -/
theorem pop?_eq_none_iff {q : Queue α} : q.pop? = none ↔ q.toList = [] := by
  constructor
  · intro h
    unfold pop? at h
    split at h
    · cases h
    · next hf =>
      split at h
      · next hb => simp [toList, hf, hb]
      · cases h
  · intro h
    match hp : q.pop? with
    | none => rfl
    | some (x, rest) => simp [toList_of_pop? hp] at h

end Queue

end Resolvent
