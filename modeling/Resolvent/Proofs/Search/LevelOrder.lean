/-
# A queue goes through a tree level by level

A tree is given by a root and the list of children of each of its items. Taking
the oldest item from a queue and putting its children at the end goes through
the tree by levels: at any time the queue holds a tail of one level and then
the children of the items of that level that have been taken.

Nothing is said here about what the items are. A search that may fail to expand
an item, or that makes the items only as it goes, is compared with such a sweep
later.
-/

import Mathlib

namespace Resolvent.LevelOrder

variable {α : Type} (children : α → List α) (root : α)

/-- The items at a depth, from left to right. -/
def level : Nat → List α
  | 0 => [root]
  | d + 1 => (level d).flatMap children

/-- All items above a depth, level after level. -/
def above (d : Nat) : List α :=
  (List.range d).flatMap (level children root)

/-- How far a sweep has come: the items taken so far and the items that
wait. -/
@[ext]
structure Sweep (α : Type) where
  taken : List α
  waiting : List α

/-- Take the oldest waiting item, if there is one, and let its children
wait. -/
def Sweep.next (s : Sweep α) : Sweep α :=
  match s.waiting with
  | [] => s
  | x :: rest => ⟨s.taken ++ [x], rest ++ children x⟩

/-- A sweep after a number of steps. -/
def sweep : Nat → Sweep α
  | 0 => ⟨[], [root]⟩
  | k + 1 => (sweep k).next children

/-- A step takes the item in front and puts its children behind the others. -/
theorem sweep_succ_of_front {k : Nat} {x : α} {rest : List α}
    (front : (sweep children root k).waiting = x :: rest) :
    sweep children root (k + 1) =
      ⟨(sweep children root k).taken ++ [x], rest ++ children x⟩ := by
  rw [sweep, Sweep.next, front]

@[simp] theorem above_succ (d : Nat) :
    above children root (d + 1) = above children root d ++ level children root d := by
  simp [above, List.range_succ]

/-- The items two levels further down, with the level between them cut in
two. -/
theorem above_add_two {d : Nat} {done todo : List α}
    (cut : level children root d = done ++ todo) :
    above children root (d + 2) = (above children root d ++ done) ++
      ((todo ++ done.flatMap children) ++ todo.flatMap children) := by
  simp [level, cut]

/-- At every step the queue holds the rest of one level, and then the children
of that part of it which has been taken. -/
theorem sweep_eq (k : Nat) :
    ∃ d done todo, level children root d = done ++ todo ∧
      sweep children root k =
        ⟨above children root d ++ done, todo ++ done.flatMap children⟩ := by
  induction k with
  | zero => exact ⟨0, [], [root], rfl, rfl⟩
  | succ k ih =>
      obtain ⟨d, done, todo, cut, reached⟩ := ih
      rw [sweep, reached]
      cases todo with
      | cons x todo =>
          refine ⟨d, done ++ [x], todo, by simpa using cut, ?_⟩
          simp [Sweep.next]
      | nil =>
          -- The level is used up, so what waits is the whole of the next one.
          have next_level : level children root (d + 1) = done.flatMap children := by
            rw [level, cut, List.append_nil]
          rw [List.append_nil] at cut
          cases waiting : done.flatMap children with
          | nil =>
              refine ⟨d, done, [], by simpa using cut, ?_⟩
              simp [Sweep.next, waiting]
          | cons x rest =>
              refine ⟨d + 1, [x], rest, by simpa [waiting] using next_level, ?_⟩
              simp [Sweep.next, cut]

/-- A part of the queue is used up in as many steps as it has items. -/
theorem iterate_next (taken part rest : List α) :
    (Sweep.next children)^[part.length] ⟨taken, part ++ rest⟩ =
      ⟨taken ++ part, rest ++ part.flatMap children⟩ := by
  induction part generalizing taken rest with
  | nil => simp
  | cons x part ih =>
      rw [List.length_cons, Function.iterate_succ_apply]
      have first : Sweep.next children ⟨taken, x :: part ++ rest⟩ =
          ⟨taken ++ [x], part ++ (rest ++ children x)⟩ := by
        simp [Sweep.next]
      rw [first, ih]
      simp

/-- A sweep of some steps can be continued by some more. -/
theorem sweep_add (k j : Nat) :
    sweep children root (k + j) = (Sweep.next children)^[j] (sweep children root k) := by
  induction j with
  | zero => rfl
  | succ j ih => rw [← Nat.add_assoc, sweep, ih, Function.iterate_succ_apply']

/-- Every level comes to stand in the queue, with all levels above it taken. -/
theorem exists_sweep_eq_level (d : Nat) :
    ∃ k, sweep children root k = ⟨above children root d, level children root d⟩ := by
  induction d with
  | zero => exact ⟨0, rfl⟩
  | succ d ih =>
      obtain ⟨k, reached⟩ := ih
      have used_up := iterate_next children (above children root d) (level children root d) []
      refine ⟨k + (level children root d).length, ?_⟩
      rw [List.append_nil] at used_up
      rw [sweep_add, reached, used_up, above_succ]
      rfl

/-- Every item comes to be the oldest one in the queue. -/
theorem exists_sweep_front {d : Nat} {x : α} (h : x ∈ level children root d) :
    ∃ k rest, (sweep children root k).waiting = x :: rest := by
  obtain ⟨k, reached⟩ := exists_sweep_eq_level children root d
  obtain ⟨before, after, cut⟩ := List.append_of_mem h
  have used_up := iterate_next children (above children root d) before (x :: after)
  refine ⟨k + before.length, after ++ before.flatMap children, ?_⟩
  rw [sweep_add, reached, cut, used_up]
  rfl

/-- Once the queue is empty nothing changes any more. -/
theorem sweep_eq_of_empty {k more : Nat} (empty : (sweep children root k).waiting = [])
    (h : k ≤ more) : sweep children root more = sweep children root k := by
  obtain ⟨j, rfl⟩ := Nat.exists_eq_add_of_le h
  rw [sweep_add]
  exact Function.iterate_fixed (by rw [Sweep.next, empty]) j

/-- What has been taken stays taken, in the same place. -/
theorem taken_prefix_of_le {k more : Nat} (h : k ≤ more) :
    (sweep children root k).taken <+: (sweep children root more).taken := by
  induction h with
  | refl => exact List.prefix_rfl
  | step _ ih =>
      rw [sweep, Sweep.next]
      split
      · exact ih
      · exact ih.trans (List.prefix_append _ _)

/-- What has been taken belongs to the levels above some depth. -/
theorem exists_taken_prefix_above (k : Nat) :
    ∃ d, (sweep children root k).taken <+: above children root d := by
  obtain ⟨d, done, todo, cut, reached⟩ := sweep_eq children root k
  refine ⟨d + 1, todo, ?_⟩
  rw [reached, above_succ, cut, List.append_assoc]

/-- The oldest item is taken in the next step. -/
theorem mem_taken_of_front {k more : Nat} {x : α} {rest : List α}
    (front : (sweep children root k).waiting = x :: rest) (h : k < more) :
    x ∈ (sweep children root more).taken := by
  refine (taken_prefix_of_le children root h).subset ?_
  simp [sweep_succ_of_front children root front]

/-- What holds of the root and passes from items to their children holds on
every level. -/
theorem level_induction {P : α → Prop} (start : P root)
    (step : ∀ x, P x → ∀ y ∈ children x, P y) (d : Nat) : ∀ x ∈ level children root d, P x := by
  induction d with
  | zero => simpa [level] using start
  | succ d ih =>
      intro y hy
      obtain ⟨x, hx, child⟩ := List.mem_flatMap.mp hy
      exact step x (ih x hx) y child

/-- The levels of a tree are put together from those of the trees below the
children. -/
theorem level_succ (d : Nat) :
    level children root (d + 1) = (children root).flatMap fun x => level children x d := by
  induction d with
  | zero => simp [level]
  | succ d ih =>
      rw [level, ih, List.flatMap_assoc]
      rfl

/-- The levels of the tree below a child belong to the levels one further
down. -/
theorem mem_level_of_child {child x : α} (h : child ∈ children root) {d : Nat}
    (hx : x ∈ level children child d) : x ∈ level children root (d + 1) := by
  rw [level_succ]
  exact List.mem_flatMap.mpr ⟨child, h, hx⟩

/-- Counting in a level is counting below each child. -/
theorem countP_level_succ (p : α → Bool) (d : Nat) :
    (level children root (d + 1)).countP p =
      ((children root).map fun x => (level children x d).countP p).sum := by
  rw [level_succ, List.countP_flatMap]
  rfl

end Resolvent.LevelOrder
