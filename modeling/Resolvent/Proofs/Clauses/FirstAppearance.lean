/-
# Lists by first appearance

Predicates, edges and variables are listed once each, in the order in which
they are first met. They are collected one after the other, and each is looked
up in the list of those found so far. The same list is left of the occurrences
when those are erased that repeat an earlier one.
-/

import Mathlib.Data.List.Nodup
import Resolvent.Store

namespace Resolvent.Store

variable {α : Type} [DecidableEq α]

/-- What has been found already is not included again. -/
theorem nodup_including {found : List α} (distinct : found.Nodup) (x : α) :
    (including found x).Nodup := by
  unfold including
  split
  · exact distinct
  · next unknown => exact List.nodup_append.mpr ⟨distinct, by simp, by grind⟩

/-- However many items are included, none of them comes to stand there
twice. -/
theorem nodup_foldl_including {found : List α} (distinct : found.Nodup) (l : List α) :
    (l.foldl including found).Nodup := by
  induction l generalizing found with
  | nil => exact distinct
  | cons x l ih => exact ih (nodup_including distinct x)

variable [BEq α] [LawfulBEq α]

/-- Including the items of a list adds those that are new, each where it is
first met. -/
theorem foldl_including (found l : List α) :
    l.foldl including found = found ++ (l.filter (· ∉ found)).eraseDups := by
  induction l generalizing found with
  | nil => simp
  | cons x l ih =>
      rw [List.foldl_cons, ih]
      by_cases known : x ∈ found
      · rw [including, if_pos known, List.filter_cons_of_neg (by simpa using known)]
      · have others : l.filter (· ∉ found ++ [x]) =
            (l.filter (· ∉ found)).filter fun y => !y == x := by
          rw [List.filter_filter]
          refine List.filter_congr fun y _ => ?_
          by_cases same : y = x <;> simp [same]
        rw [including, if_neg known, List.filter_cons_of_pos (by simpa using known),
          List.eraseDups_cons, others, List.append_assoc, List.singleton_append]

/-- To include items one after the other from nothing is to drop
repetitions. -/
theorem foldl_including_nil (l : List α) : l.foldl including [] = l.eraseDups := by
  rw [foldl_including, List.nil_append, List.filter_eq_self.mpr (by simp)]

/-- A predicate is listed once, however many clauses it has. -/
theorem nodup_predicates (store : Store) : store.predicates.Nodup :=
  nodup_foldl_including List.nodup_nil _

/-- The predicates of a store are those of its heads. -/
theorem mem_predicates {store : Store} {s : String × Nat} :
    s ∈ store.predicates ↔ ∃ c ∈ store.clauses, signature c.head = s := by
  rw [predicates, foldl_including_nil, List.mem_eraseDups, List.mem_map]

end Resolvent.Store
