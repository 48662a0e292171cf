/-
# Programs without functors

If the store and the goals have variables and constants but no compound terms,
then no search goes on for ever within one step: every attempt to resolve a
goal comes to an end, and none of the bindings is cyclic. Resolution makes no
compound terms where there are none, so this is kept along every branch. The
search as a whole may still be endless.
-/

import Resolvent.Proofs.Search.Alphabet

namespace Resolvent

/-- All symbols but the functors. -/
def Alphabet.functionFree : Alphabet where
  Allows {role} _ := role ≠ .functor

/-- Of functions only the functors are left out, so variables may have any
name. -/
theorem Alphabet.functionFree_renames : functionFree.Renames :=
  fun _ _ _ h => h

/-- An atom is free of functions if none of its arguments is an application. -/
theorem Atom.over_functionFree {a : Atom} (simple : ∀ t ∈ a.args, t.arity? = none) :
    a.Over .functionFree := by
  refine ⟨nofun, fun t ht => ?_⟩
  cases t with
  | var x => exact .var nofun
  | const c => exact .const nofun
  | app f args => cases simple _ ht

/-- It is enough that no argument in the clause is a compound term. -/
theorem Clause.over_functionFree {c : Clause}
    (simple : ∀ a ∈ c.head :: c.body, ∀ t ∈ a.args, t.arity? = none) : c.Over .functionFree where
  head := Atom.over_functionFree (simple _ List.mem_cons_self)
  body a ha := Atom.over_functionFree (simple a (List.mem_cons_of_mem _ ha))

/-- A variable is the only function-free term in which it occurs. -/
theorem Binding.not_isCyclic_of_functionFree {b : Binding} (h : b.term.Over .functionFree)
    (proper : b.term ≠ .var b.var) : ¬ b.IsCyclic := by
  obtain ⟨x, t⟩ := b
  intro (cycle : x ∈ t.vars)
  cases h with
  | @var y _ =>
      obtain rfl : x = y := by simpa using cycle
      exact proper rfl
  | const _ => simp at cycle
  | app functor _ _ => exact functor rfl

namespace Query

variable {store : Store} {goals : List Atom} {verbose recording : Bool} {given supply : Supply}
  {k : Nat} {visits : List Visit} {q : Query}

/-- A function-free search never goes on for ever within a step. -/
theorem neverDiverges_of_functionFree (clauses : ∀ c ∈ store.clauses, c.Over .functionFree)
    (asked : ∀ a ∈ goals, a.Over .functionFree) (given : Supply) :
    NeverDiverges store (ofGoals goals verbose recording) given := by
  rintro k visits q supply run attempt ⟨front, tries⟩
  obtain ⟨c, candidate, drawn, rfl⟩ := tries.exists_copy
  have renames := Alphabet.functionFree_renames
  have item := run.over_item renames clauses asked _
    (List.mem_append_right _ (front ▸ List.mem_cons_self))
  have copy := (clauses c (Store.mem_candidates.mp candidate).1).standardizeApart renames drawn
  have attempted := over_of_mem_equations item.applyAll copy.head
  exact Finishes.of_acyclic fun b binds =>
    Binding.not_isCyclic_of_functionFree (binds.over_term attempted) binds.term_ne_var

/-- A function-free search makes no cyclic binding. -/
theorem Run.acyclic_of_functionFree (clauses : ∀ c ∈ store.clauses, c.Over .functionFree)
    (asked : ∀ a ∈ goals, a.Over .functionFree)
    (run : Run store (ofGoals goals verbose recording) given k visits q supply) :
    ∀ visit ∈ visits, ∀ b ∈ visit.item.bindings, ¬ b.IsCyclic := by
  intro visit visited b hb
  have there := List.mem_append_left q.queue.toList (List.mem_map_of_mem (f := Visit.item) visited)
  obtain ⟨d, below⟩ := run.exists_descends visit.item there
  have item := run.over_item Alphabet.functionFree_renames clauses asked visit.item there
  exact Binding.not_isCyclic_of_functionFree (item.bound b hb) (below.term_ne_var (by simp) b hb)

end Query

end Resolvent
