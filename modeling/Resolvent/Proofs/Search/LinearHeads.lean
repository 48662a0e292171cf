/-
# Programs with linear heads

If no variable occurs twice in the head of a clause, then no unification that a
search attempts goes on for ever, whatever the goals are. The copy that is made
of the clause is new, so that the equations of the attempt are linear. And
without cyclic bindings, a goal that has been resolved has become the same as
the head. Only the search as a whole may still be endless.
-/

import Resolvent.Proofs.Clauses.Variants
import Resolvent.Proofs.Search.Attempts
import Resolvent.Proofs.Search.Eager
import Resolvent.Proofs.Search.Soundness
import Resolvent.Proofs.Unification.Linear

namespace Resolvent

/-- The variables of an atom from left to right, as often as they occur. -/
def Atom.occurrences (a : Atom) : List Variable :=
  a.args.flatMap Term.occurrences

/-- No variable occurs twice in the head. -/
def Clause.HasLinearHead (c : Clause) : Prop :=
  c.head.occurrences.Nodup

instance (c : Clause) : Decidable c.HasLinearHead :=
  inferInstanceAs (Decidable c.head.occurrences.Nodup)

variable {store : Store} {goals : List Atom} {supply : Supply}

/-- Renaming keeps how often and where variables occur. -/
theorem Term.occurrences_rename (π : Variable → Variable) (t : Term) :
    (t.rename π).occurrences = t.occurrences.map π := by
  induction t with
  | var x => rfl
  | const c => rfl
  | app f args ih =>
      rw [rename_app, occurrences_app, occurrences_app, List.flatMap_map, List.map_flatMap]
      exact List.flatMap_congr ih

theorem Atom.occurrences_rename (π : Variable → Variable) (a : Atom) :
    (a.rename π).occurrences = a.occurrences.map π := by
  rw [occurrences, occurrences, args_rename, List.flatMap_map, List.map_flatMap]
  exact List.flatMap_congr fun t _ => t.occurrences_rename π

/-- What occurs in an atom is what it mentions. -/
theorem Atom.mem_occurrences {a : Atom} {x : Variable} : x ∈ a.occurrences ↔ a.Mentions x := by
  simp only [occurrences, List.mem_flatMap, Term.mem_occurrences, Mentions]

/-- The right sides are those of the head, or fewer if the goal has fewer
arguments. -/
theorem Query.rights_sublist (args : List Term) (head : Atom) :
    ((equations args head).map Equation.right).Sublist head.args := by
  have tail (ss ts : List Term) :
      ((List.zipWith Equation.mk ss ts).map Equation.right).Sublist ts := by
    induction ss generalizing ts with
    | nil => exact List.nil_sublist _
    | cons s ss ih =>
        cases ts with
        | nil => exact .slnil
        | cons t ts => exact (ih ts).cons_cons t
  exact tail args head.args

/-- The equations between a goal and the copy of a linear head are linear. -/
theorem Query.linear_equations {args : List Term} {c : Clause} (linear : c.HasLinearHead)
    (seen : ∀ t ∈ args, ∀ x ∈ t.vars, supply.Covers x) :
    Linear (equations args (c.head.rename (supply.copy c.vars))) where
  once := by
    have head : (c.head.rename (supply.copy c.vars)).occurrences.Nodup := by
      rw [Atom.occurrences_rename]
      refine List.Nodup.map_on (fun x hx y hy same => ?_) linear
      exact supply.copy_injOn c.vars (Clause.mem_vars.mpr (.inl (Atom.mem_occurrences.mp hx)))
        (Clause.mem_vars.mpr (.inl (Atom.mem_occurrences.mp hy))) same
    have rights := (rights_sublist args (c.head.rename (supply.copy c.vars))).flatMap
      Term.occurrences
    rw [List.flatMap_map] at rights
    exact head.sublist rights
  apart e he d hd x hx hx' := by
    have old : supply.Covers x := by
      obtain ⟨i, inside, rfl⟩ := List.getElem_of_mem he
      simp only [equations, List.getElem_zipWith] at hx
      exact seen _ (List.getElem_mem _) x hx
    have new : (c.head.rename (supply.copy c.vars)).Mentions x :=
      ⟨d.right, (rights_sublist _ _).subset (List.mem_map_of_mem hd), hx'⟩
    obtain ⟨y, _, rfl⟩ :=
      Node.exists_copy_of_mentions (fun y hy => Clause.mem_vars.mpr (.inl hy)) new
    exact supply.not_covers_copy _ _ old

namespace PartialProof.Within

variable {p : PartialProof} {goal : Atom} {deferred : List Atom} {bindings : List Binding}

/-- What a goal mentions under the bindings made so far has been handed out. -/
theorem covers_applyAll (h : Within supply ⟨goal :: deferred, bindings⟩) :
    ∀ t ∈ goal.args.map (applyAll bindings), ∀ x ∈ t.vars, supply.Covers x := by
  intro t ht x hx
  have covered : Node.Covered supply ⟨⟨goal :: deferred, bindings⟩, supply, 0⟩ :=
    ⟨Nat.le_refl _, h⟩
  exact covered.covers_applyAll List.mem_cons_self ht hx

/-- An attempt to resolve a goal against a clause with a linear head makes no
cyclic binding. -/
theorem not_isCyclic (h : Within supply ⟨goal :: deferred, bindings⟩) {c : Clause}
    (known : ∀ x ∈ c.vars, supply.Covers x) (linear : c.HasLinearHead) {b : Binding}
    (binds : Binds (Query.equations (goal.args.map (applyAll bindings))
      (c.standardizeApart supply).1.head) b) : ¬ b.IsCyclic := by
  rw [Clause.standardizeApart_eq known, Clause.head_rename] at binds
  exact binds.not_isCyclic_of_linear (Query.linear_equations linear h.covers_applyAll)

end PartialProof.Within

/-! ### Attempts come to an end -/

namespace Query

variable {verbose recording : Bool} {given : Supply} {k : Nat} {visits : List Visit} {q : Query}

/-- A run keeps to the symbols that have been handed out. -/
theorem Run.within (known : given.Knows store goals)
    (run : Run store (ofGoals goals verbose recording) given k visits q supply) :
    given.next ≤ supply.next ∧ q.Within supply := by
  induction run with
  | nil => exact ⟨Nat.le_refl _, within_ofGoals known verbose recording⟩
  | step _ later made ih =>
      obtain ⟨more, within⟩ := ih
      have known := (known.mono (Nat.le_trans more later)).of_goals
      have stepped := stepped_of_step made
      exact ⟨Nat.le_trans (Nat.le_trans more later) stepped.next_le,
        (within.mono later).step known stepped⟩

/-- A search with linear heads never goes on for ever within a step. -/
theorem neverDiverges_of_linear (known : given.Knows store goals)
    (linear : ∀ c ∈ store.clauses, c.HasLinearHead) :
    NeverDiverges store (ofGoals goals verbose recording) given := by
  rintro k visits q supply run attempt ⟨front, tries⟩
  obtain ⟨c, candidate, drawn, later, rfl⟩ := tries.exists_later_copy
  obtain ⟨more, within⟩ := run.within known
  have clause := (Store.mem_candidates.mp candidate).1
  have first := ((within.mono later).of_front front).1
  exact .of_acyclic fun b binds => first.not_isCyclic
    (fun x hx => (known.clauses c clause x hx).mono (Nat.le_trans more later))
    (linear c clause) binds

end Query

/-! ### Resolved goals -/

/-- Bindings without a cycle make a goal and the head that it is resolved
against the same. -/
theorem Query.instantiate_eq_of_yields {goal head : Atom} {bindings made : List Binding}
    (like : head.matches? goal)
    (derivation : Yields (equations (goal.args.map (applyAll bindings)) head) made)
    (acyclic : ∀ b ∈ made, ¬ b.IsCyclic) :
    (goal.instantiate bindings).instantiate made = head.instantiate made := by
  have like' : head.matches? (goal.instantiate bindings) := by
    rwa [Atom.instantiate_eq_subst, Atom.matches?_subst]
  have args : (goal.instantiate bindings).args.map (applyAll []) =
      goal.args.map (applyAll bindings) := List.map_id' _
  have unifies := (derivation.unifies_iff _).mpr (derivation.solvedForm acyclic).satisfies
  rw [← args, unifies_equations_iff (Substitution.satisfies_nil _) like',
    ← Atom.instantiate_eq_subst, ← Atom.instantiate_eq_subst] at unifies
  exact unifies

/-- A goal that has been resolved is the same as the copy of the head, if no
cycle has been made. -/
theorem Node.Covered.instantiate_eq_of_acyclic {base : Supply} {n : Node}
    (covered : Covered base n) {goal : Atom} {c : Clause} {made : List Binding}
    (like : c.head.matches? goal)
    (derivation : Yields (Query.equations (goal.args.map (applyAll n.proof.bindings))
      (c.head.rename (n.supply.copy c.vars))) made)
    (acyclic : ∀ b ∈ made, ¬ b.IsCyclic) :
    goal.instantiate (n.proof.bindings ++ made) =
      (c.head.rename (n.supply.copy c.vars)).instantiate (n.proof.bindings ++ made) := by
  have unseen : (c.head.rename (n.supply.copy c.vars)).instantiate n.proof.bindings =
      c.head.rename (n.supply.copy c.vars) := by
    refine Atom.instantiate_eq_self fun b hb occurs => ?_
    obtain ⟨y, _, copied⟩ :=
      exists_copy_of_mentions (fun y hy => Clause.mem_vars.mpr (.inl hy)) occurs
    have old := covered.covers b.var (.inr ⟨b, hb, .inl rfl⟩)
    rw [copied] at old
    exact n.supply.not_covers_copy _ _ old
  rw [Atom.instantiate_append, Atom.instantiate_append, unseen]
  refine Query.instantiate_eq_of_yields ?_ derivation acyclic
  rwa [Atom.rename, Atom.subst_matches?]

/-- A goal that has been resolved against a linear head is the same as the copy
of the head. -/
theorem Node.Covered.instantiate_eq {base : Supply} {n : Node} (covered : Covered base n)
    {goal : Atom} {deferred : List Atom} {c : Clause} {made : List Binding}
    (first : n.proof.goals = goal :: deferred) (candidate : c ∈ store.candidates goal)
    (linear : c.HasLinearHead)
    (derivation : Yields (Query.equations (goal.args.map (applyAll n.proof.bindings))
      (c.head.rename (n.supply.copy c.vars))) made) :
    goal.instantiate (n.proof.bindings ++ made) =
      (c.head.rename (n.supply.copy c.vars)).instantiate (n.proof.bindings ++ made) := by
  have seen : ∀ t ∈ goal.args.map (applyAll n.proof.bindings), ∀ x ∈ t.vars,
      n.supply.Covers x := fun t ht x hx => covered.covers_applyAll (by simp [first]) ht hx
  refine covered.instantiate_eq_of_acyclic (Store.mem_candidates.mp candidate).2 derivation
    fun b hb => ?_
  exact (derivation.binds b hb).not_isCyclic_of_linear (Query.linear_equations linear seen)

end Resolvent
