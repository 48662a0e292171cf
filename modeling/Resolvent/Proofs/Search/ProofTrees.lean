/-
# Proof trees

What it means for an atom to be proven from a store, said without any search.
The node of a proof tree is an instance of the head of a clause, and below it
stand proof trees of the same instance of the body; a fact has nothing below
it. A forest is a proof tree for each atom of a list. Its nodes are counted,
because a search needs one resolution step for each.
-/

import Resolvent.Proofs.Search.Tree
import Resolvent.Proofs.Unification.MostGeneral

namespace Resolvent

/-- There are proof trees for all atoms of a list, with a number of nodes in
all. -/
inductive Forest (store : Store) : List Atom → Nat → Prop
  | nil : Forest store [] 0
  /-- The root of the first tree is an instance of the head of a clause. -/
  | cons {c : Clause} {θ : Substitution} {others : List Atom} {below beside : Nat}
      (clause : c ∈ store.clauses) (children : Forest store (c.body.map (Atom.subst θ)) below)
      (rest : Forest store others beside) :
      Forest store (c.head.subst θ :: others) (below + 1 + beside)

namespace Forest

variable {store : Store} {atoms others : List Atom} {m n : Nat}

/-- Two forests beside each other are one, with the nodes of both. -/
theorem append (first : Forest store atoms m) (second : Forest store others n) :
    Forest store (atoms ++ others) (m + n) := by
  induction first with
  | nil => rwa [Nat.zero_add, List.nil_append]
  | @cons c θ rest below beside clause children _ _ ih =>
      rw [Nat.add_assoc]
      exact .cons clause children ih

/-- What the first tree of a forest is made of. -/
theorem exists_of_cons {a : Atom} (h : Forest store (a :: atoms) n) :
    ∃ (c : Clause) (θ : Substitution) (below beside : Nat), c ∈ store.clauses ∧
      a = c.head.subst θ ∧ Forest store (c.body.map (Atom.subst θ)) below ∧
      Forest store atoms beside ∧ n = below + 1 + beside := by
  cases h with
  | cons clause children rest => exact ⟨_, _, _, _, clause, rfl, children, rest, rfl⟩

/-- A forest is cut wherever its list of atoms is. -/
theorem exists_of_append (h : Forest store (atoms ++ others) n) :
    ∃ k l, Forest store atoms k ∧ Forest store others l ∧ n = k + l := by
  induction atoms generalizing n with
  | nil => exact ⟨0, n, .nil, h, (Nat.zero_add n).symm⟩
  | cons a atoms ih =>
      obtain ⟨c, θ, below, beside, clause, rfl, children, rest, rfl⟩ := h.exists_of_cons
      obtain ⟨k, l, first, second, rfl⟩ := ih rest
      exact ⟨_, l, .cons clause children first, second, (Nat.add_assoc _ k l).symm⟩

/-- Each atom of the list has its tree. -/
theorem exists_of_mem (h : Forest store atoms n) {a : Atom} (ha : a ∈ atoms) :
    ∃ k, Forest store [a] k := by
  induction h with
  | nil => cases ha
  | cons clause children _ _ ih =>
      rcases List.mem_cons.mp ha with rfl | ha
      · exact ⟨_, .cons clause children .nil⟩
      · exact ih ha

end Forest

/-! ### Resolution and instances -/

/-- Atoms that have an instance in common match. -/
theorem Atom.matches?_of_subst_eq {τ θ : Substitution} {goal head : Atom}
    (same : goal.subst τ = head.subst θ) : head.matches? goal := by
  rw [← Atom.subst_matches? θ, ← same, Atom.subst_matches?]
  simp [Atom.matches?]

namespace Query

/-- Under bindings that a substitution satisfies, it solves the equations of a
resolution step exactly when the goal and the head have the same instance. -/
theorem unifies_equations_iff {τ : Substitution} {bindings : List Binding}
    (satisfied : τ.Satisfies bindings) {goal head : Atom} (like : head.matches? goal) :
    τ.Unifies (equations (goal.args.map (applyAll bindings)) head) ↔
      goal.subst τ = head.subst τ := by
  simp only [Atom.matches?, Bool.and_eq_true, decide_eq_true_eq] at like
  obtain ⟨predicate, arity⟩ := like
  have lengths : (goal.args.map (applyAll bindings)).length = head.args.length := by
    rw [List.length_map]
    exact arity.symm
  have invisible : (goal.args.map (applyAll bindings)).map (Term.subst τ) =
      goal.args.map (Term.subst τ) := by
    rw [List.map_map]
    exact List.map_congr_left fun t _ => Substitution.subst_applyAll satisfied t
  rw [Substitution.Unifies, equations, ← Equation.map_subst_eq_iff lengths, invisible,
    Atom.subst, Atom.subst, Atom.mk.injEq, and_iff_right predicate.symm]

end Query

namespace Substitution

/-- A substitution that is changed on the copies that a supply hands out for
variables. -/
def withCopies (τ θ : Substitution) (supply : Supply) (xs : List Variable) : Substitution :=
  fun y => if y.serial < supply.next then τ y else (xs[y.serial - supply.next]?.map θ).getD (τ y)

variable {τ θ : Substitution} {supply : Supply} {xs : List Variable}

/-- What was known is replaced as before. -/
theorem withCopies_of_covers {y : Variable} (h : supply.Covers y) :
    τ.withCopies θ supply xs y = τ y :=
  if_pos h

/-- The copy of a variable is replaced as the clause has it. -/
theorem withCopies_copy {x : Variable} (hx : x ∈ xs) :
    τ.withCopies θ supply xs (supply.copy xs x) = θ x := by
  have beyond : ¬ (supply.copy xs x).serial < supply.next := supply.not_covers_copy xs x
  have index : xs[(supply.copy xs x).serial - supply.next]? = some x := by
    simp [Supply.copy, List.getElem?_idxOf hx]
  rw [withCopies, if_neg beyond, index]
  rfl

end Substitution

namespace Node

/-- A substitution does to what is known at a node what `τ` does, and to the
copy of a clause what `θ` does to the clause. -/
structure Joins (n : Node) (c : Clause) (τ θ η : Substitution) : Prop where
  known : ∀ x, n.supply.Covers x → η x = τ x
  copied : ∀ x ∈ c.vars, η (n.supply.copy c.vars x) = θ x

variable {n : Node} {c : Clause} {τ θ η : Substitution}

/-- Any two substitutions are joined by a third one, since the copy is
fresh. -/
theorem joins_withCopies (n : Node) (c : Clause) (τ θ : Substitution) :
    n.Joins c τ θ (τ.withCopies θ n.supply c.vars) where
  known _ hx := Substitution.withCopies_of_covers hx
  copied _ hx := Substitution.withCopies_copy hx

/-- Every substitution joins itself with what it does to the copy. -/
theorem joins_self (n : Node) (c : Clause) (η : Substitution) :
    n.Joins c η (fun x => η (n.supply.copy c.vars x)) η :=
  ⟨fun _ _ => rfl, fun _ _ => rfl⟩

namespace Joins

/-- A goal of the node sees only what was known. -/
theorem subst_goal {base : Supply} (h : n.Joins c τ θ η) (covered : Covered base n) {a : Atom}
    (ha : a ∈ n.proof.goals) : a.subst η = a.subst τ :=
  Atom.subst_congr fun x hx => h.known x (covered.covers x (.inl ⟨a, ha, hx⟩))

/-- The bindings of the node are satisfied by what does the same to what was
known. -/
theorem satisfies_iff {base : Supply} (h : n.Joins c τ θ η) (covered : Covered base n) :
    η.Satisfies n.proof.bindings ↔ τ.Satisfies n.proof.bindings := by
  refine forall₂_congr fun b hb => ?_
  have term : b.term.subst η = b.term.subst τ :=
    Term.subst_congr fun x hx => h.known x (covered.covers x (.inr ⟨b, hb, .inr hx⟩))
  rw [h.known b.var (covered.covers b.var (.inr ⟨b, hb, .inl rfl⟩)), term]

/-- A part of the copied clause becomes what it is in the instance of the
clause. -/
theorem subst_copy (h : n.Joins c τ θ η) {a : Atom} (part : ∀ y, a.Mentions y → y ∈ c.vars) :
    (a.rename (n.supply.copy c.vars)).subst η = a.subst θ := by
  rw [Atom.rename, Atom.subst_subst]
  exact Atom.subst_congr fun x hx => h.copied x (part x hx)

/-- The head becomes that of the instance. -/
theorem subst_head (h : n.Joins c τ θ η) :
    (c.head.rename (n.supply.copy c.vars)).subst η = c.head.subst θ :=
  h.subst_copy fun _ hy => Clause.mem_vars.mpr (.inl hy)

/-- An atom of the body becomes that of the instance. -/
theorem subst_body (h : n.Joins c τ θ η) {a : Atom} (ha : a ∈ c.body) :
    (a.rename (n.supply.copy c.vars)).subst η = a.subst θ :=
  h.subst_copy fun _ hy => Clause.mem_vars.mpr (.inr ⟨a, ha, hy⟩)

/-- The body becomes that of the instance. -/
theorem map_subst_body (h : n.Joins c τ θ η) :
    (c.body.map (Atom.rename (n.supply.copy c.vars))).map (Atom.subst η) =
      c.body.map (Atom.subst θ) := by
  rw [List.map_map]
  exact List.map_congr_left fun _ ha => h.subst_body ha

/-- The equations of a resolution step are solved exactly if the goal and the
head have the same instance. -/
theorem unifies_iff {base : Supply} (h : n.Joins c τ θ η) (covered : Covered base n)
    (satisfied : τ.Satisfies n.proof.bindings) {goal : Atom} (hg : goal ∈ n.proof.goals)
    (like : c.head.matches? goal) :
    η.Unifies (Query.equations (goal.args.map (applyAll n.proof.bindings))
      (c.head.rename (n.supply.copy c.vars))) ↔ goal.subst τ = c.head.subst θ := by
  have like_copy : (c.head.rename (n.supply.copy c.vars)).matches? goal := by
    rwa [Atom.rename, Atom.subst_matches?]
  rw [Query.unifies_equations_iff ((h.satisfies_iff covered).mpr satisfied) like_copy,
    h.subst_head, h.subst_goal covered hg]

end Joins

end Node

end Resolvent
