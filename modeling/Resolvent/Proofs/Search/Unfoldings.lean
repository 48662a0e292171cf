/-
# Unfoldings

What a search does to its goals can be followed without unification, once a
substitution is given that satisfies the bindings in the end. The instances of
the goals are then unfolded one after another: the first is the head of an
instance of a clause, and gives way to the body, which comes behind the others.
An unfolding with nothing left over is a forest whose nodes are listed in the
order in which the search comes to them.

The clauses of an unfolding say which path of the search tree it is. So if the
instances of the goals can be unfolded in one way only then an answer is given
only once, which no soundness or completeness of the search would say.
-/

import Resolvent.Proofs.Search.ProofTrees
import Resolvent.Proofs.Search.Prospects

namespace Resolvent

variable {store : Store}

/-- An instance of a clause of the store concludes an atom from a list of
atoms. -/
def Store.Infers (store : Store) (c : Clause) (a : Atom) (body : List Atom) : Prop :=
  c ∈ store.clauses ∧ ∃ θ, a = c.head.subst θ ∧ body = c.body.map (Atom.subst θ)

/-- A list of atoms has proof trees. -/
def Store.Proves (store : Store) (atoms : List Atom) : Prop :=
  ∃ n, Forest store atoms n

namespace Forest

variable {c : Clause} {a : Atom} {atoms body others : List Atom} {m n : Nat}

/-- An atom that is inferred from proved ones is proved with one node more. -/
theorem infer (infers : store.Infers c a body) (children : Forest store body m)
    (rest : Forest store others n) : Forest store (a :: others) (m + 1 + n) := by
  obtain ⟨clause, θ, rfl, rfl⟩ := infers
  exact .cons clause children rest

/-- The root of the first tree is an inference. -/
theorem exists_infers (h : Forest store (a :: others) n) :
    ∃ c body below beside, store.Infers c a body ∧ Forest store body below ∧
      Forest store others beside ∧ n = below + 1 + beside := by
  obtain ⟨c, θ, below, beside, clause, same, children, rest, count⟩ := h.exists_of_cons
  exact ⟨c, _, below, beside, ⟨clause, θ, same, rfl⟩, children, rest, count⟩

/-- A single tree is an inference from what has trees with one node less. -/
theorem singleton_iff :
    Forest store [a] n ↔ ∃ c body m, store.Infers c a body ∧ Forest store body m ∧ n = m + 1 := by
  constructor
  · intro h
    obtain ⟨c, body, below, beside, infers, children, rest, count⟩ := h.exists_infers
    cases rest
    exact ⟨c, body, below, infers, children, count⟩
  · rintro ⟨c, body, m, infers, children, rfl⟩
    exact infer infers children .nil

/-- The first tree stands by itself. -/
theorem cons_iff : Forest store (a :: others) n ↔
    ∃ k l, Forest store [a] k ∧ Forest store others l ∧ n = k + l := by
  constructor
  · intro h
    have parts : Forest store ([a] ++ others) n := h
    exact parts.exists_of_append
  · rintro ⟨k, l, first, rest, rfl⟩
    exact first.append rest

end Forest

/-- One atom after another is unfolded, the first one first, by the clauses
that are listed. What is left over is the last list. -/
inductive Unfolds (store : Store) : List Clause → List Atom → List Atom → Prop
  | done (atoms : List Atom) : Unfolds store [] atoms atoms
  | step {c : Clause} {cs : List Clause} {a : Atom} {body others left : List Atom}
      (infers : store.Infers c a body) (later : Unfolds store cs (others ++ body) left) :
      Unfolds store (c :: cs) (a :: others) left

namespace Unfolds

variable {c : Clause} {cs ds : List Clause} {a : Atom} {atoms body others left : List Atom}

/-- An unfolding has not begun, or the first atom has been inferred from
something. -/
theorem exists_of_cons (h : Unfolds store cs (a :: others) left) :
    cs = [] ∨ ∃ c ds body, cs = c :: ds ∧ store.Infers c a body ∧
      Unfolds store ds (others ++ body) left := by
  cases h with
  | done => exact .inl rfl
  | step infers later => exact .inr ⟨_, _, _, rfl, infers, later⟩

/-- An unfolding is continued at its end. -/
theorem snoc (h : Unfolds store cs atoms (a :: others)) (infers : store.Infers c a body) :
    Unfolds store (cs ++ [c]) atoms (others ++ body) := by
  generalize whole : a :: others = between at h
  induction h with
  | done =>
      subst whole
      exact .step infers (.done _)
  | step first _ ih => exact .step first (ih whole)

/-- What is unfolded completely has a tree for each atom, and a node for each
clause. -/
theorem forest (h : Unfolds store cs atoms []) : Forest store atoms cs.length := by
  generalize complete : [] = left at h
  induction h with
  | done =>
      subst complete
      exact .nil
  | @step c cs a body others left infers _ ih =>
      obtain ⟨k, l, rest, children, count⟩ := (ih complete).exists_of_append
      have nodes : (c :: cs).length = l + 1 + k := by
        rw [List.length_cons, count]
        omega
      rw [nodes]
      exact .infer infers children rest

/-- A complete unfolding of several atoms proves each part of the list. -/
theorem proves_append (h : Unfolds store cs (atoms ++ others) []) :
    store.Proves atoms ∧ store.Proves others := by
  obtain ⟨k, l, first, second, _⟩ := h.forest.exists_of_append
  exact ⟨⟨k, first⟩, l, second⟩

end Unfolds

/-- A forest can be unfolded, clause by clause. -/
theorem Forest.exists_unfolds {atoms : List Atom} {n : Nat} (h : Forest store atoms n) :
    ∃ cs, cs.length = n ∧ Unfolds store cs atoms [] := by
  induction n generalizing atoms with
  | zero =>
      cases atoms with
      | nil => exact ⟨[], rfl, .done []⟩
      | cons a others =>
          obtain ⟨_, _, _, _, _, _, _, count⟩ := h.exists_infers
          omega
  | succ n ih =>
      cases atoms with
      | nil => cases h
      | cons a others =>
          obtain ⟨c, body, below, beside, infers, children, rest, count⟩ := h.exists_infers
          obtain ⟨cs, length, later⟩ := ih (by
            rw [show n = beside + below by omega]
            exact rest.append children)
          exact ⟨c :: cs, by rw [List.length_cons, length], .step infers later⟩

/-! ### Unfoldings in the search tree -/

namespace Node

variable {goals : List Atom} {base : Supply} {n : Node}

/-- The way to a node, seen under a substitution that satisfies the bindings of
the node. -/
theorem exists_unfolds (known : base.Knows store goals) {d : Nat}
    (there : n ∈ level store goals base d) {τ : Substitution}
    (satisfied : τ.Satisfies n.proof.bindings) :
    ∃ cs, cs.length = d ∧
      Unfolds store cs (goals.map (Atom.subst τ)) (n.proof.goals.map (Atom.subst τ)) := by
  induction d generalizing n with
  | zero =>
      rw [List.mem_singleton.mp there]
      exact ⟨[], rfl, .done _⟩
  | succ d ih =>
      obtain ⟨parent, above, child⟩ := List.mem_flatMap.mp there
      have covered := covered_of_mem_level known d parent above
      obtain ⟨goal, deferred, c, made, first, candidate, solved, rfl⟩ :=
        (covered.resolves_iff known).mp (mem_successors.mp child)
      obtain ⟨old, new⟩ := Substitution.satisfies_append.mp satisfied
      obtain ⟨cs, length, before⟩ := ih above old
      obtain ⟨clause, like⟩ := Store.mem_candidates.mp candidate
      have joins := parent.joins_self c τ
      have resolved := (joins.unifies_iff covered old (by simp [first]) like).mp
        ((solved.unifies_iff τ).mpr new)
      rw [first, List.map_cons] at before
      refine ⟨cs ++ [c], by rw [List.length_append, length]; rfl, ?_⟩
      rw [List.map_append, joins.map_subst_body]
      exact before.snoc ⟨clause, _, resolved, rfl⟩

end Node

/-! ### The only way to unfold -/

/-- Whatever is proved of a kind of atoms is inferred in one way only, and from
atoms of that kind. -/
def Unambiguous (store : Store) (P : Atom → Prop) : Prop :=
  ∀ a, P a → ∀ c body c' body', store.Infers c a body → store.Infers c' a body' →
    store.Proves body → store.Proves body' → c = c' ∧ body = body' ∧ ∀ b ∈ body, P b

namespace Unambiguous

variable {P : Atom → Prop} {cs cs' : List Clause} {atoms : List Atom}

/-- Where each atom is inferred in one way at most, there is at most one way to
unfold several. -/
theorem unfolds_unique (h : Unambiguous store P) (first : Unfolds store cs atoms [])
    (second : Unfolds store cs' atoms []) (kind : ∀ a ∈ atoms, P a) : cs = cs' := by
  generalize complete : [] = left at first
  induction first generalizing cs' with
  | done =>
      subst complete
      cases second
      rfl
  | @step c cs a body others left infers later ih =>
      subst complete
      obtain ⟨here, rest⟩ := List.forall_mem_cons.mp kind
      cases second with
      | @step c' cs' _ body' _ _ infers' later' =>
          obtain ⟨rfl, rfl, below⟩ := h a here c body c' body' infers infers'
            later.proves_append.2 later'.proves_append.2
          rw [ih later' (List.forall_mem_append.mpr ⟨rest, below⟩) rfl]

end Unambiguous

/-! ### Ways to an end -/

namespace Prospect

variable {p : Prospect}

/-- A sum over different items is no more than one if at most one of them
counts, and once. -/
theorem sum_map_le_one {α : Type} {f : α → Nat} {xs : List α} (distinct : xs.Nodup)
    (one : ∀ x ∈ xs, f x ≤ 1) (alone : ∀ x ∈ xs, ∀ y ∈ xs, f x ≠ 0 → f y ≠ 0 → x = y) :
    (xs.map f).sum ≤ 1 := by
  induction xs with
  | nil => exact Nat.zero_le 1
  | cons x xs ih =>
      obtain ⟨new, distinct⟩ := List.nodup_cons.mp distinct
      rw [List.map_cons, List.sum_cons]
      by_cases counts : f x = 0
      · rw [counts, Nat.zero_add]
        exact ih distinct (fun y hy => one y (List.mem_cons_of_mem x hy))
          fun y hy z hz => alone y (List.mem_cons_of_mem x hy) z (List.mem_cons_of_mem x hz)
      · have others : (xs.map f).sum = 0 := by
          refine List.sum_eq_zero fun n hn => ?_
          obtain ⟨y, hy, rfl⟩ := List.mem_map.mp hn
          by_contra too
          have same := alone x List.mem_cons_self y (List.mem_cons_of_mem x hy) counts too
          exact new (same ▸ hy)
        rw [others]
        exact one x List.mem_cons_self

/-- What a solution makes of the goals that are left when a goal has been
resolved is what the goals unfold to. -/
theorem unfolds_of_resolve {goal : p.Solution → Atom} {deferred : List (p.Solution → Atom)}
    (first : p.goals = goal :: deferred) {c : Clause} (clause : c ∈ store.clauses)
    (s : (p.resolve goal deferred c).Solution) {cs : List Clause}
    (later : Unfolds store cs ((p.resolve goal deferred c).goals.map (· s)) []) :
    Unfolds store (c :: cs) (p.goals.map (· s.1.1)) [] := by
  have same : (p.resolve goal deferred c).goals.map (· s) =
      deferred.map (· s.1.1) ++ c.body.map (Atom.subst s.1.2) := by
    simp [resolve, Function.comp_def]
  rw [same] at later
  rw [first, List.map_cons]
  exact .step ⟨clause, s.1.2, s.2, rfl⟩ later

/-- A way to an end is an unfolding under some solution. -/
theorem exists_unfolds_of_ways_ne_zero {d : Nat} (some_way : p.ways store d ≠ 0) :
    ∃ (s : p.Solution) (cs : List Clause), cs.length = d ∧
      Unfolds store cs (p.goals.map (· s)) [] := by
  induction d generalizing p with
  | zero =>
      have ends : p.Ends := by
        by_contra still
        exact some_way (if_neg still)
      obtain ⟨s⟩ := ends.solvable
      rw [ends.goals]
      exact ⟨s, [], rfl, .done []⟩
  | succ d ih =>
      cases first : p.goals with
      | nil => exact absurd (ways_succ_of_nil d first) some_way
      | cons goal deferred =>
          rw [ways_succ_of_cons d first] at some_way
          obtain ⟨c, clause, counts⟩ : ∃ c ∈ store.clauses,
              (p.resolve goal deferred c).ways store d ≠ 0 := by
            by_contra none
            refine some_way (List.sum_eq_zero fun n hn => ?_)
            obtain ⟨c, clause, rfl⟩ := List.mem_map.mp hn
            by_contra counts
            exact none ⟨c, clause, counts⟩
          obtain ⟨s, cs, length, later⟩ := ih counts
          have whole := unfolds_of_resolve first clause s later
          rw [first] at whole
          exact ⟨s.1.1, c :: cs, by rw [List.length_cons, length], whole⟩

/-- If all unfoldings of some length are by the same clauses then there is at
most one way. -/
theorem ways_le_one {d : Nat} (distinct : store.clauses.Nodup)
    (unique : ∀ (s s' : p.Solution) (cs cs' : List Clause),
      Unfolds store cs (p.goals.map (· s)) [] → Unfolds store cs' (p.goals.map (· s')) [] →
      cs.length = d → cs'.length = d → cs = cs') :
    p.ways store d ≤ 1 := by
  induction d generalizing p with
  | zero =>
      rw [ways]
      split <;> omega
  | succ d ih =>
      cases first : p.goals with
      | nil => simp [ways_succ_of_nil d first]
      | cons goal deferred =>
          rw [ways_succ_of_cons d first]
          refine sum_map_le_one distinct (fun c clause => ih ?_) fun c clause c' clause' => ?_
          · intro s s' cs cs' unfolds unfolds' length length'
            have same := unique _ _ _ _ (unfolds_of_resolve first clause s unfolds)
              (unfolds_of_resolve first clause s' unfolds') (by simpa using length)
              (by simpa using length')
            exact (List.cons.inj same).2
          · intro counts counts'
            obtain ⟨s, cs, length, unfolds⟩ := exists_unfolds_of_ways_ne_zero counts
            obtain ⟨s', cs', length', unfolds'⟩ := exists_unfolds_of_ways_ne_zero counts'
            have same := unique _ _ _ _ (unfolds_of_resolve first clause s unfolds)
              (unfolds_of_resolve first clause' s' unfolds') (by simpa using length)
              (by simpa using length')
            exact (List.cons.inj same).1

end Prospect

end Resolvent
