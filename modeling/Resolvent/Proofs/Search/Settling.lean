/-
# Goals that settle

A search resolves its goals in turn, whether or not enough is known of them. A
goal may then be unfolded again and again only because the goal that would tell
when to stop is behind it in the list, and no number that belongs to the goals
gets smaller with every step.

Goals settle if there is a good order in which to unfold them: the next goal
can be chosen so that, whatever is inferred from it, what is left settles in
one step less. The search does not follow this order, but it does not miss it
either. Steps with other goals do no harm to a choice, because the choice is
about instances and these do not change any more. And as every goal comes to
the front of the list, the chosen one does so after no more steps than there
are goals. So the search tree of goals that settle has a last level, be it far
below the number of chosen steps.
-/

import Resolvent.Proofs.Search.Unfoldings

namespace Resolvent

/-- The atoms are used up within a number of choices. An atom is chosen, and
what is left settles whatever it is inferred from. -/
inductive Settles (store : Store) : Nat → Multiset Atom → Prop
  | none (n : Nat) : Settles store n 0
  | choose {n : Nat} (a : Atom) (rest : Multiset Atom)
      (each : ∀ c body, store.Infers c a body → Settles store n (rest + (body : Multiset Atom))) :
      Settles store (n + 1) (a ::ₘ rest)

variable {store : Store}

namespace Settles

variable {n : Nat} {c : Clause} {a : Atom} {body : List Atom} {atoms rest : Multiset Atom}

/-- Without a choice there must be nothing to settle. -/
theorem eq_zero (h : Settles store 0 atoms) : atoms = 0 := by
  cases h
  rfl

/-- With a choice there is nothing left, or an atom to be chosen. -/
theorem eq_zero_or_exists (h : Settles store (n + 1) atoms) :
    atoms = 0 ∨ ∃ a rest, atoms = a ::ₘ rest ∧
      ∀ c body, store.Infers c a body → Settles store n (rest + (body : Multiset Atom)) := by
  cases h with
  | none => exact .inl rfl
  | choose a rest each => exact .inr ⟨a, rest, rfl, each⟩

/-- One more choice does not have to be used. -/
theorem succ (h : Settles store n atoms) : Settles store (n + 1) atoms := by
  induction h with
  | none n => exact .none _
  | choose a rest _ ih => exact .choose a rest ih

/-- No further choice has to be used. -/
theorem mono {m : Nat} (h : Settles store n atoms) (le : n ≤ m) : Settles store m atoms := by
  induction le with
  | refl => exact h
  | step _ ih => exact ih.succ

/-- Any atom may be unfolded, not only the chosen one. -/
theorem infer (h : Settles store n (a ::ₘ rest)) (infers : store.Infers c a body) :
    Settles store n (rest + (body : Multiset Atom)) := by
  generalize whole : a ::ₘ rest = atoms at h
  induction h generalizing rest with
  | none n => exact absurd whole (Multiset.cons_ne_zero)
  | @choose n b others each ih =>
      rcases Multiset.cons_eq_cons.mp whole with ⟨rfl, rfl⟩ | ⟨_, shared, rfl, rfl⟩
      · exact (each c body infers).succ
      · rw [Multiset.cons_add]
        refine .choose b _ fun c' body' chosen => ?_
        rw [add_right_comm]
        exact ih c' body' chosen (Multiset.cons_add a shared body').symm

end Settles

/-! ### The first atom in turn -/

/-- The clauses of the store have no more than so many atoms below their
heads. -/
def Store.NarrowerThan (store : Store) (w : Nat) : Prop :=
  ∀ c ∈ store.clauses, c.body.length ≤ w

/-- A store has finitely many clauses, so there is a longest body. -/
theorem Store.exists_narrowerThan (store : Store) : ∃ w, store.NarrowerThan w :=
  ⟨(store.clauses.map fun c => c.body.length).sum,
    fun _ clause => List.single_le_sum (by simp) _ (List.mem_map_of_mem clause)⟩

/-- What is concluded from has no more atoms than the longest body. -/
theorem Store.NarrowerThan.length_le {w : Nat} (narrow : store.NarrowerThan w) {c : Clause}
    {a : Atom} {body : List Atom} (infers : store.Infers c a body) : body.length ≤ w := by
  obtain ⟨clause, θ, _, rfl⟩ := infers
  rw [List.length_map]
  exact narrow c clause

/-- When the atoms before it have been unfolded, an atom has come to the front.
What settles behind it does so still, and the list has not become much
longer. -/
theorem Unfolds.exists_of_chosen {w n : Nat} (narrow : store.NarrowerThan w) {a : Atom}
    {before behind left : List Atom} {cs : List Clause}
    (each : ∀ c body, store.Infers c a body →
      Settles store n ((before ++ behind ++ body : List Atom) : Multiset Atom))
    (unfolds : Unfolds store cs (before ++ a :: behind) left) :
    cs.length ≤ before.length ∨ ∃ ds atoms, cs.length = ds.length + (before.length + 1) ∧
      Unfolds store ds atoms left ∧ Settles store n (atoms : Multiset Atom) ∧
      atoms.length ≤ before.length + behind.length + (before.length + 1) * w := by
  induction before generalizing cs behind with
  | nil =>
      rcases unfolds.exists_of_cons with rfl | ⟨c, ds, body, rfl, infers, later⟩
      · exact .inl (Nat.le_refl _)
      · refine .inr ⟨ds, behind ++ body, rfl, later, each c body infers, ?_⟩
        have few := narrow.length_le infers
        simp only [List.length_append, List.length_nil]
        omega
  | cons b before ih =>
      rw [List.cons_append] at unfolds
      rcases unfolds.exists_of_cons with rfl | ⟨c, ds, body, rfl, infers, later⟩
      · exact .inl (Nat.zero_le _)
      · have few := narrow.length_le infers
        have kept : ∀ c' body', store.Infers c' a body' → Settles store n
            ((before ++ (behind ++ body) ++ body' : List Atom) : Multiset Atom) := by
          intro c' body' chosen
          have settles := each c' body' chosen
          rw [List.cons_append, List.cons_append, ← Multiset.cons_coe] at settles
          have settles := settles.infer infers
          have same : (before ++ behind ++ body' ++ body).Perm
              (before ++ (behind ++ body) ++ body') := by
            rw [← List.append_assoc before, List.append_assoc, List.append_assoc _ body]
            exact List.perm_append_comm.append_left _
          rwa [Multiset.coe_add, Multiset.coe_eq_coe.mpr same] at settles
        rw [List.append_assoc, List.cons_append] at later
        rcases ih kept later with short | ⟨es, atoms, count, later, settles, length⟩
        · exact .inl (Nat.succ_le_succ short)
        · refine .inr ⟨es, atoms, ?_, later, settles, ?_⟩
          · simp only [List.length_cons, count]
            omega
          · rw [List.length_append] at length
            rw [List.length_cons, Nat.succ_mul]
            omega

namespace Settles

variable {n : Nat}

/-- However atoms that settle are unfolded, there is an end to it. -/
theorem exists_bound {w : Nat} (narrow : store.NarrowerThan w) (n l : Nat) :
    ∃ bound, ∀ (cs : List Clause) (atoms left : List Atom), atoms.length ≤ l →
      Settles store n (atoms : Multiset Atom) → Unfolds store cs atoms left →
        cs.length ≤ bound := by
  induction n generalizing l with
  | zero =>
      refine ⟨0, fun cs atoms left _ settles unfolds => ?_⟩
      rw [(Multiset.coe_eq_zero _).mp settles.eq_zero] at unfolds
      cases unfolds
      exact Nat.le_refl 0
  | succ n ih =>
      obtain ⟨bound, bounded⟩ := ih (l + l * w)
      refine ⟨bound + l, fun cs atoms left length settles unfolds => ?_⟩
      rcases settles.eq_zero_or_exists with none | ⟨a, rest, whole, each⟩
      · rw [(Multiset.coe_eq_zero _).mp none] at unfolds
        cases unfolds
        exact Nat.zero_le _
      · have chosen : a ∈ atoms := by
          rw [← Multiset.mem_coe, whole]
          exact Multiset.mem_cons_self a rest
        obtain ⟨before, behind, rfl⟩ := List.append_of_mem chosen
        have others : rest = ((before ++ behind : List Atom) : Multiset Atom) := by
          rw [← Multiset.cons_inj_right a, ← whole, Multiset.cons_coe, Multiset.coe_eq_coe]
          exact List.perm_middle
        rw [List.length_append, List.length_cons] at length
        have before_le : (before.length + 1) * w ≤ l * w := Nat.mul_le_mul_right w (by omega)
        rcases unfolds.exists_of_chosen narrow fun c body infers => by
            rw [← Multiset.coe_add, ← others]
            exact each c body infers with short | ⟨ds, more, count, later, settles, few⟩
        · omega
        · have := bounded ds more left (by omega) settles later
          omega

end Settles

/-- A search for goals that settle, whatever is put in place of their
variables, has a last level. Every node is asked to have a solution, which it
has if its bindings are without cycles. -/
theorem Node.exists_level_eq_nil {goals : List Atom} {base : Supply}
    (known : base.Knows store goals)
    (solvable : ∀ d, ∀ n ∈ level store goals base d,
      ∃ τ : Substitution, τ.Satisfies n.proof.bindings)
    {n : Nat} (settles : ∀ τ, Settles store n (goals.map (Atom.subst τ) : List Atom)) :
    ∃ d, level store goals base d = [] := by
  obtain ⟨w, narrow⟩ := store.exists_narrowerThan
  obtain ⟨bound, bounded⟩ := Settles.exists_bound narrow n goals.length
  refine ⟨bound + 1, List.eq_nil_iff_forall_not_mem.mpr fun m there => ?_⟩
  obtain ⟨τ, satisfied⟩ := solvable _ m there
  obtain ⟨cs, length, unfolds⟩ := exists_unfolds known there satisfied
  have := bounded cs _ _ (by rw [List.length_map]) (settles τ) unfolds
  omega

end Resolvent
