/-
# Renaming of variables

An injective renaming of variables carries every run of unification over into a
run that makes the same moves, because two terms are equal exactly when their
renamed copies are. What a run makes of its equations is therefore the same up
to the renaming, be it a solution, a clash or no end at all.
-/

import Resolvent.Proofs.Unification.SolvedForm

namespace Resolvent

variable {π : Variable → Variable}

namespace Term

/-- The term with every variable replaced by another one. -/
def rename (π : Variable → Variable) (t : Term) : Term :=
  t.subst fun x => .var (π x)

@[simp] theorem rename_var (x : Variable) : (Term.var x).rename π = .var (π x) := rfl

@[simp] theorem rename_const (c : Constant) : (Term.const c).rename π = .const c := rfl

/-- Only the leaves of an application are renamed, not its functor. -/
@[simp] theorem rename_app (f : Functor) (args : List Term) :
    (Term.app f args).rename π = .app f (args.map (rename π)) :=
  subst_app _ f args

/-- A term sees no more of a renaming than its own variables. -/
theorem rename_congr {π' : Variable → Variable} {t : Term} (agree : ∀ x ∈ t.vars, π x = π' x) :
    t.rename π = t.rename π' :=
  subst_congr fun x hx => by rw [agree x hx]

/-- A renamed term has the new names of the variables that it had. -/
theorem mem_vars_rename {y : Variable} {t : Term} :
    y ∈ (t.rename π).vars ↔ ∃ x ∈ t.vars, y = π x := by
  simp [rename, mem_vars_subst]

/-- There is nothing to rename in a ground term, and no ground term comes of
another one. -/
@[simp] theorem isGround_rename {t : Term} : (t.rename π).isGround ↔ t.isGround := by
  simp only [isGround_iff, mem_vars_rename]
  constructor
  · exact fun absent x hx => absent (π x) ⟨x, hx, rfl⟩
  · rintro absent _ ⟨x, hx, rfl⟩
    exact absent x hx

/-- A ground term has nothing to rename. -/
theorem rename_eq_self {t : Term} (ground : t.isGround) : t.rename π = t :=
  subst_eq_self ground _

/-- To substitute for the new names is to substitute for the old ones what
stands for their new names. -/
theorem subst_rename (θ : Substitution) (t : Term) :
    (t.rename π).subst θ = t.subst fun x => θ (π x) :=
  subst_subst _ θ t

/-- Different terms have different copies: the renaming can be undone. -/
theorem rename_injective (injective : Function.Injective π) :
    Function.Injective (rename π) := by
  have : Nonempty Variable := ⟨⟨0, ""⟩⟩
  obtain ⟨back, undo⟩ := injective.hasLeftInverse
  refine Function.LeftInverse.injective (g := rename back) fun t => ?_
  calc
    (t.rename π).rename back = t.subst fun x => .var (back (π x)) := subst_rename _ t
    _ = t.subst .var := by simp only [undo _]
    _ = t := subst_id t

end Term

namespace Binding

/-- A binding between the renamed variable and the renamed term. -/
def rename (π : Variable → Variable) (b : Binding) : Binding :=
  ⟨π b.var, b.term.rename π⟩

/-- Names that are different stay different, so that a binding finds the same
places. -/
theorem rename_apply (injective : Function.Injective π) (b : Binding) (t : Term) :
    (b.apply t).rename π = (b.rename π).apply (t.rename π) := by
  rw [apply_eq_subst, apply_eq_subst, Term.rename, Term.subst_subst, Term.subst_rename]
  refine Term.subst_congr fun x _ => ?_
  by_cases bound : x = b.var
  · simp [bound, rename, Term.rename]
  · have unbound : π x ≠ π b.var := fun same => bound (injective same)
    simp [bound, unbound, rename]

/-- A binding is cyclic under any names that keep its variables apart. -/
theorem isCyclic_rename (injective : Function.Injective π) {b : Binding} :
    (b.rename π).IsCyclic ↔ b.IsCyclic := by
  rw [IsCyclic, rename, Term.mem_vars_rename]
  constructor
  · rintro ⟨x, hx, same⟩
    rwa [IsCyclic, injective same]
  · exact fun cycle => ⟨b.var, cycle, rfl⟩

end Binding

/-- The same holds for bindings that are applied in sequence. -/
theorem rename_applyAll (injective : Function.Injective π) (bindings : List Binding) (t : Term) :
    (applyAll bindings t).rename π = applyAll (bindings.map (.rename π)) (t.rename π) := by
  induction bindings generalizing t with
  | nil => rfl
  | cons b bs ih => rw [applyAll_cons, List.map_cons, applyAll_cons, ih, b.rename_apply injective]

namespace Equation

/-- An equation between the renamed sides. -/
def rename (π : Variable → Variable) (e : Equation) : Equation :=
  ⟨e.left.rename π, e.right.rename π⟩

/-- The move that a renamed equation calls for. -/
def Move.rename (π : Variable → Variable) : Move → Move
  | .discard => .discard
  | .bind b => .bind (b.rename π)
  | .split parts => .split (parts.map (Equation.rename π))
  | .clash => .clash

/-- What an equation asks for does not depend on what the variables are
called. -/
theorem move_rename (injective : Function.Injective π) (e : Equation) :
    (e.rename π).move = e.move.rename π := by
  have copies {s t : Term} : s.rename π = t.rename π ↔ s = t :=
    (Term.rename_injective injective).eq_iff
  refine Calls.move_eq ?_
  have calls := e.move_calls
  generalize e.move = m at calls
  cases calls with
  | discard t => exact .discard _
  | @bindLeft x t different => exact .bindLeft fun same => different (copies.mp same)
  | @bindRight y t rigid =>
      refine .bindRight fun z same => ?_
      cases t with
      | var x => exact rigid x rfl
      | const c => cases same
      | app f ss => simp at same
  | @split f ss ts unequal same =>
      have parts : (List.zipWith Equation.mk ss ts).map (Equation.rename π) =
          List.zipWith Equation.mk (ss.map (.rename π)) (ts.map (.rename π)) := by
        rw [List.map_zipWith, List.zipWith_map]
        rfl
      rw [Move.rename, parts, rename, Term.rename_app, Term.rename_app]
      refine .split (fun images => unequal ?_) (by simpa using same)
      exact (List.map_injective_iff.mpr (Term.rename_injective injective)) images
  | constants different => exact .constants different
  | constApp c g ts => simpa [rename, Move.rename] using Calls.constApp c g (ts.map (.rename π))
  | appConst f ss d => simpa [rename, Move.rename] using Calls.appConst f (ss.map (.rename π)) d
  | @functors f g ss ts unlike =>
      have lengths : ¬ (f = g ∧ (ss.map (Term.rename π)).length =
          (ts.map (Term.rename π)).length) := by
        simpa using unlike
      simpa [rename, Move.rename] using Calls.functors lengths

/-- A binding is put into a renamed equation as it was put into the old one. -/
theorem rename_instantiate (injective : Function.Injective π) (b : Binding) (e : Equation) :
    (e.instantiate b).rename π = (e.rename π).instantiate (b.rename π) := by
  simp only [instantiate, rename, b.rename_apply injective]

end Equation

namespace Verdict

/-- A verdict with its bindings renamed. -/
def rename (π : Variable → Variable) : Verdict → Verdict
  | .solved bindings => .solved (bindings.map (.rename π))
  | .clash => .clash
  | .unfinished => .unfinished

/-- A clash is not of the variables' making, so it was there before the
renaming. -/
theorem eq_clash_of_rename {v : Verdict} (h : v.rename π = .clash) : v = .clash := by
  cases v with
  | clash => rfl
  | solved bindings => cases h
  | unfinished => cases h

/-- Bindings that are found under new names are the old ones renamed. -/
theorem exists_solved_of_rename {v : Verdict} {made : List Binding}
    (h : v.rename π = .solved made) :
    ∃ bindings, v = .solved bindings ∧ made = bindings.map (.rename π) := by
  cases v with
  | solved bindings =>
      cases h
      exact ⟨bindings, rfl, rfl⟩
  | clash => cases h
  | unfinished => cases h

/-- It makes no difference whether the first binding is renamed before or after
the others are found. -/
theorem rename_after (b : Binding) (v : Verdict) :
    (v.after b).rename π = (v.rename π).after (b.rename π) := by
  cases v <;> rfl

end Verdict

/-- Unification of renamed equations ends as that of the equations does. -/
theorem unify_rename (injective : Function.Injective π) (moves : Nat)
    (equations : List Equation) :
    unify moves (equations.map (.rename π)) = (unify moves equations).rename π := by
  induction moves generalizing equations with
  | zero => cases equations <;> rfl
  | succ moves ih =>
      cases equations with
      | nil => rfl
      | cons e rest =>
          rw [List.map_cons, unify, unify, e.move_rename injective]
          cases e.move with
          | discard => exact ih rest
          | bind b =>
              have waiting : (rest.map (Equation.rename π)).map (·.instantiate (b.rename π)) =
                  (rest.map (·.instantiate b)).map (Equation.rename π) := by
                simp [Equation.rename_instantiate injective]
              simp only [Equation.Move.rename]
              rw [waiting, ih, Verdict.rename_after]
          | split parts =>
              simp only [Equation.Move.rename]
              rw [← List.map_append, ih]
          | clash => rfl

end Resolvent
