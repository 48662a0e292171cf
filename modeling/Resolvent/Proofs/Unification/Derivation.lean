/-
# Unification without a bound on its moves

`unify` is given a number of moves, because a run need not end. Here a run that
ends well is described without any such number, as a derivation of the bindings
from the equations. `Yields.iff_of_finished` says that both are the same, so
that everything about successful unification can be proved by induction on the
derivation.

What a single equation calls for is described once, by `Equation.move_calls`.
The lemmas behind it say what each move means for the solutions of the
equation; later proofs use these and do not open the definition of a move.
-/

import Mathlib.Data.List.Basic
import Resolvent.Proofs.Terms.Substitution

namespace Resolvent

namespace Equation

/-- A substitution solves an equation when it makes the two sides the same. -/
def Holds (τ : Substitution) (e : Equation) : Prop :=
  e.left.subst τ = e.right.subst τ

/-- Whether a variable occurs on one of the sides. -/
def Mentions (e : Equation) (x : Variable) : Prop :=
  x ∈ e.left.vars ∨ x ∈ e.right.vars

/-- An equation between arguments has one on each side. -/
theorem mem_zipWith {ss ts : List Term} {p : Equation}
    (hp : p ∈ List.zipWith Equation.mk ss ts) : p.left ∈ ss ∧ p.right ∈ ts := by
  have pairs : List.zipWith Equation.mk ss ts = (ss.zip ts).map fun q => ⟨q.1, q.2⟩ := by
    rw [List.zip, List.map_zipWith]
  rw [pairs] at hp
  obtain ⟨⟨s, t⟩, pair, rfl⟩ := List.mem_map.mp hp
  exact List.of_mem_zip pair

/-- The shape of the sides of an equation for each of the moves. -/
inductive Calls : Equation → Move → Prop
  | discard (t : Term) : Calls ⟨t, t⟩ .discard
  | bindLeft {x : Variable} {t : Term} (different : t ≠ .var x) :
      Calls ⟨.var x, t⟩ (.bind ⟨x, t⟩)
  | bindRight {y : Variable} {t : Term} (rigid : ∀ x, t ≠ .var x) :
      Calls ⟨t, .var y⟩ (.bind ⟨y, t⟩)
  | split {f : Functor} {ss ts : List Term} (unequal : ss ≠ ts) (same : ss.length = ts.length) :
      Calls ⟨.app f ss, .app f ts⟩ (.split (List.zipWith Equation.mk ss ts))
  | constants {c d : Constant} (different : c ≠ d) : Calls ⟨.const c, .const d⟩ .clash
  | constApp (c : Constant) (g : Functor) (ts : List Term) : Calls ⟨.const c, .app g ts⟩ .clash
  | appConst (f : Functor) (ss : List Term) (d : Constant) : Calls ⟨.app f ss, .const d⟩ .clash
  | functors {f g : Functor} {ss ts : List Term} (unlike : ¬ (f = g ∧ ss.length = ts.length)) :
      Calls ⟨.app f ss, .app g ts⟩ .clash

/-- The shapes are those for which the moves are made. -/
theorem Calls.move_eq {e : Equation} {m : Move} (h : e.Calls m) : e.move = m := by
  cases h with
  | discard t => simp [move]
  | bindLeft different => simp [move, Ne.symm different]
  | @bindRight y t rigid =>
      cases t with
      | var x => exact absurd rfl (rigid x)
      | const c => simp [move]
      | app f ss => simp [move]
  | split unequal same => simp [move, unequal, same]
  | constants different => simp [move, different]
  | constApp c g ts => simp [move]
  | appConst f ss d => simp [move]
  | functors unlike =>
      have unequal : ∀ f g ss ts, ¬ (f = g ∧ List.length ss = List.length ts) →
          Term.app f ss ≠ Term.app g ts := by
        rintro _ _ _ _ unlike ⟨⟩
        exact unlike ⟨rfl, rfl⟩
      simp only [move, unequal _ _ _ _ unlike, unlike, if_false]

/-- An equation has the shape that its move requires. -/
theorem move_calls (e : Equation) : e.Calls e.move := by
  suffices found : ∃ m, e.Calls m by
    obtain ⟨m, calls⟩ := found
    rwa [calls.move_eq]
  obtain ⟨left, right⟩ := e
  by_cases equal : left = right
  · subst equal
    exact ⟨_, .discard left⟩
  · cases left with
    | var x => exact ⟨_, .bindLeft (Ne.symm equal)⟩
    | const c =>
        cases right with
        | var y => exact ⟨_, .bindRight (by simp)⟩
        | const d => exact ⟨_, .constants (by simpa using equal)⟩
        | app g ts => exact ⟨_, .constApp c g ts⟩
    | app f ss =>
        cases right with
        | var y => exact ⟨_, .bindRight (by simp)⟩
        | const d => exact ⟨_, .appConst f ss d⟩
        | app g ts =>
            by_cases like : f = g ∧ ss.length = ts.length
            · obtain ⟨rfl, same⟩ := like
              exact ⟨_, .split (by simpa using equal) same⟩
            · exact ⟨_, .functors like⟩

variable {e : Equation} {b : Binding} {parts : List Equation} {τ : Substitution}

/-- An equation that is discarded holds anyway. -/
theorem holds_of_discard (h : e.move = .discard) : e.Holds τ := by
  have calls := e.move_calls
  rw [h] at calls
  cases calls
  rfl

/-- Binding a variable solves the equation, and nothing less does. -/
theorem holds_iff_of_bind (h : e.move = .bind b) : e.Holds τ ↔ τ b.var = b.term.subst τ := by
  have calls := e.move_calls
  rw [h] at calls
  cases calls with
  | bindLeft => rfl
  | bindRight => exact eq_comm

/-- An equation that is a binding mentions what the binding does. -/
theorem mentions_iff_of_bind (h : e.move = .bind b) {x : Variable} :
    e.Mentions x ↔ x = b.var ∨ x ∈ b.term.vars := by
  have calls := e.move_calls
  rw [h] at calls
  cases calls with
  | bindLeft => simp [Mentions]
  | bindRight => simp [Mentions, or_comm]

/-- Lists of terms agree when the equations between their terms hold. -/
theorem map_subst_eq_iff {ss ts : List Term} (same : ss.length = ts.length) :
    ss.map (Term.subst τ) = ts.map (Term.subst τ) ↔
      ∀ p ∈ List.zipWith Equation.mk ss ts, p.Holds τ := by
  induction ss generalizing ts with
  | nil => cases ts <;> simp_all
  | cons s ss ih =>
      cases ts with
      | nil => simp at same
      | cons t ts =>
          have tails : ss.length = ts.length := by simpa using same
          simp [Holds, ih tails]

/-- An equation that is split holds if its parts do. -/
theorem holds_iff_of_split (h : e.move = .split parts) :
    e.Holds τ ↔ ∀ p ∈ parts, p.Holds τ := by
  have calls := e.move_calls
  rw [h] at calls
  cases calls with
  | split _ same =>
      rw [← map_subst_eq_iff same]
      simp [Holds]

private theorem exists_mentions_zipWith {x : Variable} {ss ts : List Term}
    (same : ss.length = ts.length) :
    (∃ p ∈ List.zipWith Equation.mk ss ts, p.Mentions x) ↔
      (∃ s ∈ ss, x ∈ s.vars) ∨ ∃ t ∈ ts, x ∈ t.vars := by
  induction ss generalizing ts with
  | nil => cases ts <;> simp_all
  | cons s ss ih =>
      cases ts with
      | nil => simp at same
      | cons t ts =>
          have tails : ss.length = ts.length := by simpa using same
          rw [List.zipWith_cons_cons, List.exists_mem_cons_iff, ih tails,
            List.exists_mem_cons_iff, List.exists_mem_cons_iff]
          exact or_or_or_comm

/-- An equation that is split mentions what its parts do. -/
theorem mentions_iff_of_split (h : e.move = .split parts) {x : Variable} :
    e.Mentions x ↔ ∃ p ∈ parts, p.Mentions x := by
  have calls := e.move_calls
  rw [h] at calls
  cases calls with
  | split _ same =>
      rw [exists_mentions_zipWith same]
      simp [Mentions, Term.mem_vars_app]

/-- A clash cannot be repaired by any substitution. -/
theorem not_holds_of_clash (h : e.move = .clash) : ¬ e.Holds τ := by
  have calls := e.move_calls
  rw [h] at calls
  cases calls with
  | constants different => simpa [Holds] using different
  | constApp => simp [Holds]
  | appConst => simp [Holds]
  | functors unlike =>
      intro holds
      simp only [Holds, Term.subst_app, Term.app.injEq] at holds
      exact unlike ⟨holds.1, by simpa using congrArg List.length holds.2⟩

end Equation

/-- The bindings that a run of unification makes when it ends well, in their
order. -/
inductive Yields : List Equation → List Binding → Prop
  | nil : Yields [] []
  | discard {e : Equation} {rest : List Equation} {bindings : List Binding}
      (h : e.move = .discard) (later : Yields rest bindings) : Yields (e :: rest) bindings
  | bind {e : Equation} {b : Binding} {rest : List Equation} {bindings : List Binding}
      (h : e.move = .bind b) (later : Yields (rest.map (·.instantiate b)) bindings) :
      Yields (e :: rest) (b :: bindings)
  | split {e : Equation} {parts rest : List Equation} {bindings : List Binding}
      (h : e.move = .split parts) (later : Yields (parts ++ rest) bindings) :
      Yields (e :: rest) bindings

namespace Yields

variable {equations : List Equation} {bindings : List Binding}

/-- A derivation is carried out within some number of moves. -/
theorem exists_unify (h : Yields equations bindings) :
    ∃ moves, unify moves equations = .solved bindings := by
  induction h with
  | nil => exact ⟨0, rfl⟩
  | discard h _ ih =>
      obtain ⟨moves, ih⟩ := ih
      exact ⟨moves + 1, by simp only [unify, h, ih]⟩
  | bind h _ ih =>
      obtain ⟨moves, ih⟩ := ih
      exact ⟨moves + 1, by simp only [unify, h, ih, Verdict.after]⟩
  | split h _ ih =>
      obtain ⟨moves, ih⟩ := ih
      exact ⟨moves + 1, by simp only [unify, h, ih]⟩

/-- What the loop returns can be derived. -/
theorem of_unify {moves : Nat} (h : unify moves equations = .solved bindings) :
    Yields equations bindings := by
  induction moves generalizing equations bindings with
  | zero =>
      cases equations with
      | nil =>
          cases h
          exact .nil
      | cons e rest => cases h
  | succ moves ih =>
      cases equations with
      | nil =>
          cases h
          exact .nil
      | cons e rest =>
          rw [unify] at h
          cases move : e.move with
          | discard =>
              rw [move] at h
              exact .discard move (ih h)
          | split parts =>
              rw [move] at h
              exact .split move (ih h)
          | clash =>
              rw [move] at h
              cases h
          | bind b =>
              simp only [move] at h
              cases others : unify moves (rest.map (·.instantiate b)) with
              | solved made =>
                  rw [others] at h
                  cases h
                  exact .bind move (ih others)
              | clash =>
                  rw [others] at h
                  cases h
              | unfinished =>
                  rw [others] at h
                  cases h

/-- A run that ends, ends well exactly when there is a derivation. -/
theorem iff_of_finished {moves : Nat} (finished : unify moves equations ≠ .unfinished) :
    Yields equations bindings ↔ unify moves equations = .solved bindings := by
  constructor
  · intro derivation
    obtain ⟨more, h⟩ := derivation.exists_unify
    have solved : unify more equations ≠ .unfinished := by simp [h]
    rw [← unify_of_le (Nat.le_max_left moves more) finished,
      unify_of_le (Nat.le_max_right moves more) solved, h]
  · exact of_unify

/-- The bindings are determined by the equations. -/
theorem unique {others : List Binding} (first : Yields equations bindings)
    (second : Yields equations others) : bindings = others := by
  obtain ⟨moves, h⟩ := first.exists_unify
  have finished : unify moves equations ≠ .unfinished := by simp [h]
  have same := (iff_of_finished finished).mp second
  rw [h] at same
  exact Verdict.solved.inj same

end Yields

/-- What unification makes of equations when it is given as many moves as it
needs: its bindings, or nothing if it clashes or never ends. -/
noncomputable def solution? (equations : List Equation) : Option (List Binding) :=
  open Classical in
  if h : ∃ bindings, Yields equations bindings then some h.choose else none

/-- The solution is what can be derived, if anything can. -/
theorem solution?_eq_some_iff {equations : List Equation} {bindings : List Binding} :
    solution? equations = some bindings ↔ Yields equations bindings := by
  unfold solution?
  split
  · next h =>
      rw [Option.some.injEq]
      constructor
      · rintro rfl
        exact h.choose_spec
      · exact fun derivation => h.choose_spec.unique derivation
  · next h => simpa using fun derivation => h ⟨bindings, derivation⟩

/-- A run that ends with a clash has no solution. -/
theorem solution?_eq_none_of_clash {moves : Nat} {equations : List Equation}
    (h : unify moves equations = .clash) : solution? equations = none := by
  have finished : unify moves equations ≠ .unfinished := by simp [h]
  refine Option.eq_none_iff_forall_ne_some.mpr fun bindings found => ?_
  have solved := (Yields.iff_of_finished finished).mp (solution?_eq_some_iff.mp found)
  rw [h] at solved
  cases solved

end Resolvent
