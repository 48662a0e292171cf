/-
# When unification ends

Unification ends unless it makes a cyclic binding. A binding without a cycle
takes its variable out of the equations for good, and between two bindings the
left sides get smaller. A cyclic binding keeps its variable, and with it the
run may go on for ever.

Two equations are enough for that. A run that never ends has no solution to
miss, since equations that have one are always used up.
-/

import Mathlib.Data.Finset.Card
import Resolvent.Proofs.Unification.MostGeneral
import Resolvent.Proofs.Unification.SolvedForm

namespace Resolvent

/-- A binding does not make a run end. -/
theorem Verdict.after_ne_unfinished_iff (b : Binding) {v : Verdict} :
    v.after b ≠ .unfinished ↔ v ≠ .unfinished := by
  cases v <;> simp [after]

/-- Some number of moves is enough. -/
def Finishes (equations : List Equation) : Prop :=
  ∃ moves, unify moves equations ≠ .unfinished

/-- A run of unification makes a binding at some time, whether it ends or
not. -/
inductive Binds : List Equation → Binding → Prop
  | now {e : Equation} {b : Binding} {rest : List Equation} (h : e.move = .bind b) :
      Binds (e :: rest) b
  | discard {e : Equation} {b : Binding} {rest : List Equation} (h : e.move = .discard)
      (later : Binds rest b) : Binds (e :: rest) b
  | bind {e : Equation} {b c : Binding} {rest : List Equation} (h : e.move = .bind c)
      (later : Binds (rest.map (·.instantiate c)) b) : Binds (e :: rest) b
  | split {e : Equation} {b : Binding} {parts rest : List Equation} (h : e.move = .split parts)
      (later : Binds (parts ++ rest) b) : Binds (e :: rest) b

/-- What is yielded has been bound. -/
theorem Yields.binds {equations : List Equation} {bindings : List Binding}
    (h : Yields equations bindings) : ∀ b ∈ bindings, Binds equations b := by
  induction h with
  | nil => simp
  | discard h _ ih => exact fun b hb => .discard h (ih b hb)
  | bind h _ ih => exact List.forall_mem_cons.mpr ⟨.now h, fun b hb => .bind h (ih b hb)⟩
  | split h _ ih => exact fun b hb => .split h (ih b hb)

/-- No variable is bound to itself. -/
theorem Binds.term_ne_var {equations : List Equation} {b : Binding} (h : Binds equations b) :
    b.term ≠ .var b.var := by
  induction h with
  | @now e b rest h =>
      have calls := e.move_calls
      rw [h] at calls
      cases calls with
      | bindLeft different => exact different
      | bindRight rigid => exact rigid _
  | discard _ _ ih => exact ih
  | bind _ _ ih => exact ih
  | split _ _ ih => exact ih

namespace Finishes

variable {e : Equation} {rest : List Equation}

/-- An equation that is discarded leaves the loop to come to its end with the
others. -/
theorem discard (h : e.move = .discard) (later : Finishes rest) : Finishes (e :: rest) := by
  obtain ⟨moves, finished⟩ := later
  exact ⟨moves + 1, by simpa only [unify, h] using finished⟩

/-- After a binding the loop goes on with the binding put into what is left. -/
theorem bind_iff {b : Binding} (h : e.move = .bind b) :
    Finishes (e :: rest) ↔ Finishes (rest.map (·.instantiate b)) := by
  constructor
  · rintro ⟨moves, finished⟩
    cases moves with
    | zero => exact absurd rfl finished
    | succ moves =>
        simp only [unify, h, Verdict.after_ne_unfinished_iff] at finished
        exact ⟨moves, finished⟩
  · rintro ⟨moves, finished⟩
    exact ⟨moves + 1, by simpa only [unify, h, Verdict.after_ne_unfinished_iff] using finished⟩

/-- An equation that is split leaves the loop to come to its end with its parts
in front of the others. -/
theorem split {parts : List Equation} (h : e.move = .split parts)
    (later : Finishes (parts ++ rest)) : Finishes (e :: rest) := by
  obtain ⟨moves, finished⟩ := later
  exact ⟨moves + 1, by simpa only [unify, h] using finished⟩

/-- With a clash the loop is at its end. -/
theorem clash (h : e.move = .clash) : Finishes (e :: rest) :=
  ⟨1, by simp [unify, h]⟩

/-- The equations have no variables but those of a set. -/
private def Within (scope : Finset Variable) (equations : List Equation) : Prop :=
  ∀ e ∈ equations, ∀ x, e.Mentions x → x ∈ scope

private theorem Within.split {scope : Finset Variable} {parts : List Equation}
    (within : Within scope (e :: rest)) (h : e.move = .split parts) :
    Within scope (parts ++ rest) := by
  intro d hd x hx
  rcases List.mem_append.mp hd with part | waiting
  · exact within e List.mem_cons_self x ((Equation.mentions_iff_of_split h).mpr ⟨d, part, hx⟩)
  · exact within d (List.mem_cons_of_mem e waiting) x hx

private theorem Within.bind {scope : Finset Variable} {b : Binding}
    (within : Within scope (e :: rest)) (h : e.move = .bind b) (acyclic : ¬ b.IsCyclic) :
    b.var ∈ scope ∧ Within (scope.erase b.var) (rest.map (·.instantiate b)) := by
  have first {x : Variable} (hx : x = b.var ∨ x ∈ b.term.vars) : x ∈ scope :=
    within e List.mem_cons_self x ((Equation.mentions_iff_of_bind h).mpr hx)
  refine ⟨first (.inl rfl), fun d hd x hx => Finset.mem_erase.mpr ⟨?_, ?_⟩⟩
  · rintro rfl
    obtain ⟨d, _, rfl⟩ := List.mem_map.mp hd
    exact Equation.not_mentions_instantiate acyclic d hx
  · obtain ⟨d, waiting, rfl⟩ := List.mem_map.mp hd
    rcases Equation.mentions_of_instantiate hx with there | there
    · exact within d (List.mem_cons_of_mem e waiting) x there
    · exact first (.inr there)

/-- Every binding takes a variable out of the equations; the other moves make
the left sides smaller. -/
private theorem of_within (scope : Finset Variable) {equations : List Equation}
    (within : Within scope equations) (acyclic : ∀ b, Binds equations b → ¬ b.IsCyclic) :
    Finishes equations := by
  induction scope using Finset.strongInduction generalizing equations with
  | H scope fewer =>
      induction weight : Substitution.weight .var equations using Nat.strong_induction_on
        generalizing equations with
      | _ n smaller =>
          subst weight
          cases equations with
          | nil => exact ⟨0, by simp [unify]⟩
          | cons e rest =>
              cases move : e.move with
              | clash => exact .clash move
              | discard =>
                  have later := smaller _ (Substitution.weight_lt_cons e rest)
                    (fun d hd => within d (List.mem_cons_of_mem e hd))
                    (fun b made => acyclic b (.discard move made)) rfl
                  exact .discard move later
              | split parts =>
                  have later := smaller _ (Substitution.weight_split_lt move rest)
                    (within.split move) (fun b made => acyclic b (.split move made)) rfl
                  exact .split move later
              | bind b =>
                  obtain ⟨bound, without⟩ := within.bind move (acyclic b (.now move))
                  have later := fewer _ (Finset.erase_ssubset bound) without
                    fun c made => acyclic c (.bind move made)
                  exact (bind_iff move).mpr later

/-- A run without cyclic bindings ends. -/
theorem of_acyclic {equations : List Equation}
    (acyclic : ∀ b, Binds equations b → ¬ b.IsCyclic) : Finishes equations := by
  let all := equations.flatMap fun e => e.left.vars ++ e.right.vars
  refine of_within all.toFinset (fun e he x hx => ?_) acyclic
  rw [List.mem_toFinset, List.mem_flatMap]
  exact ⟨e, he, List.mem_append.mpr hx⟩

/-- Equations with a solution are used up. -/
theorem of_unifies {equations : List Equation} {τ : Substitution}
    (unifies : τ.Unifies equations) : Finishes equations := by
  obtain ⟨bindings, derivation⟩ := Yields.exists_of_unifies unifies
  obtain ⟨moves, solved⟩ := derivation.exists_unify
  exact ⟨moves, by simp [solved]⟩

/-- A run that never ends makes a cyclic binding, and misses no solution. -/
theorem exists_isCyclic {equations : List Equation} (endless : ¬ Finishes equations) :
    (∀ τ : Substitution, ¬ τ.Unifies equations) ∧ ∃ b, Binds equations b ∧ b.IsCyclic := by
  refine ⟨fun τ unifies => endless (of_unifies unifies), ?_⟩
  by_contra none
  exact endless (of_acyclic fun b bound cycle => none ⟨b, bound, cycle⟩)

end Finishes

/-- Two equations that come back after every two moves. The first is turned
into a cyclic binding, which rewrites the second into one that splits into both
of them. -/
theorem not_finishes_pair (f : Functor) (x : Variable) :
    ¬ Finishes [⟨.app f [.var x, .var x], .var x⟩, ⟨.app f [.var x, .var x], .var x⟩] := by
  have bind : (⟨.app f [.var x, .var x], .var x⟩ : Equation).move =
      .bind ⟨x, .app f [.var x, .var x]⟩ :=
    Equation.Calls.move_eq (.bindRight (by simp))
  have split : (⟨.app f [.app f [.var x, .var x], .app f [.var x, .var x]],
        .app f [.var x, .var x]⟩ : Equation).move =
      .split [⟨.app f [.var x, .var x], .var x⟩, ⟨.app f [.var x, .var x], .var x⟩] :=
    Equation.Calls.move_eq (.split (by simp) rfl)
  rintro ⟨moves, finished⟩
  refine finished ?_
  clear finished
  induction moves using Nat.strong_induction_on with
  | _ moves ih =>
      match moves with
      | 0 => rfl
      | 1 => simp [unify, bind, Verdict.after]
      | moves + 2 =>
          simp only [unify, bind, List.map_cons, List.map_nil, Equation.instantiate,
            Binding.apply_app, Binding.apply_var, if_true, split, List.append_nil]
          rw [ih moves (by omega)]
          rfl

end Resolvent
