/-
# Linear equations

Equations are linear if no variable occurs twice on their right sides, nor on a
right side and a left one. A variable that is bound then occurs nowhere in the
bound term, so there is no need for an occurs check: no binding is cyclic and
the run ends.

Left sides may share variables as they like. They are the ones that bindings
change, and what comes in are variables of the one right side that is used up.
-/

import Resolvent.Proofs.Unification.Occurrences
import Resolvent.Proofs.Unification.Termination

namespace Resolvent

namespace Equation

variable {e d : Equation} {b : Binding} {x : Variable}

/-- A binding does nothing to an equation without its variable. -/
theorem instantiate_eq_self (left : b.var ∉ e.left.vars) (right : b.var ∉ e.right.vars) :
    e.instantiate b = e := by
  rw [instantiate, Binding.apply_eq_self left, Binding.apply_eq_self right]

end Equation

/-- On the right all variables are different, and none of them occurs on the
left. -/
structure Linear (equations : List Equation) : Prop where
  once : (equations.flatMap fun e => e.right.occurrences).Nodup
  apart : ∀ e ∈ equations, ∀ d ∈ equations, ∀ x ∈ e.left.vars, x ∉ d.right.vars

namespace Linear

variable {e : Equation} {b : Binding} {parts rest : List Equation}

/-- No variable occurs twice on the right sides, neither within one nor in two
of them. -/
theorem once_cons (h : Linear (e :: rest)) :
    (e.right.occurrences ++ rest.flatMap fun e => e.right.occurrences).Nodup := by
  rw [← List.flatMap_cons (f := fun e : Equation => e.right.occurrences)]
  exact h.once

/-- The first right side has no variable in common with those behind it. -/
theorem not_mem_behind (h : Linear (e :: rest)) {x : Variable} (hx : x ∈ e.right.vars) :
    ∀ d ∈ rest, x ∉ d.right.vars := by
  intro d hd hx'
  exact List.disjoint_of_nodup_append h.once_cons (Term.mem_occurrences.mpr hx)
    (List.mem_flatMap.mpr ⟨d, hd, Term.mem_occurrences.mpr hx'⟩)

/-- What is left of linear equations is linear. -/
theorem of_cons (h : Linear (e :: rest)) : Linear rest where
  once := (List.nodup_append.mp h.once_cons).2.1
  apart c hc d hd := h.apart c (List.mem_cons_of_mem e hc) d (List.mem_cons_of_mem e hd)

/-- Splitting an equation distributes the variables of its sides, so linear
equations stay linear. -/
theorem split (h : Linear (e :: rest)) (split : e.move = .split parts) :
    Linear (parts ++ rest) := by
  obtain ⟨lefts, rights⟩ := Equation.occurrences_of_split split
  -- What occurs on a side now has occurred on that side before.
  have before {side : Equation → Term}
      (same : parts.flatMap (fun part => (side part).occurrences) = (side e).occurrences)
      {d : Equation} (hd : d ∈ parts ++ rest) {x : Variable} (hx : x ∈ (side d).vars) :
      ∃ c ∈ e :: rest, x ∈ (side c).vars := by
    rcases List.mem_append.mp hd with part | waiting
    · refine ⟨e, List.mem_cons_self, Term.mem_occurrences.mp ?_⟩
      rw [← same]
      exact List.mem_flatMap.mpr ⟨d, part, Term.mem_occurrences.mpr hx⟩
    · exact ⟨d, List.mem_cons_of_mem e waiting, hx⟩
  refine ⟨?_, fun c hc d hd x hx hx' => ?_⟩
  · rw [List.flatMap_append, rights]
    exact h.once_cons
  · obtain ⟨c', hc', hx⟩ := before lefts hc hx
    obtain ⟨d', hd', hx'⟩ := before rights hd hx'
    exact h.apart c' hc' d' hd' x hx hx'

/-- A variable occurs on one side of its equation only. -/
theorem not_isCyclic (h : Linear (e :: rest)) (bind : e.move = .bind b) : ¬ b.IsCyclic := by
  have calls := e.move_calls
  rw [bind] at calls
  cases calls with
  | @bindLeft x t _ =>
      exact h.apart _ List.mem_cons_self _ List.mem_cons_self x (by simp)
  | @bindRight y t _ =>
      intro cycle
      exact h.apart _ List.mem_cons_self _ List.mem_cons_self y cycle (by simp)

/-- A binding puts its term for a single occurrence on the right, or into left
sides only, so linear equations stay linear. -/
theorem bind (h : Linear (e :: rest)) (bind : e.move = .bind b) :
    Linear (rest.map (·.instantiate b)) := by
  have calls := e.move_calls
  rw [bind] at calls
  cases calls with
  | @bindLeft x t _ =>
      -- The right sides are kept, and the left ones get variables of the term
      -- that is used up.
      have kept (d : Equation) (hd : d ∈ rest) : (d.instantiate ⟨x, t⟩).right = d.right :=
        Binding.apply_eq_self
          (h.apart _ List.mem_cons_self d (List.mem_cons_of_mem _ hd) x (by simp))
      refine ⟨?_, ?_⟩
      · rw [List.flatMap_map, List.flatMap_congr fun d hd => congrArg Term.occurrences (kept d hd)]
        exact h.of_cons.once
      · intro _ first _ second z hz
        obtain ⟨c, hc, rfl⟩ := List.mem_map.mp first
        obtain ⟨d, hd, rfl⟩ := List.mem_map.mp second
        rw [kept d hd]
        rcases Binding.mem_vars_apply.mp hz with ⟨there, _⟩ | ⟨_, there⟩
        · exact h.of_cons.apart c hc d hd z there
        · exact h.not_mem_behind there d hd
  | @bindRight y t _ =>
      -- The variable occurs nowhere else.
      have same : rest.map (·.instantiate ⟨y, t⟩) = rest := by
        rw [List.map_congr_left (g := id), List.map_id]
        intro d hd
        refine Equation.instantiate_eq_self (fun left => ?_) (h.not_mem_behind (by simp) d hd)
        exact h.apart d (List.mem_cons_of_mem _ hd) _ List.mem_cons_self y left (by simp)
      rw [same]
      exact h.of_cons

end Linear

/-- Linear equations make no cyclic binding, whether they clash or not. -/
theorem Binds.not_isCyclic_of_linear {equations : List Equation} {b : Binding}
    (binds : Binds equations b) (linear : Linear equations) : ¬ b.IsCyclic := by
  induction binds with
  | now bind => exact linear.not_isCyclic bind
  | discard _ _ ih => exact ih linear.of_cons
  | bind bind _ ih => exact ih (linear.bind bind)
  | split split _ ih => exact ih (linear.split split)

end Resolvent
