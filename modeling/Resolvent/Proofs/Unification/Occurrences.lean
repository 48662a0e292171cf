/-
# Occurrences of variables

Collecting the variables of terms passes on a list of those found so far, and
looks every variable up in it. What comes of it is the list of all occurrences
from left to right without those that repeat an earlier one. It is the same if
the variables of each term are collected apart and then gone through, since
noting a variable again changes nothing.

With the list of occurrences itself there is nothing to look up, and it is
plain what replacement and the moves of unification do to it: those of a
variable make way for the occurrences in the term that is put in its place, and
an equation that is split has the occurrences of its parts.
-/

import Mathlib.Data.Finset.Basic
import Resolvent.Proofs.Clauses.FirstAppearance
import Resolvent.Proofs.Unification.Derivation

namespace Resolvent

namespace Term

mutual

/-- The variables of a term from left to right, as often as they occur. -/
def occurrences : Term → List Variable
  | .var x => [x]
  | .const _ => []
  | .app _ args => occurrencesEach args

/-- The variables of several terms from left to right, as often as they
occur. -/
def occurrencesEach : List Term → List Variable
  | [] => []
  | t :: ts => occurrences t ++ occurrencesEach ts

end

@[simp] theorem occurrences_var (x : Variable) : (Term.var x).occurrences = [x] := rfl

@[simp] theorem occurrences_const (c : Constant) : (Term.const c).occurrences = [] := rfl

@[simp] theorem occurrences_app (f : Functor) (args : List Term) :
    (Term.app f args).occurrences = args.flatMap occurrences := by
  have each : occurrencesEach args = args.flatMap occurrences := by
    induction args with
    | nil => rfl
    | cons t ts ih => rw [occurrencesEach, ih, List.flatMap_cons]
  rw [occurrences, each]

/-- Collecting looks up one occurrence after another. -/
private theorem collectEach_eq_foldl {ts : List Term}
    (each : ∀ t ∈ ts, ∀ found, collect found t = t.occurrences.foldl note found)
    (found : List Variable) :
    collectEach found ts = (ts.flatMap occurrences).foldl note found := by
  induction ts generalizing found with
  | nil => rfl
  | cons t ts ih =>
      obtain ⟨first, others⟩ := List.forall_mem_cons.mp each
      rw [collectEach, ih others, first, List.flatMap_cons, List.foldl_append]

/-- Collecting the variables of a term is noting its occurrences from left to
right. -/
theorem collect_eq_foldl (t : Term) (found : List Variable) :
    collect found t = t.occurrences.foldl note found := by
  induction t generalizing found with
  | var x => rfl
  | const c => rfl
  | app f args ih => rw [collect, collectEach_eq_foldl ih, occurrences_app]

/-- Noting the variables of a list adds those that are new, each where it is
first met. -/
theorem foldl_note (found l : List Variable) :
    l.foldl note found = found ++ (l.filter (· ∉ found)).eraseDups :=
  Store.foldl_including found l

/-- What is noted is what has been found or occurs. -/
theorem mem_foldl_note {x : Variable} {found l : List Variable} :
    x ∈ l.foldl note found ↔ x ∈ found ∨ x ∈ l := by
  induction l generalizing found with
  | nil => simp
  | cons y l ih => rw [List.foldl_cons, ih, mem_note, List.mem_cons, or_assoc]

/-- What has been noted in one list is noted in another one as if it had not
been noted before. -/
theorem foldl_note_foldl_note (found noted l : List Variable) :
    (l.foldl note noted).foldl note found = l.foldl note (noted.foldl note found) := by
  induction l generalizing noted with
  | nil => rfl
  | cons x l ih =>
      have once : (note noted x).foldl note found = note (noted.foldl note found) x := by
        by_cases known : x ∈ noted
        · have again : x ∈ noted.foldl note found := mem_foldl_note.mpr (.inr known)
          rw [note, if_pos known, note, if_pos again]
        · rw [note, if_neg known, List.foldl_append, List.foldl_cons, List.foldl_nil]
      rw [List.foldl_cons, ih, once, List.foldl_cons]

/-- The variables of a term can be collected apart before they are added to
those found. -/
theorem foldl_note_vars (found : List Variable) (t : Term) :
    t.vars.foldl note found = collect found t := by
  rw [vars, collect_eq_foldl, collect_eq_foldl, foldl_note_foldl_note, List.foldl_nil]

/-- The variables of a term are its occurrences without the repetitions. -/
theorem vars_eq_eraseDups (t : Term) : t.vars = t.occurrences.eraseDups := by
  rw [vars, collect_eq_foldl, foldl_note]
  simp

/-- A variable is collected if it occurs. -/
theorem mem_occurrences {x : Variable} {t : Term} : x ∈ t.occurrences ↔ x ∈ t.vars := by
  rw [vars_eq_eraseDups, List.mem_eraseDups]

/-- Each occurrence of the bound variable makes way for the occurrences in the
bound term. -/
theorem occurrences_apply_eq_flatMap (b : Binding) (t : Term) :
    (b.apply t).occurrences =
      t.occurrences.flatMap fun x => if x = b.var then b.term.occurrences else [x] := by
  induction t with
  | var x => by_cases bound : x = b.var <;> simp [bound]
  | const c => rfl
  | app f args ih =>
      rw [Binding.apply_app, occurrences_app, occurrences_app, List.flatMap_map,
        List.flatMap_assoc]
      exact List.flatMap_congr ih

/-- A variable for which a ground term is put in occurs no more, and nothing
else changes. -/
theorem occurrences_apply {b : Binding} (ground : b.term.isGround) (t : Term) :
    (b.apply t).occurrences = t.occurrences.filter (· ≠ b.var) := by
  have bare : b.term.occurrences = [] := List.eq_nil_iff_forall_not_mem.mpr
    fun x hx => isGround_iff.mp ground x (mem_occurrences.mp hx)
  rw [occurrences_apply_eq_flatMap, bare]
  induction t.occurrences with
  | nil => rfl
  | cons x l ih => by_cases bound : x = b.var <;> simp [bound, ih]

end Term

/-- The variables of several terms are their occurrences without the
repetitions. -/
theorem varsOf_eq_eraseDups (ts : List Term) :
    varsOf ts = (ts.flatMap Term.occurrences).eraseDups := by
  rw [varsOf, Term.collectEach_eq_foldl fun t _ => t.collect_eq_foldl, Term.foldl_note]
  simp

/-- Collecting the variables of several terms goes through the variables of
each. -/
theorem varsOf_eq_foldl (ts : List Term) :
    varsOf ts = ts.foldl (fun found t => t.vars.foldl Term.note found) [] := by
  have general : ∀ found, Term.collectEach found ts =
      ts.foldl (fun found t => t.vars.foldl Term.note found) found := by
    induction ts with
    | nil => exact fun _ => rfl
    | cons t ts ih =>
        intro found
        rw [Term.collectEach, ih, List.foldl_cons, Term.foldl_note_vars]
  exact general []

/-- The parts of an equation have the occurrences of its sides. -/
theorem Equation.occurrences_of_split {e : Equation} {parts : List Equation}
    (split : e.move = .split parts) :
    parts.flatMap (fun part => part.left.occurrences) = e.left.occurrences ∧
      parts.flatMap (fun part => part.right.occurrences) = e.right.occurrences := by
  have calls := e.move_calls
  rw [split] at calls
  cases calls with
  | @split f ss ts _ same =>
      have lefts : (List.zipWith mk ss ts).map left = ss := by
        rw [← List.map_uncurry_zip_eq_zipWith, List.map_map]
        exact List.map_fst_zip (Nat.le_of_eq same)
      have rights : (List.zipWith mk ss ts).map right = ts := by
        rw [← List.map_uncurry_zip_eq_zipWith, List.map_map]
        exact List.map_snd_zip (Nat.le_of_eq same.symm)
      constructor
      · rw [← List.flatMap_map left Term.occurrences, lefts, Term.occurrences_app]
      · rw [← List.flatMap_map right Term.occurrences, rights, Term.occurrences_app]

/-- The variables of several terms, collected term by term, are all their
occurrences from left to right without those that repeat an earlier one. A term
is ground exactly when it has no variables. Replacing a variable puts the
occurrences in the bound term at the places where the variable was, so that the
variables of a term in which it occurs are the others and those of the bound
term. -/
theorem variables_exact (ts : List Term) :
    varsOf ts = (ts.flatMap Term.occurrences).eraseDups ∧
      varsOf ts = ts.foldl (fun found t => t.vars.foldl Term.note found) [] ∧
      ∀ t : Term, t.vars = t.occurrences.eraseDups ∧ (t.isGround ↔ t.vars = []) ∧
        ∀ b : Binding,
          (b.apply t).occurrences =
            t.occurrences.flatMap (fun x => if x = b.var then b.term.occurrences else [x]) ∧
          (b.var ∈ t.vars →
            (b.apply t).vars.toFinset =
              t.vars.toFinset.erase b.var ∪ b.term.vars.toFinset) := by
  refine ⟨varsOf_eq_eraseDups ts, varsOf_eq_foldl ts, fun t => ⟨t.vars_eq_eraseDups, ?_, fun b =>
    ⟨t.occurrences_apply_eq_flatMap b, fun occurs => ?_⟩⟩⟩
  · rw [Term.isGround_iff, List.eq_nil_iff_forall_not_mem]
  · ext x
    simp only [List.mem_toFinset, Finset.mem_union, Finset.mem_erase]
    rw [Binding.mem_vars_apply, and_iff_right occurs, and_comm]

/-- The two variables in `f(X, g(Y, X), X)` and `X` are told apart although
they have one name, and each is collected where it is first met. With `h(Z, Y)`
in the place of the first one there are `Z`, `Y` and the other one. -/
theorem variables_exact_namesakes :
    let x : Variable := ⟨0, "X"⟩
    let x' : Variable := ⟨1, "X"⟩
    let y : Variable := ⟨2, "Y"⟩
    let z : Variable := ⟨3, "Z"⟩
    let t : Term := .app ⟨4, "f"⟩ [.var x, .app ⟨5, "g"⟩ [.var y, .var x'], .var x]
    let b : Binding := ⟨x, .app ⟨6, "h"⟩ [.var z, .var y]⟩
    varsOf [t, .var x'] = [x, y, x'] ∧
      ([t, .var x'].flatMap Term.occurrences).eraseDups = [x, y, x'] ∧ b.var ∈ t.vars ∧
      (b.apply t).occurrences = [z, y, y, x', z, y] ∧
      (b.apply t).vars.toFinset = t.vars.toFinset.erase b.var ∪ b.term.vars.toFinset := by
  intro x x' y z t b
  have collected : varsOf [t, .var x'] = [x, y, x'] := by decide
  have occurs : b.var ∈ t.vars := by decide
  obtain ⟨in_order, _, each⟩ := variables_exact [t, .var x']
  obtain ⟨replaced, set⟩ := (each t).2.2 b
  exact ⟨collected, in_order ▸ collected, occurs, replaced.trans (by decide), set occurs⟩

end Resolvent
