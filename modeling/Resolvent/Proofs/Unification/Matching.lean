/-
# Unification with a ground term

If one side of an equation is ground then unification is matching. Every term
that is bound is a part of the ground side, so a binding does not touch the
ground sides that wait, and in the other sides it leaves nothing but what is
still to be bound. A variable that comes up again has become ground by then and
is compared.

So no binding is cyclic and the run ends, whether the sides match or not. The
variables are bound in the order in which they are first met, each once, and
all of them if the sides match. It does not matter which side is the left one,
since only variables on both sides make a difference.
-/

import Resolvent.Proofs.Unification.Occurrences
import Resolvent.Proofs.Unification.Turning
import Resolvent.Proofs.Unification.Unifiers

namespace Resolvent

namespace Term

/-- The first term is the second one, or a part of one of its arguments. -/
inductive PartOf (s : Term) : Term → Prop
  | whole : PartOf s s
  | argument {t : Term} {f : Functor} {args : List Term} (among : t ∈ args)
      (part : PartOf s t) : PartOf s (.app f args)

variable {s t g : Term}

/-- An argument of a part is a part. -/
theorem PartOf.of_app {f : Functor} {args : List Term} (part : (Term.app f args).PartOf g)
    (among : t ∈ args) : t.PartOf g := by
  induction part with
  | whole => exact .argument among .whole
  | argument inside _ ih => exact .argument inside ih

/-- A ground term has ground parts. -/
theorem PartOf.isGround (part : s.PartOf g) (ground : g.isGround) : s.isGround := by
  induction part with
  | whole => exact ground
  | argument among _ ih =>
      refine ih (isGround_iff.mpr fun x hx => ?_)
      exact isGround_iff.mp ground x (mem_vars_app.mpr ⟨_, among, hx⟩)

/-- A ground term is one in which no variable occurs. -/
theorem isGround_iff_occurrences : t.isGround ↔ t.occurrences = [] := by
  rw [isGround_iff, List.eq_nil_iff_forall_not_mem]
  simp only [mem_occurrences]

/-- Ground terms have no part in the variables of several terms. -/
theorem varsOf_cons_of_isGround (ground : t.isGround) (ts : List Term) :
    varsOf (t :: ts) = varsOf ts := by
  rw [varsOf_eq_eraseDups, List.flatMap_cons, isGround_iff_occurrences.mp ground, List.nil_append,
    ← varsOf_eq_eraseDups]

/-- There is nothing to bind in a ground term. -/
theorem apply_of_isGround (ground : t.isGround) (b : Binding) : b.apply t = t :=
  Binding.apply_eq_self (isGround_iff.mp ground b.var)

end Term

namespace Equation

/-- The right side is a part of a term. -/
def Against (g : Term) (e : Equation) : Prop :=
  e.right.PartOf g

variable {g : Term} {e : Equation} {b : Binding} {parts : List Equation}

/-- An equation against a part of a ground term stays one when a binding is put
into it. -/
theorem Against.instantiate (ground : g.isGround) (h : e.Against g) (b : Binding) :
    (e.instantiate b).Against g := by
  rw [Against, Equation.instantiate, Term.apply_of_isGround (h.isGround ground)]
  exact h

/-- A ground side is not bound but put in place of the other side. -/
theorem Against.of_bind (ground : g.isGround) (h : e.Against g) (bind : e.move = .bind b) :
    e.left = .var b.var ∧ b.term = e.right := by
  have calls := e.move_calls
  rw [bind] at calls
  cases calls with
  | bindLeft _ => exact ⟨rfl, rfl⟩
  | @bindRight y t _ =>
      have bare := Term.isGround_iff.mp (h.isGround ground) y
      simp at bare

/-- The parts of an equation against a ground term are against it, too. -/
theorem Against.of_split (h : e.Against g) (split : e.move = .split parts) :
    ∀ part ∈ parts, part.Against g := by
  have calls := e.move_calls
  rw [split] at calls
  cases calls with
  | @split f ss ts _ same =>
      intro part hp
      obtain ⟨i, inside, rfl⟩ := List.getElem_of_mem hp
      rw [Against, List.getElem_zipWith]
      exact Term.PartOf.of_app h (List.getElem_mem _)

end Equation

variable {g : Term} {equations : List Equation}

/-- Only parts of the ground term are bound, whether the run ends or not. -/
theorem Binds.partOf (ground : g.isGround) {b : Binding} (binds : Binds equations b)
    (against : ∀ e ∈ equations, e.Against g) : b.term.PartOf g := by
  induction binds with
  | now bind =>
      have first := against _ List.mem_cons_self
      rw [(first.of_bind ground bind).2]
      exact first
  | discard _ _ ih => exact ih fun e he => against e (List.mem_cons_of_mem _ he)
  | bind _ _ ih =>
      refine ih (List.forall_mem_map.mpr fun e he => ?_)
      exact (against e (List.mem_cons_of_mem _ he)).instantiate ground _
  | split split _ ih =>
      obtain ⟨first, others⟩ := List.forall_mem_cons.mp against
      exact ih (List.forall_mem_append.mpr ⟨first.of_split split, others⟩)

/-- No binding against a ground term is cyclic. -/
theorem Binds.not_isCyclic_of_ground (ground : g.isGround) {b : Binding}
    (binds : Binds equations b) (against : ∀ e ∈ equations, e.Against g) : ¬ b.IsCyclic :=
  Term.isGround_iff.mp ((binds.partOf ground against).isGround ground) b.var

/-- If the sides match then every variable on the left has been bound where it
was first met. -/
theorem Yields.vars_eq (ground : g.isGround) {bindings : List Binding}
    (derivation : Yields equations bindings) (against : ∀ e ∈ equations, e.Against g) :
    bindings.map Binding.var = (equations.flatMap fun e => e.left.occurrences).eraseDups := by
  induction derivation with
  | nil => rfl
  | @discard e rest bindings discard _ ih =>
      obtain ⟨first, others⟩ := List.forall_mem_cons.mp against
      have equal := Equation.holds_of_discard (τ := .var) discard
      rw [Equation.Holds, Term.subst_id, Term.subst_id] at equal
      have bare := Term.isGround_iff_occurrences.mp (first.isGround ground)
      rw [List.flatMap_cons, equal, bare, List.nil_append, ih others]
  | @bind e b rest bindings bind _ ih =>
      obtain ⟨first, others⟩ := List.forall_mem_cons.mp against
      obtain ⟨variable_left, bound⟩ := first.of_bind ground bind
      have ground_term : b.term.isGround := bound ▸ first.isGround ground
      have waiting : (rest.map (·.instantiate b)).flatMap (fun e => e.left.occurrences) =
          (rest.flatMap fun e => e.left.occurrences).filter fun x => !x == b.var := by
        rw [List.flatMap_map, List.filter_flatMap]
        refine List.flatMap_congr fun e _ => ?_
        rw [Equation.instantiate, Term.occurrences_apply ground_term]
        exact List.filter_congr fun x _ => by by_cases same : x = b.var <;> simp [same]
      have instantiated := List.forall_mem_map.mpr fun e he => (others e he).instantiate ground b
      rw [List.map_cons, ih instantiated, waiting, List.flatMap_cons, variable_left,
        Term.occurrences_var, List.singleton_append, List.eraseDups_cons]
  | @split e parts rest bindings split _ ih =>
      obtain ⟨first, others⟩ := List.forall_mem_cons.mp against
      rw [ih (List.forall_mem_append.mpr ⟨first.of_split split, others⟩), List.flatMap_append,
        (Equation.occurrences_of_split split).1, List.flatMap_cons]

/-- Turning round equations that have a ground side changes nothing at all. -/
theorem unify_turned_of_ground (ground : g.isGround) {turned : List Equation}
    (each : List.Forall₂ Equation.Turned equations turned)
    (against : ∀ e ∈ equations, e.Against g) (moves : Nat) :
    unify moves turned = unify moves equations := by
  induction moves generalizing equations turned with
  | zero => cases each <;> rfl
  | succ moves ih =>
      cases each with
      | nil => rfl
      | @cons e e' rest rest' turn others =>
          obtain ⟨first, later⟩ := List.forall_mem_cons.mp against
          have called := turn.move
          rw [unify, unify]
          generalize move : e.move = m, e'.move = m' at called
          cases called with
          | discard => exact ih others later
          | bind b =>
              have instantiated : List.Forall₂ Equation.Turned
                  (rest.map (·.instantiate b)) (rest'.map (·.instantiate b)) :=
                List.forall₂_map_left_iff.mpr (List.forall₂_map_right_iff.mpr
                  (others.imp fun _ _ h => h.instantiate b))
              simp only [ih instantiated
                (List.forall_mem_map.mpr fun e he => (later e he).instantiate ground b)]
          | exchange x y =>
              -- A variable is bound to a ground term and not to a variable.
              have bare := Term.isGround_iff.mp (first.isGround ground) y
              rw [← (first.of_bind ground move).2] at bare
              simp at bare
          | split parts =>
              exact ih (List.rel_append parts others)
                (List.forall_mem_append.mpr ⟨first.of_split move, later⟩)
          | clash => rfl

/-- A term and a ground term are unified by matching them, whichever is on the
left. The run ends. It clashes exactly if the ground term is no instance of the
other one. Otherwise the variables of the other term are bound in their order
to parts of the ground term, and the bindings turn the one term into the other.
A ground term matches nothing but itself. -/
theorem unifyTerms_ground {t g : Term} (ground : g.isGround) :
    ∃ verdict, verdict ≠ .unfinished ∧
      (∃ enough, ∀ moves, enough ≤ moves →
        unifyTerms moves t g = verdict ∧ unifyTerms moves g t = verdict) ∧
      (verdict = .clash ↔ ∀ θ : Substitution, t.subst θ ≠ g) ∧
      (∀ bindings, verdict = .solved bindings →
        bindings.map Binding.var = t.vars ∧ t.vars.Nodup ∧
        (∀ b ∈ bindings, b.term.isGround ∧ b.term.PartOf g) ∧ applyAll bindings t = g) ∧
      (t.isGround → verdict = if t = g then .solved [] else .clash) := by
  have against : ∀ e ∈ [Equation.mk t g], e.Against g :=
    List.forall_mem_singleton.mpr .whole
  have turned : List.Forall₂ Equation.Turned [Equation.mk t g] [Equation.mk g t] :=
    .cons (Equation.turned_swap _) .nil
  obtain ⟨enough, finished⟩ := Finishes.of_acyclic fun b (binds : Binds [Equation.mk t g] b) =>
    binds.not_isCyclic_of_ground ground against
  have matched : ∀ bindings, unify enough [⟨t, g⟩] = .solved bindings →
      applyAll bindings t = g := by
    intro bindings solved
    have derivation := Yields.of_unify solved
    have acyclic : ∀ b ∈ bindings, ¬ b.IsCyclic := fun b hb =>
      (derivation.binds b hb).not_isCyclic_of_ground ground against
    rw [derivation.unified acyclic _ List.mem_cons_self]
    exact applyAll_eq_self fun b _ => Term.isGround_iff.mp ground b.var
  have clash_iff : unify enough [⟨t, g⟩] = .clash ↔ ∀ θ : Substitution, t.subst θ ≠ g := by
    constructor
    · intro clashed θ instantiated
      have unifies : θ.Unifies [⟨t, g⟩] := by
        simp [Equation.Holds, instantiated, Term.subst_eq_self ground]
      obtain ⟨bindings, derivation⟩ := Yields.exists_of_unifies unifies
      rw [(Yields.iff_of_finished finished).mp derivation] at clashed
      cases clashed
    · intro no_instance
      cases verdict : unify enough [⟨t, g⟩] with
      | clash => rfl
      | unfinished => exact absurd verdict finished
      | solved bindings =>
          have instantiated := matched bindings verdict
          rw [applyAll_eq_subst] at instantiated
          exact absurd instantiated (no_instance _)
  refine ⟨unify enough [⟨t, g⟩], finished, ⟨enough, fun moves more => ?_⟩, clash_iff, ?_, ?_⟩
  · rw [unifyTerms, unifyTerms, unify_turned_of_ground ground turned against,
      unify_of_le more finished]
    exact ⟨rfl, rfl⟩
  · intro bindings solved
    have derivation := Yields.of_unify solved
    refine ⟨?_, Term.nodup_collect List.nodup_nil, fun b hb => ?_, matched bindings solved⟩
    · rw [derivation.vars_eq ground against, Term.vars_eq_eraseDups]
      simp
    · have part := (derivation.binds b hb).partOf ground against
      exact ⟨part.isGround ground, part⟩
  · intro fixed
    split
    · next same =>
        have derivation : Yields [⟨t, g⟩] [] :=
          .discard (Equation.Calls.move_eq (same ▸ .discard t)) .nil
        exact (Yields.iff_of_finished finished).mp derivation
    · next different =>
        exact clash_iff.mpr fun θ => (Term.subst_eq_self fixed θ).symm ▸ different

/-- `f(X, g(Y), X)` is matched with `f(a, g(h(b)), a)` by `X = a` and
`Y = h(b)`, from either side. -/
theorem unifyTerms_ground_repeated :
    let x : Variable := ⟨0, "X"⟩
    let y : Variable := ⟨1, "Y"⟩
    let a : Term := .const ⟨2, "a"⟩
    let hb : Term := .app ⟨3, "h"⟩ [.const ⟨4, "b"⟩]
    let g (t : Term) : Term := .app ⟨5, "g"⟩ [t]
    let f (r s t : Term) : Term := .app ⟨6, "f"⟩ [r, s, t]
    let pattern := f (.var x) (g (.var y)) (.var x)
    let target := f a (g hb) a
    let bindings : List Binding := [⟨x, a⟩, ⟨y, hb⟩]
    target.isGround ∧
      (∃ enough, ∀ moves, enough ≤ moves →
        unifyTerms moves pattern target = .solved bindings ∧
          unifyTerms moves target pattern = .solved bindings) ∧
      bindings.map Binding.var = pattern.vars ∧ pattern.vars.Nodup ∧
      (∀ b ∈ bindings, b.term.isGround ∧ b.term.PartOf target) ∧
      applyAll bindings pattern = target := by
  intro x y a hb g f pattern target bindings
  have ground : target.isGround := rfl
  have evaluated : unifyTerms 5 pattern target = .solved bindings := rfl
  obtain ⟨verdict, finished, ⟨enough, ends⟩, _, made, _⟩ := unifyTerms_ground (t := pattern) ground
  have same : verdict = .solved bindings := by
    rw [← (ends (max enough 5) (Nat.le_max_left _ _)).1, ← evaluated]
    exact unify_of_le (Nat.le_max_right _ _) (by rw [← unifyTerms, evaluated]; simp)
  rw [same] at ends
  exact ⟨ground, ⟨enough, ends⟩, made bindings same⟩

end Resolvent
