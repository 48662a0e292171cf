/-
# Equations between spines

A spine is a chain of cells that ends in a constant or in a variable. Numerals
are spines, and so are lists. A cell may hold elements beside the rest of the
spine, and an element is a ground term or a variable. Which variables stand for
elements is given; all others stand for spines.

A term is closed if it has no variables but those that stand for elements. Only
an open spine can make a binding cyclic, and it has a single variable that
matters, the one at its end. Equations are disciplined if this variable is a
new one wherever it has to be: among the equations with an open left side, the
right sides have different ends, which occur on no left side either. Nothing is
asked of an equation with a closed left side. That is why a head may have a
variable twice, as `append(nil, L, L)` has, as long as one of the two arguments
of the goal is closed.
-/

import Resolvent.Proofs.Unification.Termination

namespace Resolvent

/-- What a term is used for. -/
inductive Kind
  | element | spine
  deriving DecidableEq

variable {E : Variable → Prop} {k : Kind}

namespace Term

/-- Terms of a kind, given the variables that stand for elements. -/
inductive HasKind (E : Variable → Prop) : Kind → Term → Prop
  | ground {t : Term} (ground : t.isGround) : HasKind E .element t
  | element {x : Variable} (element : E x) : HasKind E .element (.var x)
  | loose {x : Variable} (loose : ¬ E x) : HasKind E .spine (.var x)
  | stop (c : Constant) : HasKind E .spine (.const c)
  | cell (f : Functor) {elements : List Term} {rest : Term}
      (each : ∀ t ∈ elements, HasKind E .element t) (below : HasKind E .spine rest) :
      HasKind E .spine (.app f (elements ++ [rest]))

/-- All variables stand for elements. -/
def IsClosed (E : Variable → Prop) (t : Term) : Prop :=
  ∀ x ∈ t.vars, E x

/-- A ground term is closed, as it has no end that could be open. -/
theorem isClosed_of_isGround {t : Term} (ground : t.isGround) : t.IsClosed E :=
  fun x hx => absurd hx (isGround_iff.mp ground x)

namespace HasKind

variable {t : Term} {x : Variable}

/-- An element has no variable that stands for a spine. -/
theorem isClosed (h : HasKind E .element t) : t.IsClosed E := by
  cases h with
  | ground ground => exact isClosed_of_isGround ground
  | element element => simpa [IsClosed] using element

/-- A variable for elements is used as an element. -/
theorem eq_element (h : HasKind E k (.var x)) (element : E x) : k = .element := by
  cases h with
  | ground => rfl
  | element => rfl
  | loose loose => exact absurd element loose

/-- A variable is of one kind only. -/
theorem var_unique {k' : Kind} (h : HasKind E k (.var x)) (h' : HasKind E k' (.var x)) :
    k = k' := by
  by_cases element : E x
  · rw [h.eq_element element, h'.eq_element element]
  · cases h with
    | ground ground => simp [isGround] at ground
    | element there => exact absurd there element
    | loose =>
        cases h' with
        | ground ground => simp [isGround] at ground
        | element there => exact absurd there element
        | loose => rfl

/-- An element that is not a variable is ground. -/
theorem isGround_of_app {f : Functor} {args : List Term} (h : HasKind E .element (.app f args)) :
    ∀ t ∈ args, t.isGround := by
  cases h with
  | ground ground =>
      intro t ht
      exact isGround_iff.mpr fun x hx => isGround_iff.mp ground x (mem_vars_app.mpr ⟨t, ht, hx⟩)

end HasKind

end Term

open Term (HasKind)

/-! ### Replacement keeps the kinds -/

/-- Every variable is given a term of its kind. The variables of that term have
kinds of their own. -/
def Substitution.Respects (E E' : Variable → Prop) (θ : Substitution) : Prop :=
  ∀ k x, HasKind E k (.var x) → HasKind E' k (θ x)

/-- The variable and the term are of one kind. -/
def Binding.Respects (E : Variable → Prop) (b : Binding) : Prop :=
  ∃ k, HasKind E k (.var b.var) ∧ HasKind E k b.term

namespace Substitution.Respects

variable {E' : Variable → Prop} {θ : Substitution} {t : Term}

/-- What respects the kinds keeps the kind of a term. -/
theorem hasKind (h : θ.Respects E E') (kind : HasKind E k t) : HasKind E' k (t.subst θ) := by
  induction kind with
  | ground ground =>
      rw [Term.subst_eq_self ground]
      exact .ground ground
  | element element => exact h _ _ (.element element)
  | loose loose => exact h _ _ (.loose loose)
  | stop c => exact .stop c
  | cell f _ _ each below =>
      rw [Term.subst_app, List.map_append, List.map_singleton]
      refine .cell f (fun t ht => ?_) below
      obtain ⟨s, hs, rfl⟩ := List.mem_map.mp ht
      exact each s hs

/-- What respects the kinds keeps a closed term closed. -/
theorem isClosed (h : θ.Respects E E') (closed : t.IsClosed E) : (t.subst θ).IsClosed E' := by
  intro y hy
  obtain ⟨x, hx, hy⟩ := Term.mem_vars_subst.mp hy
  exact (h _ _ (.element (closed x hx))).isClosed y hy

/-- An instance is closed if that of a term is in which all its ends occur. -/
theorem isClosed_of_ends (h : θ.Respects E E') {s : Term}
    (ends : ∀ x ∈ t.vars, ¬ E x → x ∈ s.vars) (closed : (s.subst θ).IsClosed E') :
    (t.subst θ).IsClosed E' := by
  intro y hy
  obtain ⟨x, hx, hy⟩ := Term.mem_vars_subst.mp hy
  by_cases element : E x
  · exact (h _ _ (.element element)).isClosed y hy
  · exact closed y (Term.mem_vars_subst.mpr ⟨x, ends x hx element, hy⟩)

/-- Renaming keeps the kinds if it keeps those of the variables. -/
theorem rename (π : Variable → Variable) :
    Substitution.Respects (fun x => E (π x)) E fun x => .var (π x) := by
  intro k x kind
  cases kind with
  | ground ground => simp [Term.isGround] at ground
  | element element => exact .element element
  | loose loose => exact .loose loose

end Substitution.Respects

namespace Binding.Respects

variable {b : Binding} {t : Term}

/-- A single binding respects the kinds as a substitution. -/
theorem respects_apply (h : b.Respects E) :
    Substitution.Respects E E fun x => if x = b.var then b.term else .var x := by
  obtain ⟨k', var, term⟩ := h
  intro k x kind
  dsimp only
  split
  · next bound =>
      subst bound
      rwa [kind.var_unique var]
  · exact kind

/-- A binding that respects the kinds keeps the kind of a term. -/
theorem hasKind (h : b.Respects E) (kind : HasKind E k t) : HasKind E k (b.apply t) := by
  rw [apply_eq_subst]
  exact h.respects_apply.hasKind kind

/-- A binding that respects the kinds keeps a closed term closed. -/
theorem isClosed (h : b.Respects E) (closed : t.IsClosed E) : (b.apply t).IsClosed E := by
  rw [apply_eq_subst]
  exact h.respects_apply.isClosed closed

/-- A variable that stands for an element gets a closed term. -/
theorem isClosed_term (h : b.Respects E) (element : E b.var) : b.term.IsClosed E := by
  simpa using h.isClosed (t := .var b.var) (by simpa [Term.IsClosed] using element)

end Binding.Respects

/-- Bindings in sequence respect the kinds if each of them does. -/
theorem respects_applyAll {bindings : List Binding} (each : ∀ b ∈ bindings, b.Respects E) :
    Substitution.Respects E E fun x => applyAll bindings (.var x) := by
  suffices keeps : ∀ t k, HasKind E k t → HasKind E k (applyAll bindings t) from
    fun k x kind => keeps (.var x) k kind
  induction bindings with
  | nil => exact fun _ _ kind => kind
  | cons b bs ih =>
      obtain ⟨first, others⟩ := List.forall_mem_cons.mp each
      exact fun t k kind => ih others _ k (first.hasKind kind)

/-! ### Disciplined equations -/

/-- Both sides of an equation are of one kind. Among the equations with an open
left side, no variable at the end of a right side comes up again, be it on the
left or on the right. -/
structure Disciplined (E : Variable → Prop) (equations : List Equation) : Prop where
  kinds : ∀ e ∈ equations, ∃ k, HasKind E k e.left ∧ HasKind E k e.right
  once : equations.Pairwise fun e d => e.left.IsClosed E ∨ d.left.IsClosed E ∨
    ∀ x ∈ e.right.vars, x ∈ d.right.vars → E x
  apart : ∀ e ∈ equations, ∀ d ∈ equations, ¬ d.left.IsClosed E →
    ∀ x ∈ e.left.vars, x ∈ d.right.vars → E x

namespace Disciplined

variable {e : Equation} {b : Binding} {parts rest : List Equation}

/-- What is left of disciplined equations is disciplined. -/
theorem of_cons (h : Disciplined E (e :: rest)) : Disciplined E rest where
  kinds d hd := h.kinds d (List.mem_cons_of_mem e hd)
  once := (List.pairwise_cons.mp h.once).2
  apart c hc d hd := h.apart c (List.mem_cons_of_mem e hc) d (List.mem_cons_of_mem e hd)

/-- What is bound and what it is bound to are the sides of the equation. -/
theorem respects (h : Disciplined E (e :: rest)) (bind : e.move = .bind b) : b.Respects E := by
  obtain ⟨k, left, right⟩ := h.kinds e List.mem_cons_self
  have calls := e.move_calls
  rw [bind] at calls
  cases calls with
  | bindLeft => exact ⟨k, left, right⟩
  | bindRight => exact ⟨k, right, left⟩

/-- An element that contains a variable is that variable, and a spine does not
end in a variable on the other side. -/
theorem not_isCyclic (h : Disciplined E (e :: rest)) (bind : e.move = .bind b) :
    ¬ b.IsCyclic := by
  intro (cycle : b.var ∈ b.term.vars)
  have binds : Binds (e :: rest) b := .now bind
  have proper := binds.term_ne_var
  have apart := h.apart e List.mem_cons_self e List.mem_cons_self
  by_cases element : E b.var
  · obtain ⟨k, var, term⟩ := h.respects bind
    obtain rfl := var.eq_element element
    generalize b.term = t at term proper cycle
    cases term with
    | ground ground => exact Term.isGround_iff.mp ground _ cycle
    | @element x =>
        have same : b.var = x := by simpa using cycle
        exact proper (by rw [same])
  · have calls := e.move_calls
    rw [bind] at calls
    cases calls with
    | @bindLeft x t _ =>
        refine element (apart (fun closed => element ?_) x (by simp) cycle)
        exact closed x (by simp)
    | @bindRight y t _ =>
        by_cases closed : t.IsClosed E
        · exact element (closed y cycle)
        · exact element (apart closed y cycle (by simp))

/-- What a variable is bound to has no end in common with a right side that
waits. -/
theorem term_apart (h : Disciplined E (e :: rest)) (bind : e.move = .bind b) :
    ∀ d ∈ rest, ¬ d.left.IsClosed E → ∀ x ∈ b.term.vars, x ∈ d.right.vars → E x := by
  intro d hd opened x hx there
  have respects := h.respects bind
  have once := (List.pairwise_cons.mp h.once).1 d hd
  have calls := e.move_calls
  rw [bind] at calls
  cases calls with
  | @bindLeft y t _ =>
      rcases once with closed | closed | once
      · exact respects.isClosed_term (closed y (by simp)) x hx
      · exact absurd closed opened
      · exact once x hx there
  | bindRight =>
      exact h.apart _ List.mem_cons_self d (List.mem_cons_of_mem _ hd) opened x hx there

/-- A variable that gets an open term is at the end of no right side that
waits. -/
theorem var_not_mem (h : Disciplined E (e :: rest)) (bind : e.move = .bind b)
    (unclosed : ¬ b.term.IsClosed E) :
    ∀ d ∈ rest, ¬ d.left.IsClosed E → b.var ∉ d.right.vars := by
  intro d hd opened there
  have loose : ¬ E b.var := fun element => unclosed ((h.respects bind).isClosed_term element)
  have once := (List.pairwise_cons.mp h.once).1 d hd
  have calls := e.move_calls
  rw [bind] at calls
  cases calls with
  | @bindLeft y t _ =>
      exact loose (h.apart _ List.mem_cons_self d (List.mem_cons_of_mem _ hd) opened y (by simp)
        there)
  | @bindRight y t _ =>
      rcases once with closed | closed | once
      · exact unclosed closed
      · exact opened closed
      · exact loose (once y (by simp) there)

/-- A binding that is made keeps equations disciplined. -/
theorem bind (h : Disciplined E (e :: rest)) (bind : e.move = .bind b) :
    Disciplined E (rest.map (·.instantiate b)) := by
  have respects := h.respects bind
  -- A left side that is open under the binding was open before.
  have open_before {t : Term} (opened : ¬ (b.apply t).IsClosed E) : ¬ t.IsClosed E :=
    fun closed => opened (respects.isClosed closed)
  -- So the right side of its equation gets no new end.
  have rights : ∀ d ∈ rest, ¬ d.left.IsClosed E → ∀ x ∈ (b.apply d.right).vars,
      ¬ E x → x ∈ d.right.vars := by
    intro d hd opened x hx loose
    rcases Binding.mem_vars_apply.mp hx with ⟨there, _⟩ | ⟨bound, brought⟩
    · exact there
    · by_cases closed : b.term.IsClosed E
      · exact absurd (closed x brought) loose
      · exact absurd bound (h.var_not_mem bind closed d hd opened)
  refine ⟨?_, ?_, ?_⟩
  · intro d' image
    obtain ⟨d, hd, rfl⟩ := List.mem_map.mp image
    obtain ⟨k, left, right⟩ := h.of_cons.kinds d hd
    exact ⟨k, respects.hasKind left, respects.hasKind right⟩
  · refine List.pairwise_map.mpr (h.of_cons.once.imp_of_mem fun {c d} hc hd once => ?_)
    by_cases left : (b.apply c.left).IsClosed E
    · exact .inl left
    by_cases right : (b.apply d.left).IsClosed E
    · exact .inr (.inl right)
    refine .inr (.inr fun x hx hx' => by_contra fun loose => ?_)
    rcases once with closed | closed | once
    · exact open_before left closed
    · exact open_before right closed
    · exact loose (once x (rights c hc (open_before left) x hx loose)
        (rights d hd (open_before right) x hx' loose))
  · intro c' image d' image' opened x hx hx'
    obtain ⟨c, hc, rfl⟩ := List.mem_map.mp image
    obtain ⟨d, hd, rfl⟩ := List.mem_map.mp image'
    have opened := open_before opened
    by_contra loose
    have there := rights d hd opened x hx' loose
    rcases Binding.mem_vars_apply.mp hx with ⟨before, _⟩ | ⟨_, brought⟩
    · exact loose (h.of_cons.apart c hc d hd opened x before there)
    · exact loose (h.term_apart bind d hd opened x brought there)

/-- The parts of an equation are of one kind again and have its variables, and
only the last of them can have an open left side. -/
theorem of_split (h : Disciplined E (e :: rest)) (split : e.move = .split parts) :
    (∀ p ∈ parts, (∃ k, HasKind E k p.left ∧ HasKind E k p.right) ∧
      (∀ x ∈ p.left.vars, x ∈ e.left.vars) ∧ ∀ x ∈ p.right.vars, x ∈ e.right.vars) ∧
    parts.Pairwise fun p _ => p.left.IsClosed E := by
  obtain ⟨k, left, right⟩ := h.kinds e List.mem_cons_self
  have calls := e.move_calls
  rw [split] at calls
  cases calls with
  | @split f ss ts _ same =>
      have sides {p : Equation} (hp : p ∈ List.zipWith Equation.mk ss ts) :
          (∀ x ∈ p.left.vars, x ∈ (Term.app f ss).vars) ∧
            ∀ x ∈ p.right.vars, x ∈ (Term.app f ts).vars := by
        obtain ⟨hs, ht⟩ := Equation.mem_zipWith hp
        exact ⟨fun x hx => Term.mem_vars_app.mpr ⟨_, hs, hx⟩,
          fun x hx => Term.mem_vars_app.mpr ⟨_, ht, hx⟩⟩
      cases k with
      | element =>
          have ground {p : Equation} (hp : p ∈ List.zipWith Equation.mk ss ts) :
              p.left.isGround ∧ p.right.isGround := by
            obtain ⟨hs, ht⟩ := Equation.mem_zipWith hp
            exact ⟨left.isGround_of_app _ hs, right.isGround_of_app _ ht⟩
          refine ⟨fun p hp => ⟨⟨.element, .ground (ground hp).1, .ground (ground hp).2⟩, sides hp⟩,
            List.pairwise_of_forall_mem_list fun p hp _ _ => ?_⟩
          exact Term.isClosed_of_isGround (ground hp).1
      | spine =>
          cases left with
          | @cell _ es s each below =>
              cases right with
              | @cell _ es' t each' below' =>
                  have lengths : es.length = es'.length := by simpa using same
                  rw [List.zipWith_append lengths] at sides ⊢
                  have elements {p : Equation} (hp : p ∈ List.zipWith Equation.mk es es') :
                      HasKind E .element p.left ∧ HasKind E .element p.right := by
                    obtain ⟨hs, ht⟩ := Equation.mem_zipWith hp
                    exact ⟨each _ hs, each' _ ht⟩
                  refine ⟨fun p hp => ⟨?_, sides hp⟩, List.pairwise_append.mpr ⟨?_, by simp, ?_⟩⟩
                  · rcases List.mem_append.mp hp with element | last
                    · exact ⟨_, elements element⟩
                    · obtain rfl := List.mem_singleton.mp last
                      exact ⟨_, below, below'⟩
                  · exact List.pairwise_of_forall_mem_list fun p hp _ _ => (elements hp).1.isClosed
                  · exact fun p hp _ _ => (elements hp).1.isClosed

/-- The parts of an equation are as disciplined as the equation is. -/
theorem split (h : Disciplined E (e :: rest)) (split : e.move = .split parts) :
    Disciplined E (parts ++ rest) := by
  obtain ⟨sides, last⟩ := h.of_split split
  -- If all variables of a left side stand for elements then so do those of its
  -- parts.
  have open_before {p : Equation} (hp : p ∈ parts) (opened : ¬ p.left.IsClosed E) :
      ¬ e.left.IsClosed E := fun closed => opened fun x hx => closed x ((sides p hp).2.1 x hx)
  -- What is true of variables of the equation and of others is true of the
  -- parts and the others.
  have before {d : Equation} (hd : d ∈ parts ++ rest) : ∃ c ∈ e :: rest,
      (¬ d.left.IsClosed E → ¬ c.left.IsClosed E) ∧ (∀ x ∈ d.left.vars, x ∈ c.left.vars) ∧
        ∀ x ∈ d.right.vars, x ∈ c.right.vars := by
    rcases List.mem_append.mp hd with part | waiting
    · exact ⟨e, List.mem_cons_self, open_before part, (sides d part).2⟩
    · exact ⟨d, List.mem_cons_of_mem e waiting, id, fun _ hx => hx, fun _ hx => hx⟩
  refine ⟨?_, List.pairwise_append.mpr ⟨last.imp .inl, h.of_cons.once, ?_⟩, ?_⟩
  · intro d hd
    rcases List.mem_append.mp hd with part | waiting
    · exact (sides d part).1
    · exact h.of_cons.kinds d waiting
  · intro p hp d hd
    by_cases closed : p.left.IsClosed E
    · exact .inl closed
    rcases (List.pairwise_cons.mp h.once).1 d hd with first | waiting | once
    · exact absurd first (open_before hp closed)
    · exact .inr (.inl waiting)
    · exact .inr (.inr fun x hx => once x ((sides p hp).2.2 x hx))
  · intro c hc d hd opened x hx hx'
    obtain ⟨c', hc', _, lefts, _⟩ := before hc
    obtain ⟨d', hd', opened', _, rights⟩ := before hd
    exact h.apart c' hc' d' hd' (opened' opened) x (lefts x hx) (rights x hx')

end Disciplined

/-- Disciplined equations make no cyclic binding, and they keep the kinds,
whether they clash or not. -/
theorem Binds.of_disciplined {equations : List Equation} {b : Binding}
    (binds : Binds equations b) (h : Disciplined E equations) : b.Respects E ∧ ¬ b.IsCyclic := by
  induction binds with
  | now bind => exact ⟨h.respects bind, h.not_isCyclic bind⟩
  | discard _ _ ih => exact ih h.of_cons
  | bind bind _ ih => exact ih (h.bind bind)
  | split split _ ih => exact ih (h.split split)

end Resolvent
