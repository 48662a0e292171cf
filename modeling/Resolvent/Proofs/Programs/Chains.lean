/-
# Programs about chains

Numerals and lists are built alike, from a constant by cells around it. A cell
of a list holds an element, that of a numeral holds nothing. Adding numbers and
appending lists are one and the same program then. It puts two chains together,
by recursion on the first one. Multiplication and reversal are the same program
too, that collects what comes of the cells of a chain and uses the first
program for it.

What such programs prove is stated here, whatever clauses there are beside them
in the store: which atoms have proofs, and of how many nodes, that there is one
way to prove them only, and that they settle. A goal of the second program
settles although the search comes to its parts in the wrong order. The part
with the recursion is unfolded first, and makes known what the other part puts
together.
-/

import Resolvent.Proofs.Search.Schedules
import Resolvent.Proofs.Unification.Matching

namespace Resolvent

/-- How chains are built. Cells with different things in them are different. -/
structure Cells (α : Type) where
  stop : Constant
  functor : Functor
  elements : α → List Term
  injective : Function.Injective elements

namespace Cells

variable {α : Type} {k : Cells α} {a b : α} {as bs : List α} {s t u : Term}

/-- A cell in front of a term. -/
def cell (k : Cells α) (a : α) (t : Term) : Term :=
  .app k.functor (k.elements a ++ [t])

/-- Several cells in front of a term. -/
def chain (k : Cells α) (as : List α) (t : Term) : Term :=
  as.foldr k.cell t

/-- A chain with its end. -/
def whole (k : Cells α) (as : List α) : Term :=
  k.chain as (.const k.stop)

/-- A cell tells what it holds and what is below it. -/
@[simp] theorem cell_inj : k.cell a t = k.cell b u ↔ a = b ∧ t = u := by
  constructor
  · intro same
    obtain ⟨elements, last⟩ := List.append_inj' (Term.app.inj same).2 rfl
    exact ⟨k.injective elements, List.singleton_inj.mp last⟩
  · rintro ⟨rfl, rfl⟩
    rfl

/-- A cell is no end of a chain. -/
@[simp] theorem cell_ne_const {c : Constant} : k.cell a t ≠ .const c := by
  simp [cell]

@[simp] theorem const_ne_cell {c : Constant} : .const c ≠ k.cell a t :=
  cell_ne_const.symm

@[simp] theorem chain_nil : k.chain [] t = t := rfl

@[simp] theorem chain_cons : k.chain (a :: as) t = k.cell a (k.chain as t) := rfl

/-- A chain with a whole chain put below it is the whole of both. -/
theorem chain_whole : k.chain as (k.whole bs) = k.whole (as ++ bs) :=
  (List.foldr_append ..).symm

@[simp] theorem whole_nil : k.whole [] = .const k.stop := rfl

@[simp] theorem whole_cons : k.whole (a :: as) = k.cell a (k.whole as) := rfl

/-- A whole chain begins with some cells if they are its first ones. -/
theorem whole_eq_chain_iff :
    k.whole as = k.chain bs t ↔ ∃ cs, as = bs ++ cs ∧ t = k.whole cs := by
  induction bs generalizing as with
  | nil => simp [eq_comm]
  | cons b bs ih =>
      cases as with
      | nil => simp
      | cons a as =>
          simp only [whole_cons, chain_cons, cell_inj, ih, List.cons_append, List.cons.injEq]
          exact ⟨fun ⟨first, cs, rest, last⟩ => ⟨cs, ⟨first, rest⟩, last⟩,
            fun ⟨cs, ⟨first, rest⟩, last⟩ => ⟨first, cs, rest, last⟩⟩

/-- A whole chain tells its cells. -/
@[simp] theorem whole_inj : k.whole as = k.whole bs ↔ as = bs := by
  constructor
  · intro same
    obtain ⟨cs, rfl, last⟩ := whole_eq_chain_iff.mp same
    cases cs with
    | nil => rw [List.append_nil]
    | cons c cs => exact absurd last const_ne_cell
  · exact congrArg k.whole

/-- The ways to cut a chain into two. For each of them it is said how deep the
search finds it. -/
def splits (k : Cells α) (x y : Variable) (as : List α) : List (Nat × Answer) :=
  (List.range (as.length + 1)).map fun i =>
    (i + 1, ⟨[⟨x, k.whole (as.take i)⟩, ⟨y, k.whole (as.drop i)⟩]⟩)

/-- The things in a cell are ground. -/
def HasGround (k : Cells α) (a : α) : Prop :=
  ∀ t ∈ k.elements a, t.isGround

/-- A whole chain is ground if its cells hold ground elements only. -/
theorem isGround_whole (each : ∀ a ∈ as, k.HasGround a) : (k.whole as).isGround := by
  induction as with
  | nil => rfl
  | cons a as ih =>
      obtain ⟨first, rest⟩ := List.forall_mem_cons.mp each
      refine Term.isGround_iff.mpr fun x occurs => ?_
      obtain ⟨t, ht, hx⟩ := Term.mem_vars_app.mp occurs
      rcases List.mem_append.mp ht with element | last
      · exact Term.isGround_iff.mp (first t element) x hx
      · obtain rfl := List.mem_singleton.mp last
        exact Term.isGround_iff.mp (ih rest) x hx

/-- Where cells have ground elements, a binding reaches what stands behind
them. -/
theorem apply_chain {b : Binding} (each : ∀ a ∈ as, k.HasGround a) :
    b.apply (k.chain as t) = k.chain as (b.apply t) := by
  induction as with
  | nil => rfl
  | cons a as ih =>
      obtain ⟨first, rest⟩ := List.forall_mem_cons.mp each
      have fixed : (k.elements a).map b.apply = k.elements a := by
        refine (List.map_congr_left fun u hu => ?_).trans (List.map_id _)
        exact b.apply_eq_self (Term.isGround_iff.mp (first u hu) _)
      simp [cell, fixed, ih rest]

/-- A cell in front of a variable has no other end. -/
theorem ends_cell {E : Variable → Prop} (elements : ∀ t ∈ k.elements a, Term.HasKind E .element t)
    {x y : Variable} (hx : x ∈ (k.cell a (.var y)).vars) : E x ∨ x = y := by
  obtain ⟨t, ht, hx⟩ := Term.mem_vars_app.mp hx
  rcases List.mem_append.mp ht with element | last
  · exact .inl ((elements t element).isClosed x hx)
  · obtain rfl := List.mem_singleton.mp last
    exact .inr (List.mem_singleton.mp (by simpa using hx))

/-- A cell above a spine is a spine, if it holds elements. -/
theorem hasKind_cell {E : Variable → Prop}
    (elements : ∀ t ∈ k.elements a, Term.HasKind E .element t) (below : Term.HasKind E .spine t) :
    Term.HasKind E .spine (k.cell a t) :=
  .cell k.functor elements below

/-- A whole chain with ground elements is a spine, as it has no variables. -/
theorem hasKind_whole {E : Variable → Prop} (each : ∀ a ∈ as, k.HasGround a) :
    Term.HasKind E .spine (k.whole as) := by
  induction as with
  | nil => exact .stop k.stop
  | cons a as ih =>
      obtain ⟨first, rest⟩ := List.forall_mem_cons.mp each
      exact hasKind_cell (fun t ht => .ground (first t ht)) (ih rest)

end Cells

open Cells

variable {α : Type} {store : Store} {k : Cells α} {p : Predicate} {q : Term → Term → Atom}
  {piece : α → List α} {c last next : Clause} {a : α} {as bs : List α} {x y z : Term}
  {body : List Atom} {n : Nat}

/-! ### Putting chains together -/

/-- Two clauses of the store are all there is for a predicate. They put a chain
in front of a term. -/
structure Joins (store : Store) (k : Cells α) (p : Predicate) (last next : Clause) : Prop where
  infers_iff : ∀ {c x y z body}, store.Infers c ⟨p, [x, y, z]⟩ body ↔
    (c = last ∧ x = .const k.stop ∧ y = z ∧ body = []) ∨
    (c = next ∧ ∃ a x' z', x = k.cell a x' ∧ z = k.cell a z' ∧ body = [⟨p, [x', y, z']⟩])

namespace Joins

/-- What is proved is that the third term is the chain in front of the second
one. -/
theorem forest_iff (h : Joins store k p last next) : Forest store [⟨p, [x, y, z]⟩] n ↔
    ∃ as, x = k.whole as ∧ z = k.chain as y ∧ n = as.length + 1 := by
  constructor
  · intro forest
    induction n generalizing x z with
    | zero =>
        obtain ⟨_, _, _, _, _, count⟩ := Forest.singleton_iff.mp forest
        omega
    | succ n ih =>
        obtain ⟨c, body, m, infers, below, count⟩ := Forest.singleton_iff.mp forest
        obtain rfl : n = m := by omega
        rcases h.infers_iff.mp infers with ⟨_, rfl, rfl, rfl⟩ | ⟨_, a, x', z', rfl, rfl, rfl⟩
        · cases below
          exact ⟨[], rfl, rfl, rfl⟩
        · obtain ⟨as, rfl, rfl, rfl⟩ := ih below
          exact ⟨a :: as, rfl, rfl, rfl⟩
  · rintro ⟨as, rfl, rfl, rfl⟩
    induction as with
    | nil =>
        exact Forest.singleton_iff.mpr
          ⟨last, [], 0, h.infers_iff.mpr (.inl ⟨rfl, rfl, rfl, rfl⟩), .nil, rfl⟩
    | cons a as ih =>
        exact Forest.singleton_iff.mpr
          ⟨next, _, _, h.infers_iff.mpr (.inr ⟨rfl, a, _, _, rfl, rfl, rfl⟩), ih, rfl⟩

/-- From a whole chain two chains are cut. -/
theorem forest_whole_iff (h : Joins store k p last next) :
    Forest store [⟨p, [x, y, k.whole as]⟩] n ↔
      ∃ i ≤ as.length, i + 1 = n ∧ x = k.whole (as.take i) ∧ y = k.whole (as.drop i) := by
  rw [h.forest_iff]
  constructor
  · rintro ⟨bs, rfl, whole, rfl⟩
    obtain ⟨cs, rfl, rfl⟩ := whole_eq_chain_iff.mp whole
    exact ⟨bs.length, by simp, rfl, by simp, by simp⟩
  · rintro ⟨i, le, rfl, rfl, rfl⟩
    refine ⟨as.take i, rfl, ?_, ?_⟩
    · rw [chain_whole, List.take_append_drop]
    · rw [List.length_take_of_le le]

/-- A goal with a whole chain in front settles, and what is behind it may rely
on its result. -/
theorem settles_of_first (h : Joins store k p last next) {rest : Multiset Atom}
    (settles : z = k.chain as y → Settles store n rest) :
    Settles store (n + as.length + 1) (⟨p, [k.whole as, y, z]⟩ ::ₘ rest) := by
  induction as generalizing z with
  | nil =>
      refine .choose _ rest fun c body infers => ?_
      rcases h.infers_iff.mp infers with ⟨_, _, rfl, rfl⟩ | ⟨_, _, _, _, absent, _⟩
      · rw [Multiset.coe_nil, add_zero]
        exact settles rfl
      · exact absurd absent const_ne_cell
  | cons a as ih =>
      refine .choose _ rest fun c body infers => ?_
      rcases h.infers_iff.mp infers with ⟨_, absent, _⟩ | ⟨_, b, x', z', same, rfl, rfl⟩
      · exact absurd absent cell_ne_const
      · obtain ⟨rfl, rfl⟩ := cell_inj.mp same
        rw [Multiset.coe_singleton, add_comm rest, Multiset.singleton_add]
        exact ih fun joined => settles (by rw [joined, chain_cons])

/-- A goal with a whole chain at the end settles. -/
theorem settles_of_last (h : Joins store k p last next) :
    Settles store (as.length + 1) {⟨p, [x, y, k.whole as]⟩} := by
  induction as generalizing x with
  | nil =>
      refine .choose _ 0 fun c body infers => ?_
      rcases h.infers_iff.mp infers with ⟨_, _, _, rfl⟩ | ⟨_, _, _, _, _, absent, _⟩
      · exact .none _
      · exact absurd absent const_ne_cell
  | cons a as ih =>
      refine .choose _ 0 fun c body infers => ?_
      rcases h.infers_iff.mp infers with ⟨_, _, _, rfl⟩ | ⟨_, b, x', z', _, same, rfl⟩
      · exact .none _
      · obtain ⟨rfl, rfl⟩ := cell_inj.mp same
        rw [zero_add]
        exact ih

/-- An atom of the predicate says from what it is inferred. -/
theorem unambiguous (h : Joins store k p last next) :
    Unambiguous store fun b => ∃ x y z, b = ⟨p, [x, y, z]⟩ := by
  rintro _ ⟨x, y, z, rfl⟩ c body c' body' infers infers' _ _
  rcases h.infers_iff.mp infers with ⟨rfl, rfl, rfl, rfl⟩ | ⟨rfl, a, x', z', rfl, rfl, rfl⟩
  · rcases h.infers_iff.mp infers' with ⟨rfl, _, _, rfl⟩ | ⟨_, _, _, _, absent, _⟩
    · exact ⟨rfl, rfl, by simp⟩
    · exact absurd absent const_ne_cell
  · rcases h.infers_iff.mp infers' with ⟨_, absent, _⟩ | ⟨rfl, _, _, _, same, same', rfl⟩
    · exact absurd absent cell_ne_const
    · obtain ⟨rfl, rfl⟩ := cell_inj.mp same
      obtain ⟨_, rfl⟩ := cell_inj.mp same'
      exact ⟨rfl, rfl, by simp⟩

variable {v w : Variable}

/-- Two chains are put together. -/
theorem schedule_whole (h : Joins store k p last next) (ground : ∀ a ∈ as ++ bs, k.HasGround a) :
    Schedule store [⟨p, [k.whole as, k.whole bs, .var v]⟩]
      [(as.length + 1, ⟨[⟨v, k.whole (as ++ bs)⟩]⟩)] := by
  obtain ⟨first, second⟩ := List.forall_mem_append.mp ground
  refine .single ?_ (isGround_whole ground) (fun τ n => ?_) h.unambiguous fun τ => ?_
  · simp [Term.varsOf_cons_of_isGround (isGround_whole first),
      Term.varsOf_cons_of_isGround (isGround_whole second), varsOf_eq_eraseDups,
      List.eraseDups_cons]
  · simp [Atom.subst, Term.subst_eq_self (isGround_whole first),
      Term.subst_eq_self (isGround_whole second), h.forest_iff, chain_whole]
  · simp [Atom.subst]

/-- A chain is cut into two, wherever that can be done. -/
theorem schedule_splits (h : Joins store k p last next) (distinct : v ≠ w)
    (ground : ∀ a ∈ as, k.HasGround a) :
    Schedule store [⟨p, [.var v, .var w, k.whole as]⟩] (k.splits v w as) where
  sorted := List.pairwise_map.mpr (List.pairwise_lt_range.imp Nat.succ_lt_succ)
  asked := by
    simp [splits, varsOf_eq_eraseDups, Term.isGround_iff_occurrences.mp (isGround_whole ground),
      List.eraseDups_cons, distinct.symm]
  ground := by
    have parts (i : Nat) : (k.whole (as.take i)).isGround ∧ (k.whole (as.drop i)).isGround :=
      ⟨isGround_whole fun a ha => ground a (List.mem_of_mem_take ha),
        isGround_whole fun a ha => ground a (List.mem_of_mem_drop ha)⟩
    simp [splits, Answer.isGround, parts]
  forest_iff τ n := by
    simp [Atom.subst, Term.subst_eq_self (isGround_whole ground), h.forest_whole_iff, splits]
  unique τ cs cs' first second _ := by
    refine h.unambiguous.unfolds_unique first second ?_
    simp [Atom.subst]

/-- The mode of such a predicate: the chain behind is closed, or the result
is. -/
def mode : Mode :=
  ⟨[.spine, .spine, .spine], [1, 2]⟩

section

variable {E : Variable → Prop} {modes : Predicate → Option Mode} {given : Supply}
  {verbose recording : Bool} {v' : Variable}

/-- The clause for the end has a variable twice, once in each key. -/
theorem wellModed_last (loose : ¬ E v) :
    Clause.WellModed E modes (.fact ⟨p, [.const k.stop, .var v, .var v]⟩) mode where
  head := .cons (.stop _) (.cons (.loose loose) (.cons (.loose loose) .nil))
  once := by
    intro i j s t before first second ⟨x, hx, _⟩ key among
    have some_vars : i ≠ 0 := by
      rintro rfl
      cases first
      simp at hx
    obtain ⟨few, -⟩ := List.getElem?_eq_some_iff.mp second
    simp only [Clause.head, List.length_cons, List.length_nil] at few
    simp only [mode, List.mem_cons, List.not_mem_nil, or_false] at among
    omega
  body := List.forall_mem_nil _

/-- The clause for a cell asks for what is known of its head. -/
theorem wellModed_next (called : modes p = some mode) (loose : ¬ E v) (loose' : ¬ E v')
    (loose'' : ¬ E w) (apart : [v, v', w].Nodup)
    (elements : ∀ t ∈ k.elements a, Term.HasKind E .element t) :
    Clause.WellModed E modes (.rule ⟨⟨p, [k.cell a (.var v), .var v', k.cell a (.var w)]⟩,
      [⟨p, [.var v, .var v', .var w]⟩]⟩) mode where
  head := .cons (hasKind_cell elements (.loose loose))
    (.cons (.loose loose') (.cons (hasKind_cell elements (.loose loose'')) .nil))
  once := by
    have ends {x y : Variable} : x ∈ (k.cell a (.var y)).vars → E x ∨ x = y := ends_cell elements
    refine Clause.once_of_pairwise ?_ _
    simp only [Clause.head, List.pairwise_cons, List.nodup_cons, List.mem_cons, List.not_mem_nil,
      or_false, forall_eq_or_imp, forall_eq, Term.vars_var] at apart ⊢
    grind
  body := by
    refine List.forall_mem_singleton.mpr ⟨mode, called, ?_, ?_⟩
    · exact .cons (.loose loose) (.cons (.loose loose') (.cons (.loose loose'') .nil))
    · simp [mode, Clause.head, Cells.cell, Term.mem_vars_app]

/-- A search for what two chains are together gives it, and nothing more. -/
theorem enumerates_whole (h : Joins store k p last next)
    (known : given.Knows store [⟨p, [k.whole as, k.whole bs, .var v]⟩])
    (distinct : store.clauses.Nodup) (wellModed : store.WellModed E modes given)
    (called : modes p = some mode) (loose : ¬ E v) (ground : ∀ a ∈ as ++ bs, k.HasGround a) :
    Query.Enumerates store (.ofGoals [⟨p, [k.whole as, k.whole bs, .var v]⟩] verbose recording)
      given [⟨[⟨v, k.whole (as ++ bs)⟩]⟩] := by
  obtain ⟨first, second⟩ := List.forall_mem_append.mp ground
  have moded : (⟨p, [k.whole as, k.whole bs, .var v]⟩ : Atom).IsModed E modes := by
    refine ⟨mode, called, ?kinds, 1, by simp [mode], k.whole bs, rfl, ?closed⟩
    case kinds =>
      exact .cons (hasKind_whole first) (.cons (hasKind_whole second) (.cons (.loose loose) .nil))
    case closed => exact Term.isClosed_of_isGround (isGround_whole second)
  have settles (τ : Substitution) : Settles store (0 + as.length + 1)
      ([⟨p, [k.whole as, k.whole bs, .var v]⟩].map (Atom.subst τ) : List Atom) := by
    have alone := h.settles_of_first fun (_ : τ v = k.chain as (k.whole bs)) => .none 0
    simpa [Atom.subst, Term.subst_eq_self (isGround_whole first),
      Term.subst_eq_self (isGround_whole second)] using alone
  exact Query.enumerates_of_settles (h.schedule_whole ground) known distinct wellModed
    (List.forall_mem_singleton.mpr moded) settles

/-- A search for the ways to cut a chain gives all of them, the shortest first
part first. -/
theorem enumerates_splits (h : Joins store k p last next) (apart : v ≠ w)
    (known : given.Knows store [⟨p, [.var v, .var w, k.whole as]⟩])
    (distinct : store.clauses.Nodup) (wellModed : store.WellModed E modes given)
    (called : modes p = some mode) (loose : ¬ E v) (loose' : ¬ E w)
    (ground : ∀ a ∈ as, k.HasGround a) :
    Query.Enumerates store (.ofGoals [⟨p, [.var v, .var w, k.whole as]⟩] verbose recording)
      given ((k.splits v w as).map Prod.snd) := by
  have moded : (⟨p, [.var v, .var w, k.whole as]⟩ : Atom).IsModed E modes := by
    refine ⟨mode, called, ?kinds, 2, by simp [mode], k.whole as, rfl, ?closed⟩
    case kinds =>
      exact .cons (.loose loose) (.cons (.loose loose') (.cons (hasKind_whole ground) .nil))
    case closed => exact Term.isClosed_of_isGround (isGround_whole ground)
  have settles (τ : Substitution) : Settles store (as.length + 1)
      ([⟨p, [.var v, .var w, k.whole as]⟩].map (Atom.subst τ) : List Atom) := by
    simpa [Atom.subst, Term.subst_eq_self (isGround_whole ground)] using h.settles_of_last
  exact Query.enumerates_of_settles (h.schedule_splits apart ground) known distinct wellModed
    (List.forall_mem_singleton.mpr moded) settles

end

end Joins

/-! ### Collecting from a chain -/

/-- Two clauses of the store are all there is for atoms of another form. They
collect a piece for each cell of a chain, that of the first cell last. -/
structure Collects (store : Store) (k : Cells α) (p : Predicate) (piece : α → List α)
    (q : Term → Term → Atom) (last next : Clause) : Prop where
  infers_iff : ∀ {c x z body}, store.Infers c (q x z) body ↔
    (c = last ∧ x = .const k.stop ∧ z = .const k.stop ∧ body = []) ∨
    (c = next ∧ ∃ a x' w, x = k.cell a x' ∧
      body = [q x' w, ⟨p, [w, k.whole (piece a), z]⟩])

namespace Collects

variable {last' next' : Clause}

/-- What is proved for a chain is the pieces of its cells, put together, and
all proofs have as many nodes. -/
theorem exists_forest_iff (h : Collects store k p piece q last next)
    (joins : Joins store k p last' next') (as : List α) : ∃ d, ∀ z n,
      Forest store [q (k.whole as) z] n ↔ z = k.whole (as.reverse.flatMap piece) ∧ n = d := by
  induction as with
  | nil =>
      refine ⟨1, fun z n => ?_⟩
      rw [Forest.singleton_iff]
      constructor
      · rintro ⟨c, body, m, infers, below, rfl⟩
        rcases h.infers_iff.mp infers with ⟨_, _, rfl, rfl⟩ | ⟨_, _, _, _, absent, _⟩
        · cases below
          exact ⟨rfl, rfl⟩
        · exact absurd absent const_ne_cell
      · rintro ⟨rfl, rfl⟩
        exact ⟨last, [], 0, h.infers_iff.mpr (.inl ⟨rfl, rfl, rfl, rfl⟩), .nil, rfl⟩
  | cons a as ih =>
      obtain ⟨d, ih⟩ := ih
      refine ⟨d + ((as.reverse.flatMap piece).length + 1) + 1, fun z n => ?_⟩
      have collected : (a :: as).reverse.flatMap piece =
          as.reverse.flatMap piece ++ piece a := by simp
      rw [Forest.singleton_iff, collected]
      constructor
      · rintro ⟨c, body, m, infers, below, rfl⟩
        rcases h.infers_iff.mp infers with ⟨_, absent, _⟩ | ⟨_, b, x', w, same, rfl⟩
        · exact absurd absent cell_ne_const
        · obtain ⟨rfl, rfl⟩ := cell_inj.mp same
          obtain ⟨i, j, first, second, rfl⟩ := Forest.cons_iff.mp below
          obtain ⟨rfl, rfl⟩ := (ih w i).mp first
          obtain ⟨bs, same, rfl, rfl⟩ := joins.forest_iff.mp second
          obtain rfl := whole_inj.mp same
          exact ⟨chain_whole, rfl⟩
      · rintro ⟨rfl, rfl⟩
        let collected := k.whole (as.reverse.flatMap piece)
        refine ⟨next, _, _, h.infers_iff.mpr (.inr ⟨rfl, a, _, collected, rfl, rfl⟩), ?_, rfl⟩
        exact Forest.cons_iff.mpr ⟨d, _, (ih _ d).mpr ⟨rfl, rfl⟩,
          joins.forest_iff.mpr ⟨_, rfl, chain_whole.symm, rfl⟩, rfl⟩

/-- A goal with a whole chain settles, and what is behind it may rely on its
result. -/
theorem exists_settles (h : Collects store k p piece q last next)
    (joins : Joins store k p last' next') (as : List α) (n : Nat) : ∃ m, ∀ z rest,
      (z = k.whole (as.reverse.flatMap piece) → Settles store n rest) →
        Settles store m (q (k.whole as) z ::ₘ rest) := by
  induction as generalizing n with
  | nil =>
      refine ⟨n + 1, fun z rest settles => .choose _ rest fun c body infers => ?_⟩
      rcases h.infers_iff.mp infers with ⟨_, _, rfl, rfl⟩ | ⟨_, _, _, _, absent, _⟩
      · rw [Multiset.coe_nil, add_zero]
        exact settles rfl
      · exact absurd absent const_ne_cell
  | cons a as ih =>
      obtain ⟨m, ih⟩ := ih (n + (as.reverse.flatMap piece).length + 1)
      refine ⟨m + 1, fun z rest settles => .choose _ rest fun c body infers => ?_⟩
      rcases h.infers_iff.mp infers with ⟨_, absent, _⟩ | ⟨_, b, x', w, same, rfl⟩
      · exact absurd absent cell_ne_const
      · obtain ⟨rfl, rfl⟩ := cell_inj.mp same
        rw [add_comm rest, ← Multiset.cons_coe, Multiset.coe_singleton, Multiset.cons_add,
          Multiset.singleton_add]
        -- The recursive goal is chosen first, and then the other one has a
        -- whole chain in front.
        refine ih w _ fun collected => ?_
        rw [collected]
        refine joins.settles_of_first fun joined => settles ?_
        rw [joined, chain_whole]
        simp

/-- There is one way to prove what is asked for a chain. What is collected from
the rest of it is not to be seen in the atom, but there is one possibility
only. -/
theorem unambiguous (h : Collects store k p piece q last next)
    (joins : Joins store k p last' next') :
    Unambiguous store fun b =>
      (∃ x y z, b = ⟨p, [x, y, z]⟩) ∨ ∃ as z, b = q (k.whole as) z := by
  rintro b (join | ⟨as, z, rfl⟩) c body c' body' infers infers' proves proves'
  · obtain ⟨clause, same, below⟩ :=
      joins.unambiguous b join c body c' body' infers infers' proves proves'
    exact ⟨clause, same, fun b hb => .inl (below b hb)⟩
  · rcases h.infers_iff.mp infers with ⟨rfl, first, rfl, rfl⟩ | ⟨rfl, a, x', w, first, rfl⟩
    · rcases h.infers_iff.mp infers' with ⟨rfl, _, _, rfl⟩ | ⟨_, _, _, _, absent, _⟩
      · exact ⟨rfl, rfl, by simp⟩
      · exact absurd (first.symm.trans absent) const_ne_cell
    · rcases h.infers_iff.mp infers' with ⟨_, absent, _⟩ | ⟨rfl, _, _, w', same, rfl⟩
      · exact absurd (first.symm.trans absent) cell_ne_const
      · obtain ⟨rfl, rfl⟩ := cell_inj.mp (first.symm.trans same)
        cases as with
        | nil => exact absurd first const_ne_cell
        | cons b as =>
            obtain ⟨rfl, rfl⟩ := cell_inj.mp first
            obtain ⟨d, forest_iff⟩ := h.exists_forest_iff joins as
            obtain ⟨n, below⟩ := proves
            obtain ⟨n', below'⟩ := proves'
            obtain ⟨_, _, recursive, _⟩ := Forest.cons_iff.mp below
            obtain ⟨_, _, recursive', _⟩ := Forest.cons_iff.mp below'
            obtain ⟨rfl, _⟩ := (forest_iff _ _).mp recursive
            obtain ⟨rfl, _⟩ := (forest_iff _ _).mp recursive'
            refine ⟨rfl, rfl, List.forall_mem_cons.mpr ⟨.inr ⟨as, _, rfl⟩, fun b hb => ?_⟩⟩
            exact .inl ⟨_, _, _, List.mem_singleton.mp hb⟩

/-- What is collected from a chain is the only answer. -/
theorem exists_schedule (h : Collects store k p piece q last next)
    (joins : Joins store k p last' next') {goal : Atom} {v : Variable}
    (asks : ∀ τ, goal.subst τ = q (k.whole as) (τ v)) (vars : goal.vars = [v])
    (ground : ∀ a ∈ as.reverse.flatMap piece, k.HasGround a) :
    ∃ d, Schedule store [goal] [(d, ⟨[⟨v, k.whole (as.reverse.flatMap piece)⟩]⟩)] := by
  obtain ⟨d, forest_iff⟩ := h.exists_forest_iff joins as
  refine ⟨d, .single ?_ (isGround_whole ground) (fun τ n => ?_) (h.unambiguous joins) fun τ => ?_⟩
  · rw [List.flatMap_singleton]
    exact vars
  · rw [List.map_singleton, asks, forest_iff]
  · intro a ha
    rw [List.mem_singleton.mp ha, asks]
    exact .inr ⟨as, τ v, rfl⟩

/-- A search for what is collected from a chain gives it, and nothing more. -/
theorem enumerates (h : Collects store k p piece q last next)
    (joins : Joins store k p last' next') {goal : Atom} {v : Variable}
    (asks : ∀ τ, goal.subst τ = q (k.whole as) (τ v)) (vars : goal.vars = [v])
    (ground : ∀ a ∈ as.reverse.flatMap piece, k.HasGround a) {E : Variable → Prop}
    {modes : Predicate → Option Mode} {given : Supply} {verbose recording : Bool}
    (known : given.Knows store [goal]) (distinct : store.clauses.Nodup)
    (wellModed : store.WellModed E modes given) (called : goal.IsModed E modes) :
    Query.Enumerates store (.ofGoals [goal] verbose recording) given
      [⟨[⟨v, k.whole (as.reverse.flatMap piece)⟩]⟩] := by
  obtain ⟨d, schedule⟩ := h.exists_schedule joins asks vars ground
  obtain ⟨n, settles⟩ := h.exists_settles joins as 0
  have settled (τ : Substitution) :
      Settles store n (([goal].map (Atom.subst τ) : List Atom) : Multiset Atom) := by
    rw [List.map_singleton, asks]
    exact settles (τ v) 0 fun _ => .none 0
  exact Query.enumerates_of_settles schedule known distinct wellModed
    (List.forall_mem_singleton.mpr called) settled

end Collects

end Resolvent
