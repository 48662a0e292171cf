/-
# The Peano program

Numerals are chains of cells without elements. Addition puts two of them
together, and so does it backwards, where it finds all ways to cut a numeral.
Multiplication collects the second factor once for each cell of the first one.
-/

import Resolvent.Programs.Peano
import Resolvent.Proofs.Programs.Chains
import Resolvent.Proofs.Programs.Lines

namespace Resolvent.Programs.Peano

/-! ### Clauses of the program -/

/-- The symbols for the names in the program. -/
structure Symbols where
  zero : Constant
  succ : Functor
  add : Predicate
  mul : Predicate
  nat : Predicate
  add_ne_mul : add ≠ mul
  add_ne_nat : add ≠ nat
  mul_ne_nat : mul ≠ nat

/-- The symbols that a vocabulary has for the names. -/
def symbols (v : Vocabulary) : Symbols where
  zero := (v.constant "z").1
  succ := (v.functor "s").1
  add := (v.predicate "add").1
  mul := (v.predicate "mul").1
  nat := (v.predicate "nat").1
  add_ne_mul := v.predicate_ne (by decide)
  add_ne_nat := v.predicate_ne (by decide)
  mul_ne_nat := v.predicate_ne (by decide)

section

variable (σ : Symbols) (named : String → Variable)

/-- A number as it is written. -/
def numeral : Nat → Term
  | 0 => .const σ.zero
  | n + 1 => .app σ.succ [numeral n]

/-- The fact `add(z, Y, Y).` -/
def addZero : Atom :=
  ⟨σ.add, [.const σ.zero, .var (named "Y"), .var (named "Y")]⟩

/-- The rule `add(s(X), Y, s(Z)) :- add(X, Y, Z).` -/
def addSucc : Rule :=
  ⟨⟨σ.add, [.app σ.succ [.var (named "X")], .var (named "Y"), .app σ.succ [.var (named "Z")]]⟩,
    [⟨σ.add, [.var (named "X"), .var (named "Y"), .var (named "Z")]⟩]⟩

/-- The fact `mul(z, Y, z).` -/
def mulZero : Atom :=
  ⟨σ.mul, [.const σ.zero, .var (named "Y"), .const σ.zero]⟩

/-- The rule `mul(s(X), Y, Z) :- mul(X, Y, W), add(W, Y, Z).` -/
def mulSucc : Rule :=
  ⟨⟨σ.mul, [.app σ.succ [.var (named "X")], .var (named "Y"), .var (named "Z")]⟩,
    [⟨σ.mul, [.var (named "X"), .var (named "Y"), .var (named "W")]⟩,
      ⟨σ.add, [.var (named "W"), .var (named "Y"), .var (named "Z")]⟩]⟩

/-- The fact `nat(z).` -/
def natZero : Atom :=
  ⟨σ.nat, [.const σ.zero]⟩

/-- The rule `nat(s(X)) :- nat(X).` -/
def natSucc : Rule :=
  ⟨⟨σ.nat, [.app σ.succ [.var (named "X")]]⟩, [⟨σ.nat, [.var (named "X")]⟩]⟩

end

/-- The store of the program. The variables of each clause are its own. -/
def store (σ : Symbols) (named : Nat → String → Variable) : Store where
  facts := [addZero σ (named 0), mulZero σ (named 2), natZero σ]
  rules := [addSucc σ (named 1), mulSucc σ (named 3), natSucc σ (named 5)]

/-- The lines of the program, each with the clauses that a vocabulary reads
from it which knows nothing else. -/
def lines : List (String × List Clause) :=
  let z : Term := .const ⟨1, "z"⟩
  let s (t : Term) : Term := .app ⟨1, "s"⟩ [t]
  let x : Term := .var ⟨2, "X"⟩
  let y : Term := .var ⟨3, "Y"⟩
  let u : Term := .var ⟨4, "Z"⟩
  let w : Term := .var ⟨5, "W"⟩
  [("% addition", []),
    ("add(z, Y, Y).", [.fact ⟨⟨0, "add"⟩, [z, .var ⟨2, "Y"⟩, .var ⟨2, "Y"⟩]⟩]),
    ("add(s(X), Y, s(Z)) :- add(X, Y, Z).",
      [.rule ⟨⟨⟨0, "add"⟩, [s x, y, s u]⟩, [⟨⟨0, "add"⟩, [x, y, u]⟩]⟩]),
    ("", []),
    ("% multiplication", []),
    ("mul(z, Y, z).", [.fact ⟨⟨0, "mul"⟩, [z, .var ⟨2, "Y"⟩, z]⟩]),
    ("mul(s(X), Y, Z) :- mul(X, Y, W), add(W, Y, Z).",
      [.rule ⟨⟨⟨0, "mul"⟩, [s x, y, u]⟩, [⟨⟨0, "mul"⟩, [x, y, w]⟩, ⟨⟨6, "add"⟩, [w, y, u]⟩]⟩]),
    ("", []),
    ("% every natural number", []),
    ("nat(z).", [.fact ⟨⟨0, "nat"⟩, [z]⟩]),
    ("nat(s(X)) :- nat(X).", [.rule ⟨⟨⟨0, "nat"⟩, [s x]⟩, [⟨⟨0, "nat"⟩, [x]⟩]⟩])]

/-- The lines are the program as it is shipped. -/
theorem source_eq : peano.source = Text.lines (lines.map Prod.fst) := rfl

/-- A knowledge base that is given the program has the store of the program. -/
theorem exists_base (v : Vocabulary) : ∃ clauses base named,
    KnowledgeBase.addProgram ⟨{}, v⟩ peano.source = (.ok clauses, base) ∧
      (∀ i name, (named i name).name = name) ∧
      base.store = store (symbols base.vocabulary) named := by
  have accepted : List.Forall₂ Vocabulary.Accepts (lines.map Prod.fst) (lines.map Prod.snd) :=
    Vocabulary.accepts_of_read (by decide +kernel)
  obtain ⟨base, named, called, added, stored⟩ :=
    KnowledgeBase.exists_dictionaries_of_lines accepted v
  exact ⟨_, base, named, added, called, stored⟩

/-! ### What the clauses conclude -/

/-- A numeral is a chain of cells without elements. -/
def cells (σ : Symbols) : Cells Unit where
  stop := σ.zero
  functor := σ.succ
  elements _ := []
  injective _ _ _ := rfl

variable {σ : Symbols} {named : Nat → String → Variable} {c : Clause}

/-- A numeral is a chain of as many cells as it counts. -/
theorem numeral_eq_whole (n : Nat) : numeral σ n = (cells σ).whole (List.replicate n ()) := by
  induction n with
  | zero => rfl
  | succ n ih =>
      rw [numeral, ih]
      rfl

/-- A cell has no elements that would have to be ground. -/
theorem hasGround (u : Unit) : (cells σ).HasGround u :=
  List.forall_mem_nil _

/-- A numeral has no variables. -/
theorem isGround_numeral (n : Nat) : (numeral σ n).isGround := by
  rw [numeral_eq_whole]
  exact Cells.isGround_whole fun u _ => hasGround u

/-- A numeral is a spine for the modes, as there is no variable in it. -/
theorem hasKind_numeral {E : Variable → Prop} (n : Nat) :
    Term.HasKind E .spine (numeral σ n) := by
  rw [numeral_eq_whole]
  exact Cells.hasKind_whole fun u _ => hasGround u

/-- The clauses come in the order of the search, facts before rules. -/
theorem mem_clauses : c ∈ (store σ named).clauses ↔
    c = .fact (addZero σ (named 0)) ∨ c = .fact (mulZero σ (named 2)) ∨ c = .fact (natZero σ) ∨
      c = .rule (addSucc σ (named 1)) ∨ c = .rule (mulSucc σ (named 3)) ∨
      c = .rule (natSucc σ (named 5)) := by
  simp [store, Store.clauses]

/-- No clause is there twice, since no predicate has more than one fact or one
rule. -/
theorem nodup_clauses : (store σ named).clauses.Nodup := by
  simp [store, Store.clauses, addZero, addSucc, mulZero, mulSucc, natZero, natSucc, σ.add_ne_mul,
    σ.add_ne_nat, σ.mul_ne_nat]

/-- A substitution is given by the names of the variables of a clause. -/
def byName (x y z w : Term) (v : Variable) : Term :=
  if v.name = "X" then x else if v.name = "Y" then y else if v.name = "Z" then z else w

section

variable (called : ∀ i name, (named i name).name = name)

include called

/-- The clauses for `add` put a numeral in front of a term. -/
theorem joins :
    Joins (store σ named) (cells σ) σ.add (.fact (addZero σ (named 0)))
      (.rule (addSucc σ (named 1))) where
  infers_iff {c x y z body} := by
    constructor
    · rintro ⟨clause, θ, head, rfl⟩
      rcases mem_clauses.mp clause with rfl | rfl | rfl | rfl | rfl | rfl
      · cases head
        exact .inl ⟨rfl, rfl, rfl, rfl⟩
      · exact absurd (congrArg Atom.predicate head) σ.add_ne_mul
      · exact absurd (congrArg Atom.predicate head) σ.add_ne_nat
      · cases head
        exact .inr ⟨rfl, (), _, _, rfl, rfl, rfl⟩
      · exact absurd (congrArg Atom.predicate head) σ.add_ne_mul
      · exact absurd (congrArg Atom.predicate head) σ.add_ne_nat
    · rintro (⟨rfl, rfl, rfl, rfl⟩ | ⟨rfl, _, x, z, rfl, rfl, rfl⟩)
      · exact ⟨mem_clauses.mpr (by simp), fun _ => y, rfl, rfl⟩
      · refine ⟨mem_clauses.mpr (by simp), byName x y z z, ?_, ?_⟩ <;>
          simp [cells, Cells.cell, Clause.head, Clause.body, addSucc, Atom.subst, byName, called]

/-- A product is concluded from nothing if the first factor is nought, and
otherwise from a smaller product and a sum. -/
theorem infers_mul_iff {x y z : Term} {body : List Atom} :
    (store σ named).Infers c ⟨σ.mul, [x, y, z]⟩ body ↔
      (c = .fact (mulZero σ (named 2)) ∧ x = .const σ.zero ∧ z = .const σ.zero ∧ body = []) ∨
      (c = .rule (mulSucc σ (named 3)) ∧ ∃ x' w, x = .app σ.succ [x'] ∧
        body = [⟨σ.mul, [x', y, w]⟩, ⟨σ.add, [w, y, z]⟩]) := by
  constructor
  · rintro ⟨clause, θ, head, rfl⟩
    rcases mem_clauses.mp clause with rfl | rfl | rfl | rfl | rfl | rfl
    · exact absurd (congrArg Atom.predicate head) σ.add_ne_mul.symm
    · cases head
      exact .inl ⟨rfl, rfl, rfl, rfl⟩
    · exact absurd (congrArg Atom.predicate head) σ.mul_ne_nat
    · exact absurd (congrArg Atom.predicate head) σ.add_ne_mul.symm
    · cases head
      exact .inr ⟨rfl, _, _, rfl, rfl⟩
    · exact absurd (congrArg Atom.predicate head) σ.mul_ne_nat
  · rintro (⟨rfl, rfl, rfl, rfl⟩ | ⟨rfl, x, w, rfl, rfl⟩)
    · exact ⟨mem_clauses.mpr (by simp), fun _ => y, rfl, rfl⟩
    · refine ⟨mem_clauses.mpr (by simp), byName x y z w, ?_, ?_⟩ <;>
        simp [Clause.head, Clause.body, mulSucc, Atom.subst, byName, called]

/-- The clauses for `mul` collect the second factor for each cell of the first
one. -/
theorem collects (n : Nat) :
    Collects (store σ named) (cells σ) σ.add (fun _ => List.replicate n ())
      (fun x z => ⟨σ.mul, [x, numeral σ n, z]⟩) (.fact (mulZero σ (named 2)))
      (.rule (mulSucc σ (named 3))) where
  infers_iff {c x z body} := by
    rw [infers_mul_iff called, ← numeral_eq_whole]
    exact or_congr_right (and_congr_right fun _ => ⟨fun h => ⟨(), h⟩, fun ⟨_, h⟩ => h⟩)

end

/-! ### Modes -/

/-- The modes of addition and multiplication. To multiply it is enough to know
the second factor. -/
def modes (σ : Symbols) (p : Predicate) : Option Mode :=
  if p = σ.add then some Joins.mode
  else if p = σ.mul then some ⟨[.spine, .spine, .spine], [1]⟩
  else none

/-- Addition is called in the mode of whatever puts chains together. -/
theorem modes_add : modes σ σ.add = some Joins.mode :=
  if_pos rfl

/-- The key of `mul` is its second factor, which is added again and again. -/
theorem modes_mul : modes σ σ.mul = some ⟨[.spine, .spine, .spine], [1]⟩ := by
  rw [modes, if_neg σ.add_ne_mul.symm, if_pos rfl]

/-- There is no mode for `nat`, which no other predicate calls. -/
theorem modes_nat : modes σ σ.nat = none := by
  rw [modes, if_neg σ.add_ne_nat.symm, if_neg σ.mul_ne_nat.symm]

section

variable (called : ∀ i name, (named i name).name = name)

include called

/-- Each clause calls its body in the modes of the predicates, whichever
variables its copies get. -/
theorem wellModed (base : Supply) :
    (store σ named).WellModed (fun _ => False) (modes σ) base := by
  have ne (i : Nat) {a b : String} (different : a ≠ b) : named i a ≠ named i b :=
    mt (congrArg Symbol.name) (by rwa [called, called])
  have loose (x : Variable) : Term.HasKind (fun _ => False) .spine (.var x) := .loose not_false
  intro c clause m mode supply _
  rcases mem_clauses.mp clause with rfl | rfl | rfl | rfl | rfl | rfl
  · obtain rfl : Joins.mode = m := Option.some.inj (modes_add.symm.trans mode)
    exact Joins.wellModed_last (k := cells σ) not_false
  · obtain rfl : _ = m := Option.some.inj (modes_mul.symm.trans mode)
    refine ⟨.cons (.stop _) (.cons (loose _) (.cons (.stop _) .nil)), ?_, List.forall_mem_nil _⟩
    exact Clause.once_of_pairwise (by simp [Clause.head, mulZero]) _
  · exact absurd (modes_nat.symm.trans mode) (Option.some_ne_none m).symm
  · obtain rfl : Joins.mode = m := Option.some.inj (modes_add.symm.trans mode)
    refine Joins.wellModed_next (k := cells σ) (a := ()) modes_add not_false not_false not_false ?_
      (List.forall_mem_nil _)
    simp [ne]
  · obtain rfl : _ = m := Option.some.inj (modes_mul.symm.trans mode)
    refine ⟨?head, ?once, ?body⟩
    case head =>
      exact .cons ((cells σ).hasKind_cell (a := ()) (List.forall_mem_nil _) (loose _))
        (.cons (loose _) (.cons (loose _) .nil))
    case once =>
      refine Clause.once_of_pairwise ?_ _
      simp [Clause.head, mulSucc, ne, Term.mem_vars_app]
    case body =>
      simp only [Clause.body, mulSucc, List.forall_mem_cons, List.not_mem_nil, false_imp_iff,
        implies_true, and_true]
      refine ⟨⟨_, modes_mul, ?_, ?_⟩, ⟨_, modes_add, ?_, ?_⟩⟩
      · exact .cons (loose _) (.cons (loose _) (.cons (loose _) .nil))
      · simp [Clause.head]
      · exact .cons (loose _) (.cons (loose _) (.cons (loose _) .nil))
      · simp [Clause.head, Joins.mode]
  · exact absurd (modes_nat.symm.trans mode) (Option.some_ne_none m).symm

/-! ### Searches -/

variable {m n : Nat} {x y : Variable} {verbose recording : Bool} {given : Supply}

/-- Two numerals have exactly one sum. -/
theorem enumerates_sum
    (known : given.Knows (store σ named) [⟨σ.add, [numeral σ m, numeral σ n, .var x]⟩]) :
    Query.Enumerates (store σ named)
      (.ofGoals [⟨σ.add, [numeral σ m, numeral σ n, .var x]⟩] verbose recording) given
      [⟨[⟨x, numeral σ (m + n)⟩]⟩] := by
  simp only [numeral_eq_whole, List.replicate_add] at known ⊢
  exact (joins called).enumerates_whole known nodup_clauses (wellModed called given) modes_add
    not_false fun u _ => hasGround u

/-- Asked for backwards, addition cuts a numeral at every place, with the
smallest first summand first. -/
theorem enumerates_summands (apart : x ≠ y)
    (known : given.Knows (store σ named) [⟨σ.add, [.var x, .var y, numeral σ n]⟩]) :
    Query.Enumerates (store σ named)
      (.ofGoals [⟨σ.add, [.var x, .var y, numeral σ n]⟩] verbose recording) given
      ((List.range (n + 1)).map fun i => ⟨[⟨x, numeral σ i⟩, ⟨y, numeral σ (n - i)⟩]⟩) := by
  have splits : ((cells σ).splits x y (List.replicate n ())).map Prod.snd =
      (List.range (n + 1)).map fun i => ⟨[⟨x, numeral σ i⟩, ⟨y, numeral σ (n - i)⟩]⟩ := by
    rw [Cells.splits, List.map_map, List.length_replicate]
    refine List.map_congr_left fun i hi => ?_
    have le : min i n = i := Nat.min_eq_left (Nat.le_of_lt_succ (List.mem_range.mp hi))
    simp [numeral_eq_whole, le]
  rw [← splits]
  rw [numeral_eq_whole] at known ⊢
  exact (joins called).enumerates_splits apart known nodup_clauses (wellModed called given)
    modes_add not_false not_false fun u _ => hasGround u

/-- Two numerals have exactly one product. -/
theorem enumerates_product
    (known : given.Knows (store σ named) [⟨σ.mul, [numeral σ m, numeral σ n, .var x]⟩]) :
    Query.Enumerates (store σ named)
      (.ofGoals [⟨σ.mul, [numeral σ m, numeral σ n, .var x]⟩] verbose recording) given
      [⟨[⟨x, numeral σ (m * n)⟩]⟩] := by
  have collected : numeral σ (m * n) = (cells σ).whole
      ((List.replicate m ()).reverse.flatMap fun _ => List.replicate n ()) := by
    rw [numeral_eq_whole]
    congr 1
    exact (List.eq_replicate_iff.mpr (by simp)).symm
  rw [collected]
  refine (collects called n).enumerates (joins called) (fun τ => ?asks) ?vars
    (fun u _ => hasGround u) known nodup_clauses (wellModed called given) ?called
  case asks =>
    simp [Atom.subst, Term.subst_eq_self (isGround_numeral _), ← numeral_eq_whole]
  case vars =>
    simp [Atom.vars, Term.varsOf_cons_of_isGround (isGround_numeral _), varsOf_eq_eraseDups,
      List.eraseDups_cons]
  case called =>
    refine ⟨_, modes_mul, ?_, 1, by simp, numeral σ n, rfl, ?_⟩
    · exact .cons (hasKind_numeral m) (.cons (hasKind_numeral n) (.cons (.loose not_false) .nil))
    · exact Term.isClosed_of_isGround (isGround_numeral n)

end

/-- A knowledge base that is given the program, and nothing else, adds numbers
when it is asked for a sum. Asked for the summands it gives all of them,
beginning with the smallest first one. -/
theorem addition_both_ways (v : Vocabulary) : ∃ clauses base,
    KnowledgeBase.addProgram ⟨{}, v⟩ peano.source = (.ok clauses, base) ∧
      let σ := symbols base.vocabulary
      ∀ (m n : Nat) (x y : Variable) (verbose recording : Bool) (given : Supply),
        (given.Knows base.store [⟨σ.add, [numeral σ m, numeral σ n, .var x]⟩] →
          Query.Enumerates base.store
            (.ofGoals [⟨σ.add, [numeral σ m, numeral σ n, .var x]⟩] verbose recording) given
            [⟨[⟨x, numeral σ (m + n)⟩]⟩]) ∧
        (x ≠ y → given.Knows base.store [⟨σ.add, [.var x, .var y, numeral σ n]⟩] →
          Query.Enumerates base.store
            (.ofGoals [⟨σ.add, [.var x, .var y, numeral σ n]⟩] verbose recording) given
            ((List.range (n + 1)).map fun i => ⟨[⟨x, numeral σ i⟩, ⟨y, numeral σ (n - i)⟩]⟩)) := by
  obtain ⟨clauses, base, named, added, called, stored⟩ := exists_base v
  refine ⟨clauses, base, added, fun m n x y verbose recording given => ?_⟩
  rw [stored]
  exact ⟨enumerates_sum called, enumerates_summands called⟩

/-- Two and three are five, and one is the sum of zero and one in two ways. -/
theorem addition_two_three : ∃ clauses base x y given,
    KnowledgeBase.addProgram {} peano.source = (.ok clauses, base) ∧
      let σ := symbols base.vocabulary
      Query.Enumerates base.store
        (.ofGoals [⟨σ.add, [numeral σ 2, numeral σ 3, .var x]⟩] false false) given
        [⟨[⟨x, numeral σ 5⟩]⟩] ∧
      Query.Enumerates base.store
        (.ofGoals [⟨σ.add, [.var x, .var y, numeral σ 1]⟩] false false) given
        [⟨[⟨x, numeral σ 0⟩, ⟨y, numeral σ 1⟩]⟩, ⟨[⟨x, numeral σ 1⟩, ⟨y, numeral σ 0⟩]⟩] := by
  obtain ⟨clauses, base, added, adds⟩ := addition_both_ways {}
  obtain ⟨x, y, given, apart, known⟩ := KnowledgeBase.exists_fresh added
  refine ⟨clauses, base, x, y, given, added, ?_, ?_⟩
  · exact (adds 2 3 x y false false given).1 (known _ (by simp [isGround_numeral]))
  · exact (adds 0 1 x y false false given).2 apart (known _ (by simp [isGround_numeral]))

/-- A knowledge base that is given the program, and nothing else, multiplies
numbers, and then the search is at its end. -/
theorem multiplication (v : Vocabulary) : ∃ clauses base,
    KnowledgeBase.addProgram ⟨{}, v⟩ peano.source = (.ok clauses, base) ∧
      let σ := symbols base.vocabulary
      ∀ (m n : Nat) (x : Variable) (verbose recording : Bool) (given : Supply),
        given.Knows base.store [⟨σ.mul, [numeral σ m, numeral σ n, .var x]⟩] →
          Query.Enumerates base.store
            (.ofGoals [⟨σ.mul, [numeral σ m, numeral σ n, .var x]⟩] verbose recording) given
            [⟨[⟨x, numeral σ (m * n)⟩]⟩] := by
  obtain ⟨clauses, base, named, added, called, stored⟩ := exists_base v
  refine ⟨clauses, base, added, fun m n x verbose recording given => ?_⟩
  rw [stored]
  exact enumerates_product called

/-- Two times three is six and nothing else. -/
theorem multiplication_two_three : ∃ clauses base x given,
    KnowledgeBase.addProgram {} peano.source = (.ok clauses, base) ∧
      let σ := symbols base.vocabulary
      Query.Enumerates base.store
        (.ofGoals [⟨σ.mul, [numeral σ 2, numeral σ 3, .var x]⟩] false false) given
        [⟨[⟨x, numeral σ 6⟩]⟩] := by
  obtain ⟨clauses, base, added, multiplies⟩ := multiplication {}
  obtain ⟨x, _, given, _, known⟩ := KnowledgeBase.exists_fresh added
  refine ⟨clauses, base, x, given, added, ?_⟩
  exact multiplies 2 3 x false false given (known _ (by simp [isGround_numeral]))

end Resolvent.Programs.Peano
