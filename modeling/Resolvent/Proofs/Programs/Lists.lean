/-
# The list program

Lists are chains of cells with one element each. Appending puts two of them
together, and backwards it finds all ways to cut a list into two. Reversal
collects the elements, the first one last. Both are known from chains;
membership, which has a proof for every place of an element, is not.

The elements are any ground terms. While the search goes on, the variables for
elements must be told from those for lists, as a list may be open and an
element never is. They are told by their names.
-/

import Resolvent.Programs.Lists
import Resolvent.Proofs.Programs.Chains
import Resolvent.Proofs.Programs.Lines

namespace Resolvent.Programs.Lists

/-! ### Clauses of the program -/

/-- The symbols for the names in the program. -/
structure Symbols where
  nil : Constant
  cons : Functor
  append : Predicate
  member : Predicate
  reverse : Predicate
  append_ne_member : append ≠ member
  append_ne_reverse : append ≠ reverse
  member_ne_reverse : member ≠ reverse

/-- The symbols that a vocabulary has for the names. -/
def symbols (v : Vocabulary) : Symbols where
  nil := (v.constant "nil").1
  cons := (v.functor "cons").1
  append := (v.predicate "append").1
  member := (v.predicate "member").1
  reverse := (v.predicate "reverse").1
  append_ne_member := v.predicate_ne (by decide)
  append_ne_reverse := v.predicate_ne (by decide)
  member_ne_reverse := v.predicate_ne (by decide)

section

variable (σ : Symbols) (named : String → Variable)

/-- A list as it is written. -/
def list : List Term → Term
  | [] => .const σ.nil
  | t :: ts => .app σ.cons [t, list ts]

/-- The fact `append(nil, L, L).` -/
def appendNil : Atom :=
  ⟨σ.append, [.const σ.nil, .var (named "L"), .var (named "L")]⟩

/-- The rule `append(cons(H, T), L, cons(H, R)) :- append(T, L, R).` -/
def appendCons : Rule :=
  ⟨⟨σ.append, [.app σ.cons [.var (named "H"), .var (named "T")], .var (named "L"),
      .app σ.cons [.var (named "H"), .var (named "R")]]⟩,
    [⟨σ.append, [.var (named "T"), .var (named "L"), .var (named "R")]⟩]⟩

/-- The fact `member(X, cons(X, T)).` -/
def memberHead : Atom :=
  ⟨σ.member, [.var (named "X"), .app σ.cons [.var (named "X"), .var (named "T")]]⟩

/-- The rule `member(X, cons(H, T)) :- member(X, T).` -/
def memberTail : Rule :=
  ⟨⟨σ.member, [.var (named "X"), .app σ.cons [.var (named "H"), .var (named "T")]]⟩,
    [⟨σ.member, [.var (named "X"), .var (named "T")]⟩]⟩

/-- The fact `reverse(nil, nil).` -/
def reverseNil : Atom :=
  ⟨σ.reverse, [.const σ.nil, .const σ.nil]⟩

/-- The rule `reverse(cons(H, T), R) :- reverse(T, S), append(S, cons(H, nil),
R).` -/
def reverseCons : Rule :=
  ⟨⟨σ.reverse, [.app σ.cons [.var (named "H"), .var (named "T")], .var (named "R")]⟩,
    [⟨σ.reverse, [.var (named "T"), .var (named "S")]⟩,
      ⟨σ.append, [.var (named "S"), .app σ.cons [.var (named "H"), .const σ.nil],
        .var (named "R")]⟩]⟩

end

/-- The store of the program. The variables of each clause are its own. -/
def store (σ : Symbols) (named : Nat → String → Variable) : Store where
  facts := [appendNil σ (named 0), memberHead σ (named 2), reverseNil σ]
  rules := [appendCons σ (named 1), memberTail σ (named 3), reverseCons σ (named 5)]

/-- The lines of the program, each with the clauses that a vocabulary reads
from it which knows nothing else. -/
def lines : List (String × List Clause) :=
  let nil : Term := .const ⟨1, "nil"⟩
  let cons (serial : Nat) (h t : Term) : Term := .app ⟨serial, "cons"⟩ [h, t]
  let v (serial : Nat) (name : String) : Term := .var ⟨serial, name⟩
  [("append(nil, L, L).", [.fact ⟨⟨0, "append"⟩, [nil, v 2 "L", v 2 "L"]⟩]),
    ("append(cons(H, T), L, cons(H, R)) :- append(T, L, R).",
      [.rule ⟨⟨⟨0, "append"⟩, [cons 1 (v 2 "H") (v 3 "T"), v 4 "L", cons 1 (v 2 "H") (v 5 "R")]⟩,
        [⟨⟨0, "append"⟩, [v 3 "T", v 4 "L", v 5 "R"]⟩]⟩]),
    ("", []),
    ("member(X, cons(X, T)).",
      [.fact ⟨⟨0, "member"⟩, [v 1 "X", cons 2 (v 1 "X") (v 3 "T")]⟩]),
    ("member(X, cons(H, T)) :- member(X, T).",
      [.rule ⟨⟨⟨0, "member"⟩, [v 1 "X", cons 2 (v 3 "H") (v 4 "T")]⟩,
        [⟨⟨0, "member"⟩, [v 1 "X", v 4 "T"]⟩]⟩]),
    ("", []),
    ("reverse(nil, nil).", [.fact ⟨⟨0, "reverse"⟩, [nil, nil]⟩]),
    ("reverse(cons(H, T), R) :- reverse(T, S), append(S, cons(H, nil), R).",
      [.rule ⟨⟨⟨0, "reverse"⟩, [cons 1 (v 2 "H") (v 3 "T"), v 4 "R"]⟩,
        [⟨⟨0, "reverse"⟩, [v 3 "T", v 5 "S"]⟩,
          ⟨⟨6, "append"⟩, [v 5 "S", cons 1 (v 2 "H") (.const ⟨7, "nil"⟩), v 4 "R"]⟩]⟩])]

/-- The lines are the program as it is shipped. -/
theorem source_eq : lists.source = Text.lines (lines.map Prod.fst) := rfl

/-- A knowledge base that is given the program has the store of the program. -/
theorem exists_base (v : Vocabulary) : ∃ clauses base named,
    KnowledgeBase.addProgram ⟨{}, v⟩ lists.source = (.ok clauses, base) ∧
      (∀ i name, (named i name).name = name) ∧
      base.store = store (symbols base.vocabulary) named := by
  have accepted : List.Forall₂ Vocabulary.Accepts (lines.map Prod.fst) (lines.map Prod.snd) :=
    Vocabulary.accepts_of_read (by decide +kernel)
  obtain ⟨base, named, called, added, stored⟩ :=
    KnowledgeBase.exists_dictionaries_of_lines accepted v
  exact ⟨_, base, named, added, called, stored⟩

/-! ### What the clauses conclude -/

/-- A list is a chain of cells with one element each. -/
def cells (σ : Symbols) : Cells Term where
  stop := σ.nil
  functor := σ.cons
  elements h := [h]
  injective _ _ := List.singleton_inj.mp

variable {σ : Symbols} {named : Nat → String → Variable} {c : Clause} {x y z l : Term}
  {ts : List Term} {body : List Atom} {n : Nat}

/-- A list as it is written is a chain without an open end. -/
theorem list_eq_whole (ts : List Term) : list σ ts = (cells σ).whole ts := by
  induction ts with
  | nil => rfl
  | cons t ts ih =>
      rw [list, ih]
      rfl

/-- The elements of a cell are ground if its one element is. -/
theorem hasGround {t : Term} (ground : t.isGround) : (cells σ).HasGround t :=
  List.forall_mem_singleton.mpr ground

/-- A list of ground terms is ground. -/
theorem isGround_list (ground : ∀ t ∈ ts, t.isGround) : (list σ ts).isGround := by
  rw [list_eq_whole]
  exact Cells.isGround_whole fun t ht => hasGround (ground t ht)

/-- A list of ground terms is a spine for the modes, whatever stands for an
element, as there is no variable in it. -/
theorem hasKind_list {E : Variable → Prop} (ground : ∀ t ∈ ts, t.isGround) :
    Term.HasKind E .spine (list σ ts) := by
  rw [list_eq_whole]
  exact Cells.hasKind_whole fun t ht => hasGround (ground t ht)

/-- The clauses come in the order of the search, facts before rules. -/
theorem mem_clauses : c ∈ (store σ named).clauses ↔
    c = .fact (appendNil σ (named 0)) ∨ c = .fact (memberHead σ (named 2)) ∨
      c = .fact (reverseNil σ) ∨ c = .rule (appendCons σ (named 1)) ∨
      c = .rule (memberTail σ (named 3)) ∨ c = .rule (reverseCons σ (named 5)) := by
  simp [store, Store.clauses]

/-- No clause is there twice, since no predicate has more than one fact or one
rule. -/
theorem nodup_clauses : (store σ named).clauses.Nodup := by
  simp [store, Store.clauses, appendNil, appendCons, memberHead, memberTail, reverseNil,
    reverseCons, σ.append_ne_member, σ.append_ne_reverse, σ.member_ne_reverse]

/-- A substitution is given by the names of the variables of a clause. -/
def byName (h t r : Term) (others : Term) (v : Variable) : Term :=
  if v.name = "H" then h else if v.name = "T" then t else if v.name = "R" then r else others

section

variable (called : ∀ i name, (named i name).name = name)

include called

/-- The clauses for `append` put a list in front of a term. -/
theorem joins :
    Joins (store σ named) (cells σ) σ.append (.fact (appendNil σ (named 0)))
      (.rule (appendCons σ (named 1))) where
  infers_iff {c x y z body} := by
    constructor
    · rintro ⟨clause, θ, head, rfl⟩
      rcases mem_clauses.mp clause with rfl | rfl | rfl | rfl | rfl | rfl
      · cases head
        exact .inl ⟨rfl, rfl, rfl, rfl⟩
      · exact absurd (congrArg Atom.predicate head) σ.append_ne_member
      · exact absurd (congrArg Atom.predicate head) σ.append_ne_reverse
      · cases head
        exact .inr ⟨rfl, _, _, _, rfl, rfl, rfl⟩
      · exact absurd (congrArg Atom.predicate head) σ.append_ne_member
      · exact absurd (congrArg Atom.predicate head) σ.append_ne_reverse
    · rintro (⟨rfl, rfl, rfl, rfl⟩ | ⟨rfl, h, t, r, rfl, rfl, rfl⟩)
      · exact ⟨mem_clauses.mpr (by simp), fun _ => y, rfl, rfl⟩
      · refine ⟨mem_clauses.mpr (by simp), byName h t r y, ?_, ?_⟩ <;>
          simp [cells, Cells.cell, Clause.head, Clause.body, appendCons, Atom.subst, byName, called]

/-- The clauses for `reverse` collect one element for each cell. -/
theorem collects :
    Collects (store σ named) (cells σ) σ.append (fun t => [t]) (fun x z => ⟨σ.reverse, [x, z]⟩)
      (.fact (reverseNil σ)) (.rule (reverseCons σ (named 5))) where
  infers_iff {c x z body} := by
    constructor
    · rintro ⟨clause, θ, head, rfl⟩
      rcases mem_clauses.mp clause with rfl | rfl | rfl | rfl | rfl | rfl
      · exact absurd (congrArg Atom.predicate head) σ.append_ne_reverse.symm
      · exact absurd (congrArg Atom.predicate head) σ.member_ne_reverse.symm
      · cases head
        exact .inl ⟨rfl, rfl, rfl, rfl⟩
      · exact absurd (congrArg Atom.predicate head) σ.append_ne_reverse.symm
      · exact absurd (congrArg Atom.predicate head) σ.member_ne_reverse.symm
      · cases head
        exact .inr ⟨rfl, _, _, _, rfl, rfl⟩
    · rintro (⟨rfl, rfl, rfl, rfl⟩ | ⟨rfl, h, t, s, rfl, rfl⟩)
      · exact ⟨mem_clauses.mpr (by simp), .var, rfl, rfl⟩
      · refine ⟨mem_clauses.mpr (by simp), byName h t z s, ?_, ?_⟩ <;>
          simp [cells, Cells.cell, Clause.head, Clause.body, reverseCons, Atom.subst, byName,
            called]

/-- A membership is concluded from nothing if the element stands in front, and
otherwise from the membership in the rest. -/
theorem infers_member_iff :
    (store σ named).Infers c ⟨σ.member, [x, l]⟩ body ↔
      (c = .fact (memberHead σ (named 2)) ∧ (∃ t, l = .app σ.cons [x, t]) ∧ body = []) ∨
      (c = .rule (memberTail σ (named 3)) ∧
        ∃ h t, l = .app σ.cons [h, t] ∧ body = [⟨σ.member, [x, t]⟩]) := by
  constructor
  · rintro ⟨clause, θ, head, rfl⟩
    rcases mem_clauses.mp clause with rfl | rfl | rfl | rfl | rfl | rfl
    · exact absurd (congrArg Atom.predicate head) σ.append_ne_member.symm
    · cases head
      exact .inl ⟨rfl, ⟨_, rfl⟩, rfl⟩
    · exact absurd (congrArg Atom.predicate head) σ.member_ne_reverse
    · exact absurd (congrArg Atom.predicate head) σ.append_ne_member.symm
    · cases head
      exact .inr ⟨rfl, _, _, rfl, rfl⟩
    · exact absurd (congrArg Atom.predicate head) σ.member_ne_reverse
  · rintro (⟨rfl, ⟨t, rfl⟩, rfl⟩ | ⟨rfl, h, t, rfl, rfl⟩)
    · refine ⟨mem_clauses.mpr (by simp), byName x t x x, ?_, rfl⟩
      simp [Clause.head, memberHead, Atom.subst, byName, called]
    · refine ⟨mem_clauses.mpr (by simp), byName h t x x, ?_, ?_⟩ <;>
        simp [Clause.head, Clause.body, memberTail, Atom.subst, byName, called]

/-! ### Members -/

/-- The member in each place has one proof, in which the elements in front of
it are passed. -/
theorem unfolds_member_iff {cs : List Clause} :
    Unfolds (store σ named) cs [⟨σ.member, [x, list σ ts]⟩] [] ↔ ∃ i, ts[i]? = some x ∧
      cs = List.replicate i (.rule (memberTail σ (named 3))) ++
        [.fact (memberHead σ (named 2))] := by
  constructor
  · intro unfolds
    induction ts generalizing cs with
    | nil =>
        cases unfolds with
        | step infers _ =>
            rcases (infers_member_iff called).mp infers with
              ⟨_, ⟨_, absent⟩, _⟩ | ⟨_, _, _, absent, _⟩
            · exact absurd absent nofun
            · exact absurd absent nofun
    | cons t ts ih =>
        cases unfolds with
        | step infers later =>
            rcases (infers_member_iff called).mp infers with
              ⟨rfl, ⟨_, same⟩, rfl⟩ | ⟨rfl, _, _, same, rfl⟩
            · cases same
              cases later
              exact ⟨0, rfl, rfl⟩
            · cases same
              obtain ⟨i, found, rfl⟩ := ih later
              exact ⟨i + 1, found, rfl⟩
  · rintro ⟨i, found, rfl⟩
    induction i generalizing ts with
    | zero =>
        cases ts with
        | nil => cases found
        | cons t ts =>
            cases found
            exact .step ((infers_member_iff called).mpr (.inl ⟨rfl, ⟨_, rfl⟩, rfl⟩)) (.done [])
    | succ i ih =>
        cases ts with
        | nil => cases found
        | cons t ts =>
            exact .step ((infers_member_iff called).mpr (.inr ⟨rfl, _, _, rfl, rfl⟩)) (ih found)

/-- There is a proof of membership for each place at which the element stands,
and it has one node more than places in front. -/
theorem forest_member_iff :
    Forest (store σ named) [⟨σ.member, [x, list σ ts]⟩] n ↔ ∃ i, i + 1 = n ∧ ts[i]? = some x := by
  constructor
  · intro forest
    obtain ⟨cs, rfl, unfolds⟩ := forest.exists_unfolds
    obtain ⟨i, found, rfl⟩ := (unfolds_member_iff called).mp unfolds
    exact ⟨i, by simp, found⟩
  · rintro ⟨i, rfl, found⟩
    simpa using ((unfolds_member_iff called).mpr ⟨i, found, rfl⟩).forest

/-- However often the element is met, no proof goes beyond the end of the
list. -/
theorem settles_member :
    Settles (store σ named) (ts.length + 1) {⟨σ.member, [x, list σ ts]⟩} := by
  induction ts with
  | nil =>
      refine .choose _ 0 fun c body infers => ?_
      rcases (infers_member_iff called).mp infers with ⟨_, _, rfl⟩ | ⟨_, _, _, absent, _⟩
      · exact .none _
      · exact absurd absent nofun
  | cons t ts ih =>
      refine .choose _ 0 fun c body infers => ?_
      rcases (infers_member_iff called).mp infers with ⟨_, _, rfl⟩ | ⟨_, _, _, same, rfl⟩
      · exact .none _
      · cases same
        rw [zero_add]
        exact ih

/-- The members are due in their order, the one at place `i` at depth
`i + 1`. -/
theorem schedule_member (v : Variable) (ground : ∀ t ∈ ts, t.isGround) :
    Schedule (store σ named) [⟨σ.member, [.var v, list σ ts]⟩]
      (ts.mapIdx fun i t => (i + 1, ⟨[⟨v, t⟩]⟩)) where
  sorted := by
    rw [List.pairwise_iff_getElem]
    simp
  asked p hp := by
    obtain ⟨i, hi, rfl⟩ := List.mem_mapIdx.mp hp
    simp [varsOf_eq_eraseDups, Term.isGround_iff_occurrences.mp (isGround_list ground),
      List.eraseDups_cons]
  ground p hp := by
    obtain ⟨i, hi, rfl⟩ := List.mem_mapIdx.mp hp
    simpa [Answer.isGround] using ground _ (List.getElem_mem hi)
  forest_iff τ n := by
    simp [Atom.subst, Term.subst_eq_self (isGround_list ground), forest_member_iff called,
      List.mem_mapIdx, List.getElem?_eq_some_iff, eq_comm (a := τ v)]
  unique τ cs cs' first second length := by
    simp only [Atom.subst, List.map_cons, List.map_nil,
      Term.subst_eq_self (isGround_list ground)] at first second
    obtain ⟨i, _, rfl⟩ := (unfolds_member_iff called).mp first
    obtain ⟨j, _, rfl⟩ := (unfolds_member_iff called).mp second
    obtain rfl : i = j := by simpa using length
    rfl

end

/-! ### Modes -/

/-- The modes of the predicates. A list is closed when it is searched or turned
around. -/
def modes (σ : Symbols) (p : Predicate) : Option Mode :=
  if p = σ.append then some Joins.mode
  else if p = σ.member then some ⟨[.element, .spine], [1]⟩
  else if p = σ.reverse then some ⟨[.spine, .spine], [0]⟩
  else none

/-- Appending is called in the mode of whatever puts chains together. -/
theorem modes_append : modes σ σ.append = some Joins.mode :=
  if_pos rfl

/-- The key of `member` is the list. -/
theorem modes_member : modes σ σ.member = some ⟨[.element, .spine], [1]⟩ := by
  rw [modes, if_neg σ.append_ne_member.symm, if_pos rfl]

/-- The key of `reverse` is the list to be reversed. -/
theorem modes_reverse : modes σ σ.reverse = some ⟨[.spine, .spine], [0]⟩ := by
  rw [modes, if_neg σ.append_ne_reverse.symm, if_neg σ.member_ne_reverse.symm, if_pos rfl]

/-- What is called `H` or `X` in a clause stands for an element. -/
def NamesElement (x : Variable) : Prop :=
  x.name = "H" ∨ x.name = "X"

/-- The variables that stand for elements in a search: those that are asked
for, and the copies of those in clauses. -/
def Elements (given : Supply) (asked : List Variable) (x : Variable) : Prop :=
  x ∈ asked ∨ ¬ given.Covers x ∧ NamesElement x

variable {given : Supply} {asked : List Variable}

/-- What the query already knew does not stand for an element unless it is
asked for. -/
theorem not_elements {v : Variable} (covered : given.Covers v) (absent : v ∉ asked) :
    ¬ Elements given asked v := by
  rintro (among | ⟨new, _⟩)
  · exact absent among
  · exact new covered

/-- The copy of a variable stands for an element if its name says so. -/
theorem elements_copy (covered : ∀ x ∈ asked, given.Covers x) {supply : Supply}
    (later : given.next ≤ supply.next) (xs : List Variable) (x : Variable) :
    Elements given asked (supply.copy xs x) ↔ NamesElement x := by
  have new : ¬ given.Covers (supply.copy xs x) := fun old =>
    supply.not_covers_copy xs x (old.mono later)
  constructor
  · rintro (among | ⟨_, name⟩)
    · exact absurd (covered _ among) new
    · exact name
  · exact fun name => .inr ⟨new, name⟩

section

variable (called : ∀ i name, (named i name).name = name)

include called

/-- An element of a clause is one wherever it stands. -/
theorem hasKind_element {i : Nat} {name : String} (is : name = "H" ∨ name = "X") :
    Term.HasKind NamesElement .element (.var (named i name)) := by
  refine .element ?_
  rwa [NamesElement, called]

/-- No other name stands for an element. -/
theorem not_namesElement {i : Nat} {name : String} (other : ¬ (name = "H" ∨ name = "X")) :
    ¬ NamesElement (named i name) := by
  rwa [NamesElement, called]

/-- A variable with another name may be used as a list. -/
theorem hasKind_loose {i : Nat} {name : String} (other : ¬ (name = "H" ∨ name = "X")) :
    Term.HasKind NamesElement .spine (.var (named i name)) :=
  .loose (not_namesElement called other)

/-- A cell with an element in front of a list is a list. -/
theorem hasKind_cons {i : Nat} {name : String} (is : name = "H" ∨ name = "X") {t : Term}
    (below : Term.HasKind NamesElement .spine t) :
    Term.HasKind NamesElement .spine (.app σ.cons [.var (named i name), t]) :=
  (cells σ).hasKind_cell (List.forall_mem_singleton.mpr (hasKind_element called is)) below

/-- The clauses are well moded, each with the variables that are its own. -/
theorem wellModed_clause {m : Mode} (clause : c ∈ (store σ named).clauses)
    (mode : modes σ c.head.predicate = some m) : c.WellModed NamesElement (modes σ) m := by
  have ne (i : Nat) {a b : String} (different : a ≠ b) : named i a ≠ named i b :=
    mt (congrArg Symbol.name) (by rwa [called, called])
  have loose (i : Nat) (name : String) (other : ¬ (name = "H" ∨ name = "X")) :
      Term.HasKind NamesElement .spine (.var (named i name)) := hasKind_loose called other
  rcases mem_clauses.mp clause with rfl | rfl | rfl | rfl | rfl | rfl
  · obtain rfl : Joins.mode = m := Option.some.inj (modes_append.symm.trans mode)
    exact Joins.wellModed_last (k := cells σ) (not_namesElement called (by decide))
  · obtain rfl : _ = m := Option.some.inj (modes_member.symm.trans mode)
    refine ⟨?head, ?once, List.forall_mem_nil _⟩
    case head =>
      exact .cons (hasKind_element called (by decide))
        (.cons (hasKind_cons called (by decide) (loose 2 "T" (by decide))) .nil)
    case once =>
      refine Clause.once_of_pairwise ?_ _
      simp [Clause.head, memberHead, NamesElement, called]
  · obtain rfl : _ = m := Option.some.inj (modes_reverse.symm.trans mode)
    refine ⟨.cons (.stop _) (.cons (.stop _) .nil), ?_, List.forall_mem_nil _⟩
    exact Clause.once_of_pairwise (by simp [Clause.head, reverseNil]) _
  · obtain rfl : Joins.mode = m := Option.some.inj (modes_append.symm.trans mode)
    refine Joins.wellModed_next (k := cells σ) modes_append (not_namesElement called (by decide))
      (not_namesElement called (by decide)) (not_namesElement called (by decide)) ?_
      (List.forall_mem_singleton.mpr (hasKind_element called (by decide)))
    simp [ne]
  · obtain rfl : _ = m := Option.some.inj (modes_member.symm.trans mode)
    refine ⟨?head, ?once, ?body⟩
    case head =>
      exact .cons (hasKind_element called (by decide))
        (.cons (hasKind_cons called (by decide) (loose 3 "T" (by decide))) .nil)
    case once =>
      refine Clause.once_of_pairwise ?_ _
      simp [Clause.head, memberTail, NamesElement, called]
    case body =>
      refine List.forall_mem_singleton.mpr ⟨_, modes_member, ?_, ?_⟩
      · exact .cons (hasKind_element called (by decide)) (.cons (loose 3 "T" (by decide)) .nil)
      · simp [Clause.head, memberTail, Term.mem_vars_app]
  · obtain rfl : _ = m := Option.some.inj (modes_reverse.symm.trans mode)
    refine ⟨?head, ?once, ?body⟩
    case head =>
      exact .cons (hasKind_cons called (by decide) (loose 5 "T" (by decide)))
        (.cons (loose 5 "R" (by decide)) .nil)
    case once =>
      refine Clause.once_of_pairwise ?_ _
      simp [Clause.head, reverseCons, Term.mem_vars_app, ne]
    case body =>
      simp only [Clause.body, reverseCons, List.forall_mem_cons, List.not_mem_nil, false_imp_iff,
        implies_true, and_true]
      refine ⟨⟨_, modes_reverse, ?_, ?_⟩, ⟨_, modes_append, ?_, ?_⟩⟩
      · exact .cons (loose 5 "T" (by decide)) (.cons (loose 5 "S" (by decide)) .nil)
      · simp [Clause.head, Term.mem_vars_app]
      · exact .cons (loose 5 "S" (by decide)) (.cons (hasKind_cons called (by decide) (.stop _))
          (.cons (loose 5 "R" (by decide)) .nil))
      · simp [Clause.head, Joins.mode, Term.mem_vars_app, NamesElement, called]

/-- Each clause calls its body in the modes of the predicates, whichever
variables its copies get. -/
theorem wellModed (covered : ∀ x ∈ asked, given.Covers x) :
    (store σ named).WellModed (Elements given asked) (modes σ) given := by
  intro c clause m mode supply later
  simp only [elements_copy covered later]
  exact wellModed_clause called clause mode

/-! ### Searches -/

variable {v w : Variable} {verbose recording : Bool}

/-- Asked for backwards, `append` cuts a list at every place, from the front to
the end. -/
theorem enumerates_splits (ground : ∀ t ∈ ts, t.isGround) (apart : v ≠ w)
    (known : given.Knows (store σ named) [⟨σ.append, [.var v, .var w, list σ ts]⟩]) :
    Query.Enumerates (store σ named)
      (.ofGoals [⟨σ.append, [.var v, .var w, list σ ts]⟩] verbose recording) given
      ((List.range (ts.length + 1)).map fun i =>
        ⟨[⟨v, list σ (ts.take i)⟩, ⟨w, list σ (ts.drop i)⟩]⟩) := by
  have splits : ((cells σ).splits v w ts).map Prod.snd = (List.range (ts.length + 1)).map fun i =>
      ⟨[⟨v, list σ (ts.take i)⟩, ⟨w, list σ (ts.drop i)⟩]⟩ := by
    simp [Cells.splits, list_eq_whole]
  have loose {x : Variable} (asked : x = v ∨ x = w) : ¬ Elements given [] x := by
    refine not_elements (known.goals _ List.mem_cons_self x ?_) List.not_mem_nil
    exact ⟨.var x, by rcases asked with rfl | rfl <;> simp, by simp⟩
  rw [← splits]
  rw [list_eq_whole] at known ⊢
  exact (joins called).enumerates_splits apart known nodup_clauses
    (wellModed called (List.forall_mem_nil _)) modes_append (loose (.inl rfl)) (loose (.inr rfl))
    fun t ht => hasGround (ground t ht)

/-- A list has its elements for members, in their order and as often as they
occur. -/
theorem enumerates_members (ground : ∀ t ∈ ts, t.isGround)
    (known : given.Knows (store σ named) [⟨σ.member, [.var v, list σ ts]⟩]) :
    Query.Enumerates (store σ named)
      (.ofGoals [⟨σ.member, [.var v, list σ ts]⟩] verbose recording) given
      (ts.map fun t => ⟨[⟨v, t⟩]⟩) := by
  have covered : given.Covers v :=
    known.goals _ List.mem_cons_self v ⟨.var v, List.mem_cons_self, by simp⟩
  have moded : (⟨σ.member, [.var v, list σ ts]⟩ : Atom).IsModed (Elements given [v]) (modes σ) := by
    refine ⟨_, modes_member, ?_, 1, by simp, list σ ts, rfl, ?_⟩
    · exact .cons (.element (.inl List.mem_cons_self)) (.cons (hasKind_list ground) .nil)
    · exact Term.isClosed_of_isGround (isGround_list ground)
  have settles (τ : Substitution) : Settles (store σ named) (ts.length + 1)
      ([⟨σ.member, [.var v, list σ ts]⟩].map (Atom.subst τ) : List Atom) := by
    simpa [Atom.subst, Term.subst_eq_self (isGround_list ground)] using settles_member called
  have answers : (ts.mapIdx fun i t => (i + 1, (⟨[⟨v, t⟩]⟩ : Answer))).map Prod.snd =
      ts.map fun t => ⟨[⟨v, t⟩]⟩ :=
    List.ext_getElem (by simp) (by simp)
  rw [← answers]
  exact Query.enumerates_of_settles (schedule_member called v ground) known nodup_clauses
    (wellModed called (List.forall_mem_singleton.mpr covered))
    (List.forall_mem_singleton.mpr moded) settles

/-- A list has exactly one reversal. -/
theorem enumerates_reverse (ground : ∀ t ∈ ts, t.isGround)
    (known : given.Knows (store σ named) [⟨σ.reverse, [list σ ts, .var v]⟩]) :
    Query.Enumerates (store σ named)
      (.ofGoals [⟨σ.reverse, [list σ ts, .var v]⟩] verbose recording) given
      [⟨[⟨v, list σ ts.reverse⟩]⟩] := by
  have covered : given.Covers v :=
    known.goals _ List.mem_cons_self v ⟨.var v, by simp, by simp⟩
  have collected : list σ ts.reverse = (cells σ).whole (ts.reverse.flatMap fun t => [t]) := by
    rw [list_eq_whole, List.flatMap_singleton']
  rw [collected]
  refine (collects called).enumerates (joins called) (fun τ => ?asks) ?vars ?ground known
    nodup_clauses (wellModed called (List.forall_mem_nil _)) ?called
  case asks =>
    simp [Atom.subst, Term.subst_eq_self (isGround_list ground), ← list_eq_whole]
  case vars =>
    simp [Atom.vars, Term.varsOf_cons_of_isGround (isGround_list ground), varsOf_eq_eraseDups,
      List.eraseDups_cons]
  case ground =>
    intro t ht
    exact hasGround (ground t (by simpa using ht))
  case called =>
    refine ⟨_, modes_reverse, ?_, 0, by simp, list σ ts, rfl, ?_⟩
    · have loose := not_elements covered List.not_mem_nil
      exact .cons (hasKind_list ground) (.cons (.loose loose) .nil)
    · exact Term.isClosed_of_isGround (isGround_list ground)

end

/-- A knowledge base that is given the program, and nothing else, finds all
ways to cut a list of ground terms into two, the shortest first part first, and
all members of the list, in their order and as often as they are in it. -/
theorem splits_and_members (v : Vocabulary) : ∃ clauses base,
    KnowledgeBase.addProgram ⟨{}, v⟩ lists.source = (.ok clauses, base) ∧
      let σ := symbols base.vocabulary
      ∀ (ts : List Term) (x y : Variable) (verbose recording : Bool) (given : Supply),
        (∀ t ∈ ts, t.isGround) →
        (x ≠ y → given.Knows base.store [⟨σ.append, [.var x, .var y, list σ ts]⟩] →
          Query.Enumerates base.store
            (.ofGoals [⟨σ.append, [.var x, .var y, list σ ts]⟩] verbose recording) given
            ((List.range (ts.length + 1)).map fun i =>
              ⟨[⟨x, list σ (ts.take i)⟩, ⟨y, list σ (ts.drop i)⟩]⟩)) ∧
        (given.Knows base.store [⟨σ.member, [.var x, list σ ts]⟩] →
          Query.Enumerates base.store
            (.ofGoals [⟨σ.member, [.var x, list σ ts]⟩] verbose recording) given
            (ts.map fun t => ⟨[⟨x, t⟩]⟩)) := by
  obtain ⟨clauses, base, named, added, called, stored⟩ := exists_base v
  refine ⟨clauses, base, added, fun ts x y verbose recording given ground => ?_⟩
  rw [stored]
  exact ⟨enumerates_splits called ground, enumerates_members called ground⟩

/-- A list of an element that is there twice is cut in three ways, and has two
members. -/
theorem splits_and_members_twice : ∃ clauses base x y given,
    KnowledgeBase.addProgram {} lists.source = (.ok clauses, base) ∧
      let σ := symbols base.vocabulary
      let a : Term := .const ⟨0, "a"⟩
      Query.Enumerates base.store
        (.ofGoals [⟨σ.append, [.var x, .var y, list σ [a, a]]⟩] false false) given
        [⟨[⟨x, list σ []⟩, ⟨y, list σ [a, a]⟩]⟩, ⟨[⟨x, list σ [a]⟩, ⟨y, list σ [a]⟩]⟩,
          ⟨[⟨x, list σ [a, a]⟩, ⟨y, list σ []⟩]⟩] ∧
      Query.Enumerates base.store (.ofGoals [⟨σ.member, [.var x, list σ [a, a]]⟩] false false)
        given [⟨[⟨x, a⟩]⟩, ⟨[⟨x, a⟩]⟩] := by
  obtain ⟨clauses, base, added, enumerates⟩ := splits_and_members {}
  obtain ⟨x, y, given, apart, known⟩ := KnowledgeBase.exists_fresh added
  have ground : ∀ t ∈ [Term.const ⟨0, "a"⟩, .const ⟨0, "a"⟩], t.isGround := by simp [Term.isGround]
  have both := enumerates [.const ⟨0, "a"⟩, .const ⟨0, "a"⟩] x y false false given ground
  refine ⟨clauses, base, x, y, given, added, ?_, ?_⟩
  · exact both.1 apart (known _ (by simp [isGround_list ground]))
  · exact both.2 (known _ (by simp [isGround_list ground]))

/-- A knowledge base that is given the program, and nothing else, turns lists
of ground terms around, and then the search is at its end. -/
theorem reversal (v : Vocabulary) : ∃ clauses base,
    KnowledgeBase.addProgram ⟨{}, v⟩ lists.source = (.ok clauses, base) ∧
      let σ := symbols base.vocabulary
      ∀ (ts : List Term) (x : Variable) (verbose recording : Bool) (given : Supply),
        (∀ t ∈ ts, t.isGround) → given.Knows base.store [⟨σ.reverse, [list σ ts, .var x]⟩] →
          Query.Enumerates base.store
            (.ofGoals [⟨σ.reverse, [list σ ts, .var x]⟩] verbose recording) given
            [⟨[⟨x, list σ ts.reverse⟩]⟩] := by
  obtain ⟨clauses, base, named, added, called, stored⟩ := exists_base v
  refine ⟨clauses, base, added, fun ts x verbose recording given ground => ?_⟩
  rw [stored]
  exact enumerates_reverse called ground

/-- The reversal of a list of two elements. -/
theorem reversal_two : ∃ clauses base x given,
    KnowledgeBase.addProgram {} lists.source = (.ok clauses, base) ∧
      let σ := symbols base.vocabulary
      let a : Term := .const ⟨0, "a"⟩
      let b : Term := .const ⟨1, "b"⟩
      Query.Enumerates base.store (.ofGoals [⟨σ.reverse, [list σ [a, b], .var x]⟩] false false)
        given [⟨[⟨x, list σ [b, a]⟩]⟩] := by
  obtain ⟨clauses, base, added, reverses⟩ := reversal {}
  obtain ⟨x, _, given, _, known⟩ := KnowledgeBase.exists_fresh added
  have ground : ∀ t ∈ [Term.const ⟨0, "a"⟩, .const ⟨1, "b"⟩], t.isGround := by simp [Term.isGround]
  refine ⟨clauses, base, x, given, added, ?_⟩
  exact reverses [.const ⟨0, "a"⟩, .const ⟨1, "b"⟩] x false false given ground
    (known _ (by simp [isGround_list ground]))

end Resolvent.Programs.Lists
