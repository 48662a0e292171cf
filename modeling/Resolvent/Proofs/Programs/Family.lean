/-
# The family program

Every search over the family program comes to an end, whatever is asked. All
heads are linear, so only the rules could make it endless, and of these only
the one that asks for an ancestor again.

In that rule the recursive goal stands behind a goal that asks for the parent.
The parent goal is always resolved first, by a fact, and a fact leads to a
person with fewer generations below. But the two goals wait for each other in a
long list of goals, among them other such pairs, and until the fact is found
the person is a variable of which nothing is known. So what a recursive goal
may still cost is measured by the person whose child the goal in front of it
asks for. That person has been known since the rule was used.
-/

import Resolvent.Programs.Family
import Resolvent.Proofs.Programs.Lines
import Resolvent.Proofs.Search.Descent
import Resolvent.Proofs.Search.LinearHeads

namespace Resolvent.Programs.Family

/-! ### Clauses of the program -/

/-- The number of generations below a person. -/
def generations (c : Constant) : Nat :=
  if c.name = "tom" then 3 else if c.name = "bob" then 2 else if c.name = "pat" then 1 else 0

/-- The clauses of the program, up to the choice of symbols for the names. -/
inductive Kin : Clause → Prop
  | parent {p : Predicate} {c d : Constant} (name : p.name = "parent")
      (younger : generations d < generations c) : Kin (.fact ⟨p, [.const c, .const d]⟩)
  | female {p : Predicate} {c : Constant} (name : p.name = "female") :
      Kin (.fact ⟨p, [.const c]⟩)
  | relation {m p q : Predicate} {x y : Variable} {ss ts : List Term}
      (name : m.name = "mother" ∨ m.name = "grandparent") (distinct : x.name ≠ y.name)
      (first : p.name = "parent") (second : q.name = "parent" ∨ q.name = "female") :
      Kin (.rule ⟨⟨m, [.var x, .var y]⟩, [⟨p, ss⟩, ⟨q, ts⟩]⟩)
  | child {a p : Predicate} {x y : Variable} (name : a.name = "ancestor")
      (distinct : x.name ≠ y.name) (parent : p.name = "parent") :
      Kin (.rule ⟨⟨a, [.var x, .var y]⟩, [⟨p, [.var x, .var y]⟩]⟩)
  | descendant {a p : Predicate} {x y z : Variable} (name : a.name = "ancestor")
      (distinct : x.name ≠ y.name) (parent : p.name = "parent") :
      Kin (.rule ⟨⟨a, [.var x, .var y]⟩, [⟨p, [.var x, .var z]⟩, ⟨a, [.var z, .var y]⟩]⟩)

namespace Kin

variable {c : Clause}

/-- Which symbols the names stand for makes no difference to the program. -/
theorem relabel (kin : Kin c) {ρ : Relabelling} (names : ρ.KeepsNames) : Kin (c.relabel ρ) := by
  have generations_map (c : Constant) : generations (ρ.map c) = generations c := by
    rw [generations, names, generations]
  cases kin with
  | parent name younger =>
      exact .parent ((names _).trans name) (by rwa [generations_map, generations_map])
  | female name => exact .female ((names _).trans name)
  | relation name distinct first second =>
      refine .relation ?_ ?_ ((names _).trans first) ?_
      · rwa [names]
      · rwa [names, names]
      · rwa [names]
  | child name distinct parent =>
      exact .child ((names _).trans name) (by rwa [names, names]) ((names _).trans parent)
  | descendant name distinct parent =>
      exact .descendant ((names _).trans name) (by rwa [names, names]) ((names _).trans parent)

/-- The copy of a clause has variables of the same names. -/
theorem copy (kin : Kin c) (supply : Supply) (xs : List Variable) :
    Kin (c.rename (supply.copy xs)) := by
  rw [← Clause.relabel_onVariables]
  refine kin.relabel fun {role} s => ?_
  cases role <;> rfl

/-- No variable occurs twice in a head of the program. -/
theorem hasLinearHead (kin : Kin c) : c.HasLinearHead := by
  cases kin with
  | parent => exact List.nodup_nil
  | female => exact List.nodup_nil
  | relation _ distinct =>
      exact List.nodup_cons.mpr ⟨by simpa using mt (congrArg Symbol.name) distinct, by simp⟩
  | child _ distinct =>
      exact List.nodup_cons.mpr ⟨by simpa using mt (congrArg Symbol.name) distinct, by simp⟩
  | descendant _ distinct =>
      exact List.nodup_cons.mpr ⟨by simpa using mt (congrArg Symbol.name) distinct, by simp⟩

end Kin

/-- The lines of the program, each with the clauses that a vocabulary reads
from it which knows nothing else. -/
def lines : List (String × List Clause) :=
  let parent (older younger : String) : Clause :=
    .fact ⟨⟨0, "parent"⟩, [.const ⟨1, older⟩, .const ⟨2, younger⟩]⟩
  let female (name : String) : Clause := .fact ⟨⟨0, "female"⟩, [.const ⟨1, name⟩]⟩
  let x : Term := .var ⟨1, "X"⟩
  let y : Term := .var ⟨2, "Y"⟩
  [("parent(tom, bob).", [parent "tom" "bob"]),
    ("parent(tom, liz).", [parent "tom" "liz"]),
    ("parent(bob, ann).", [parent "bob" "ann"]),
    ("parent(bob, pat).", [parent "bob" "pat"]),
    ("parent(pat, jim).", [parent "pat" "jim"]),
    ("", []),
    ("female(liz).", [female "liz"]),
    ("female(ann).", [female "ann"]),
    ("female(pat).", [female "pat"]),
    ("", []),
    ("mother(X, Y) :- parent(X, Y), female(X).",
      [.rule ⟨⟨⟨0, "mother"⟩, [x, y]⟩, [⟨⟨3, "parent"⟩, [x, y]⟩, ⟨⟨4, "female"⟩, [x]⟩]⟩]),
    ("grandparent(X, Z) :- parent(X, Y), parent(Y, Z).",
      [.rule ⟨⟨⟨0, "grandparent"⟩, [x, .var ⟨2, "Z"⟩]⟩,
        [⟨⟨3, "parent"⟩, [x, .var ⟨4, "Y"⟩]⟩, ⟨⟨3, "parent"⟩, [.var ⟨4, "Y"⟩, .var ⟨2, "Z"⟩]⟩]⟩]),
    ("ancestor(X, Y) :- parent(X, Y).",
      [.rule ⟨⟨⟨0, "ancestor"⟩, [x, y]⟩, [⟨⟨3, "parent"⟩, [x, y]⟩]⟩]),
    ("ancestor(X, Y) :- parent(X, Z), ancestor(Z, Y).",
      [.rule ⟨⟨⟨0, "ancestor"⟩, [x, y]⟩,
        [⟨⟨3, "parent"⟩, [x, .var ⟨4, "Z"⟩]⟩, ⟨⟨0, "ancestor"⟩, [.var ⟨4, "Z"⟩, y]⟩]⟩])]

/-- The lines are the program as it is shipped. -/
theorem source_eq : family.source = Text.lines (lines.map Prod.fst) := rfl

/-- Each line is read as the clauses beside it. -/
theorem lines_accepted :
    List.Forall₂ Vocabulary.Accepts (lines.map Prod.fst) (lines.map Prod.snd) :=
  Vocabulary.accepts_of_read (by decide +kernel)

/-- The clauses of all lines belong to the program. -/
theorem kin_of_mem_lines : ∀ c ∈ (lines.map Prod.snd).flatten, Kin c := by
  simp only [lines, List.map_cons, List.map_nil, List.flatten_cons, List.flatten_nil,
    List.cons_append, List.nil_append, List.forall_mem_cons, List.not_mem_nil, false_imp_iff,
    implies_true, and_true]
  refine ⟨.parent rfl (by decide), .parent rfl (by decide), .parent rfl (by decide),
    .parent rfl (by decide), .parent rfl (by decide), .female rfl, .female rfl, .female rfl,
    .relation (.inl rfl) (by decide) rfl (.inr rfl),
    .relation (.inr rfl) (by decide) rfl (.inl rfl), .child rfl (by decide) rfl,
    .descendant rfl (by decide) rfl⟩

/-- A knowledge base that is given the program has the clauses of the program,
and no others. -/
theorem exists_base (v : Vocabulary) : ∃ clauses base,
    KnowledgeBase.addProgram ⟨{}, v⟩ family.source = (.ok clauses, base) ∧
      (∀ c, c ∈ base.store.clauses ↔ c ∈ clauses) ∧ ∀ c ∈ base.store.clauses, Kin c := by
  obtain ⟨clauses, base, added, likes, stored⟩ :=
    KnowledgeBase.addProgram_of_lines lines_accepted v
  rw [← source_eq] at added
  refine ⟨clauses, base, added, stored, fun c hc => ?_⟩
  obtain ⟨d, hd, ρ, names, rfl⟩ := exists_namedLike_of_mem likes c ((stored c).mp hc)
  exact (kin_of_mem_lines d hd).relabel names

/-! ### What a goal may cost -/

/-- The number of generations that there can be below the person that a term
stands for. Whom a variable stands for is not known. -/
def depth : Term → Nat
  | .var _ => 3
  | .const c => generations c
  | .app _ _ => 0

/-- Nobody has more than three generations below. -/
theorem depth_le (t : Term) : depth t ≤ 3 := by
  cases t with
  | var x => exact Nat.le_refl _
  | const c =>
      change generations c ≤ 3
      unfold generations
      split_ifs <;> omega
  | app f args => exact Nat.zero_le _

/-- The more is known of a person, the fewer generations there can be. -/
theorem depth_applyAll_le (bindings : List Binding) (t : Term) :
    depth (applyAll bindings t) ≤ depth t := by
  cases t with
  | var x => exact depth_le _
  | const c => rw [applyAll_const]
  | app f args =>
      rw [applyAll_app]
      exact Nat.le_refl _

/-- Further bindings only tell more about a person. -/
theorem depth_append_le (bindings made : List Binding) (t : Term) :
    depth (applyAll (bindings ++ made) t) ≤ depth (applyAll bindings t) := by
  rw [applyAll_append]
  exact depth_applyAll_le made _

/-- Whose descendants a goal asks for, if it asks for that. -/
def ancestor? (goal : Atom) : Option Term :=
  if goal.predicate.name = "ancestor" then goal.args.head? else none

/-- The person as whose child another one is asked for by the goal in front. -/
def parentOf? (before : Option Atom) (t : Term) : Option Term :=
  match before with
  | some ⟨p, [s, t']⟩ => if p.name = "parent" ∧ t' = t then some s else none
  | _ => none

/-- A bound on the resolution steps that come of a goal, given the goal in
front of it. -/
def cost (bindings : List Binding) (before : Option Atom) (goal : Atom) : Nat :=
  match ancestor? goal with
  | some t =>
    match parentOf? before t with
    | some s => 2 * depth (applyAll bindings s)
    | none => 2 * depth (applyAll bindings t) + 2
  | none => if goal.predicate.name = "mother" ∨ goal.predicate.name = "grandparent" then 3 else 1

/-- A bound on the resolution steps that come of several goals, given the goal
in front. -/
def total (bindings : List Binding) : Option Atom → List Atom → Nat
  | _, [] => 0
  | before, goal :: rest => cost bindings before goal + total bindings (some goal) rest

variable {bindings made : List Binding} {before : Option Atom} {goal : Atom} {goals : List Atom}

/-- No other goal asks for descendants. -/
theorem ancestor?_eq_none (name : goal.predicate.name ≠ "ancestor") : ancestor? goal = none :=
  if_neg name

/-- The goal in front has to ask for the child by the very term. -/
theorem eq_of_parentOf?_eq_some {s t : Term} (known : parentOf? (some goal) t = some s) :
    goal.predicate.name = "parent" ∧ goal.args = [s, t] := by
  unfold parentOf? at known
  split at known
  · next p s' t' front =>
      cases front
      split_ifs at known with asks
      cases known
      exact ⟨asks.1, by rw [asks.2]⟩
  · cases known

/-- Who asks for descendants of a person may go down all generations below,
with two steps for each. -/
theorem cost_of_ancestor {t : Term} (asks : ancestor? goal = some t)
    (unknown : parentOf? before t = none) :
    cost bindings before goal = 2 * depth (applyAll bindings t) + 2 := by
  simp only [cost, asks, unknown]

/-- Once a parent is asked for in front, the generations below the child are
counted from the parent. -/
theorem cost_of_parent {s t : Term} (asks : ancestor? goal = some t)
    (known : parentOf? before t = some s) :
    cost bindings before goal = 2 * depth (applyAll bindings s) := by
  simp only [cost, asks, known]

/-- A goal for a mother or a grandparent is resolved, and then the two goals of
the rule are. -/
theorem cost_of_relation (other : ancestor? goal = none)
    (name : goal.predicate.name = "mother" ∨ goal.predicate.name = "grandparent") :
    cost bindings before goal = 3 := by
  simp only [cost, other, if_pos name]

/-- A goal that only facts match is resolved in one step. -/
theorem cost_of_fact (name : goal.predicate.name = "parent" ∨ goal.predicate.name = "female") :
    cost bindings before goal = 1 := by
  rcases name with name | name <;> simp [cost, ancestor?, name]

/-- It matters only to a goal that asks for descendants what is bound and what
stands in front. -/
theorem cost_eq_of_ancestor?_eq_none (other : ancestor? goal = none)
    (bindings' : List Binding) (before' : Option Atom) :
    cost bindings before goal = cost bindings' before' goal := by
  simp only [cost, other]

/-- A goal does not become more expensive. -/
theorem cost_append_le (bindings made : List Binding) (before : Option Atom) (goal : Atom) :
    cost (bindings ++ made) before goal ≤ cost bindings before goal := by
  cases asks : ancestor? goal with
  | none => rw [cost_eq_of_ancestor?_eq_none asks]
  | some t =>
      cases front : parentOf? before t with
      | none =>
          rw [cost_of_ancestor asks front, cost_of_ancestor asks front]
          exact Nat.add_le_add_right (Nat.mul_le_mul_left 2 (depth_append_le _ _ _)) 2
      | some s =>
          rw [cost_of_parent asks front, cost_of_parent asks front]
          exact Nat.mul_le_mul_left 2 (depth_append_le _ _ _)

/-- Goals do not become more expensive together, either. -/
theorem total_append_le (bindings made : List Binding) (before : Option Atom) (goals : List Atom) :
    total (bindings ++ made) before goals ≤ total bindings before goals := by
  induction goals generalizing before with
  | nil => exact Nat.le_refl _
  | cons goal rest ih => exact Nat.add_le_add (cost_append_le _ _ _ _) (ih _)

/-- Goals that do not begin with one for descendants cost the same behind any
others. -/
theorem total_append_goals (new : ∀ goal ∈ goals.head?, ancestor? goal = none)
    (waiting : List Atom) :
    total bindings before (waiting ++ goals) =
      total bindings before waiting + total bindings none goals := by
  induction waiting generalizing before with
  | nil =>
      cases goals with
      | nil => rfl
      | cons goal rest =>
          have same : cost bindings before goal = cost bindings none goal :=
            cost_eq_of_ancestor?_eq_none (new goal rfl) bindings none
          simp only [List.nil_append, total, Nat.zero_add, same]
  | cons goal rest ih => rw [List.cons_append, total, total, ih, Nat.add_assoc]

/-- Every goal takes a step. -/
theorem cost_none_pos (bindings : List Binding) (goal : Atom) : 0 < cost bindings none goal := by
  cases asks : ancestor? goal with
  | some t => rw [cost_of_ancestor asks rfl]; exact Nat.succ_pos _
  | none =>
      simp only [cost, asks]
      split_ifs <;> omega

/-! ### What a resolution step does to it -/

/-- What waits does not become more expensive by the goal in front being
resolved. If that goal has asked for a parent, then it has found somebody with
fewer generations below. -/
theorem total_none_le (bindings made : List Binding)
    (younger : ∀ s t, goal.predicate.name = "parent" → goal.args = [s, t] →
      depth (applyAll (bindings ++ made) t) < depth (applyAll (bindings ++ made) s))
    (waiting : List Atom) :
    total (bindings ++ made) none waiting ≤ total bindings (some goal) waiting := by
  cases waiting with
  | nil => exact Nat.le_refl _
  | cons next rest =>
      refine Nat.add_le_add ?_ (total_append_le _ _ _ _)
      cases asks : ancestor? next with
      | none => rw [cost_eq_of_ancestor?_eq_none asks]
      | some t =>
          cases front : parentOf? (some goal) t with
          | none =>
              rw [cost_of_ancestor asks rfl, cost_of_ancestor asks front]
              exact Nat.add_le_add_right (Nat.mul_le_mul_left 2 (depth_append_le _ _ _)) 2
          | some s =>
              obtain ⟨name, args⟩ := eq_of_parentOf?_eq_some front
              have lower := younger s t name args
              have before := depth_append_le bindings made s
              rw [cost_of_ancestor asks rfl, cost_of_parent asks front]
              omega

/-- A goal has the predicate of the head that it has become the same as. -/
theorem predicate_eq {head : Atom} (same : goal.instantiate bindings = head.instantiate bindings) :
    goal.predicate = head.predicate :=
  (congrArg Atom.predicate same :)

/-- What has become the same as a head for descendants asks for descendants of
the same person. -/
theorem exists_ancestor {a : Predicate} {t u : Term} (name : a.name = "ancestor")
    (same : goal.instantiate bindings = Atom.instantiate bindings ⟨a, [t, u]⟩) :
    ∃ s, ancestor? goal = some s ∧ applyAll bindings s = applyAll bindings t := by
  have values : goal.args.map (applyAll bindings) = [t, u].map (applyAll bindings) :=
    (congrArg Atom.args same :)
  obtain ⟨s, others, args, first, -⟩ := List.map_eq_cons_iff.mp values
  refine ⟨s, ?_, first⟩
  rw [ancestor?, predicate_eq same, if_pos name, args, List.head?_cons]

/-- A goal that is resolved costs more than the goals of the clause. -/
theorem total_body_lt {c : Clause} (kin : Kin c)
    (same : goal.instantiate (bindings ++ made) = c.head.instantiate (bindings ++ made)) :
    total (bindings ++ made) none c.body < cost bindings none goal := by
  cases kin with
  | parent => exact cost_none_pos bindings goal
  | female => exact cost_none_pos bindings goal
  | @relation m p q x y ss ts name distinct first second =>
      rw [← show goal.predicate = m from predicate_eq same] at name
      have other : ancestor? goal = none :=
        ancestor?_eq_none (by rcases name with name | name <;> simp [name])
      have one : cost (bindings ++ made) none ⟨p, ss⟩ = 1 := cost_of_fact (.inl first)
      have two : cost (bindings ++ made) (some ⟨p, ss⟩) ⟨q, ts⟩ = 1 := cost_of_fact second
      rw [cost_of_relation other name]
      simp only [Clause.body, total, one, two]
      decide
  | @child a p x y name distinct parent =>
      obtain ⟨s, asks, -⟩ := exists_ancestor name same
      have one : cost (bindings ++ made) none ⟨p, [.var x, .var y]⟩ = 1 :=
        cost_of_fact (.inl parent)
      rw [cost_of_ancestor asks rfl]
      simp only [Clause.body, total, one]
      omega
  | @descendant a p x y z name distinct parent =>
      obtain ⟨s, asks, person⟩ := exists_ancestor name same
      have asks' : ancestor? ⟨a, [.var z, .var y]⟩ = some (.var z) := if_pos name
      have known : parentOf? (some ⟨p, [.var x, .var z]⟩) (.var z) = some (.var x) :=
        if_pos ⟨parent, rfl⟩
      have one : cost (bindings ++ made) none ⟨p, [.var x, .var z]⟩ = 1 :=
        cost_of_fact (.inl parent)
      -- The recursive goal is charged for the person that this one has been
      -- charged for.
      have less := depth_append_le bindings made s
      rw [person] at less
      rw [cost_of_ancestor asks rfl]
      simp only [Clause.body, total, one, cost_of_parent asks' known]
      omega

/-- The goals that a clause brings in do not ask for descendants before they
ask for a parent. -/
theorem ancestor?_head?_body {c : Clause} (kin : Kin c) :
    ∀ goal ∈ c.body.head?, ancestor? goal = none := by
  have plain {p : Predicate} {ts : List Term} (name : p.name = "parent") :
      ancestor? ⟨p, ts⟩ = none := ancestor?_eq_none (by simp [name])
  cases kin with
  | parent => simp [Clause.body]
  | female => simp [Clause.body]
  | relation _ _ first => simpa [Clause.body] using plain first
  | child _ _ parent => simpa [Clause.body] using plain parent
  | descendant _ _ parent => simpa [Clause.body] using plain parent

/-- Somebody's parent has more generations below. -/
theorem depth_lt_of_parent {c : Clause} (kin : Kin c)
    (same : goal.instantiate bindings = c.head.instantiate bindings) :
    ∀ s t, goal.predicate.name = "parent" → goal.args = [s, t] →
      depth (applyAll bindings t) < depth (applyAll bindings s) := by
  intro s t name args
  have values : goal.args.map (applyAll bindings) = c.head.args.map (applyAll bindings) :=
    (congrArg Atom.args same :)
  rw [predicate_eq same] at name
  rw [args] at values
  have absurd_name {other : String} (named : c.head.predicate.name = other)
      (different : other ≠ "parent") : False := different (named.symm.trans name)
  cases kin with
  | parent _ younger =>
      simp only [Clause.head, List.map_cons, List.map_nil, applyAll_const, List.cons.injEq]
        at values
      rw [values.1, values.2.1]
      exact younger
  | female named => exact (absurd_name named (by decide)).elim
  | relation named =>
      rcases named with named | named
      · exact (absurd_name named (by decide)).elim
      · exact (absurd_name named (by decide)).elim
  | child named => exact (absurd_name named (by decide)).elim
  | descendant named => exact (absurd_name named (by decide)).elim

/-- Every resolution step with clauses of the program makes what the goals may
cost less. -/
theorem total_resolve_lt {c : Clause} (kin : Kin c) (deferred : List Atom)
    (same : goal.instantiate (bindings ++ made) = c.head.instantiate (bindings ++ made)) :
    total (bindings ++ made) none (deferred ++ c.body) <
      total bindings none (goal :: deferred) := by
  have waiting := total_none_le bindings made (depth_lt_of_parent kin same) deferred
  have new := total_body_lt kin same
  rw [total_append_goals (ancestor?_head?_body kin), total]
  omega

/-! ### Searches -/

/-- The bound is lowered by every step in the search tree. -/
theorem lowers {store : Store} {goals : List Atom} {given : Supply}
    (known : given.Knows store goals) (kin : ∀ c ∈ store.clauses, Kin c) :
    Node.Lowers store given fun p => total p.bindings none p.goals := by
  intro n n' covered step
  obtain ⟨goal, deferred, c, made, first, candidate, derivation, rfl⟩ :=
    (covered.resolves_iff known).mp step
  have clause := kin c (Store.mem_candidates.mp candidate).1
  have same := covered.instantiate_eq first candidate clause.hasLinearHead derivation
  rw [← Clause.head_rename] at same
  have lower := total_resolve_lt (clause.copy n.supply c.vars) deferred same
  rw [Clause.body_rename, ← first] at lower
  exact lower

/-- A knowledge base that is given the family program, and nothing else, has
the clauses of that program. Whatever it is asked then, the search comes to an
end. -/
theorem comesToEnd (v : Vocabulary) : ∃ clauses base,
    KnowledgeBase.addProgram ⟨{}, v⟩ family.source = (.ok clauses, base) ∧
      (∀ c, c ∈ base.store.clauses ↔ c ∈ clauses) ∧
      ∀ (goals : List Atom) (verbose recording : Bool) (given : Supply),
        given.Knows base.store goals →
        Query.ComesToEnd base.store (.ofGoals goals verbose recording) given := by
  obtain ⟨clauses, base, added, stored, kin⟩ := exists_base v
  refine ⟨clauses, base, added, stored, fun goals verbose recording given known => ?_⟩
  have live : Query.NeverDiverges base.store (.ofGoals goals verbose recording) given :=
    Query.neverDiverges_of_linear known fun c hc => (kin c hc).hasLinearHead
  exact Query.comesToEnd_of_lowers known (lowers known kin) live

/-- Two chains of ancestors meet in a person that neither of them knows. The
goals wait for each other from the beginning. -/
theorem comesToEnd_two_chains : ∃ clauses base goals v,
    KnowledgeBase.addProgram {} family.source = (.ok clauses, base) ∧
      base.vocabulary.parseGoals "ancestor(X, Y), ancestor(Y, Z)" = (.ok goals, v) ∧
      v.supply.Knows base.store goals ∧
      Query.ComesToEnd base.store (.ofGoals goals false false) v.supply := by
  have read : (({} : Vocabulary).parseGoals "ancestor(X, Y), ancestor(Y, Z)").1.toOption =
      some [⟨⟨0, "ancestor"⟩, [.var ⟨1, "X"⟩, .var ⟨2, "Y"⟩]⟩,
        ⟨⟨0, "ancestor"⟩, [.var ⟨2, "Y"⟩, .var ⟨3, "Z"⟩]⟩] := by
    decide +kernel
  obtain ⟨clauses, base, added, _, ends⟩ := comesToEnd {}
  cases accepted : (({} : Vocabulary).parseGoals "ancestor(X, Y), ancestor(Y, Z)").1 with
  | error e =>
      rw [accepted] at read
      cases read
  | ok _ =>
      obtain ⟨goals, again, _⟩ := Reading.recognizes_goals.parse_again base.vocabulary accepted
      have parsed : base.vocabulary.parseGoals "ancestor(X, Y), ancestor(Y, Z)" = (.ok goals, _) :=
        Prod.ext again rfl
      have minted := Vocabulary.mints_of_parseGoals parsed
      have grown := base.vocabulary.grows_parseGoals "ancestor(X, Y), ancestor(Y, Z)"
      have known : Supply.Knows _ base.store goals :=
        ⟨((KnowledgeBase.knows_of_addProgram added).mono grown.supply).clauses,
          fun a ha x ⟨t, ht, hx⟩ => (minted x
            (mem_varsOf.mpr ⟨t, List.mem_flatMap.mpr ⟨a, ha, ht⟩, hx⟩)).known⟩
      exact ⟨clauses, base, goals, _, added, parsed, known, ends goals false false _ known⟩

end Resolvent.Programs.Family
