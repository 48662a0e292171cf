/-
# Runs follow the search tree

A run of a query differs from the search tree in two ways. It draws the fresh
variables of all branches from one supply, and others may draw from it
meanwhile; and it never goes on when a unification does not end. What it takes
from its queue is nevertheless what a sweep through the tree takes, up to the
identity of the fresh variables.

The link between a node and an item of the queue is an injective renaming that
fixes what was known at the start. A resolution step extends it to the copy of
a clause, whose variables are numbered from the supply of the node on one side
and from the supply of the run on the other.
-/

import Mathlib.Data.List.Forall2
import Resolvent.Proofs.Search.Run
import Resolvent.Proofs.Search.Tree

namespace Resolvent

/-- Lists that are related item by item: what stands in the second has a
partner in the first. -/
theorem exists_partner {α β : Type} {R : α → β → Prop} {xs : List α} {ys : List β}
    (related : List.Forall₂ R xs ys) {y : β} (hy : y ∈ ys) : ∃ x ∈ xs, R x y := by
  induction related with
  | nil => cases hy
  | cons first _ ih =>
      rcases List.mem_cons.mp hy with rfl | hy
      · exact ⟨_, List.mem_cons_self, first⟩
      · obtain ⟨x, hx, linked⟩ := ih hy
        exact ⟨x, List.mem_cons_of_mem _ hx, linked⟩

namespace PartialProof

/-- The partial proof with every variable replaced by another one. -/
def rename (π : Variable → Variable) (p : PartialProof) : PartialProof :=
  ⟨p.goals.map (Atom.rename π), p.bindings.map (Binding.rename π)⟩

@[simp] theorem rename_id (p : PartialProof) : p.rename id = p := by
  have goals : p.goals.map (Atom.rename id) = p.goals := by
    rw [List.map_congr_left fun a _ => a.subst_id, List.map_id']
  have bindings : p.bindings.map (Binding.rename id) = p.bindings := by
    refine (List.map_congr_left fun b _ => ?_).trans (List.map_id' _)
    exact congrArg (Binding.mk b.var) b.term.subst_id
  rw [rename, goals, bindings]

/-- A partial proof sees no more of a renaming than the variables it
mentions. -/
theorem rename_congr {π π' : Variable → Variable} {p : PartialProof}
    (agree : ∀ x, p.Mentions x → π x = π' x) : p.rename π = p.rename π' := by
  have goals : p.goals.map (Atom.rename π) = p.goals.map (Atom.rename π') :=
    List.map_congr_left fun a ha =>
      Atom.subst_congr fun x hx => by rw [agree x (.inl ⟨a, ha, hx⟩)]
  have bindings : p.bindings.map (Binding.rename π) = p.bindings.map (Binding.rename π') := by
    refine List.map_congr_left fun b hb => ?_
    have var := agree b.var (.inr ⟨b, hb, .inl rfl⟩)
    have term : b.term.rename π = b.term.rename π' :=
      Term.rename_congr fun x hx => agree x (.inr ⟨b, hb, .inr hx⟩)
    rw [Binding.rename, Binding.rename, var, term]
  rw [rename, rename, goals, bindings]

/-- The second partial proof is the first one up to the identity of the
variables that the supply has not handed out. Their names are the same. -/
def SameUpToFresh (given : Supply) (p p' : PartialProof) : Prop :=
  ∃ π : Variable → Variable, Function.Injective π ∧ (∀ x, given.Covers x → π x = x) ∧
    (∀ x, (π x).name = x.name) ∧ p' = p.rename π

end PartialProof

/-- A renaming that fixes what `base` has handed out, and maps what `before`
has handed out to what `after` has. -/
structure Renames (base before after : Supply) (π : Variable → Variable) : Prop where
  injective : Function.Injective π
  fixes : ∀ x, base.Covers x → π x = x
  name : ∀ x, (π x).name = x.name
  covers : ∀ x, before.Covers x → after.Covers (π x)

namespace Renames

variable {base before after : Supply} {π : Variable → Variable}

/-- Everything beyond one supply is moved on to lie beyond the other. -/
def shift (before after : Supply) (π : Variable → Variable) (x : Variable) : Variable :=
  if x.serial < before.next then π x else ⟨x.serial - before.next + after.next, x.name⟩

/-- What has been handed out before is renamed as it was. -/
theorem shift_of_covers {x : Variable} (h : before.Covers x) : shift before after π x = π x :=
  if_pos h

/-- What is handed out later is shifted along with the supply. -/
theorem shift_of_not_covers {x : Variable} (h : ¬ before.Covers x) :
    shift before after π x = ⟨x.serial - before.next + after.next, x.name⟩ :=
  if_neg h

/-- The copies that two supplies hand out for a list of variables are
linked. -/
theorem shift_copy (xs : List Variable) (x : Variable) :
    shift before after π (before.copy xs x) = after.copy xs x := by
  rw [shift_of_not_covers (before.not_covers_copy xs x)]
  simp only [Supply.copy]
  congr 1
  omega

/-- A renaming into what has been handed out remains one when more has been. -/
theorem mono {later : Supply} (h : Renames base before after π) (le : after.next ≤ later.next) :
    Renames base before later π :=
  ⟨h.injective, h.fixes, h.name, fun x hx => (h.covers x hx).mono le⟩

/-- The link is extended to what both supplies hand out next. -/
theorem extend (h : Renames base before after π) (old : base.next ≤ before.next) (n : Nat) :
    Renames base (before.skip n) (after.skip n) (shift before after π) where
  injective x y same := by
    by_cases hx : before.Covers x <;> by_cases hy : before.Covers y
    · rw [shift_of_covers hx, shift_of_covers hy] at same
      exact h.injective same
    · have image := h.covers x hx
      rw [shift_of_covers hx, shift_of_not_covers hy] at same
      rw [same, Supply.Covers] at image
      exact absurd image (by simp)
    · have image := h.covers y hy
      rw [shift_of_covers hy, shift_of_not_covers hx] at same
      rw [← same, Supply.Covers] at image
      exact absurd image (by simp)
    · rw [shift_of_not_covers hx, shift_of_not_covers hy, Symbol.mk.injEq] at same
      obtain ⟨serials, names⟩ := same
      simp only [Supply.Covers] at hx hy
      have serial : x.serial = y.serial := by omega
      cases x
      cases y
      simp_all
  fixes x hx := by
    rw [shift_of_covers (hx.mono old), h.fixes x hx]
  name x := by
    unfold shift
    split
    · exact h.name x
    · rfl
  covers x hx := by
    unfold shift
    split
    · next there => exact (h.covers x there).mono (Nat.le_add_right _ _)
    · next beyond =>
        simp only [Supply.Covers, Supply.skip] at hx ⊢
        omega

end Renames

/-! ### One resolution step -/

/-- Renamed bindings make of the arguments of a renamed goal the renamed
arguments. -/
theorem Atom.map_applyAll_rename {π : Variable → Variable} (injective : Function.Injective π)
    (bindings : List Binding) (goal : Atom) :
    (goal.rename π).args.map (applyAll (bindings.map (.rename π))) =
      (goal.args.map (applyAll bindings)).map (.rename π) := by
  rw [Atom.args_rename, List.map_map, List.map_map]
  exact List.map_congr_left fun t _ => (rename_applyAll injective _ t).symm

/-- A list of equations between renamed terms. -/
theorem Query.equations_rename (π : Variable → Variable) (args : List Term) (head : Atom) :
    equations (args.map (.rename π)) (head.rename π) =
      (equations args head).map (.rename π) := by
  rw [equations, equations, List.map_zipWith, Atom.rename, Atom.args_subst, List.zipWith_map]
  rfl

/-- A renaming that leaves the query variables alone shows in no ground
value. -/
theorem Query.valuesUnder_rename {q : Query} {π : Variable → Variable}
    (injective : Function.Injective π) (fixes : ∀ x ∈ q.vars, π x = x)
    (bindings : List Binding) :
    (q.valuesUnder (bindings.map (.rename π))).isGround = (q.valuesUnder bindings).isGround ∧
      ((q.valuesUnder bindings).isGround →
        q.valuesUnder (bindings.map (.rename π)) = q.valuesUnder bindings) := by
  have value : ∀ x ∈ q.vars, applyAll (bindings.map (.rename π)) (.var x) =
      (applyAll bindings (.var x)).rename π := by
    intro x hx
    rw [rename_applyAll injective, Term.rename_var, fixes x hx]
  constructor
  · rw [Bool.eq_iff_iff, isGround_valuesUnder, isGround_valuesUnder]
    refine forall₂_congr fun x hx => ?_
    rw [value x hx, Term.isGround_rename]
  · intro ground
    rw [valuesUnder, valuesUnder, List.map_congr_left]
    intro x hx
    rw [value x hx, Term.rename_eq_self (isGround_valuesUnder.mp ground x hx)]

namespace Node

/-- A node and an item of the queue of a run are linked by a renaming. -/
def Matches (base after : Supply) (n : Node) (item : PartialProof) : Prop :=
  ∃ π, Renames base n.supply after π ∧ item = n.proof.rename π

variable {store : Store} {goals : List Atom} {base supply : Supply} {n : Node}

/-- The image of a node remains its image when more has been handed out. -/
theorem Matches.mono {later : Supply} {item : PartialProof} (h : Matches base supply n item)
    (le : supply.next ≤ later.next) : Matches base later n item := by
  obtain ⟨π, renames, same⟩ := h
  exact ⟨π, renames.mono le, same⟩

/-- The image of a node is the same up to variables that are new. -/
theorem Matches.sameUpToFresh {item : PartialProof} (h : Matches base supply n item) :
    n.proof.SameUpToFresh base item := by
  obtain ⟨π, renames, same⟩ := h
  exact ⟨π, renames.injective, renames.fixes, renames.name, same⟩

/-- The renaming of a node is extended to the copy of a clause. The goals and
bindings of the node do not see the extension, and the two copies are linked by
it. -/
theorem exists_renames_copy (covered : Covered base n) {π : Variable → Variable}
    (renames : Renames base n.supply supply π) (c : Clause) :
    ∃ π', Renames base (n.supply.skip c.vars.length) (supply.skip c.vars.length) π' ∧
      n.proof.rename π = n.proof.rename π' ∧
      ∀ a : Atom,
        (a.rename (n.supply.copy c.vars)).rename π' = a.rename (supply.copy c.vars) := by
  refine ⟨Renames.shift n.supply supply π, renames.extend covered.later _, ?_, ?_⟩
  · exact PartialProof.rename_congr fun x hx =>
      (Renames.shift_of_covers (covered.covers x hx)).symm
  · intro a
    rw [Atom.rename, Atom.rename, Atom.subst_subst]
    exact Atom.subst_congr fun x _ => congrArg Term.var (Renames.shift_copy c.vars x)

/-- What a linked item makes of a variable that was known at the start. -/
theorem Matches.exists_rename {item : PartialProof} (h : Matches base supply n item) :
    ∃ π : Variable → Variable, Function.Injective π ∧
      item.goals = n.proof.goals.map (Atom.rename π) ∧
      item.bindings = n.proof.bindings.map (Binding.rename π) ∧
      ∀ x, base.Covers x →
        applyAll item.bindings (.var x) = (applyAll n.proof.bindings (.var x)).rename π := by
  obtain ⟨π, renames, rfl⟩ := h
  refine ⟨π, renames.injective, rfl, rfl, fun x hx => ?_⟩
  rw [rename_applyAll renames.injective, Term.rename_var, renames.fixes x hx]
  rfl

/-- A clause does the same for a node and for an item that is linked to it. -/
theorem resolve?_match (known : base.Knows store goals) (covered : Covered base n)
    (later : base.next ≤ supply.next) {goal goal' : Atom} {deferred deferred' : List Atom}
    {bindings : List Binding} (first : n.proof.goals = goal :: deferred)
    (matching : Matches base supply n ⟨goal' :: deferred', bindings⟩) {c : Clause}
    (hc : c ∈ store.clauses) (moves : Nat) :
    let attempt := c.standardizeApart supply
    let equations := Query.equations (goal'.args.map (applyAll bindings)) attempt.1.head
    (unify moves equations = .clash → n.resolve? goal deferred c = none) ∧
    ∀ made, unify moves equations = .solved made →
      ∃ m, n.resolve? goal deferred c = some m ∧
        Matches base attempt.2 m ⟨deferred' ++ attempt.1.body, bindings ++ made⟩ := by
  obtain ⟨π, renames, same⟩ := matching
  obtain ⟨π', renames', seen, copies⟩ := exists_renames_copy covered renames c
  have known_to {s : Supply} (le : base.next ≤ s.next) : ∀ x ∈ c.vars, s.Covers x :=
    fun x hx => (known.clauses c hc x hx).mono le
  rw [seen, PartialProof.rename, first, List.map_cons] at same
  obtain ⟨goals_eq, rfl⟩ := PartialProof.mk.inj same
  obtain ⟨rfl, rfl⟩ := List.cons.inj goals_eq
  have args := goal.map_applyAll_rename renames'.injective n.proof.bindings
  simp only [resolve?, Clause.standardizeApart_eq (known_to later),
    Clause.standardizeApart_eq (known_to covered.later), Clause.head_rename, Clause.body_rename,
    ← copies, args, Query.equations_rename, unify_rename renames'.injective]
  constructor
  · intro clash
    rw [solution?_eq_none_of_clash (Verdict.eq_clash_of_rename clash), Option.map_none]
  · intro made renamed
    obtain ⟨found, solved, rfl⟩ := Verdict.exists_solved_of_rename renamed
    rw [solution?_eq_some_iff.mpr (Yields.of_unify solved), Option.map_some]
    refine ⟨_, rfl, π', renames', ?_⟩
    have body : (c.body.map (Atom.rename (n.supply.copy c.vars))).map (Atom.rename π') =
        c.body.map (Atom.rename (supply.copy c.vars)) := by
      rw [List.map_map]
      exact List.map_congr_left fun a _ => copies a
    rw [PartialProof.rename, List.map_append, List.map_append, body]

/-- The branches that a run makes of an item are those of the node, one by
one. -/
theorem branches_match (known : base.Knows store goals) (covered : Covered base n)
    {goal goal' : Atom} {deferred deferred' : List Atom} {bindings : List Binding}
    (first : n.proof.goals = goal :: deferred) {moves : Nat} {clauses : List Clause}
    (among : ∀ c ∈ clauses, c ∈ store.clauses) {produced : List Branch} {after : Supply}
    (later : base.next ≤ supply.next)
    (matching : Matches base supply n ⟨goal' :: deferred', bindings⟩)
    (made : Query.branches moves (goal'.args.map (applyAll bindings)) deferred' bindings clauses
      supply = some (produced, after)) :
    supply.next ≤ after.next ∧
      List.Forall₂ (Matches base after) (clauses.filterMap (n.resolve? goal deferred))
        (produced.map Branch.proof) := by
  induction clauses generalizing supply produced with
  | nil =>
      cases made
      exact ⟨Nat.le_refl _, .nil⟩
  | cons c rest ih =>
      obtain ⟨hc, among⟩ := List.forall_mem_cons.mp among
      have attempt := resolve?_match known covered later first matching hc moves
      have grows : supply.next ≤ (c.standardizeApart supply).2.next := by
        rw [Clause.standardizeApart_eq fun x hx => (known.clauses c hc x hx).mono later]
        exact Nat.le_add_right _ _
      have later := Nat.le_trans later grows
      have matching := matching.mono grows
      obtain ⟨others, tried, verdict⟩ := Query.branches_cons_eq_some_iff.mp made
      obtain ⟨more, linked⟩ := ih among later matching tried
      refine ⟨Nat.le_trans grows more, ?_⟩
      rcases verdict with ⟨clash, rfl⟩ | ⟨bindings, solved, rfl⟩
      · rwa [List.filterMap_cons_none (attempt.1 clash)]
      · obtain ⟨m, found, first⟩ := attempt.2 bindings solved
        rw [List.filterMap_cons_some found]
        exact .cons (first.mono more) linked

/-- What a step leaves of the queue is what was waiting, and then items that
match the successors of the node that its oldest item matched. -/
theorem successors_match (known : base.Knows store goals) (covered : Covered base n)
    (later : base.next ≤ supply.next) {q q' : Query} {event : Event} {after : Supply}
    {item : PartialProof} {rest : List PartialProof} (front : q.queue.toList = item :: rest)
    (matching : Matches base supply n item) (step : q.Stepped store supply event q' after) :
    supply.next ≤ after.next ∧
      ∃ more, q'.queue.toList = rest ++ more ∧
        List.Forall₂ (Matches base after) (n.successors store) more := by
  -- The goals of the node are as many as those of the item.
  have ⟨π, _, same⟩ := matching
  have no_successors (candidate : item.goals = []) : n.successors store = [] := by
    rw [same, PartialProof.rename, List.map_eq_nil_iff] at candidate
    rw [successors, candidate]
  cases step with
  | idle empty => simp [front] at empty
  | answered head _ =>
      obtain ⟨rfl, rfl⟩ := List.cons.inj (front.symm.trans head)
      refine ⟨Nat.le_refl _, [], by simp, ?_⟩
      rw [no_successors rfl]
      exact .nil
  | discarded head _ =>
      obtain ⟨rfl, rfl⟩ := List.cons.inj (front.symm.trans head)
      refine ⟨Nat.le_refl _, [], by simp, ?_⟩
      rw [no_successors rfl]
      exact .nil
  | @expanded goal' deferred' bindings queue moves produced _ head made =>
      obtain ⟨rfl, rfl⟩ := List.cons.inj (front.symm.trans head)
      obtain ⟨goal, deferred, first⟩ : ∃ goal deferred, n.proof.goals = goal :: deferred := by
        cases goals : n.proof.goals with
        | nil => simp [PartialProof.rename, goals] at same
        | cons goal deferred => exact ⟨goal, deferred, rfl⟩
      have candidates : store.candidates goal' = store.candidates goal := by
        rw [PartialProof.rename, first, List.map_cons, PartialProof.mk.injEq] at same
        rw [(List.cons.inj same.1).1, Atom.rename, Store.candidates_subst]
      have linked := branches_match known covered first
        (fun c hc => (Store.mem_candidates.mp hc).1) later matching made
      refine ⟨linked.1, produced.map Branch.proof, by simp, ?_⟩
      rw [successors, first]
      simpa only [candidates] using linked.2

/-- Every node that a sweep has taken or holds belongs to some level. -/
theorem exists_mem_level {k : Nat}
    (h : n ∈ (sweep store goals base k).taken ++ (sweep store goals base k).waiting) :
    ∃ d, n ∈ level store goals base d := by
  obtain ⟨d, done, todo, cut, reached⟩ :=
    LevelOrder.sweep_eq (successors store) (root goals base) k
  rw [sweep, reached] at h
  have among : n ∈ above store goals base (d + 2) := by
    rw [above, LevelOrder.above_add_two _ _ cut, ← List.append_assoc]
    exact List.mem_append_left _ h
  obtain ⟨d', _, there⟩ := List.mem_flatMap.mp among
  exact ⟨d', there⟩

end Node

namespace Query.Run

variable {store : Store} {goals : List Atom} {verbose recording : Bool} {base supply : Supply}
  {k : Nat} {visits : List Visit} {q : Query}

/-- After as many steps as the run a sweep has taken the nodes that match what
the run has visited, and holds the nodes that match what waits in the queue. -/
theorem matches_sweep (known : base.Knows store goals)
    (run : Run store (ofGoals goals verbose recording) base k visits q supply) :
    base.next ≤ supply.next ∧
      List.Forall₂ (Node.Matches base supply) (Node.sweep store goals base k).taken
        (visits.map Visit.item) ∧
      List.Forall₂ (Node.Matches base supply) (Node.sweep store goals base k).waiting
        q.queue.toList := by
  induction run with
  | nil =>
      have start : Renames base base base id :=
        ⟨Function.injective_id, fun _ _ => rfl, fun _ => rfl, fun _ h => h⟩
      exact ⟨Nat.le_refl _, .nil, .cons ⟨id, start, (PartialProof.rename_id _).symm⟩ .nil⟩
  | @step k moves visits q q' event supply drawn after prior drawn_later made ih =>
      obtain ⟨later, taken, waiting⟩ := ih
      have step := stepped_of_step made
      cases queue : q.queue.toList with
      | nil =>
          rw [queue, List.forall₂_nil_right_iff] at waiting
          have idle : q' = q ∧ after = drawn := by
            cases step with
            | idle _ => exact ⟨rfl, rfl⟩
            | answered head _ => simp [queue] at head
            | discarded head _ => simp [queue] at head
            | expanded head _ => simp [queue] at head
          obtain ⟨rfl, rfl⟩ := idle
          have still : Node.sweep store goals base (k + 1) = Node.sweep store goals base k :=
            LevelOrder.sweep_eq_of_empty _ _ waiting (Nat.le_succ k)
          rw [still, waiting, queue, List.map_append]
          simp only [List.head?_nil, Option.toList_none, List.map_nil, List.append_nil]
          exact ⟨Nat.le_trans later drawn_later, taken.imp fun _ _ h => h.mono drawn_later, .nil⟩
      | cons item rest =>
          rw [queue] at waiting
          obtain ⟨n, others, matching, linked, front⟩ := List.forall₂_cons_right_iff.mp waiting
          have covered : Node.Covered base n := by
            obtain ⟨d, there⟩ := Node.exists_mem_level (k := k) (n := n)
              (List.mem_append_right _ (by rw [front]; exact List.mem_cons_self))
            exact Node.covered_of_mem_level known d n there
          obtain ⟨grows, more, left, successors⟩ := Node.successors_match known covered
            (Nat.le_trans later drawn_later) queue (matching.mono drawn_later) step
          have onward := Nat.le_trans drawn_later grows
          have next : Node.sweep store goals base (k + 1) =
              ⟨(Node.sweep store goals base k).taken ++ [n], others ++ n.successors store⟩ :=
            LevelOrder.sweep_succ_of_front _ _ front
          rw [next, left, List.map_append]
          refine ⟨Nat.le_trans later onward, ?_, ?_⟩
          · exact List.rel_append (taken.imp fun _ _ h => h.mono onward)
              (.cons (matching.mono onward) .nil)
          · exact List.rel_append (linked.imp fun _ _ h => h.mono onward) successors

/-- Every visit matches a node of the tree. -/
theorem exists_node (known : base.Knows store goals)
    (run : Run store (ofGoals goals verbose recording) base k visits q supply) {visit : Visit}
    (visited : visit ∈ visits) :
    ∃ d, ∃ n ∈ Node.level store goals base d, Node.Matches base supply n visit.item := by
  obtain ⟨_, taken, _⟩ := run.matches_sweep known
  obtain ⟨n, hn, matching⟩ := exists_partner taken (List.mem_map_of_mem visited)
  obtain ⟨d, there⟩ := Node.exists_mem_level (k := k) (List.mem_append_left _ hn)
  exact ⟨d, n, there, matching⟩

end Query.Run

end Resolvent
