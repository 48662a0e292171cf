/-
# How often an answer is given

A search gives an answer as often as there are candidates for it. How many
there are at a depth of the search tree can be told from the visits of a run
alone: the first item lies at depth zero, and what a visit adds at the end of
the queue lies one deeper than what it visited.

The count of a run is never more than that of the level, and it is that of the
level as soon as the run has gone through the level. Two searches are therefore
compared by their levels.
-/

import Mathlib
import Resolvent.Proofs.Search.Completeness
import Resolvent.Proofs.Search.Course

namespace Resolvent

/-! ### Answers of nodes -/

namespace Node

/-- The answer that a node gives, if it is a candidate and all its values are
ground. -/
def answer? (q : Query) (n : Node) : Option Answer :=
  if n.proof.goals = [] ∧ (q.valuesUnder n.proof.bindings).isGround then
    some (q.valuesUnder n.proof.bindings)
  else none

/-- A node gives the answer that comes of an item it matches. -/
theorem Matches.answer?_eq {base supply : Supply} {n : Node} {item : PartialProof}
    (matching : Matches base supply n item) {q : Query} (known : ∀ x ∈ q.vars, base.Covers x)
    {event : Event} (outcome : q.Outcome item event) : event.answer? = n.answer? q := by
  obtain ⟨π, renames, same⟩ := matching
  obtain ⟨grounds, values⟩ := Query.valuesUnder_rename renames.injective
    (fun x hx => renames.fixes x (known x hx)) n.proof.bindings
  have candidate_iff : item.goals = [] ↔ n.proof.goals = [] := by
    rw [same, PartialProof.rename, List.map_eq_nil_iff]
  have bound : item.bindings = n.proof.bindings.map (.rename π) := by rw [same]; rfl
  unfold answer?
  cases outcome with
  | @answered bindings ground =>
      obtain rfl : bindings = n.proof.bindings.map (.rename π) := bound
      rw [grounds] at ground
      rw [if_pos ⟨candidate_iff.mp rfl, ground⟩, values ground]
      rfl
  | @discarded bindings unbound =>
      obtain rfl : bindings = n.proof.bindings.map (.rename π) := bound
      rw [grounds] at unbound
      rw [if_neg fun both => unbound both.2]
      rfl
  | expanded =>
      rw [if_neg fun both => List.cons_ne_nil _ _ (candidate_iff.mpr both.1)]
      rfl

/-- A successor lies one level deeper. -/
theorem depth_of_mem_successors {store : Store} {n m : Node} (h : m ∈ n.successors store) :
    m.depth = n.depth + 1 := by
  cases mem_successors.mp h
  rfl

end Node

/-! ### Depths of visits -/

namespace Visit

/-- The answer that a visit has given. -/
def answer? (visit : Visit) : Option Answer :=
  visit.event.answer?

/-- The number of items that a visit has added to the queue. -/
def added (visit : Visit) : Nat :=
  visit.event.successors

end Visit

namespace Query

/-- Follow a visit in the depths of the items that have been taken from the
queue and of those that wait, given the number of items that the visit has
added. -/
def trackDepth (depths : LevelOrder.Sweep Nat) (added : Nat) : LevelOrder.Sweep Nat :=
  match depths.waiting with
  | [] => depths
  | d :: rest => ⟨depths.taken ++ [d], rest ++ List.replicate added (d + 1)⟩

/-- The depth of each visited item. -/
def depths (visits : List Visit) : List Nat :=
  ((visits.map Visit.added).foldl trackDepth ⟨[], [0]⟩).taken

/-- How often an answer has been given from a depth. -/
def emitted (visits : List Visit) (d : Nat) (answer : Answer) : Nat :=
  ((depths visits).zip (visits.map Visit.answer?)).count (d, some answer)

variable {store : Store} {goals : List Atom} {verbose recording : Bool} {given supply : Supply}
  {k : Nat} {visits : List Visit} {q : Query}

/-- The number that an event tells is that of the items added to the queue. -/
theorem Stepped.successors_eq {q' : Query} {event : Event} {after : Supply}
    (step : q.Stepped store supply event q' after) {item : PartialProof}
    {rest more : List PartialProof} (front : q.queue.toList = item :: rest)
    (left : q'.queue.toList = rest ++ more) : event.successors = more.length := by
  cases step with
  | idle empty => simp [front] at empty
  | answered head ground =>
      rw [front, List.cons.injEq, left, List.self_eq_append_right] at head
      rw [head.2]
      rfl
  | discarded head unbound =>
      rw [front, List.cons.injEq, left, List.self_eq_append_right] at head
      rw [head.2]
      rfl
  | expanded head made =>
      rw [front, List.cons.injEq] at head
      rw [Queue.toList_pushAll, ← head.2, List.append_cancel_left_eq] at left
      rw [← left, List.length_map]
      exact List.length_map _

namespace Run

/-- The oldest item matches the node that the sweep takes next. -/
theorem exists_front_match (known : given.Knows store goals)
    (run : Run store (ofGoals goals verbose recording) given k visits q supply)
    {item : PartialProof} {rest : List PartialProof} (front : q.queue.toList = item :: rest) :
    ∃ n others, (Node.sweep store goals given k).waiting = n :: others ∧
      Node.Covered given n ∧ Node.Matches given supply n item := by
  obtain ⟨_, _, waiting⟩ := run.matches_sweep known
  rw [front] at waiting
  obtain ⟨n, others, matching, _, sweep_front⟩ := List.forall₂_cons_right_iff.mp waiting
  obtain ⟨d, there⟩ := Node.exists_mem_level (k := k) (n := n)
    (List.mem_append_right _ (by rw [sweep_front]; exact List.mem_cons_self))
  exact ⟨n, others, sweep_front, Node.covered_of_mem_level known d n there, matching⟩

/-- The depths that are told from the visits are those of the nodes. -/
theorem foldl_trackDepth (known : given.Knows store goals)
    (run : Run store (ofGoals goals verbose recording) given k visits q supply) :
    (visits.map Visit.added).foldl trackDepth ⟨[], [0]⟩ =
      ⟨(Node.sweep store goals given k).taken.map Node.depth,
        (Node.sweep store goals given k).waiting.map Node.depth⟩ := by
  induction run with
  | nil => rfl
  | @step k moves visits q q' event supply drawn after prior later made ih =>
      obtain ⟨grown, _, waiting⟩ := prior.matches_sweep known
      rw [List.map_append, List.foldl_append, ih]
      cases queue : q.queue.toList with
      | nil =>
          rw [queue, List.forall₂_nil_right_iff] at waiting
          have still : Node.sweep store goals given (k + 1) = Node.sweep store goals given k :=
            LevelOrder.sweep_eq_of_empty _ _ waiting (Nat.le_succ k)
          rw [still]
          rfl
      | cons item rest =>
          obtain ⟨n, others, front, covered, matching⟩ := prior.exists_front_match known queue
          have step := stepped_of_step made
          obtain ⟨_, more, left, linked⟩ := Node.successors_match known covered
            (Nat.le_trans grown later) queue (matching.mono later) step
          have next : Node.sweep store goals given (k + 1) =
              ⟨(Node.sweep store goals given k).taken ++ [n], others ++ n.successors store⟩ :=
            LevelOrder.sweep_succ_of_front _ _ front
          have below : (n.successors store).map Node.depth =
              List.replicate event.successors (n.depth + 1) := by
            rw [step.successors_eq queue left, ← linked.length_eq, List.map_eq_replicate_iff]
            exact fun m hm => Node.depth_of_mem_successors hm
          rw [next, List.map_append, List.map_append, below, front]
          rfl

/-- A node gives the answer that has come of the visit it matches. -/
theorem answers_match (known : given.Knows store goals)
    (run : Run store (ofGoals goals verbose recording) given k visits q supply) :
    List.Forall₂
      (fun n visit => n.Matches given supply visit.item ∧
        visit.answer? = n.answer? (ofGoals goals verbose recording))
      (Node.sweep store goals given k).taken visits := by
  obtain ⟨_, taken, _⟩ := run.matches_sweep known
  have outcome := run.outcome
  have covers : ∀ x ∈ (ofGoals goals verbose recording).vars, given.Covers x :=
    fun _ => covers_of_mem_vars known
  rw [List.forall₂_map_right_iff] at taken
  generalize (Node.sweep store goals given k).taken = nodes at taken
  clear run
  induction taken with
  | nil => exact .nil
  | cons matching _ ih =>
      obtain ⟨first, others⟩ := List.forall_mem_cons.mp outcome
      exact .cons ⟨matching, matching.answer?_eq covers first⟩ (ih others)

/-- The answers that a run has given from a depth are those of the nodes it has
taken there. -/
theorem emitted_eq (known : given.Knows store goals)
    (run : Run store (ofGoals goals verbose recording) given k visits q supply) (d : Nat)
    (answer : Answer) :
    emitted visits d answer = (Node.sweep store goals given k).taken.countP fun n =>
      n.depth = d && n.answer? (ofGoals goals verbose recording) = some answer := by
  have answers := run.answers_match known
  rw [emitted, depths, run.foldl_trackDepth known]
  generalize (Node.sweep store goals given k).taken = nodes at answers
  clear run
  induction answers with
  | nil => rfl
  | cons first _ ih =>
      rw [List.map_cons, List.map_cons, List.zip_cons_cons, List.count_cons, List.countP_cons, ih,
        first.2]
      simp

end Run

end Query

/-! ### Levels -/

namespace Node

/-- All nodes of a depth are on one level. -/
theorem countP_above {store : Store} {goals : List Atom} {base : Supply} (p : Node → Bool)
    (d m : Nat) :
    (above store goals base m).countP (fun n => n.depth = d && p n) =
      if d < m then (level store goals base d).countP p else 0 := by
  induction m with
  | zero => rfl
  | succ m ih =>
      have one_level : (level store goals base m).countP (fun n => n.depth = d && p n) =
          if d = m then (level store goals base d).countP p else 0 := by
        split
        · next same =>
            subst same
            exact List.countP_congr fun n hn => by simp [depth_of_mem_level n hn]
        · next other =>
            rw [List.countP_eq_zero]
            intro n hn
            simp [depth_of_mem_level n hn, Ne.symm other]
      rw [above, LevelOrder.above_succ, List.countP_append, ← above, ih, ← level, one_level]
      grind

/-- What has been taken at a depth is no more than there is. -/
theorem exists_countP_taken_le (store : Store) (goals : List Atom) (base : Supply) (k : Nat) :
    ∃ m, ∀ d (p : Node → Bool),
      (sweep store goals base k).taken.countP (fun n => n.depth = d && p n) ≤
        if d < m then (level store goals base d).countP p else 0 := by
  obtain ⟨m, initial⟩ := LevelOrder.exists_taken_prefix_above (successors store)
    (root goals base) k
  refine ⟨m, fun d p => ?_⟩
  rw [← countP_above]
  exact initial.sublist.countP_le

/-- When all levels above a depth have been taken, it is all there is. -/
theorem exists_le_countP_taken (store : Store) (goals : List Atom) (base : Supply) (m : Nat) :
    ∃ enough, ∀ k, enough ≤ k → ∀ d (p : Node → Bool),
      (if d < m then (level store goals base d).countP p else 0) ≤
        (sweep store goals base k).taken.countP fun n => n.depth = d && p n := by
  obtain ⟨enough, reached⟩ := LevelOrder.exists_sweep_eq_level (successors store)
    (root goals base) m
  refine ⟨enough, fun k later d p => ?_⟩
  have initial := LevelOrder.taken_prefix_of_le (successors store) (root goals base) later
  rw [reached] at initial
  rw [← countP_above]
  exact initial.sublist.countP_le

end Node

end Resolvent
