/-
# Searches enumerate the tree level by level

What a run has visited, followed by what waits in its queue, is an initial part
of the search tree read level by level. The queue therefore holds a tail of one
level and a head of the next, nothing is lost or visited twice, and a partial
proof that took more resolution steps is never visited before one that took
fewer.
-/

import Resolvent.Proofs.Search.Correspondence

namespace Resolvent

namespace Node

variable {store : Store} {goals : List Atom} {base : Supply}

/-- Reading the tree level by level, the depths never decrease. -/
theorem pairwise_depth_above (d : Nat) :
    (above store goals base d).Pairwise fun n m => n.depth ≤ m.depth := by
  induction d with
  | zero => exact .nil
  | succ d ih =>
      rw [above, LevelOrder.above_succ]
      refine List.pairwise_append.mpr ⟨ih, ?_, ?_⟩
      · refine List.pairwise_of_forall_mem_list fun n hn m hm => ?_
        exact Nat.le_of_eq ((depth_of_mem_level n hn).trans (depth_of_mem_level m hm).symm)
      · intro n hn m hm
        obtain ⟨d', lower, there⟩ := List.mem_flatMap.mp hn
        rw [depth_of_mem_level n there, depth_of_mem_level m hm]
        exact Nat.le_of_lt (List.mem_range.mp lower)

end Node

namespace Query.Run

variable {store : Store} {goals : List Atom} {verbose recording : Bool} {given supply : Supply}
  {k : Nat} {visits : List Visit} {q : Query}

/-- The visits and the queue of a run are an initial part of the search tree,
read level by level, up to the identity of the variables that were fresh at the
start. -/
theorem level_order (known : given.Knows store goals)
    (run : Run store (ofGoals goals verbose recording) given k visits q supply) :
    ∃ (d : Nat) (done todo : List Node),
      Node.level store goals given d = done ++ todo ∧
      List.Forall₂ (fun n item => n.proof.SameUpToFresh given item)
        (Node.above store goals given d ++ done) (visits.map Visit.item) ∧
      List.Forall₂ (fun n item => n.proof.SameUpToFresh given item)
        (todo ++ done.flatMap (Node.successors store)) q.queue.toList ∧
      (Node.above store goals given d ++ done) ++ (todo ++ done.flatMap (Node.successors store)) <+:
        Node.above store goals given (d + 2) ∧
      (Node.above store goals given d ++ done).Pairwise fun n m => n.depth ≤ m.depth := by
  obtain ⟨_, taken, waiting⟩ := run.matches_sweep known
  obtain ⟨d, done, todo, cut, reached⟩ :=
    LevelOrder.sweep_eq (Node.successors store) (Node.root goals given) k
  rw [Node.sweep, reached] at taken waiting
  have initial : (Node.above store goals given d ++ done) ++
      (todo ++ done.flatMap (Node.successors store)) <+: Node.above store goals given (d + 2) := by
    rw [Node.above, LevelOrder.above_add_two _ _ cut]
    exact ⟨_, List.append_assoc _ _ _⟩
  refine ⟨d, done, todo, cut, taken.imp fun _ _ h => h.sameUpToFresh,
    waiting.imp fun _ _ h => h.sameUpToFresh, initial, ?_⟩
  exact (Node.pairwise_depth_above _).sublist
    ((List.sublist_append_left _ _).trans initial.sublist)

/-- The run of the small program stops between the last level of the tree and
an empty one. -/
theorem level_order_tiny : ∃ visits q after,
    Run Tiny.store (ofGoals Tiny.goals false false) Tiny.supply 3 visits q after ∧
      ∃ (d : Nat) (done todo : List Node),
        Node.level Tiny.store Tiny.goals Tiny.supply d = done ++ todo ∧
        List.Forall₂ (fun n item => n.proof.SameUpToFresh Tiny.supply item)
          (Node.above Tiny.store Tiny.goals Tiny.supply d ++ done) (visits.map Visit.item) ∧
        todo ++ done.flatMap (Node.successors Tiny.store) = [] := by
  obtain ⟨earlier, q, after, run, empty⟩ := Tiny.run
  obtain ⟨d, done, todo, cut, visited, waiting, _⟩ := level_order Tiny.knows run
  rw [empty, List.forall₂_nil_right_iff] at waiting
  exact ⟨_, q, after, run, d, done, todo, cut, visited, waiting⟩

end Query.Run

end Resolvent
