/-
# Searches in which something gets smaller

If a number that belongs to every partial proof gets smaller with each
resolution step, then no branch of the search tree is longer than that number
at the root. The tree has a last level, and the search is exhausted when it has
gone through the tree. If moreover no attempt to unify goes on for ever, then
it does go through the tree, and so the answers can be pulled one by one until
there are no more.
-/

import Resolvent.Proofs.Search.Resumption
import Resolvent.Proofs.Search.Selection

namespace Resolvent

variable {store : Store} {goals : List Atom} {base : Supply}

/-- Every resolution step makes a number smaller that belongs to partial
proofs. -/
def Node.Lowers (store : Store) (base : Supply) (size : PartialProof → Nat) : Prop :=
  ∀ n n', Covered base n → Resolves store n n' → size n'.proof < size n.proof

namespace Node.Lowers

variable {size : PartialProof → Nat}

/-- As many steps are gone from the number as have been made. -/
theorem add_depth_le (lowers : Lowers store base size) (known : base.Knows store goals) (d : Nat) :
    ∀ n ∈ level store goals base d, size n.proof + d ≤ size ⟨goals, []⟩ := by
  induction d with
  | zero =>
      intro n hn
      rw [List.mem_singleton.mp hn]
      exact Nat.le_refl _
  | succ d ih =>
      intro n' hn
      obtain ⟨n, there, child⟩ := List.mem_flatMap.mp hn
      have lower := lowers n n' (covered_of_mem_level known d n there) (mem_successors.mp child)
      have before := ih n there
      omega

/-- The size of the goals bounds the depth of the search tree: a level beyond
it is empty. -/
theorem level_eq_nil (lowers : Lowers store base size) (known : base.Knows store goals) :
    level store goals base (size ⟨goals, []⟩ + 1) = [] := by
  refine List.eq_nil_iff_forall_not_mem.mpr fun n hn => ?_
  have deep := lowers.add_depth_le known _ n hn
  omega

end Node.Lowers

namespace Query

/-- Searching comes to an end: every attempt to unify does, every run is
exhausted from some number of steps on, which can be made, and the answers can
be pulled until a pull gives none. -/
structure ComesToEnd (store : Store) (start : Query) (given : Supply) : Prop where
  live : NeverDiverges store start given
  exhausts : ∃ enough, (∃ visits q supply, Run store start given enough visits q supply) ∧
    ∀ k visits q supply, enough ≤ k → Run store start given k visits q supply → q.isExhausted
  pulls : ∀ printed, ∃ answers s, Search.Iterates store ⟨start, given, printed, none⟩ answers s ∧
    s.query.isExhausted

variable {start : Query} {given : Supply} {enough : Nat}

/-- What is left to be done is bounded by the number of steps until the search
is exhausted. The answers of the request are those of the visits that are still
made. -/
theorem Run.exists_taken (live : NeverDiverges store start given)
    (exhausted : ∀ k visits q supply, enough ≤ k → Run store start given k visits q supply →
      q.isExhausted) {k : Nat} {visits : List Visit} {s : Search} (patient : s.patience = none)
    (run : Run store start given k visits s.query s.supply) :
    ∃ (more : List Visit) (s' : Search),
      Search.Taken store none none s (more.flatMap (·.event.answers)) .exhausted s' ∧
      s'.query.isExhausted ∧
      ∃ l, Run store start given l (visits ++ more) s'.query s'.supply := by
  induction left : enough - k generalizing k visits s with
  | zero =>
      have ended := exhausted k visits _ _ (Nat.le_of_sub_eq_zero left) run
      exact ⟨[], s, .stop (Search.stopReason?_of_isExhausted ended), ended, k,
        by rwa [List.append_nil]⟩
  | succ left ih =>
      by_cases ended : s.query.isExhausted
      · exact ⟨[], s, .stop (Search.stopReason?_of_isExhausted ended), ended, k,
          by rwa [List.append_nil]⟩
      · obtain ⟨moves, out, made⟩ := exists_step_iff.mpr (live k visits _ _ run)
        obtain ⟨item, rest, front⟩ := List.exists_cons_of_ne_nil
          (mt s.query.queue.isEmpty_iff.mpr ended)
        have next := run.step (Nat.le_refl _) made
        rw [front] at next
        obtain ⟨more, s', later, last, l, whole⟩ := ih (s := s.moved out) rfl next (by omega)
        refine ⟨⟨item, out.event⟩ :: more, s', ?_, last, l, by simpa using whole⟩
        rw [List.flatMap_cons]
        exact .step (by simp [Search.stopReason?, ended]) (Search.step_of_query_step patient made)
          later

/-- A search in which something gets smaller comes to an end, unless within a
step. -/
theorem comesToEnd_of_lowers {verbose recording : Bool} {size : PartialProof → Nat}
    (known : given.Knows store goals) (lowers : Node.Lowers store given size)
    (live : NeverDiverges store (ofGoals goals verbose recording) given) :
    ComesToEnd store (ofGoals goals verbose recording) given := by
  obtain ⟨enough, exhausted⟩ := Run.exists_isExhausted known (lowers.level_eq_nil known)
  refine ⟨live, ⟨enough, Run.exists_of_neverDiverges live enough, exhausted⟩, fun printed => ?_⟩
  obtain ⟨_, s, taken, ended, _⟩ := Run.exists_taken live exhausted
    (s := ⟨ofGoals goals verbose recording, given, printed, none⟩) rfl .nil
  exact ⟨_, s, Search.iterates_iff.mpr (Search.takes_iff_taken.mpr taken), ended⟩

end Query

end Resolvent
