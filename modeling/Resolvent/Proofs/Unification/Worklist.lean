/-
# Unification as a loop

Equations are solved by a loop. It keeps the equations that wait and the
bindings made so far, puts a new binding behind those, and rewrites what waits
with it at once. The rules of unification are rather those of a recursion: what
comes of the first equation is put in front of what comes of the others. Both
are compared here, on objects with all that is shared, and without a number of
moves on the terms.

Since the loop works from the front, equations behind others are not looked at
until those in front are used up. By then each binding that has been made has
been applied to them, from the first to the last, so that the loop goes on with
an instance of what stood there. If the equations in front clash or are never
used up, then those behind them might as well not be there. Nothing of this
depends on what the bindings are, and they may be cyclic.
-/

import Resolvent.Proofs.Unification.Sharing
import Resolvent.Proofs.Unification.Termination

namespace Resolvent

namespace Verdict

/-- A verdict on what is left after several bindings, as a verdict on the
whole. -/
def afterAll (made : List Binding) : Verdict → Verdict
  | .solved bindings => .solved (made ++ bindings)
  | .clash => .clash
  | .unfinished => .unfinished

theorem afterAll_nil (v : Verdict) : v.afterAll [] = v := by
  cases v <;> rfl

/-- Bindings in front of a verdict may be put there one after the other. -/
theorem after_afterAll (b : Binding) (made : List Binding) (v : Verdict) :
    (v.afterAll made).after b = v.afterAll (b :: made) := by
  cases v <;> rfl

end Verdict

/-- The equation with a list of bindings applied to both sides, in order. -/
def Equation.instantiateAll (bindings : List Binding) (e : Equation) : Equation :=
  ⟨applyAll bindings e.left, applyAll bindings e.right⟩

/-- Bindings are put into equations one after the other. -/
theorem Equation.map_instantiateAll_cons (b : Binding) (bindings : List Binding)
    (equations : List Equation) :
    (equations.map (·.instantiate b)).map (·.instantiateAll bindings) =
      equations.map (·.instantiateAll (b :: bindings)) := by
  rw [List.map_map]
  rfl

/-! ### Equations in front of others -/

section Front

variable {front : List Equation} {moves : Nat}

/-- Unless the equations in front are solved it makes no difference that there
are others. -/
theorem unify_append_of_not_solved (unsolved : ∀ bindings, unify moves front ≠ .solved bindings)
    (behind : List Equation) : unify moves (front ++ behind) = unify moves front := by
  -- A binding rewrites what stands behind as well, so that this varies with
  -- the run.
  induction moves generalizing front behind with
  | zero =>
      cases front with
      | nil => exact absurd rfl (unsolved [])
      | cons e rest => rfl
  | succ moves ih =>
      cases front with
      | nil => exact absurd rfl (unsolved [])
      | cons e rest =>
          rw [List.cons_append, unify, unify]
          rw [unify] at unsolved
          cases move : e.move with
          | discard =>
              rw [move] at unsolved
              exact ih unsolved behind
          | bind b =>
              have unsolved_rest : ∀ bindings,
                  unify moves (rest.map (·.instantiate b)) ≠ .solved bindings := by
                intro bindings solved
                simp only [move, solved] at unsolved
                exact unsolved (b :: bindings) rfl
              simp only [List.map_append, ih unsolved_rest]
          | split parts =>
              rw [move] at unsolved
              dsimp only
              rw [← List.append_assoc]
              exact ih unsolved behind
          | clash => rfl

/-- Once the equations in front are solved, the others are left, with all the
bindings applied. It takes as many moves to come there whatever stands
behind. -/
theorem Yields.exists_unify_append {bindings : List Binding} (h : Yields front bindings) :
    ∃ used, ∀ behind more, unify (used + more) (front ++ behind) =
      (unify more (behind.map (·.instantiateAll bindings))).afterAll bindings := by
  induction h with
  | nil =>
      refine ⟨0, fun behind more => ?_⟩
      have untouched : behind.map (·.instantiateAll []) = behind := List.map_id' behind
      rw [untouched, Verdict.afterAll_nil, Nat.zero_add, List.nil_append]
  | discard h _ ih =>
      obtain ⟨used, same⟩ := ih
      refine ⟨used + 1, fun behind more => ?_⟩
      rw [Nat.succ_add, List.cons_append, unify, h]
      exact same behind more
  | @bind e b rest bindings h _ ih =>
      obtain ⟨used, same⟩ := ih
      refine ⟨used + 1, fun behind more => ?_⟩
      rw [Nat.succ_add, List.cons_append, unify, h]
      dsimp only
      rw [List.map_append, same, Equation.map_instantiateAll_cons, Verdict.after_afterAll]
  | split h _ ih =>
      obtain ⟨used, same⟩ := ih
      refine ⟨used + 1, fun behind more => ?_⟩
      rw [Nat.succ_add, List.cons_append, unify, h]
      dsimp only
      rw [← List.append_assoc]
      exact same behind more

end Front

/-! ### The recursion -/

/-- What the recursion makes of equations, by the shape of the first one: equal
sides are dropped, a variable is bound and put in front of what comes of the
others, applications are replaced by the equations between their arguments, and
all else clashes. There need not be a conclusion. -/
inductive Concludes : List Equation → Verdict → Prop
  | nil : Concludes [] (.solved [])
  | discard {e : Equation} {rest : List Equation} {v : Verdict} (h : e.Calls .discard)
      (later : Concludes rest v) : Concludes (e :: rest) v
  | bind {e : Equation} {b : Binding} {rest : List Equation} {v : Verdict} (h : e.Calls (.bind b))
      (later : Concludes (rest.map (·.instantiate b)) v) : Concludes (e :: rest) (v.after b)
  | split {e : Equation} {parts rest : List Equation} {v : Verdict} (h : e.Calls (.split parts))
      (later : Concludes (parts ++ rest) v) : Concludes (e :: rest) v
  | clash {e : Equation} {rest : List Equation} (h : e.Calls .clash) : Concludes (e :: rest) .clash

section Recursion

variable {equations : List Equation} {v : Verdict}

/-- A verdict of a run is a conclusion. -/
theorem concludes_unify {moves : Nat} (finished : unify moves equations ≠ .unfinished) :
    Concludes equations (unify moves equations) := by
  induction moves generalizing equations with
  | zero =>
      cases equations with
      | nil => exact .nil
      | cons e rest => exact absurd rfl finished
  | succ moves ih =>
      cases equations with
      | nil => exact .nil
      | cons e rest =>
          have calls := e.move_calls
          rw [unify] at finished ⊢
          generalize e.move = m at calls finished ⊢
          cases m with
          | discard => exact .discard calls (ih finished)
          | bind b => exact .bind calls (ih ((Verdict.after_ne_unfinished_iff b).mp finished))
          | split parts => exact .split calls (ih finished)
          | clash => exact .clash calls

/-- The conclusions are the verdicts that a run comes to when it has moves
enough. -/
theorem concludes_iff :
    Concludes equations v ↔ v ≠ .unfinished ∧ ∃ moves, unify moves equations = v := by
  constructor
  · intro conclusion
    induction conclusion with
    | nil => exact ⟨by simp, 0, rfl⟩
    | discard h _ ih =>
        obtain ⟨finished, moves, ends⟩ := ih
        exact ⟨finished, moves + 1, by rw [unify, h.move_eq]; exact ends⟩
    | bind h _ ih =>
        obtain ⟨finished, moves, ends⟩ := ih
        refine ⟨(Verdict.after_ne_unfinished_iff _).mpr finished, moves + 1, ?_⟩
        rw [unify, h.move_eq, ← ends]
    | split h _ ih =>
        obtain ⟨finished, moves, ends⟩ := ih
        exact ⟨finished, moves + 1, by rw [unify, h.move_eq]; exact ends⟩
    | clash h => exact ⟨by simp, 1, by rw [unify, h.move_eq]⟩
  · rintro ⟨finished, moves, rfl⟩
    exact concludes_unify finished

end Recursion

/-! ### The loop -/

/-- A verdict on what is left after several bindings, as a verdict on the
whole. -/
def SharedVerdict.afterAll (made : List SharedBinding) : SharedVerdict → SharedVerdict
  | .solved bindings => .solved (made ++ bindings)
  | .clash => .clash
  | .unfinished => .unfinished

/-- Where the loop stands: the equations that wait, the bindings made so far,
and the next free address. -/
structure Worklist where
  pending : List SharedEquation
  made : List SharedBinding
  next : Nat

namespace Worklist

/-- The loop before its first turn. -/
def start (equations : List SharedEquation) (next : Nat) : Worklist :=
  ⟨equations, [], next⟩

/-- Go round the loop, at most as often as there are turns, until nothing waits
any more. -/
def run (skips : Object → Object → Bool) : (turns : Nat) → Worklist → SharedVerdict
  | _, ⟨[], made, _⟩ => .solved made
  | 0, ⟨_ :: _, _, _⟩ => .unfinished
  | turns + 1, ⟨e :: rest, made, next⟩ =>
    match e.move skips with
    | .discard => run skips turns ⟨rest, made, next⟩
    | .bind b =>
      let (rewritten, next) := SharedEquation.instantiateEach b rest next
      run skips turns ⟨rewritten, made ++ [b], next⟩
    | .split parts => run skips turns ⟨parts ++ rest, made, next⟩
    | .clash => .clash

variable (skips : Object → Object → Bool)

/-- Wherever the loop stands, it comes to what the recursion makes of the
equations that wait, with the bindings made so far in front. -/
theorem run_eq_afterAll (turns : Nat) (pending : List SharedEquation) (made : List SharedBinding)
    (next : Nat) :
    run skips turns ⟨pending, made, next⟩ =
      (unifyShared skips turns next pending).afterAll made := by
  induction turns generalizing pending made next with
  | zero => cases pending <;> simp [run, unifyShared, SharedVerdict.afterAll]
  | succ turns ih =>
      cases pending with
      | nil => simp [run, unifyShared, SharedVerdict.afterAll]
      | cons e rest =>
          rw [run, unifyShared]
          cases e.move skips with
          | discard => exact ih rest made next
          | bind b =>
              dsimp only
              rw [ih]
              generalize unifyShared skips turns _ _ = v
              cases v <;> simp [SharedVerdict.after, SharedVerdict.afterAll]
          | split parts => exact ih (parts ++ rest) made next
          | clash => rfl

/-- From its first turn on the loop is the recursion, up to the objects in the
bindings. -/
theorem run_start (turns : Nat) (equations : List SharedEquation) (next : Nat) :
    (start equations next).run skips turns = unifyShared skips turns next equations := by
  rw [start, run_eq_afterAll]
  cases unifyShared skips turns next equations <;> rfl

end Worklist

/-- Equations are solved from the front. If those in front clash then all of
them clash, and as long as those in front are not used up the run on all of
them goes on as well, for ever if need be. Once those in front are solved, the
run is that on the others, with the bindings applied to both sides in order,
and its bindings are put behind those of the front.

A verdict on all of them is a conclusion of the recursion, and there is no
verdict if there is no conclusion. The loop over objects that stand for the
equations makes the same bindings of the same objects in the same order as the
recursion over these objects, and ends as the run on the terms. -/
theorem unify_append (front behind : List Equation) :
    (∀ moves, unify moves front = .clash → unify moves (front ++ behind) = .clash) ∧
      (∀ moves, unify moves front = .unfinished →
        unify moves (front ++ behind) = .unfinished) ∧
      (∀ moves bindings, unify moves front = .solved bindings →
        ∃ used, unify used front = .solved bindings ∧ ∀ more,
          unify (used + more) (front ++ behind) =
            (unify more (behind.map (·.instantiateAll bindings))).afterAll bindings) ∧
      (∀ v, Concludes (front ++ behind) v ↔
        v ≠ .unfinished ∧ ∃ moves, unify moves (front ++ behind) = v) ∧
      ∀ (heap : Heap) (objects : List SharedEquation), (∀ e ∈ objects, e.LivesIn heap) →
        objects.map SharedEquation.erase = front ++ behind →
        let loop (turns : Nat) := (Worklist.start objects heap.next).run Object.is turns
        (∀ turns, loop turns = unifyShared Object.is turns heap.next objects) ∧
          EndAlike .unfinished (fun turns => (loop turns).erase)
            (unify · (front ++ behind)) := by
  refine ⟨fun moves clashed => ?_, fun moves unfinished => ?_, fun moves bindings solved => ?_,
    fun v => concludes_iff, fun heap objects lives stand => ?_⟩
  · rw [unify_append_of_not_solved (by simp [clashed]), clashed]
  · rw [unify_append_of_not_solved (by simp [unfinished]), unfinished]
  · obtain ⟨used, same⟩ := (Yields.of_unify solved).exists_unify_append
    have alone : unify used front = .solved bindings := by
      simpa [unify, Verdict.afterAll] using same [] 0
    exact ⟨used, alone, same behind⟩
  · intro loop
    have loop_eq (turns : Nat) : loop turns = unifyShared Object.is turns heap.next objects :=
      Worklist.run_start Object.is turns objects heap.next
    refine ⟨loop_eq, ?_⟩
    simp only [loop_eq, ← stand]
    exact unifyShared_endAlike skips_is lives

/-- The equation `X = f(X)` in front makes `f(X) = f(Y)` of an equation
`X = f(Y)` behind it, so that `X` is bound a second time, to `Y`. Behind
`a = b`, and behind two equations that come back for ever, it is not looked
at. -/
theorem unify_append_cyclic :
    let x : Variable := ⟨0, "X"⟩
    let y : Variable := ⟨1, "Y"⟩
    let f (t : Term) : Term := .app ⟨2, "f"⟩ [t]
    let front : List Equation := [⟨.var x, f (.var x)⟩]
    let behind : List Equation := [⟨.var x, f (.var y)⟩]
    let bindings : List Binding := [⟨x, f (.var x)⟩]
    let clashing : List Equation := [⟨.const ⟨3, "a"⟩, .const ⟨4, "b"⟩⟩]
    let g : Term := .app ⟨5, "g"⟩ [.var x, .var x]
    let endless : List Equation := [⟨g, .var x⟩, ⟨g, .var x⟩]
    let stored (a : Nat) : Object := .app a ⟨2, "f"⟩ [.var (if a = 0 then x else y)]
    let heap : Heap := ⟨2, fun a => (stored a).erase⟩
    let objects : List SharedEquation := [⟨.var x, stored 0⟩, ⟨.var x, stored 1⟩]
    let loop (turns : Nat) := (Worklist.start objects heap.next).run Object.is turns
    (unify 1 clashing = .clash ∧ unify 1 (clashing ++ behind) = .clash) ∧
      (∀ moves, unify moves endless = .unfinished ∧
        unify moves (endless ++ behind) = .unfinished) ∧
      (unify 1 front = .solved bindings ∧ ∃ used, unify used front = .solved bindings ∧
        ∀ more, unify (used + more) (front ++ behind) =
          (unify more (behind.map (·.instantiateAll bindings))).afterAll bindings) ∧
      Concludes (front ++ behind) (.solved (bindings ++ [⟨x, .var y⟩])) ∧
      (∀ e ∈ objects, e.LivesIn heap) ∧ objects.map SharedEquation.erase = front ++ behind ∧
      (∀ turns, loop turns = unifyShared Object.is turns heap.next objects) ∧
      EndAlike .unfinished (fun turns => (loop turns).erase) (unify · (front ++ behind)) := by
  intro x y f front behind bindings clashing g endless stored heap objects loop
  have clashed : unify 1 clashing = .clash := rfl
  have unfinished (moves : Nat) : unify moves endless = .unfinished := by
    by_contra finished
    exact not_finishes_pair ⟨5, "g"⟩ x ⟨moves, finished⟩
  have solved : unify 1 front = .solved bindings := rfl
  have lives (a : Nat) (used : a < 2) : (stored a).LivesIn heap :=
    .app used rfl (by simpa using .var _)
  have each : ∀ e ∈ objects, e.LivesIn heap := by
    simpa [objects] using And.intro (⟨.var x, lives 0 (by decide)⟩ : SharedEquation.LivesIn heap _)
      (⟨.var x, lives 1 (by decide)⟩ : SharedEquation.LivesIn heap _)
  obtain ⟨_, _, composes, concludes, loops⟩ := unify_append front behind
  exact ⟨⟨clashed, (unify_append clashing behind).1 1 clashed⟩,
    fun moves => ⟨unfinished moves, (unify_append endless behind).2.1 moves (unfinished moves)⟩,
    ⟨solved, composes 1 bindings solved⟩, (concludes _).mpr ⟨by simp, 3, rfl⟩,
    each, rfl, loops heap objects each rfl⟩

end Resolvent
