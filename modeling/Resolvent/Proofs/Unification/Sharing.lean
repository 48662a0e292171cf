/-
# Unification of objects

A run of unification drops an equation at once when its sides are one and the
same object. For applications that depends on what is shared, and what is
shared depends on the run, since replacement builds new applications at some
places and shares the bound object at others. Here it is shown that nobody can
tell: a loop that looks at identity, a loop that drops equal leaves only and
takes all pairs of applications apart, and the run on the terms that the
objects stand for, which drops whatever is equal, end alike.

The loops do not keep step. Where one drops an equation with equal sides the
other may put the equations between the arguments in its place. These have
equal sides as well and stand in front of all that waits, and taking one apart
makes less of it. So they are used up before anything else is looked at, and
nothing is bound meanwhile.
-/

import Resolvent.Proofs.Terms.Objects
import Resolvent.Proofs.Unification.MostGeneral

namespace Resolvent

/-! ### The loop -/

/-- Two objects that are to be made the same term. -/
structure SharedEquation where
  left : Object
  right : Object

namespace SharedEquation

/-- The equation between the terms that the objects stand for. -/
def erase (e : SharedEquation) : Equation :=
  ⟨e.left.erase, e.right.erase⟩

/-- The equations with a binding applied to both sides, the left one first, and
the next free address. -/
def instantiateEach (b : SharedBinding) : List SharedEquation → Nat → List SharedEquation × Nat
  | [], next => ([], next)
  | e :: rest, next =>
    let (left, next) := b.apply e.left next
    let (right, next) := b.apply e.right next
    let (rest, next) := instantiateEach b rest next
    (⟨left, right⟩ :: rest, next)

/-- What a single equation between objects calls for. -/
inductive Move
  | discard
  | bind (b : SharedBinding)
  | split (parts : List SharedEquation)
  | clash

/-- The move of an equation between objects, which is dropped if the sides are
to be skipped. -/
def move (skips : Object → Object → Bool) (e : SharedEquation) : Move :=
  if skips e.left e.right then .discard
  else
    match e.left, e.right with
    | .var x, t => .bind ⟨x, t⟩
    | t, .var y => .bind ⟨y, t⟩
    | .app _ f ss, .app _ g ts =>
      if f = g ∧ ss.length = ts.length then .split (List.zipWith mk ss ts) else .clash
    | .const _, .const _ | .const _, .app _ _ _ | .app _ _ _, .const _ => .clash

/-- The move that is made on the terms. -/
def Move.erase : Move → Equation.Move
  | .discard => .discard
  | .bind b => .bind b.erase
  | .split parts => .split (parts.map SharedEquation.erase)
  | .clash => .clash

end SharedEquation

/-- How a run on objects ends. -/
inductive SharedVerdict
  | solved (bindings : List SharedBinding)
  | clash
  | unfinished

namespace SharedVerdict

/-- A verdict on what is left after a binding, as a verdict on the whole. -/
def after (b : SharedBinding) : SharedVerdict → SharedVerdict
  | .solved bindings => .solved (b :: bindings)
  | .clash => .clash
  | .unfinished => .unfinished

/-- The verdict with the terms that the bound objects stand for. -/
def erase : SharedVerdict → Verdict
  | .solved bindings => .solved (bindings.map SharedBinding.erase)
  | .clash => .clash
  | .unfinished => .unfinished

/-- A verdict on objects is missing exactly if that on terms is. -/
theorem erase_eq_unfinished {v : SharedVerdict} : v.erase = .unfinished ↔ v = .unfinished := by
  cases v <;> simp [erase]

/-- A binding is put in front of a verdict on objects as it is for terms. -/
theorem erase_after (b : SharedBinding) (v : SharedVerdict) :
    (v.after b).erase = v.erase.after b.erase := by
  cases v <;> rfl

end SharedVerdict

/-- Solve equations between objects within a number of moves. New objects are
stored from the address `next` on. -/
def unifyShared (skips : Object → Object → Bool) :
    (moves next : Nat) → List SharedEquation → SharedVerdict
  | _, _, [] => .solved []
  | 0, _, _ :: _ => .unfinished
  | moves + 1, next, e :: rest =>
    match e.move skips with
    | .discard => unifyShared skips moves next rest
    | .bind b =>
      let instantiated := SharedEquation.instantiateEach b rest next
      (unifyShared skips moves instantiated.2 instantiated.1).after b
    | .split parts => unifyShared skips moves next (parts ++ rest)
    | .clash => .clash

/-- Which sides are skipped is up to the loop, as long as the same leaves are
and different terms are not. -/
structure Skips (skips : Object → Object → Bool) : Prop where
  leaf : ∀ s t, s.sameLeaf t → skips s t
  sound : ∀ heap s t, s.LivesIn heap → t.LivesIn heap → skips s t → s.erase = t.erase

/-- The same leaf is the same object. -/
theorem Object.is_of_sameLeaf {s t : Object} (same : s.sameLeaf t) : s.is t := by
  cases s <;> cases t <;> simp_all [Object.sameLeaf, Object.is]

/-- To skip identical objects is to skip equal terms only. -/
theorem skips_is : Skips Object.is where
  leaf _ _ := Object.is_of_sameLeaf
  sound _ _ _ hs ht same := hs.erase_eq_of_is ht same

/-- To skip the same leaves is to skip equal terms only. -/
theorem skips_sameLeaf : Skips Object.sameLeaf where
  leaf _ _ same := same
  sound _ _ _ hs ht same := hs.erase_eq_of_is ht (Object.is_of_sameLeaf same)

/-! ### One move -/

namespace SharedEquation

variable {skips : Object → Object → Bool} {heap : Heap} {e : SharedEquation}

/-- Both sides of the equation live in the heap. -/
structure LivesIn (heap : Heap) (e : SharedEquation) : Prop where
  left : e.left.LivesIn heap
  right : e.right.LivesIn heap

/-- The moves of an equation between objects, beside the moves on the terms. -/
inductive Follows (e : SharedEquation) : Move → Prop
  | same {m : Move} (moves : e.erase.move = m.erase) : Follows e m
  | apart {parts : List SharedEquation} (equal : e.left.erase = e.right.erase)
      (each : ∀ p ∈ parts, p.left.erase = p.right.erase)
      (lighter : Substitution.weight .var (parts.map erase) < Substitution.weight .var [e.erase]) :
      Follows e (.split parts)

/-- An equation between equal terms is discarded. -/
theorem move_erase_of_equal (equal : e.left.erase = e.right.erase) : e.erase.move = .discard := by
  simp [erase, Equation.move, equal]

/-- Equations between arguments are those between the arguments as terms. -/
theorem map_erase_zipWith (ss ts : List Object) :
    (List.zipWith mk ss ts).map erase =
      List.zipWith Equation.mk (ss.map Object.erase) (ts.map Object.erase) := by
  rw [List.map_zipWith, List.zipWith_map]
  rfl

/-- Arguments that stand for the same terms pair by pair are equated in
equations with equal sides. -/
theorem erase_eq_of_mem_zipWith {ss ts : List Object}
    (equal : ss.map Object.erase = ts.map Object.erase) {p : SharedEquation}
    (hp : p ∈ List.zipWith mk ss ts) : p.left.erase = p.right.erase := by
  induction ss generalizing ts with
  | nil => simp at hp
  | cons s ss ih =>
      cases ts with
      | nil => simp at hp
      | cons t ts =>
          rw [List.map_cons, List.map_cons, List.cons.injEq] at equal
          rcases List.mem_cons.mp hp with rfl | later
          · exact equal.1
          · exact ih equal.2 later

private theorem follows_apps {a b : Nat} {f : Functor} {ss ts : List Object}
    (length : ss.length = ts.length) :
    Follows ⟨.app a f ss, .app b f ts⟩ (.split (List.zipWith mk ss ts)) := by
  by_cases equal : ss.map Object.erase = ts.map Object.erase
  · refine .apart (by simp [equal]) (fun p hp => erase_eq_of_mem_zipWith equal hp) ?_
    rw [map_erase_zipWith, Substitution.weight_zipWith (by simpa using length)]
    simp [Substitution.weight, erase, Term.size]
  · refine .same ?_
    rw [erase, Object.erase_app, Object.erase_app, Move.erase, map_erase_zipWith]
    exact (Equation.Calls.split equal (by simpa using length)).move_eq

/-- An equation between objects makes the move that the terms make, or it takes
apart what on the terms is dropped. -/
theorem follows_move (skip : Skips skips) (lives : e.LivesIn heap) : e.Follows (e.move skips) := by
  obtain ⟨s, t⟩ := e
  by_cases skipped : skips s t
  · have equal := skip.sound heap s t lives.left lives.right skipped
    refine .same ?_
    rw [move_erase_of_equal equal, move, if_pos skipped]
    rfl
  · have apart : ¬ s.sameLeaf t := fun same => skipped (skip.leaf s t same)
    rw [move, if_neg skipped]
    cases s with
    | var x =>
        have different : t.erase ≠ .var x := by
          intro same
          obtain rfl := Object.eq_var_of_erase same
          exact apart (by simp [Object.sameLeaf])
        exact .same (Equation.Calls.bindLeft different).move_eq
    | const c =>
        cases t with
        | var y => exact .same (Equation.Calls.bindRight (by simp)).move_eq
        | const d =>
            have different : c ≠ d := by simpa [Object.sameLeaf] using apart
            exact .same (Equation.Calls.constants different).move_eq
        | app b g ts => exact .same (Equation.Calls.constApp c g _).move_eq
    | app a f ss =>
        cases t with
        | var y => exact .same (Equation.Calls.bindRight (by simp)).move_eq
        | const d => exact .same (Equation.Calls.appConst f _ d).move_eq
        | app b g ts =>
            dsimp only
            split
            · next like =>
                obtain ⟨rfl, length⟩ := like
                exact follows_apps length
            · next unlike =>
                refine .same ?_
                rw [erase, Object.erase_app, Object.erase_app]
                exact (Equation.Calls.functors (by simpa using unlike)).move_eq

/-- An equation with equal sides is dropped, or taken apart into lighter ones
with equal sides. -/
theorem Follows.of_equal {m : Move} (h : e.Follows m) (equal : e.left.erase = e.right.erase) :
    m = .discard ∨ ∃ parts, m = .split parts ∧ (∀ p ∈ parts, p.left.erase = p.right.erase) ∧
      Substitution.weight .var (parts.map erase) < Substitution.weight .var [e.erase] := by
  cases h with
  | same moves =>
      rw [move_erase_of_equal equal] at moves
      cases m with
      | discard => exact .inl rfl
      | bind b => cases moves
      | split parts => cases moves
      | clash => cases moves
  | apart _ each lighter => exact .inr ⟨_, rfl, each, lighter⟩

/-- What a move is about lives in the heap. -/
def Move.LivesIn (heap : Heap) : Move → Prop
  | .bind b => b.term.LivesIn heap
  | .split parts => ∀ p ∈ parts, p.LivesIn heap
  | .discard | .clash => True

/-- Equations between living objects are between living objects. -/
theorem livesIn_zipWith {ss ts : List Object} (hs : ∀ s ∈ ss, s.LivesIn heap)
    (ht : ∀ t ∈ ts, t.LivesIn heap) : ∀ p ∈ List.zipWith mk ss ts, p.LivesIn heap := by
  intro p hp
  rw [← List.map_uncurry_zip_eq_zipWith] at hp
  obtain ⟨⟨s, t⟩, pair, rfl⟩ := List.mem_map.mp hp
  obtain ⟨left, right⟩ := List.of_mem_zip pair
  exact ⟨hs s left, ht t right⟩

/-- A move does not bring in objects that are not alive. -/
theorem LivesIn.move (lives : e.LivesIn heap) (skips : Object → Object → Bool) :
    (e.move skips).LivesIn heap := by
  obtain ⟨s, t⟩ := e
  obtain ⟨hs, ht⟩ := lives
  rw [SharedEquation.move]
  split
  · trivial
  · cases hs with
    | var x => exact ht
    | const c =>
        cases ht with
        | var y => exact .const c
        | const d => trivial
        | app _ _ _ => trivial
    | app used stored hss =>
        cases ht with
        | var y => exact .app used stored hss
        | const d => trivial
        | app _ _ hts =>
            dsimp only
            split
            · exact livesIn_zipWith hss hts
            · trivial

/-- Instantiating the equations is instantiating those between the terms. -/
theorem instantiateEach_leaves {b : SharedBinding} (hb : b.term.LivesIn heap)
    {equations : List SharedEquation} (lives : ∀ e ∈ equations, e.LivesIn heap) :
    heap.Leaves (fun later out => (∀ e ∈ out, e.LivesIn later) ∧
        out.map erase = (equations.map erase).map (·.instantiate b.erase))
      (instantiateEach b equations heap.next) := by
  induction equations generalizing heap with
  | nil => exact ⟨heap, .refl heap, rfl, by simp [instantiateEach], rfl⟩
  | cons e rest ih =>
      rw [List.forall_mem_cons] at lives
      obtain ⟨first, toFirst, next₁, hleft, eleft⟩ := SharedBinding.apply_leaves hb lives.1.left
      obtain ⟨second, toSecond, next₂, hright, eright⟩ :=
        SharedBinding.apply_leaves (toFirst.livesIn hb) (toFirst.livesIn lives.1.right)
      have grown := toFirst.trans toSecond
      obtain ⟨later, toLater, next₃, hrest, erest⟩ := ih (grown.livesIn hb)
        fun e he => ⟨grown.livesIn (lives.2 e he).left, grown.livesIn (lives.2 e he).right⟩
      rw [next₁] at next₂ hright eright
      rw [next₂] at next₃ hrest erest
      refine ⟨later, grown.trans toLater, next₃, ?_, ?_⟩
      · exact List.forall_mem_cons.mpr
          ⟨⟨(toSecond.trans toLater).livesIn hleft, toLater.livesIn hright⟩, hrest⟩
      · exact congrArg₂ List.cons (congrArg₂ Equation.mk eleft eright) erest

end SharedEquation

/-! ### Runs -/

/-- Two runs that are given a number of moves end with the same verdicts, and
if the one goes on for ever then so does the other. -/
structure EndAlike {V : Type} (unfinished : V) (run run' : Nat → V) : Prop where
  ends : ∀ v, v ≠ unfinished → ((∃ moves, run moves = v) ↔ ∃ moves, run' moves = v)
  goesOn : (∀ moves, run moves = unfinished) ↔ ∀ moves, run' moves = unfinished

namespace EndAlike

variable {V : Type} {unfinished : V} {run run' run'' : Nat → V}

/-- A run that ends nowhere goes on for ever. -/
theorem of_ends
    (ends : ∀ v, v ≠ unfinished → ((∃ moves, run moves = v) ↔ ∃ moves, run' moves = v)) :
    EndAlike unfinished run run' where
  ends := ends
  goesOn := by
    constructor
    · intro always moves
      by_contra finished
      obtain ⟨n, same⟩ := (ends _ finished).mpr ⟨moves, rfl⟩
      exact finished (same ▸ always n)
    · intro always moves
      by_contra finished
      obtain ⟨n, same⟩ := (ends _ finished).mp ⟨moves, rfl⟩
      exact finished (same ▸ always n)

/-- That two loops end alike may be read from either side. -/
theorem symm (h : EndAlike unfinished run run') : EndAlike unfinished run' run :=
  ⟨fun v finished => (h.ends v finished).symm, h.goesOn.symm⟩

/-- Loops that end alike as a third one end alike. -/
theorem trans (h : EndAlike unfinished run run') (h' : EndAlike unfinished run' run'') :
    EndAlike unfinished run run'' :=
  ⟨fun v finished => (h.ends v finished).trans (h'.ends v finished), h.goesOn.trans h'.goesOn⟩

end EndAlike

section Runs

variable {skips : Object → Object → Bool} {heap : Heap} {equations : List SharedEquation}

/-- With more moves a finished run on objects ends in the same way. -/
theorem unifyShared_of_le {moves more next : Nat} (h : moves ≤ more)
    (finished : unifyShared skips moves next equations ≠ .unfinished) :
    unifyShared skips more next equations = unifyShared skips moves next equations := by
  induction moves generalizing more next equations with
  | zero =>
      cases equations with
      | nil => simp [unifyShared]
      | cons e rest => exact absurd rfl finished
  | succ moves ih =>
      cases equations with
      | nil => simp [unifyShared]
      | cons e rest =>
          obtain ⟨more, rfl⟩ : ∃ n, more = n + 1 := ⟨more - 1, by omega⟩
          have hle : moves ≤ more := Nat.le_of_succ_le_succ h
          rw [unifyShared] at finished
          rw [unifyShared, unifyShared]
          cases move : e.move skips with
          | discard => rw [move] at finished; exact ih hle finished
          | split parts => rw [move] at finished; exact ih hle finished
          | clash => rfl
          | bind b =>
              simp only [move] at finished
              refine congrArg (SharedVerdict.after b) (ih hle fun unfinished => finished ?_)
              rw [unfinished]
              rfl

/-- Equations with equal sides in front of others are used up in some number of
moves, and leave nothing behind. -/
theorem exists_moves_of_equal (skip : Skips skips) {front : List SharedEquation}
    (lives : ∀ e ∈ front, e.LivesIn heap) (equal : ∀ e ∈ front, e.left.erase = e.right.erase) :
    ∃ used, ∀ moves next rest,
      unifyShared skips (used + moves) next (front ++ rest) =
        unifyShared skips moves next rest := by
  induction weight : Substitution.weight .var (front.map SharedEquation.erase)
    using Nat.strong_induction_on generalizing front with
  | _ n ih =>
      subst weight
      cases front with
      | nil => exact ⟨0, by simp⟩
      | cons e front =>
          rw [List.forall_mem_cons] at lives equal
          have living := lives.1.move skips
          rcases (SharedEquation.follows_move skip lives.1).of_equal equal.1 with
            move | ⟨parts, move, each, lighter⟩
          · obtain ⟨used, same⟩ := ih _ (Substitution.weight_lt_cons e.erase _) lives.2 equal.2 rfl
            refine ⟨used + 1, fun moves next rest => ?_⟩
            rw [Nat.succ_add, List.cons_append, unifyShared, move]
            exact same moves next rest
          · rw [move] at living
            have smaller : Substitution.weight .var ((parts ++ front).map SharedEquation.erase) <
                Substitution.weight .var ((e :: front).map SharedEquation.erase) := by
              rw [List.map_append, List.map_cons, ← List.singleton_append,
                Substitution.weight_append, Substitution.weight_append]
              exact Nat.add_lt_add_right lighter _
            obtain ⟨used, same⟩ := ih _ smaller (List.forall_mem_append.mpr ⟨living, lives.2⟩)
              (List.forall_mem_append.mpr ⟨each, equal.2⟩) rfl
            refine ⟨used + 1, fun moves next rest => ?_⟩
            rw [Nat.succ_add, List.cons_append, unifyShared, move]
            dsimp only
            rw [← List.append_assoc]
            exact same moves next rest

section Front

variable {front : List SharedEquation}

/-- A run that has used up equations with equal sides has not needed fewer
moves than the run without them. -/
theorem unifyShared_of_append_equal (skip : Skips skips) (lives : ∀ e ∈ front, e.LivesIn heap)
    (equal : ∀ e ∈ front, e.left.erase = e.right.erase) {moves next : Nat}
    {rest : List SharedEquation}
    (finished : unifyShared skips moves next (front ++ rest) ≠ .unfinished) :
    unifyShared skips moves next rest = unifyShared skips moves next (front ++ rest) := by
  obtain ⟨used, same⟩ := exists_moves_of_equal skip lives equal
  rw [← same]
  exact unifyShared_of_le (Nat.le_add_left moves used) finished

/-- Equations with equal sides in front make no difference to how a run
ends. -/
theorem unifyShared_append_equal (skip : Skips skips) (lives : ∀ e ∈ front, e.LivesIn heap)
    (equal : ∀ e ∈ front, e.left.erase = e.right.erase) (next : Nat) (rest : List SharedEquation) :
    EndAlike .unfinished (unifyShared skips · next (front ++ rest))
      (unifyShared skips · next rest) := by
  refine .of_ends fun v finished => ⟨?_, ?_⟩
  · rintro ⟨moves, rfl⟩
    exact ⟨moves, unifyShared_of_append_equal skip lives equal finished⟩
  · rintro ⟨moves, ends⟩
    obtain ⟨used, same⟩ := exists_moves_of_equal skip lives equal
    exact ⟨used + moves, (same moves next rest).trans ends⟩

end Front

/-- What a run on objects comes to, the run on the terms comes to. -/
theorem exists_unify_of_unifyShared (skip : Skips skips) (lives : ∀ e ∈ equations, e.LivesIn heap)
    {moves : Nat} (finished : unifyShared skips moves heap.next equations ≠ .unfinished) :
    ∃ n, unify n (equations.map SharedEquation.erase) =
      (unifyShared skips moves heap.next equations).erase := by
  induction moves generalizing heap equations with
  | zero =>
      cases equations with
      | nil => exact ⟨0, rfl⟩
      | cons e rest => exact absurd rfl finished
  | succ moves ih =>
      cases equations with
      | nil => exact ⟨0, rfl⟩
      | cons e rest =>
          rw [List.forall_mem_cons] at lives
          have living := lives.1.move skips
          have follows := SharedEquation.follows_move skip lives.1
          rw [unifyShared] at finished ⊢
          generalize e.move skips = m at living follows finished ⊢
          cases follows with
          | same made =>
              cases m with
              | discard =>
                  obtain ⟨n, ends⟩ := ih lives.2 finished
                  exact ⟨n + 1, by rw [List.map_cons, unify, made]; exact ends⟩
              | bind b =>
                  obtain ⟨later, _, next, hrest, erest⟩ :=
                    SharedEquation.instantiateEach_leaves living lives.2
                  dsimp only at finished ⊢
                  rw [← next] at finished ⊢
                  obtain ⟨n, ends⟩ := ih hrest fun unfinished => finished (by rw [unfinished]; rfl)
                  refine ⟨n + 1, ?_⟩
                  rw [List.map_cons, unify, made, SharedVerdict.erase_after, ← ends, erest]
                  rfl
              | split parts =>
                  obtain ⟨n, ends⟩ := ih (List.forall_mem_append.mpr ⟨living, lives.2⟩) finished
                  refine ⟨n + 1, ?_⟩
                  rw [List.map_append] at ends
                  rw [List.map_cons, unify, made]
                  exact ends
              | clash => exact ⟨1, by rw [List.map_cons, unify, made]; rfl⟩
          | apart equal each _ =>
              -- Taking apart what is equal is a detour.
              have direct := unifyShared_of_append_equal skip living each finished
              dsimp only at finished ⊢
              rw [← direct] at finished ⊢
              obtain ⟨n, ends⟩ := ih lives.2 finished
              refine ⟨n + 1, ?_⟩
              rw [List.map_cons, unify, SharedEquation.move_erase_of_equal equal]
              exact ends

/-- What the run on the terms comes to, a run on objects comes to. -/
theorem exists_unifyShared_of_unify (skip : Skips skips) (lives : ∀ e ∈ equations, e.LivesIn heap)
    {moves : Nat} (finished : unify moves (equations.map SharedEquation.erase) ≠ .unfinished) :
    ∃ n, (unifyShared skips n heap.next equations).erase =
      unify moves (equations.map SharedEquation.erase) := by
  induction moves generalizing heap equations with
  | zero =>
      cases equations with
      | nil => exact ⟨0, rfl⟩
      | cons e rest => exact absurd rfl finished
  | succ moves ih =>
      cases equations with
      | nil => exact ⟨0, rfl⟩
      | cons e rest =>
          rw [List.forall_mem_cons] at lives
          have living := lives.1.move skips
          have follows := SharedEquation.follows_move skip lives.1
          rw [List.map_cons, unify] at finished ⊢
          generalize move : e.move skips = m at living follows
          cases follows with
          | same made =>
              rw [made] at finished ⊢
              cases m with
              | discard =>
                  obtain ⟨n, ends⟩ := ih lives.2 finished
                  exact ⟨n + 1, by rw [unifyShared, move]; exact ends⟩
              | bind b =>
                  obtain ⟨later, _, next, hrest, erest⟩ :=
                    SharedEquation.instantiateEach_leaves living lives.2
                  dsimp only [SharedEquation.Move.erase] at finished ⊢
                  rw [← erest] at finished ⊢
                  obtain ⟨n, ends⟩ := ih hrest fun unfinished => finished (by rw [unfinished]; rfl)
                  refine ⟨n + 1, ?_⟩
                  rw [unifyShared, move, ← ends, next]
                  exact SharedVerdict.erase_after b _
              | split parts =>
                  have living := List.forall_mem_append.mpr ⟨living, lives.2⟩
                  dsimp only [SharedEquation.Move.erase] at finished ⊢
                  rw [← List.map_append] at finished ⊢
                  obtain ⟨n, ends⟩ := ih living finished
                  exact ⟨n + 1, by rw [unifyShared, move]; exact ends⟩
              | clash => exact ⟨1, by rw [unifyShared, move]; rfl⟩
          | apart equal each _ =>
              rw [SharedEquation.move_erase_of_equal equal] at finished ⊢
              obtain ⟨n, ends⟩ := ih lives.2 finished
              obtain ⟨used, same⟩ := exists_moves_of_equal skip living each
              refine ⟨used + n + 1, ?_⟩
              rw [unifyShared, move]
              dsimp only
              rw [same, ends]

/-- A run on objects ends as the run on the terms does that the objects stand
for. -/
theorem unifyShared_endAlike (skip : Skips skips) (lives : ∀ e ∈ equations, e.LivesIn heap) :
    EndAlike .unfinished (fun moves => (unifyShared skips moves heap.next equations).erase)
      (unify · (equations.map SharedEquation.erase)) := by
  refine .of_ends fun v finished => ⟨?_, ?_⟩
  · rintro ⟨moves, rfl⟩
    exact exists_unify_of_unifyShared skip lives
      (mt SharedVerdict.erase_eq_unfinished.mpr finished)
  · rintro ⟨moves, rfl⟩
    exact exists_unifyShared_of_unify skip lives finished

/-- It cannot be told from how a run ends what the objects in the equations
share, and which of the shared objects are noticed. A loop that drops an
equation between one and the same object, a loop that drops equal leaves only
and takes every pair of applications apart, and the run on the terms solve the
equations with the same bindings, clash all three, or go on for ever all three.
In front of other equations, one between objects that are the same term
contributes no binding. -/
theorem sharing_unobservable (lives : ∀ e ∈ equations, e.LivesIn heap) :
    EndAlike .unfinished (fun moves => (unifyShared Object.is moves heap.next equations).erase)
        (fun moves => (unifyShared Object.sameLeaf moves heap.next equations).erase) ∧
      EndAlike .unfinished (fun moves => (unifyShared Object.is moves heap.next equations).erase)
        (unify · (equations.map SharedEquation.erase)) ∧
      ∀ s t : Object, s.LivesIn heap → t.LivesIn heap → s.sameTerm t →
        EndAlike .unfinished (unifyShared Object.is · heap.next (⟨s, t⟩ :: equations))
          (unifyShared Object.is · heap.next equations) ∧
        EndAlike .unfinished (unifyShared Object.sameLeaf · heap.next (⟨s, t⟩ :: equations))
          (unifyShared Object.sameLeaf · heap.next equations) := by
  have identity := unifyShared_endAlike skips_is lives
  have leaves := unifyShared_endAlike skips_sameLeaf lives
  refine ⟨identity.trans leaves.symm, identity, fun s t hs ht same => ?_⟩
  have living : ∀ e ∈ [SharedEquation.mk s t], e.LivesIn heap := by
    simpa using (⟨hs, ht⟩ : SharedEquation.LivesIn heap ⟨s, t⟩)
  have equal : ∀ e ∈ [SharedEquation.mk s t], e.left.erase = e.right.erase := by
    simpa using (Object.sameTerm_iff hs ht).mp same
  exact ⟨unifyShared_append_equal skips_is living equal heap.next equations,
    unifyShared_append_equal skips_sameLeaf living equal heap.next equations⟩

/-- In `h(X, X) = h(g(Y), g(Y))` one object is both arguments on the right. The
loop that notices this needs three moves, the other one takes `g(Y) = g(Y)`
apart and needs one more. -/
theorem sharing_unobservable_argument :
    let x : Variable := ⟨0, "X"⟩
    let y : Variable := ⟨1, "Y"⟩
    let g (a : Nat) : Object := .app a ⟨2, "g"⟩ [.var y]
    let h (a : Nat) (o : Object) : Object := .app a ⟨3, "h"⟩ [o, o]
    let equations : List SharedEquation := [⟨h 1 (.var x), h 2 (g 0)⟩]
    let stored (a : Nat) : Object :=
      if a = 1 then h 1 (.var x) else if a = 2 then h 2 (g 0) else g a
    let heap : Heap := ⟨4, fun a => (stored a).erase⟩
    let bindings : List Binding := [⟨x, (g 0).erase⟩]
    (∀ e ∈ equations, e.LivesIn heap) ∧ (g 0).sameTerm (g 3) ∧ ¬ (g 0).is (g 3) ∧
      (unifyShared Object.is 3 heap.next equations).erase = .solved bindings ∧
      (unifyShared Object.sameLeaf 3 heap.next equations).erase = .unfinished ∧
      (∃ moves, (unifyShared Object.sameLeaf moves heap.next equations).erase = .solved bindings) ∧
      EndAlike .unfinished (unifyShared Object.is · heap.next (⟨g 0, g 3⟩ :: equations))
        (unifyShared Object.is · heap.next equations) := by
  intro x y g h equations stored heap bindings
  have arguments : ∀ o ∈ [Object.var y], o.LivesIn heap := by simpa using .var y
  have shared : (g 0).LivesIn heap := .app (by decide) rfl arguments
  have other : (g 3).LivesIn heap := .app (by decide) rfl arguments
  have left : (h 1 (.var x)).LivesIn heap := .app (by decide) rfl (by simpa using .var x)
  have right : (h 2 (g 0)).LivesIn heap := .app (by decide) rfl (by simpa using shared)
  have lives : ∀ e ∈ equations, e.LivesIn heap := by
    simpa [equations] using (⟨left, right⟩ : SharedEquation.LivesIn heap ⟨_, _⟩)
  have solved : (unifyShared Object.is 3 heap.next equations).erase = .solved bindings := rfl
  obtain ⟨alike, _, front⟩ := sharing_unobservable lives
  exact ⟨lives, rfl, by decide, solved, rfl, (alike.ends _ (by simp)).mp ⟨3, solved⟩,
    (front _ _ shared other rfl).1⟩

end Runs

end Resolvent
