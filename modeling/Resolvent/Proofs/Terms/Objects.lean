/-
# Terms as objects

Leaves are compared as symbols. Of an application, on the other hand, there may
be one object or several with the same functor and the same arguments, and
whether two applications are the same object is decided by where they are
stored. Here an application carries its address. Replacing a variable hands
back an application whose arguments have all been handed back, and builds a new
one at the next free address otherwise, so that a bound term is shared by all
its occurrences.

An object stands for the term that is left of it without the addresses. A heap
says what is stored at each address. Objects that live in one heap may share as
much or as little as they like, provided that an address is not used for two
different terms; nothing is required of objects that stand for the same term.
-/

import Resolvent.Proofs.Terms.Variables
import Resolvent.Binding

namespace Resolvent

/-- A term with the addresses of its applications. -/
inductive Object
  | var (x : Variable)
  | const (c : Constant)
  | app (address : Nat) (f : Functor) (args : List Object)

namespace Object

/-- Induction on objects. The arguments of an application share one
hypothesis. -/
@[elab_as_elim, induction_eliminator]
theorem induction {motive : Object → Prop} (var : ∀ x, motive (.var x))
    (const : ∀ c, motive (.const c))
    (app : ∀ a f args, (∀ o ∈ args, motive o) → motive (.app a f args)) (o : Object) :
    motive o :=
  @Object.rec motive (fun args => ∀ o ∈ args, motive o)
    var const app (fun _ absent => absurd absent List.not_mem_nil)
    (fun _ _ head tail s occurs => by
      rcases List.mem_cons.mp occurs with rfl | later
      · exact head
      · exact tail s later)
    o

mutual

/-- The term that an object stands for. -/
def erase : Object → Term
  | .var x => .var x
  | .const c => .const c
  | .app _ f args => .app f (eraseEach args)

/-- The terms that several objects stand for. -/
def eraseEach : List Object → List Term
  | [] => []
  | o :: os => erase o :: eraseEach os

end

@[simp] theorem erase_var (x : Variable) : (Object.var x).erase = .var x := rfl

@[simp] theorem erase_const (c : Constant) : (Object.const c).erase = .const c := rfl

@[simp] theorem erase_app (a : Nat) (f : Functor) (args : List Object) :
    (Object.app a f args).erase = .app f (args.map erase) := by
  have each : eraseEach args = args.map erase := by
    induction args with
    | nil => rfl
    | cons o os ih => rw [eraseEach, ih, List.map_cons]
  rw [erase, each]

/-- Only the object of a variable is seen as that variable. -/
theorem eq_var_of_erase {o : Object} {x : Variable} (h : o.erase = .var x) : o = .var x := by
  cases o with
  | var y => exact congrArg Object.var (Term.var.inj h)
  | const c => simp at h
  | app a f args => simp at h

/-! ### Comparisons -/

/-- Whether two objects are one and the same. -/
def is : Object → Object → Bool
  | .var x, .var y => x = y
  | .const c, .const d => c = d
  | .app a _ _, .app b _ _ => a = b
  | _, _ => false

/-- Whether two objects are the same variable or the same constant. -/
def sameLeaf : Object → Object → Bool
  | .var x, .var y => x = y
  | .const c, .const d => c = d
  | _, _ => false

mutual

/-- Whether two objects have identical leaves under identical functors. What is
one and the same is not looked into. -/
def sameTerm : Object → Object → Bool
  | .app a f ss, .app b g ts =>
    (Object.app a f ss).is (.app b g ts) ||
      (f = g && ss.length = ts.length && sameEach ss ts)
  | s, t => s.is t

/-- Whether the objects of two lists are the same terms, pair by pair. -/
def sameEach : List Object → List Object → Bool
  | s :: ss, t :: ts => sameTerm s t && sameEach ss ts
  | _, _ => true

end

end Object

/-! ### Heaps -/

/-- The addresses below `next` are in use, and each has one term stored
there. -/
structure Heap where
  next : Nat
  stored : Nat → Term

/-- A heap in which more addresses may be in use. -/
structure Heap.GrowsTo (heap later : Heap) : Prop where
  next_le : heap.next ≤ later.next
  stored_eq : ∀ a < heap.next, later.stored a = heap.stored a

/-- An operation that is given the heap hands out a result with the property,
and the next address that is then free. -/
def Heap.Leaves {α : Type} (heap : Heap) (P : Heap → α → Prop) (out : α × Nat) : Prop :=
  ∃ later : Heap, heap.GrowsTo later ∧ later.next = out.2 ∧ P later out.1

/-- The applications in an object are stored in the heap. -/
inductive Object.LivesIn (heap : Heap) : Object → Prop
  | var (x : Variable) : LivesIn heap (.var x)
  | const (c : Constant) : LivesIn heap (.const c)
  | app {a : Nat} {f : Functor} {args : List Object} (used : a < heap.next)
      (stored : heap.stored a = (Object.app a f args).erase)
      (each : ∀ o ∈ args, LivesIn heap o) : LivesIn heap (.app a f args)

namespace Heap.GrowsTo

variable {heap later last : Heap}

theorem refl (heap : Heap) : heap.GrowsTo heap :=
  ⟨Nat.le_refl _, fun _ _ => rfl⟩

/-- Growth adds up over several steps. -/
theorem trans (h : heap.GrowsTo later) (h' : later.GrowsTo last) : heap.GrowsTo last where
  next_le := Nat.le_trans h.next_le h'.next_le
  stored_eq a used :=
    (h'.stored_eq a (Nat.lt_of_lt_of_le used h.next_le)).trans (h.stored_eq a used)

/-- What lives in a heap is not touched by its growth. -/
theorem livesIn (h : heap.GrowsTo later) {o : Object} (lives : o.LivesIn heap) :
    o.LivesIn later := by
  induction lives with
  | var x => exact .var x
  | const c => exact .const c
  | app used stored _ ih =>
      exact .app (Nat.lt_of_lt_of_le used h.next_le) ((h.stored_eq _ used).trans stored) ih

end Heap.GrowsTo

/-- The heap with one more term in it. -/
def Heap.store (heap : Heap) (t : Term) : Heap where
  next := heap.next + 1
  stored a := if a = heap.next then t else heap.stored a

/-- A term is stored beside what was there. -/
theorem Heap.growsTo_store (heap : Heap) (t : Term) : heap.GrowsTo (heap.store t) where
  next_le := Nat.le_succ _
  stored_eq _ used := if_neg (Nat.ne_of_lt used)

/-- A new application is stored at the next free address. -/
theorem Heap.livesIn_store (heap : Heap) {f : Functor} {args : List Object}
    (each : ∀ o ∈ args, o.LivesIn heap) :
    (Object.app heap.next f args).LivesIn (heap.store (Object.app heap.next f args).erase) :=
  .app (Nat.lt_succ_self _) (if_pos rfl) fun o among =>
    (heap.growsTo_store _).livesIn (each o among)

namespace Object

variable {heap : Heap} {s t : Object}

/-- One object does not stand for two terms. -/
theorem LivesIn.erase_eq_of_is (hs : s.LivesIn heap) (ht : t.LivesIn heap) (same : s.is t) :
    s.erase = t.erase := by
  cases hs with
  | var x =>
      cases ht with
      | var y => simpa [is] using same
      | const d => simp [is] at same
      | app _ _ _ => simp [is] at same
  | const c =>
      cases ht with
      | var y => simp [is] at same
      | const d => simpa [is] using same
      | app _ _ _ => simp [is] at same
  | app _ stored _ =>
      cases ht with
      | var y => simp [is] at same
      | const d => simp [is] at same
      | app _ stored' _ =>
          obtain rfl := of_decide_eq_true same
          exact stored.symm.trans stored'

/-- Objects that are one and the same pair by pair stand for the same terms. -/
theorem map_erase_eq_of_is {ss ts : List Object} (length : ss.length = ts.length)
    (hs : ∀ s ∈ ss, s.LivesIn heap) (ht : ∀ t ∈ ts, t.LivesIn heap)
    (same : (ss.zip ts).all fun pair => pair.1.is pair.2) : ss.map erase = ts.map erase := by
  induction ss generalizing ts with
  | nil => cases ts <;> simp_all
  | cons s ss ih =>
      cases ts with
      | nil => simp at length
      | cons t ts =>
          rw [List.forall_mem_cons] at hs ht
          rw [List.zip_cons_cons, List.all_cons, Bool.and_eq_true] at same
          rw [List.map_cons, List.map_cons, hs.1.erase_eq_of_is ht.1 same.1,
            ih (by simpa using length) hs.2 ht.2 same.2]

private theorem sameEach_iff {ss ts : List Object} (length : ss.length = ts.length)
    (hs : ∀ s ∈ ss, s.LivesIn heap) (ht : ∀ t ∈ ts, t.LivesIn heap)
    (each : ∀ s ∈ ss, ∀ t, s.LivesIn heap → t.LivesIn heap →
      (s.sameTerm t ↔ s.erase = t.erase)) :
    sameEach ss ts ↔ ss.map erase = ts.map erase := by
  induction ss generalizing ts with
  | nil => cases ts <;> simp_all [sameEach]
  | cons s ss ih =>
      cases ts with
      | nil => simp at length
      | cons t ts =>
          rw [List.forall_mem_cons] at hs ht each
          rw [sameEach, Bool.and_eq_true, each.1 t hs.1 ht.1,
            ih (by simpa using length) hs.2 ht.2 each.2, List.map_cons, List.map_cons,
            List.cons.injEq]

/-- Objects are the same term when they stand for the same term, whatever they
share. -/
theorem sameTerm_iff (hs : s.LivesIn heap) (ht : t.LivesIn heap) :
    s.sameTerm t ↔ s.erase = t.erase := by
  induction s generalizing t with
  | var x => cases t <;> simp [sameTerm, is]
  | const c => cases t <;> simp [sameTerm, is]
  | app a f ss ih =>
      cases t with
      | var y => simp [sameTerm, is]
      | const d => simp [sameTerm, is]
      | app b g ts =>
          constructor
          · intro same
            rw [sameTerm, Bool.or_eq_true] at same
            rcases same with one | apart
            · exact hs.erase_eq_of_is ht one
            · simp only [Bool.and_eq_true, decide_eq_true_eq] at apart
              obtain ⟨⟨rfl, length⟩, inner⟩ := apart
              cases hs with
              | app _ _ hss =>
                  cases ht with
                  | app _ _ hts =>
                      rw [erase_app, erase_app,
                        (sameEach_iff length hss hts fun s hs t hs' => ih s hs hs').mp inner]
          · intro equal
            rw [erase_app, erase_app, Term.app.injEq] at equal
            obtain ⟨rfl, inner⟩ := equal
            have length : ss.length = ts.length := by simpa using congrArg List.length inner
            cases hs with
            | app _ _ hss =>
                cases ht with
                | app _ _ hts =>
                    simp [sameTerm, length,
                      (sameEach_iff length hss hts fun s hs t hs' => ih s hs hs').mpr inner]

end Object

/-! ### Replacement -/

/-- The variable `var` stands for the object `term`. -/
structure SharedBinding where
  var : Variable
  term : Object

namespace SharedBinding

/-- The binding to the term that the object stands for. -/
def erase (b : SharedBinding) : Binding :=
  ⟨b.var, b.term.erase⟩

mutual

/-- The object with the variable replaced, and the next free address. The bound
object is put in place as it is. An application is handed back if all its
arguments are. -/
def apply (b : SharedBinding) : Object → Nat → Object × Nat
  | .var y, next => (if y = b.var then b.term else .var y, next)
  | .const c, next => (.const c, next)
  | .app a f args, next =>
    let (replaced, next) := applyEach b args next
    if (replaced.zip args).all fun pair => pair.1.is pair.2 then (.app a f args, next)
    else (.app next f replaced, next + 1)

/-- The objects with the variable replaced, from the first one on. -/
def applyEach (b : SharedBinding) : List Object → Nat → List Object × Nat
  | [], next => ([], next)
  | o :: os, next =>
    let (o, next) := apply b o next
    let (os, next) := applyEach b os next
    (o :: os, next)

end

variable {b : SharedBinding} {heap : Heap}

/-- The objects are replaced one after the other, each in the heap that is left
by the one before it, provided that one at a time this is so. -/
private theorem applyEach_leaves {os : List Object} (hb : b.term.LivesIn heap)
    (hos : ∀ o ∈ os, o.LivesIn heap)
    (each : ∀ o ∈ os, ∀ heap : Heap, b.term.LivesIn heap → o.LivesIn heap →
      heap.Leaves (fun later out => out.LivesIn later ∧ out.erase = b.erase.apply o.erase)
        (b.apply o heap.next)) :
    heap.Leaves (fun later out => (∀ o ∈ out, o.LivesIn later) ∧
        out.map Object.erase = os.map fun o => b.erase.apply o.erase)
      (b.applyEach os heap.next) := by
  induction os generalizing heap with
  | nil => exact ⟨heap, .refl heap, rfl, by simp [applyEach], rfl⟩
  | cons o os ih =>
      rw [List.forall_mem_cons] at hos each
      obtain ⟨middle, grows, next, lives, erases⟩ := each.1 heap hb hos.1
      obtain ⟨later, grows', next', lives', erases'⟩ := ih (grows.livesIn hb)
        (fun o ho => grows.livesIn (hos.2 o ho)) each.2
      rw [next] at next' lives' erases'
      refine ⟨later, grows.trans grows', next', ?_, ?_⟩
      · exact List.forall_mem_cons.mpr ⟨grows'.livesIn lives, lives'⟩
      · exact congrArg₂ List.cons erases erases'

/-- No argument is lost or added. -/
theorem length_applyEach (b : SharedBinding) (os : List Object) (next : Nat) :
    (b.applyEach os next).1.length = os.length := by
  induction os generalizing next with
  | nil => rfl
  | cons o os ih => exact congrArg (· + 1) (ih _)

/-- Replacing a variable in an object is replacing it in the term that the
object stands for. -/
theorem apply_leaves (hb : b.term.LivesIn heap) {o : Object} (ho : o.LivesIn heap) :
    heap.Leaves (fun later out => out.LivesIn later ∧ out.erase = b.erase.apply o.erase)
      (b.apply o heap.next) := by
  induction o generalizing heap with
  | var y =>
      refine ⟨heap, .refl heap, rfl, ?_⟩
      by_cases bound : y = b.var
      · simpa [apply, bound, erase] using hb
      · simpa [apply, bound, erase] using ho
  | const c => exact ⟨heap, .refl heap, rfl, ho, rfl⟩
  | app a f args ih =>
      cases ho with
      | app used stored hargs =>
          obtain ⟨later, grows, next, lives, erases⟩ := applyEach_leaves hb hargs
            fun o among heap hb ho => ih o among hb ho
          have length := b.length_applyEach args heap.next
          rw [apply]
          generalize b.applyEach args heap.next = out at next lives erases length ⊢
          obtain ⟨replaced, free⟩ := out
          have whole (address : Nat) : (Object.app address f replaced).erase =
              b.erase.apply (Object.app a f args).erase := by
            simp only [Object.erase_app, erases, Binding.apply_app, List.map_map,
              Function.comp_def]
          dsimp only
          split
          · next kept =>
              have same := Object.map_erase_eq_of_is length lives
                (fun o among => grows.livesIn (hargs o among)) kept
              refine ⟨later, grows, next, grows.livesIn (.app used stored hargs), ?_⟩
              rw [← whole free, Object.erase_app, Object.erase_app, same]
          · obtain rfl : later.next = free := next
            exact ⟨_, grows.trans (later.growsTo_store _), rfl, later.livesIn_store lives,
              whole later.next⟩

end SharedBinding

end Resolvent
