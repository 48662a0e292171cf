/-
# What replacement hands back

Replacing a variable compares the arguments that come back with those that were
given, address by address, and keeps the application if they are all the same.
That a subterm without the variable comes back as the object it was is read off
the recursion, and nothing has to be known about where it is stored. The
converse is not: an application in which something has changed is another
object only because what is built is stored where nothing has been stored
before. The objects that are replaced are therefore taken to live in a heap,
and replacement to build above it.

For several bindings it is the address again that decides. A binding that
changes an application moves it to a new address, and no later binding brings
it back, whatever it does to the term that the application stands for. With
variables it is otherwise: a variable is its own object, and two bindings that
undo each other hand it back.
-/

import Resolvent.Proofs.Terms.Objects
import Resolvent.Proofs.Terms.Substitution

namespace Resolvent

namespace Object

/-- An object is identical to itself. -/
@[simp] theorem is_refl (o : Object) : o.is o := by
  cases o <;> simp [is]

/-- The object that is reached by going down to the arguments with the numbers
of the path. -/
def at? : List Nat → Object → Option Object
  | [], o => some o
  | i :: path, .app _ _ args => args[i]?.bind (at? path)
  | _ :: _, _ => none

/-- A place inside an application is a place inside one of its arguments. -/
theorem exists_of_at?_cons {i : Nat} {path : List Nat} {o s : Object}
    (found : o.at? (i :: path) = some s) :
    ∃ a f args arg, o = .app a f args ∧ args[i]? = some arg ∧ arg.at? path = some s := by
  cases o with
  | var x => simp [at?] at found
  | const c => simp [at?] at found
  | app a f args =>
      obtain ⟨arg, there, below⟩ := Option.bind_eq_some_iff.mp found
      exact ⟨a, f, args, arg, rfl, there, below⟩

/-- What stands at a place of a living object is alive. -/
theorem LivesIn.at? {heap : Heap} {path : List Nat} {o s : Object} (lives : o.LivesIn heap)
    (found : o.at? path = some s) : s.LivesIn heap := by
  induction path generalizing o with
  | nil =>
      obtain rfl := Option.some.inj found
      exact lives
  | cons i path ih =>
      obtain ⟨a, f, args, arg, rfl, there, below⟩ := exists_of_at?_cons found
      cases lives with
      | app _ _ inner => exact ih (inner arg (List.mem_of_getElem? there)) below

/-- A variable is its own object. -/
theorem is_var_iff {o : Object} {x : Variable} : o.is (.var x) ↔ o.erase = .var x := by
  cases o <;> simp [is]

/-- So is a constant. -/
theorem is_const_iff {o : Object} {c : Constant} : o.is (.const c) ↔ o.erase = .const c := by
  cases o <;> simp [is]

end Object

/-! ### One binding -/

/-- Whether the binding puts another term in the place of some leaf of the
term. -/
def Binding.Changes (b : Binding) (t : Term) : Prop :=
  b.var ∈ t.vars ∧ b.term ≠ .var b.var

/-- An application is changed if one of its arguments is. -/
theorem Binding.changes_app {b : Binding} {f : Functor} {args : List Term} :
    b.Changes (.app f args) ↔ ∃ t ∈ args, b.Changes t := by
  simp only [Changes, Term.mem_vars_app]
  constructor
  · rintro ⟨⟨t, among, occurs⟩, other⟩
    exact ⟨t, among, occurs, other⟩
  · rintro ⟨t, among, occurs, other⟩
    exact ⟨⟨t, among, occurs⟩, other⟩

/-- Several terms are kept if each of them is. -/
theorem Binding.replaceEach?_eq_none {b : Binding} {ts : List Term} :
    b.replaceEach? ts = none ↔ ∀ t ∈ ts, b.replace? t = none := by
  induction ts with
  | nil => simp [replaceEach?]
  | cons t ts ih =>
      rw [List.forall_mem_cons, ← ih, replaceEach?]
      cases b.replace? t <;> cases b.replaceEach? ts <;> simp

/-- Replacement answers with nothing when nothing changes. -/
theorem Binding.replace?_eq_none {b : Binding} {t : Term} :
    b.replace? t = none ↔ ¬ b.Changes t := by
  induction t with
  | var x =>
      by_cases bound : x = b.var
      · simp [replace?, Changes, bound]
      · simp [replace?, Changes, bound, Ne.symm bound]
  | const c => simp [replace?, Changes]
  | app f args ih =>
      have each : (∀ t ∈ args, b.replace? t = none) ↔ ∀ t ∈ args, ¬ b.Changes t :=
        forall₂_congr ih
      rw [replace?, Option.map_eq_none_iff, replaceEach?_eq_none, each, changes_app]
      push Not
      rfl

/-! ### Leaves and applications under several bindings -/

/-- A variable is kept by bindings that lead back to it. -/
theorem keeps_var {bindings : List Binding} {x : Variable} :
    keeps bindings (.var x) ↔ applyAll bindings (.var x) = .var x := by
  cases bindings <;> simp [keeps]

/-- Nothing is bound to a constant, so every binding keeps it. -/
theorem keeps_const (bindings : List Binding) (c : Constant) : keeps bindings (.const c) := by
  cases bindings <;> simp [keeps]

/-- An application is kept when no binding changes it as it was given. -/
theorem keeps_app {bindings : List Binding} {f : Functor} {args : List Term} :
    keeps bindings (.app f args) ↔ ∀ b ∈ bindings, ¬ b.Changes (.app f args) := by
  induction bindings with
  | nil => simp [keeps]
  | cons b bs ih =>
      rw [keeps, Bool.and_eq_true, Option.isNone_iff_eq_none, Binding.replace?_eq_none, ih,
        List.forall_mem_cons]

namespace SharedBinding

variable {b : SharedBinding} {bs : List SharedBinding} {heap : Heap} {next : Nat}

theorem changes_erase_app {a : Nat} {f : Functor} {args : List Object} :
    b.erase.Changes (Object.app a f args).erase ↔ ∃ o ∈ args, b.erase.Changes o.erase := by
  simp only [Object.erase_app, Binding.changes_app, List.mem_map, exists_exists_and_eq_and]

/-- A binding leaves a term alone when its variable does not occur there, or
stands for itself. -/
theorem not_changes_iff {t : Term} :
    ¬ b.erase.Changes t ↔ b.var ∉ t.vars ∨ b.term = .var b.var := by
  have itself : b.term.erase = .var b.var ↔ b.term = .var b.var :=
    ⟨Object.eq_var_of_erase, fun same => by rw [same]; rfl⟩
  rw [Binding.Changes, not_and_or, not_ne_iff]
  exact or_congr Iff.rfl itself

/-- What changes somewhere inside an object changes it. -/
theorem changes_of_at? {path : List Nat} {o s : Object} (found : o.at? path = some s)
    (changes : b.erase.Changes s.erase) : b.erase.Changes o.erase := by
  induction path generalizing o with
  | nil =>
      obtain rfl := Option.some.inj found
      exact changes
  | cons i path ih =>
      obtain ⟨a, f, args, arg, rfl, there, below⟩ := Object.exists_of_at?_cons found
      exact changes_erase_app.mpr ⟨arg, List.mem_of_getElem? there, ih below⟩

/-- Where nothing changes, nothing is built. -/
theorem apply_eq_self {o : Object} (same : ¬ b.erase.Changes o.erase) (next : Nat) :
    b.apply o next = (o, next) := by
  induction o with
  | var y =>
      by_cases bound : y = b.var
      · subst bound
        have itself : b.term = .var b.var := (not_changes_iff.mp same).resolve_left (by simp)
        simp [apply, itself]
      · simp [apply, bound]
  | const c => rfl
  | app a f args ih =>
      have each : b.applyEach args next = (args, next) := by
        rw [changes_erase_app] at same
        clear a f
        induction args with
        | nil => rfl
        | cons o os tail =>
            rw [List.forall_mem_cons] at ih
            rw [List.exists_mem_cons_iff, not_or] at same
            simp only [applyEach, ih.1 same.1, tail ih.2 same.2]
      have kept : (args.zip args).all fun pair => pair.1.is pair.2 := by
        clear each ih same
        induction args with
        | nil => rfl
        | cons o os tail => simpa using tail
      simp only [apply, each, kept, if_true]

/-- Addresses are only ever taken from the free ones. -/
theorem next_le_apply (o : Object) (next : Nat) : next ≤ (b.apply o next).2 := by
  induction o generalizing next with
  | var y => exact Nat.le_refl _
  | const c => exact Nat.le_refl _
  | app a f args ih =>
      have each : next ≤ (b.applyEach args next).2 := by
        clear a f
        induction args generalizing next with
        | nil => exact Nat.le_refl _
        | cons o os tail =>
            rw [List.forall_mem_cons] at ih
            exact Nat.le_trans (ih.1 next) (tail ih.2 _)
      rw [apply]
      dsimp only
      split
      · exact each
      · exact Nat.le_trans each (Nat.le_succ _)

/-- Addresses are only added. -/
theorem next_le_applyEach (os : List Object) (next : Nat) :
    next ≤ (b.applyEach os next).2 := by
  induction os generalizing next with
  | nil => exact Nat.le_refl _
  | cons o os ih => exact Nat.le_trans (next_le_apply o next) (ih _)

/-- Each argument is treated by itself, at addresses not used before. -/
theorem getElem?_applyEach {os : List Object} {i : Nat} {o : Object} (there : os[i]? = some o)
    (next : Nat) : ∃ m, next ≤ m ∧ (b.applyEach os next).1[i]? = some (b.apply o m).1 := by
  induction os generalizing i next with
  | nil => simp at there
  | cons head os ih =>
      cases i with
      | zero =>
          obtain rfl : head = o := by simpa using there
          exact ⟨next, Nat.le_refl _, rfl⟩
      | succ i =>
          obtain ⟨m, above, found⟩ := ih (by simpa using there) (b.apply head next).2
          exact ⟨m, Nat.le_trans (next_le_apply head next) above, found⟩

/-- Arguments are kept if each of them is, provided that one by one this is
known of them. -/
private theorem applyEach_kept {os : List Object}
    (each : ∀ o ∈ os, ∀ m, next ≤ m → ((b.apply o m).1.is o ↔ ¬ b.erase.Changes o.erase)) :
    (((b.applyEach os next).1.zip os).all fun pair => pair.1.is pair.2) ↔
      ¬ ∃ o ∈ os, b.erase.Changes o.erase := by
  induction os generalizing next with
  | nil => simp [applyEach]
  | cons o os ih =>
      rw [List.forall_mem_cons] at each
      have later := @ih (b.apply o next).2 fun s among m above =>
        each.2 s among m (Nat.le_trans (next_le_apply o next) above)
      rw [List.exists_mem_cons_iff, not_or, ← later, ← each.1 next (Nat.le_refl _)]
      simp only [applyEach, List.zip_cons_cons, List.all_cons, Bool.and_eq_true]

/-- An object comes back as it is exactly when nothing changes in it. -/
theorem is_apply_iff {o : Object} (lives : o.LivesIn heap) (above : heap.next ≤ next) :
    (b.apply o next).1.is o ↔ ¬ b.erase.Changes o.erase := by
  induction o generalizing next with
  | var y =>
      rw [not_changes_iff]
      by_cases bound : y = b.var
      · subst bound
        cases h : b.term <;> simp [apply, h, Object.is]
      · simp [apply, bound, Ne.symm bound]
  | const c => simp [apply, Binding.Changes]
  | app a f args ih =>
      cases lives with
      | app used _ inner =>
          have kept := applyEach_kept fun o among m later =>
            ih o among (inner o among) (Nat.le_trans above later)
          rw [changes_erase_app, ← kept, apply]
          dsimp only
          split
          · next same => simpa using same
          · next other =>
              have fresh : a < (b.applyEach args next).2 :=
                Nat.lt_of_lt_of_le used (Nat.le_trans above (next_le_applyEach args next))
              exact iff_of_false (by simpa [Object.is] using Nat.ne_of_gt fresh) other

/-- An application in which something changes is built anew from what has
become of its arguments. -/
theorem apply_app_of_changes {a : Nat} {f : Functor} {args : List Object}
    (lives : (Object.app a f args).LivesIn heap) (above : heap.next ≤ next)
    (changes : b.erase.Changes (Object.app a f args).erase) :
    b.apply (.app a f args) next =
      (.app (b.applyEach args next).2 f (b.applyEach args next).1,
        (b.applyEach args next).2 + 1) := by
  have other := mt (is_apply_iff lives above).mp (not_not.mpr changes)
  rw [apply] at other ⊢
  dsimp only at other ⊢
  split
  · next kept => simp [kept] at other
  · rfl

/-- What stands at a place of an object is replaced there, wherever the place
is. -/
theorem at?_apply {path : List Nat} {o s : Object} (lives : o.LivesIn heap)
    (above : heap.next ≤ next) (found : o.at? path = some s) :
    ∃ m, heap.next ≤ m ∧ (b.apply o next).1.at? path = some (b.apply s m).1 := by
  induction path generalizing o next with
  | nil =>
      obtain rfl := Option.some.inj found
      exact ⟨next, above, rfl⟩
  | cons i path ih =>
      by_cases changes : b.erase.Changes o.erase
      · obtain ⟨a, f, args, arg, rfl, there, below⟩ := Object.exists_of_at?_cons found
        obtain ⟨m, later, replaced⟩ := getElem?_applyEach (b := b) there next
        have livesArg : arg.LivesIn heap := by
          cases lives with
          | app _ _ inner => exact inner arg (List.mem_of_getElem? there)
        obtain ⟨n, fresh, reached⟩ := ih livesArg (Nat.le_trans above later) below
        refine ⟨n, fresh, ?_⟩
        rw [apply_app_of_changes lives above changes, Object.at?, replaced]
        exact reached
      · have inside : ¬ b.erase.Changes s.erase := mt (changes_of_at? found) changes
        exact ⟨next, above, by rw [apply_eq_self changes, apply_eq_self inside, found]⟩

/-! ### Several bindings -/

/-- The object under a list of bindings, applied in order, and the next free
address. -/
def applyAll (bs : List SharedBinding) (o : Object) (next : Nat) : Object × Nat :=
  bs.foldl (fun out b => b.apply out.1 out.2) (o, next)

@[simp] theorem applyAll_nil (o : Object) (next : Nat) : applyAll [] o next = (o, next) := rfl

@[simp] theorem applyAll_cons (b : SharedBinding) (bs : List SharedBinding) (o : Object)
    (next : Nat) :
    applyAll (b :: bs) o next = applyAll bs (b.apply o next).1 (b.apply o next).2 := rfl

/-- The bindings act on objects as they do on the terms that the objects stand
for. -/
theorem applyAll_leaves (hbs : ∀ b ∈ bs, b.term.LivesIn heap) {o : Object}
    (ho : o.LivesIn heap) :
    heap.Leaves (fun later out => out.LivesIn later ∧
        out.erase = Resolvent.applyAll (bs.map erase) o.erase)
      (applyAll bs o heap.next) := by
  induction bs generalizing o heap with
  | nil => exact ⟨heap, .refl heap, rfl, ho, rfl⟩
  | cons b bs ih =>
      rw [List.forall_mem_cons] at hbs
      obtain ⟨middle, grows, next, lives, erases⟩ := apply_leaves hbs.1 ho
      obtain ⟨later, grows', next', lives', erases'⟩ :=
        ih (fun c among => grows.livesIn (hbs.2 c among)) lives
      rw [next] at next' lives' erases'
      refine ⟨later, grows.trans grows', next', lives', ?_⟩
      rw [List.map_cons, Resolvent.applyAll_cons, ← erases]
      exact erases'

/-- An object that none of the bindings changes comes back as it is. -/
theorem applyAll_eq_self {o : Object} (same : ∀ b ∈ bs, ¬ b.erase.Changes o.erase)
    (next : Nat) : applyAll bs o next = (o, next) := by
  induction bs with
  | nil => rfl
  | cons b bs ih =>
      rw [List.forall_mem_cons] at same
      rw [applyAll_cons, apply_eq_self same.1]
      exact ih same.2

/-- An application stays where it is or moves to an address that was free. -/
theorem exists_applyAll_app (bs : List SharedBinding) (a : Nat) (f : Functor)
    (args : List Object) (next : Nat) :
    ∃ m args', (applyAll bs (.app a f args) next).1 = .app m f args' ∧ (m = a ∨ next ≤ m) := by
  induction bs generalizing a args next with
  | nil => exact ⟨a, args, rfl, .inl rfl⟩
  | cons b bs ih =>
      have later := next_le_applyEach (b := b) args next
      rw [applyAll_cons, apply]
      dsimp only
      split
      · obtain ⟨m, args', found, place⟩ := ih a args (b.applyEach args next).2
        exact ⟨m, args', found, place.imp id (Nat.le_trans later)⟩
      · obtain ⟨m, args', found, place⟩ := ih (b.applyEach args next).2
          (b.applyEach args next).1 ((b.applyEach args next).2 + 1)
        refine ⟨m, args', found, .inr (Nat.le_trans later ?_)⟩
        rcases place with rfl | above
        · exact Nat.le_refl _
        · exact Nat.le_trans (Nat.le_succ _) above

/-- An application that the first binding changes does not come back, whatever
the others do. -/
theorem not_is_applyAll_cons {a : Nat} {f : Functor} {args : List Object}
    (lives : (Object.app a f args).LivesIn heap) (above : heap.next ≤ next)
    (changes : b.erase.Changes (Object.app a f args).erase) :
    ¬ (applyAll (b :: bs) (.app a f args) next).1.is (.app a f args) := by
  have used : a < heap.next := by
    cases lives with
    | app used _ _ => exact used
  have fresh : a < (b.applyEach args next).2 :=
    Nat.lt_of_lt_of_le used (Nat.le_trans above (next_le_applyEach args next))
  rw [applyAll_cons, apply_app_of_changes lives above changes]
  -- What the other bindings make of it stays at the new address or moves to a
  -- newer one.
  obtain ⟨m, args', found, place⟩ := exists_applyAll_app bs (b.applyEach args next).2 f
    (b.applyEach args next).1 ((b.applyEach args next).2 + 1)
  have other : m ≠ a := by omega
  simp [found, Object.is, other]

/-- An application comes back as it is exactly when no binding of the list
changes it. -/
theorem is_applyAll_app_iff {a : Nat} {f : Functor} {args : List Object}
    (lives : (Object.app a f args).LivesIn heap) (above : heap.next ≤ next) :
    (applyAll bs (.app a f args) next).1.is (.app a f args) ↔
      ∀ b ∈ bs, ¬ b.erase.Changes (Object.app a f args).erase := by
  induction bs with
  | nil => simp
  | cons b bs ih =>
      rw [List.forall_mem_cons]
      by_cases changes : b.erase.Changes (Object.app a f args).erase
      · exact iff_of_false (not_is_applyAll_cons lives above changes) fun kept =>
          kept.1 changes
      · rw [applyAll_cons, apply_eq_self changes, ih, and_iff_right changes]

/-- That comes to the same as being handed on by every single step. -/
theorem each_is_applyAll_app_iff {a : Nat} {f : Functor} {args : List Object}
    (lives : (Object.app a f args).LivesIn heap) (above : heap.next ≤ next) :
    (∀ n < bs.length, (applyAll (bs.take (n + 1)) (.app a f args) next).1.is
        (applyAll (bs.take n) (.app a f args) next).1) ↔
      ∀ b ∈ bs, ¬ b.erase.Changes (Object.app a f args).erase := by
  induction bs with
  | nil => simp
  | cons b bs ih =>
      rw [List.forall_mem_cons, List.length_cons, Nat.forall_lt_succ_left]
      have first : (applyAll ((b :: bs).take (0 + 1)) (.app a f args) next).1.is
          (applyAll ((b :: bs).take 0) (.app a f args) next).1 ↔
            ¬ b.erase.Changes (Object.app a f args).erase := is_apply_iff lives above
      rw [first]
      refine and_congr_right fun same => ?_
      simp only [List.take_succ_cons, applyAll_cons, apply_eq_self same]
      exact ih

/-- The object that the bindings make is the one they are given exactly when
the terms say so. -/
theorem is_applyAll_iff_keeps (hbs : ∀ b ∈ bs, b.term.LivesIn heap) {o : Object}
    (ho : o.LivesIn heap) :
    (applyAll bs o heap.next).1.is o ↔ keeps (bs.map erase) o.erase := by
  obtain ⟨later, -, -, -, erases⟩ := applyAll_leaves hbs ho
  cases o with
  | var x => rw [Object.is_var_iff, erases, Object.erase_var, keeps_var]
  | const c => simp [Object.is_const_iff, erases, keeps_const]
  | app a f args =>
      rw [is_applyAll_app_iff ho (Nat.le_refl _), Object.erase_app, keeps_app, List.forall_mem_map]

/-- What a binding makes of an object is the term with every occurrence of the
variable replaced, and as much of the object as the variable does not occur
in. -/
structure Shares (b : SharedBinding) (o : Object) (next : Nat) : Prop where
  /-- The outcome is textbook replacement in the term. -/
  replaces : (b.apply o next).1.erase =
    o.erase.subst fun y => if y = b.var then b.term.erase else .var y
  /-- It is the object itself where there is nothing to replace, and nowhere
  else. -/
  is_iff : (b.apply o next).1.is o ↔ b.var ∉ o.erase.vars ∨ b.term = .var b.var
  /-- The same goes for whatever stands at some place of the object. -/
  is_at_iff : ∀ path s, o.at? path = some s → ∃ s', (b.apply o next).1.at? path = some s' ∧
    (s'.is s ↔ b.var ∉ s.erase.vars ∨ b.term = .var b.var)
  /-- What does not contain the variable is not even copied further down. -/
  handsBack : ∀ path s, o.at? path = some s → b.var ∉ s.erase.vars →
    (b.apply o next).1.at? path = some s
  /-- Replacement in terms answers with nothing in the same cases. -/
  replace?_eq_none : b.erase.replace? o.erase = none ↔ (b.apply o next).1.is o

/-- What a list of bindings makes of an object, and when it is the object
itself. -/
structure SharesAll (bs : List SharedBinding) (o : Object) (next : Nat) : Prop where
  replaces : (applyAll bs o next).1.erase = Resolvent.applyAll (bs.map erase) o.erase
  /-- In a ground term there is nothing to replace. -/
  ground : o.erase.isGround → (applyAll bs o next).1 = o
  /-- An application comes back if every step hands it on. -/
  application : ∀ a f args, o = .app a f args →
    ((applyAll bs o next).1.is o ↔ ∀ n < bs.length,
      (applyAll (bs.take (n + 1)) o next).1.is (applyAll (bs.take n) o next).1)
  /-- That an object comes back is told from the terms. -/
  keeps_iff : keeps (bs.map erase) o.erase ↔ (applyAll bs o next).1.is o

/-- Whatever is alive shares what a binding does not change. -/
theorem shares (hb : b.term.LivesIn heap) {o : Object} (ho : o.LivesIn heap) :
    b.Shares o heap.next where
  replaces := by
    obtain ⟨later, -, -, -, erases⟩ := apply_leaves hb ho
    rw [erases, Binding.apply_eq_subst]
    rfl
  is_iff := (is_apply_iff ho (Nat.le_refl _)).trans not_changes_iff
  is_at_iff path s found := by
    obtain ⟨m, above, reached⟩ := at?_apply (b := b) ho (Nat.le_refl _) found
    exact ⟨_, reached, (is_apply_iff (ho.at? found) above).trans not_changes_iff⟩
  handsBack path s found absent := by
    obtain ⟨m, -, reached⟩ := at?_apply (b := b) ho (Nat.le_refl _) found
    rw [reached, apply_eq_self (not_changes_iff.mpr (.inl absent))]
  replace?_eq_none := Binding.replace?_eq_none.trans (is_apply_iff ho (Nat.le_refl _)).symm

theorem sharesAll (hbs : ∀ b ∈ bs, b.term.LivesIn heap) {o : Object} (ho : o.LivesIn heap) :
    SharesAll bs o heap.next where
  replaces := by
    obtain ⟨later, -, -, -, erases⟩ := applyAll_leaves hbs ho
    exact erases
  ground closed := by
    rw [applyAll_eq_self fun b _ changes => Term.isGround_iff.mp closed _ changes.1]
  application a f args eq := by
    subst eq
    rw [is_applyAll_app_iff ho (Nat.le_refl _), each_is_applyAll_app_iff ho (Nat.le_refl _)]
  keeps_iff := (is_applyAll_iff_keeps hbs ho).symm

/-- Replacement shares as much as it can, one binding at a time and for whole
lists of them. -/
theorem sharing_exact {o : Object} (lives : o.LivesIn heap) :
    (∀ b : SharedBinding, b.term.LivesIn heap → b.Shares o heap.next) ∧
      ∀ bs : List SharedBinding, (∀ b ∈ bs, b.term.LivesIn heap) → SharesAll bs o heap.next :=
  ⟨fun _ hb => shares hb lives, fun _ hbs => sharesAll hbs lives⟩

/-- Of `f(g(Z), X)` the first argument is handed back when `X` is replaced by
`Y`. Replacing `Y` by `X` after that makes the same term again, but not the
same object. -/
theorem sharing_exact_undone :
    let x : Variable := ⟨0, "X"⟩
    let y : Variable := ⟨1, "Y"⟩
    let g : Object := .app 0 ⟨3, "g"⟩ [.var ⟨2, "Z"⟩]
    let o : Object := .app 1 ⟨4, "f"⟩ [g, .var x]
    let heap : Heap := ⟨2, fun a => if a = 0 then g.erase else o.erase⟩
    let back : List SharedBinding := [⟨x, .var y⟩, ⟨y, .var x⟩]
    o.LivesIn heap ∧ (∀ b ∈ back, b.term.LivesIn heap) ∧
      (SharedBinding.apply ⟨x, .var y⟩ o heap.next).1.at? [0] = some g ∧
      ¬ (SharedBinding.apply ⟨x, .var y⟩ o heap.next).1.is o ∧
      (applyAll back o heap.next).1.erase = o.erase ∧ ¬ (applyAll back o heap.next).1.is o := by
  intro x y g o heap back
  have inner : g.LivesIn heap := .app (by decide) rfl (by simpa using .var _)
  have lives : o.LivesIn heap := .app (by decide) rfl (by simpa using ⟨inner, .var x⟩)
  have bound : ∀ b ∈ back, b.term.LivesIn heap := by simpa [back] using ⟨.var y, .var x⟩
  obtain ⟨one, all⟩ := sharing_exact lives
  have first := one ⟨x, .var y⟩ (.var y)
  refine ⟨lives, bound, first.handsBack [0] g rfl (by decide), ?_, ?_, ?_⟩
  · rw [← first.replace?_eq_none]
    decide
  · rw [(all back bound).replaces]
    decide
  · rw [← (all back bound).keeps_iff]
    decide

end SharedBinding

end Resolvent
