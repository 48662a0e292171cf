/-
# Readings only add

Two things can happen to a reader: it learns the symbol of a name, and it
forgets the variables of the last clause. Readings are made of nothing else. So
what holds from before to after each of the two, and over any number of them,
holds along every reading, be it accepted or refused.

In particular a reading leaves the reader with a vocabulary that has grown:
every symbol that was known still is, in the same place, and no serial number
that has been handed out is given back.
-/

import Resolvent.Proofs.Language.Relabelling

namespace Resolvent

namespace Vocabulary

/-- The second vocabulary knows all that the first one knows, and perhaps
more. -/
structure Grows (v v' : Vocabulary) : Prop where
  constants : v.constants <+: v'.constants
  functors : v.functors <+: v'.functors
  predicates : v.predicates <+: v'.predicates
  supply : v.supply.next ≤ v'.supply.next

theorem Grows.refl (v : Vocabulary) : v.Grows v :=
  ⟨List.prefix_rfl, List.prefix_rfl, List.prefix_rfl, Nat.le_refl _⟩

/-- Growth adds up over several steps. -/
theorem Grows.trans {u v w : Vocabulary} (h : u.Grows v) (h' : v.Grows w) : u.Grows w where
  constants := h.constants.trans h'.constants
  functors := h.functors.trans h'.functors
  predicates := h.predicates.trans h'.predicates
  supply := Nat.le_trans h.supply h'.supply

/-- Interning takes a number from the supply or leaves the supply alone. -/
theorem next_le_intern {role : SymbolRole} (known : List (Symbol role)) (supply : Supply)
    (name : String) : supply.next ≤ (intern known supply name).2.2.next := by
  unfold intern
  split
  · exact Nat.le_refl _
  · exact Nat.le_succ _

/-- Naming a constant only adds to a vocabulary. -/
theorem grows_constant (v : Vocabulary) (name : String) : v.Grows (v.constant name).2 :=
  ⟨isPrefix_intern _ _ _, List.prefix_rfl, List.prefix_rfl, next_le_intern _ _ _⟩

/-- Naming a functor only adds to a vocabulary. -/
theorem grows_functor (v : Vocabulary) (name : String) : v.Grows (v.functor name).2 :=
  ⟨List.prefix_rfl, isPrefix_intern _ _ _, List.prefix_rfl, next_le_intern _ _ _⟩

/-- Naming a predicate only adds to a vocabulary. -/
theorem grows_predicate (v : Vocabulary) (name : String) : v.Grows (v.predicate name).2 :=
  ⟨List.prefix_rfl, List.prefix_rfl, isPrefix_intern _ _ _, next_le_intern _ _ _⟩

end Vocabulary

/-! ### Parts of readings -/

namespace Reading

variable {α β : Type} {R : Reader → Reader → Prop}

/-- What a reading makes of the reader, whether or not it succeeds. -/
def leaves (r : Reading α) (before : Reader) : Reader :=
  match r before with
  | .ok _ after => after
  | .error _ after => after

/-- The reader before and the reader after are related. -/
def Keeps (R : Reader → Reader → Prop) (r : Reading α) : Prop :=
  ∀ before : Reader, R before (leaves r before)

/-- A relation between earlier and later readers that is kept by all that can
happen to them. -/
structure Kept (R : Reader → Reader → Prop) : Prop where
  refl : ∀ r, R r r
  trans : ∀ {r r' r''}, R r r' → R r' r'' → R r r''
  learn : ∀ (r : Reader) (role : SymbolRole) (name : String), R r (r.learn role name)
  forget : ∀ r : Reader, R r { r with scope := [] }

/-- A reading that is accepted relates the reader before it to the one it
leaves behind. -/
theorem Keeps.of_ok {r : Reading α} {before after : Reader} {a : α} (h : r.Keeps R)
    (result : r before = .ok a after) : R before after := by
  have kept := h before
  rwa [leaves, result] at kept

/-- A reading that is refused does the same: what it has learned is not
undone. -/
theorem Keeps.of_error {r : Reading α} {before after : Reader} {e : ParseError} (h : r.Keeps R)
    (result : r before = .error e after) : R before after := by
  have kept := h before
  rwa [leaves, result] at kept

namespace Kept

variable (kept : Kept R)

include kept

theorem pure (a : α) : Keeps R (pure a) :=
  fun before => kept.refl before

/-- A refusal by itself changes nothing. -/
theorem throw (e : ParseError) : Keeps R (throw e : Reading α) :=
  fun before => kept.refl before

theorem expected (wanted : Option TokenKind) (found : Option String) (offset : Nat) :
    Keeps R (expected wanted found offset : Reading α) :=
  kept.throw _

theorem refuse (wanted : Option TokenKind) (t : Token) : Keeps R (refuse wanted t : Reading α) :=
  kept.throw _

/-- A functor is learned when it is named. -/
theorem functor (name : String) : Keeps R (functor name) :=
  fun before => kept.learn before .functor name

/-- A predicate is learned when it is named. -/
theorem predicate (name : String) : Keeps R (predicate name) :=
  fun before => kept.learn before .predicate name

/-- A leaf is a variable or a constant, and either of them is learned. -/
theorem leaf (name : String) : Keeps R (leaf name) := by
  intro before
  have left : leaves (Reading.leaf name) before =
      before.learn (if isVariableName name then .var else .const) name := by
    show leaves (EStateM.modifyGet _) before = _
    unfold leaves EStateM.modifyGet
    cases isVariableName name <;> rfl
  rw [left]
  exact kept.learn before _ name

/-- A new scope forgets the variables of the last clause, and that is all it
does. -/
theorem newScope : Keeps R newScope :=
  fun before => kept.forget before

/-- Two readings one after the other keep what each of them keeps. -/
theorem bind {r : Reading α} {f : α → Reading β} (first : r.Keeps R)
    (next : ∀ a, (f a).Keeps R) : (r >>= f).Keeps R := by
  intro before
  show R before (leaves (EStateM.bind r f) before)
  unfold leaves EStateM.bind
  cases made : r before with
  | ok a between => exact kept.trans (first.of_ok made) (next a between)
  | error e after => exact first.of_error made

/-- A reading of several tokens keeps what the reading of each one keeps. -/
theorem foldlM {σ : Type} {feed : σ → Token → Reading σ} (each : ∀ s t, (feed s t).Keeps R)
    (tokens : List Token) (state : σ) : (tokens.foldlM feed state).Keeps R := by
  induction tokens generalizing state with
  | nil => exact kept.pure state
  | cons t tokens ih => exact kept.bind (each state t) ih

/-- Reading a whole text is feeding its tokens and then asking whether it may
end. -/
theorem whole {σ : Type} {feed : σ → Token → Reading σ} {atEnd : Nat → σ → Reading α}
    (each : ∀ s t, (feed s t).Keeps R) (ends : ∀ n s, (atEnd n s).Keeps R) (start : σ)
    (text : String) : (whole feed atEnd start text).Keeps R := by
  unfold Reading.whole
  split
  · exact kept.throw _
  · exact kept.bind (kept.foldlM each _ start) fun state => ends _ state

end Kept

end Reading

open Reading

/-! ### The grammar -/

variable {R : Reader → Reader → Prop} (kept : Kept R)

include kept

namespace ArgumentList

/-- What stands behind a term is read without learning anything. -/
theorem keeps_behind (args : List Term) (outer : List Frame) (t : Token) :
    (behind args outer t).Keeps R := by
  unfold behind
  split
  · exact kept.pure _
  · exact kept.pure _
  · exact kept.pure _
  · exact kept.refuse _ t

/-- A token of an argument list names at most the functor or the leaf in front
of it. -/
theorem keeps_feed (t : Token) (state : ArgumentList) : (state.feed t).Keeps R := by
  cases state with
  | due before outer =>
      simp only [feed]
      split
      · exact kept.pure _
      · exact kept.refuse _ t
  | named name before outer =>
      simp only [feed]
      split
      · exact kept.bind (kept.functor name) fun _ => kept.pure _
      · exact kept.bind (kept.leaf name) fun _ => keeps_behind kept _ outer t
  | ended args outer => exact keeps_behind kept args outer t

/-- The end of a text in an argument list may still name the leaf in front of
it, before it is refused. -/
theorem keeps_atEnd {α : Type} (offset : Nat) (state : ArgumentList) :
    (state.atEnd offset : Reading α).Keeps R := by
  cases state with
  | due before outer => exact kept.expected _ _ offset
  | named name before outer => exact kept.bind (kept.leaf name) fun _ => kept.expected _ _ offset
  | ended args outer => exact kept.expected _ _ offset

end ArgumentList

namespace TermReading

/-- A token of a term names at most what is in front of it. -/
theorem keeps_feed (t : Token) (state : TermReading) : (state.feed t).Keeps R := by
  cases state with
  | due =>
      simp only [feed]
      split
      · exact kept.pure _
      · exact kept.refuse _ t
  | named name =>
      simp only [feed]
      split
      · exact kept.bind (kept.functor name) fun _ => kept.pure _
      · exact kept.bind (kept.leaf name) fun _ => kept.pure _
  | inside f args =>
      apply kept.bind (args.keeps_feed kept t)
      intro progress
      cases progress <;> exact kept.pure _
  | ended term => exact kept.pure _

/-- The end of a text may still name the leaf in front of it. -/
theorem keeps_atEnd (offset : Nat) (state : TermReading) : (state.atEnd offset).Keeps R := by
  cases state with
  | due => exact kept.expected _ _ offset
  | named name => exact kept.leaf name
  | inside f args => exact args.keeps_atEnd kept offset
  | ended term => exact kept.pure term

theorem keeps_feedOnly (state : TermReading) (t : Token) : (state.feedOnly t).Keeps R := by
  apply kept.bind (state.keeps_feed kept t)
  intro progress
  cases progress with
  | going state => exact kept.pure state
  | finished term => exact kept.refuse none t

end TermReading

namespace AtomReading

/-- An atom learns its predicate at once and the rest from its argument
list. -/
theorem keeps_feed (t : Token) (state : AtomReading) : (state.feed t).Keeps R := by
  cases state with
  | due =>
      simp only [feed]
      split
      · exact kept.refuse _ t
      · split
        · exact kept.throw _
        · exact kept.bind (kept.predicate t.text) fun _ => kept.pure _
  | named p =>
      simp only [feed]
      split
      · exact kept.pure _
      · exact kept.pure _
  | inside p args =>
      apply kept.bind (args.keeps_feed kept t)
      intro progress
      cases progress <;> exact kept.pure _
  | ended a => exact kept.pure _

/-- At its end an atom learns what its argument list still learns. -/
theorem keeps_atEnd (offset : Nat) (state : AtomReading) : (state.atEnd offset).Keeps R := by
  cases state with
  | due => exact kept.expected _ _ offset
  | named p => exact kept.pure _
  | inside p args => exact args.keeps_atEnd kept offset
  | ended a => exact kept.pure a

end AtomReading

namespace ClauseReading

/-- A clause learns what its atoms learn. -/
theorem keeps_feed (t : Token) (state : ClauseReading) : (state.feed t).Keeps R := by
  cases state with
  | inHead a =>
      apply kept.bind (a.keeps_feed kept t)
      intro progress
      cases progress with
      | going a => exact kept.pure _
      | finished a =>
          dsimp only
          split
          · exact kept.pure _
          · exact kept.pure _
          · exact kept.refuse _ t
  | inBody head before a =>
      apply kept.bind (a.keeps_feed kept t)
      intro progress
      cases progress with
      | going a => exact kept.pure _
      | finished a =>
          dsimp only
          split
          · exact kept.pure _
          · exact kept.pure _
          · exact kept.refuse _ t
  | ended c => exact kept.refuse none t

/-- At its end a clause learns what its last atom still learns. -/
theorem keeps_atEnd (offset : Nat) (state : ClauseReading) : (state.atEnd offset).Keeps R := by
  cases state with
  | inHead a => exact kept.bind (a.keeps_atEnd kept offset) fun _ => kept.pure _
  | inBody head before a => exact kept.bind (a.keeps_atEnd kept offset) fun _ => kept.pure _
  | ended c => exact kept.pure c

/-- Where the full stop is missing the last atom is still read, and then
refused. -/
theorem keeps_unstopped {α : Type} (offset : Nat) (state : ClauseReading) :
    (state.unstopped offset : Reading α).Keeps R :=
  kept.bind (state.keeps_atEnd kept offset) fun _ => kept.expected _ _ offset

end ClauseReading

namespace ProgramReading

/-- A program learns what its clauses learn, and it forgets the variables in
between. -/
theorem keeps_feed (state : ProgramReading) (t : Token) : (state.feed t).Keeps R := by
  unfold feed
  cases state.current with
  | some current =>
      apply kept.bind (current.keeps_feed kept t)
      intro next
      cases next <;> exact kept.pure _
  | none =>
      apply kept.bind kept.newScope
      intro _
      apply kept.bind (ClauseReading.start.keeps_feed kept t)
      intro next
      cases next <;> exact kept.pure _

/-- At its end a program learns what its last clause still learns. -/
theorem keeps_atEnd (offset : Nat) (state : ProgramReading) : (state.atEnd offset).Keeps R := by
  unfold atEnd
  split
  · exact kept.pure _
  · exact ClauseReading.keeps_unstopped kept offset _

end ProgramReading

namespace QueryReading

/-- A goal of a query learns what its atom learns. -/
theorem keeps_feedGoal (before : List Atom) (a : AtomReading) (t : Token) :
    (feedGoal before a t).Keeps R := by
  apply kept.bind (a.keeps_feed kept t)
  intro progress
  cases progress with
  | going a => exact kept.pure _
  | finished a =>
      dsimp only
      split
      · exact kept.pure _
      · exact kept.pure _
      · exact kept.refuse none t

/-- A query learns what its goals learn. -/
theorem keeps_feed (t : Token) (state : QueryReading) : (state.feed t).Keeps R := by
  cases state with
  | start =>
      simp only [feed]
      split
      · exact kept.pure _
      · exact keeps_feedGoal kept [] .due t
  | inGoal before a => exact keeps_feedGoal kept before a t
  | ended goals => exact kept.refuse none t

/-- At its end a query learns what its last goal still learns. -/
theorem keeps_atEnd (offset : Nat) (state : QueryReading) : (state.atEnd offset).Keeps R := by
  cases state with
  | start => exact kept.expected _ _ offset
  | inGoal before a => exact kept.bind (a.keeps_atEnd kept offset) fun _ => kept.pure _
  | ended goals => exact kept.pure goals

end QueryReading

/-! ### Whole texts -/

namespace Reading

/-- Whatever is kept by learning and forgetting is kept by the reading of a
term. -/
theorem keeps_term (text : String) : (term text).Keeps R :=
  kept.whole (TermReading.keeps_feedOnly kept) (TermReading.keeps_atEnd kept) _ text

theorem keeps_clause (text : String) : (clause text).Keeps R :=
  kept.whole (fun state t => state.keeps_feed kept t) (ClauseReading.keeps_atEnd kept) _ text

theorem keeps_goals (text : String) : (goals text).Keeps R :=
  kept.whole (fun state t => state.keeps_feed kept t) (QueryReading.keeps_atEnd kept) _ text

theorem keeps_program (text : String) : (program text).Keeps R :=
  kept.whole (ProgramReading.keeps_feed kept) (ProgramReading.keeps_atEnd kept) _ text

end Reading

omit kept

/-! ### Vocabularies -/

/-- A new variable is drawn from the supply and enters no table. -/
theorem Reading.kept_grows : Kept fun r r' => r.vocabulary.Grows r'.vocabulary where
  refl r := .refl r.vocabulary
  trans h h' := h.trans h'
  learn r role name := by
    cases role with
    | var =>
        exact ⟨List.prefix_rfl, List.prefix_rfl, List.prefix_rfl, Vocabulary.next_le_intern _ _ _⟩
    | const => exact r.vocabulary.grows_constant name
    | functor => exact r.vocabulary.grows_functor name
    | predicate => exact r.vocabulary.grows_predicate name
  forget r := .refl r.vocabulary

namespace Vocabulary

/-- A reading along which vocabularies grow lets the vocabulary grow that it is
made with. -/
theorem grows_reading {α : Type} (v : Vocabulary) {r : Reading α}
    (h : r.Keeps fun r r' => r.vocabulary.Grows r'.vocabulary) : v.Grows (v.reading r).2 := by
  unfold reading
  cases made : r { vocabulary := v } with
  | ok value reader => exact h.of_ok made
  | error e reader => exact h.of_error made

/-- A text that is read as a term leaves a vocabulary that has only grown, and
so do texts of the other kinds. -/
theorem grows_parseTerm (v : Vocabulary) (text : String) : v.Grows (v.parseTerm text).2 :=
  v.grows_reading (keeps_term kept_grows text)

theorem grows_parseClause (v : Vocabulary) (text : String) : v.Grows (v.parseClause text).2 :=
  v.grows_reading (keeps_clause kept_grows text)

theorem grows_parseGoals (v : Vocabulary) (text : String) : v.Grows (v.parseGoals text).2 :=
  v.grows_reading (keeps_goals kept_grows text)

theorem grows_parseProgram (v : Vocabulary) (text : String) : v.Grows (v.parseProgram text).2 :=
  v.grows_reading (keeps_program kept_grows text)

end Vocabulary

/-! ### Readings of any kind -/

/-- What a text can be read as. -/
inductive TextForm
  | term | clause | goals | program
  deriving DecidableEq

/-- The vocabulary that is left when a text has been read, or refused. -/
def Vocabulary.afterReading (v : Vocabulary) (text : String) : TextForm → Vocabulary
  | .term => (v.parseTerm text).2
  | .clause => (v.parseClause text).2
  | .goals => (v.parseGoals text).2
  | .program => (v.parseProgram text).2

/-- Whatever a text is read as, the vocabulary only grows. -/
theorem Vocabulary.grows_afterReading (v : Vocabulary) (text : String) (form : TextForm) :
    v.Grows (v.afterReading text form) := by
  cases form with
  | term => exact v.grows_parseTerm text
  | clause => exact v.grows_parseClause text
  | goals => exact v.grows_parseGoals text
  | program => exact v.grows_parseProgram text

end Resolvent
