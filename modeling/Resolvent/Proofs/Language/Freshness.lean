/-
# Every clause has variables of its own

The variables that a reader knows have been minted for the clause or query at
hand, since the scope was empty when it began. So no variable of a text had
been handed out before the text was read, and all of them have been handed out
afterwards. In a program the supply has gone on from clause to clause, and what
was minted for one of them lies below all that is minted for the next one.

What is forgotten at the end of a clause need not be known for this. It is
enough to remember how far the supply had been used up when the clause at hand
began.
-/

import Mathlib.Data.List.Lattice
import Resolvent.Proofs.Clauses.Standardized
import Resolvent.Proofs.Language.LegibleTexts

namespace Resolvent

open Reading

/-- The variable is handed out between two points in time. -/
structure Supply.Mints (before after : Supply) (x : Variable) : Prop where
  new : ¬ before.Covers x
  known : after.Covers x

namespace Supply

variable {before between after later : Supply} {x : Variable}

/-- What is handed out within a span of time is handed out within any longer
one. -/
theorem Mints.mono (earlier : before.next ≤ between.next) (h : between.Mints after x)
    (on : after.next ≤ later.next) : before.Mints later x :=
  ⟨fun covered => h.new (covered.mono earlier), h.known.mono on⟩

/-- What has been handed out before something else is different from it. -/
theorem disjoint_of_mints {xs ys : List Variable} (first : ∀ x ∈ xs, before.Covers x)
    (second : ∀ y ∈ ys, before.Mints after y) : xs.Disjoint ys :=
  fun x hx hy => (second x hy).new (first x hx)

end Supply

namespace Reader

/-- All variables that the reader knows have been handed out since this
point. -/
structure ScopeSince (begun : Supply) (r : Reader) : Prop where
  later : begun.next ≤ r.vocabulary.supply.next
  minted : ∀ x ∈ r.scope, begun.Mints r.vocabulary.supply x

variable {r : Reader} {begun : Supply}

/-- When nothing has been read the scope is empty. -/
theorem scopeSince_empty (v : Vocabulary) : ScopeSince v.supply ⟨v, []⟩ :=
  ⟨Nat.le_refl _, List.forall_mem_nil _⟩

/-- A variable that the reader knows is one of its scope, and so it is new. -/
theorem ScopeSince.mints {x : Variable} (h : r.ScopeSince begun) (known : r.lexicon.Allows x) :
    begun.Mints r.vocabulary.supply x :=
  h.minted x (List.mem_of_find?_eq_some known.2)

/-- Where no variable is added to the scope, it is enough that the supply is
not taken back. -/
theorem ScopeSince.same_scope {v : Vocabulary} (h : r.ScopeSince begun)
    (on : r.vocabulary.supply.next ≤ v.supply.next) : ScopeSince begun ⟨v, r.scope⟩ :=
  ⟨Nat.le_trans h.later on, fun x hx => (h.minted x hx).mono (Nat.le_refl _) on⟩

/-- A variable that is learned comes from the scope or from the supply. -/
theorem ScopeSince.learn_var (h : r.ScopeSince begun) (name : String) :
    (r.learn .var name).ScopeSince begun := by
  unfold learn Vocabulary.intern
  cases found : r.scope.find? (·.name = name) with
  | some x => exact h
  | none =>
      have on : r.vocabulary.supply.next ≤ r.vocabulary.supply.next + 1 := Nat.le_succ _
      refine ⟨Nat.le_trans h.later on, List.forall_mem_append.mpr ⟨fun x hx => ?_, ?_⟩⟩
      · exact (h.minted x hx).mono (Nat.le_refl _) on
      · exact List.forall_mem_singleton.mpr ⟨Nat.not_lt.mpr h.later, Nat.lt_succ_self _⟩

end Reader

/-- The scope goes on to hold what has been handed out since it was opened. -/
theorem Reading.kept_scopeSince (begun : Supply) :
    Kept fun r r' => r.ScopeSince begun → r'.ScopeSince begun where
  refl _ := id
  trans h h' := h' ∘ h
  learn r role name h := by
    cases role with
    | var => exact h.learn_var name
    | const => exact h.same_scope (Vocabulary.grows_constant _ _).supply
    | functor => exact h.same_scope (Vocabulary.grows_functor _ _).supply
    | predicate => exact h.same_scope (Vocabulary.grows_predicate _ _).supply
  forget _ h := ⟨h.later, List.forall_mem_nil _⟩

/-! ### Programs -/

namespace ProgramReading

/-- The finished clauses share no variables, and none with the clause at hand,
which began when the supply had been used up to this point. -/
structure Apart (start begun : Supply) (s : ProgramReading) (r : Reader) : Prop where
  legible : s.Legible r
  scope : s.current.isSome → r.ScopeSince begun
  later : begun.next ≤ r.vocabulary.supply.next
  since : start.next ≤ begun.next
  minted : ∀ c ∈ s.finished, ∀ x ∈ c.vars, start.Mints begun x
  disjoint : s.finished.Pairwise fun c d => c.vars.Disjoint d.vars

variable {start begun : Supply} {s s' : ProgramReading} {r r' : Reader} {t : Token}

/-- As long as the clause at hand goes on, the finished clauses stay apart from
it and from each other. -/
theorem Apart.of_feed_current {finished : List Clause} {current : ClauseReading}
    (h : Apart start begun ⟨finished, some current⟩ r) (proper : t.Proper)
    (result : feed ⟨finished, some current⟩ t r = .ok s' r') :
    ∃ begun', s'.Apart start begun' r' := by
  have legible := h.legible.of_feed proper result
  obtain ⟨next, made, rfl⟩ := feed_iff.mp result
  have scope := ((current.keeps_feed (kept_scopeSince begun) t).of_ok made) (h.scope rfl)
  have fits := (ClauseReading.gives_feed proper (h.legible.current _ rfl) _ _ made).2
  cases fits with
  | inHead _ => exact ⟨begun, legible, fun _ => scope, scope.later, h.since, h.minted, h.disjoint⟩
  | inBody _ _ _ =>
      exact ⟨begun, legible, fun _ => scope, scope.later, h.since, h.minted, h.disjoint⟩
  | @ended c fits _ =>
      have own : ∀ x ∈ c.vars, begun.Mints r'.vocabulary.supply x :=
        fun x hx => scope.mints (fits.allows_of_mem_vars x hx)
      refine ⟨r'.vocabulary.supply, legible, nofun, Nat.le_refl _,
        Nat.le_trans h.since scope.later, List.forall_mem_cons.mpr ⟨?_, ?_⟩, ?_⟩
      · exact fun x hx => (own x hx).mono h.since (Nat.le_refl _)
      · exact fun d hd x hx => (h.minted d hd x hx).mono (Nat.le_refl _) scope.later
      · refine List.pairwise_cons.mpr ⟨fun d hd => ?_, h.disjoint⟩
        have earlier := fun x hx => (h.minted d hd x hx).known
        exact List.disjoint_symm (Supply.disjoint_of_mints earlier own)

/-- With the first token of a clause a scope is opened for it. -/
theorem Apart.of_feed (h : s.Apart start begun r) (proper : t.Proper)
    (result : s.feed t r = .ok s' r') : ∃ begun', s'.Apart start begun' r' := by
  obtain ⟨finished, current⟩ := s
  cases current with
  | some current => exact h.of_feed_current proper result
  | none =>
      have legible : Legible ⟨finished, some .start⟩ { r with scope := [] } :=
        ⟨h.legible.finished, fun _ same => Option.some.inj same ▸ .inHead .due⟩
      have minted : ∀ c ∈ finished, ∀ x ∈ c.vars, start.Mints r.vocabulary.supply x :=
        fun c hc x hx => (h.minted c hc x hx).mono (Nat.le_refl _) h.later
      have anew : Apart start r.vocabulary.supply ⟨finished, some .start⟩ { r with scope := [] } :=
        ⟨legible, fun _ => Reader.scopeSince_empty r.vocabulary, Nat.le_refl _,
          Nat.le_trans h.since h.later, minted, h.disjoint⟩
      exact anew.of_feed_current proper result

end ProgramReading

/-! ### Whole texts -/

namespace Reading

variable {v : Vocabulary} {text : String} {r' : Reader}

/-- Whatever opens no scope of its own finds only variables that are new. -/
theorem mints_of_keeps {α : Type} {reading : Reading α} {a : α}
    (kept : ∀ begun, reading.Keeps fun r r' => r.ScopeSince begun → r'.ScopeSince begun)
    (result : reading { vocabulary := v } = .ok a r') {xs : List Variable}
    (known : ∀ x ∈ xs, r'.lexicon.Allows x) : ∀ x ∈ xs, v.supply.Mints r'.vocabulary.supply x := by
  intro x hx
  have scope := (kept v.supply).of_ok result (Reader.scopeSince_empty v)
  exact scope.mints (known x hx)

/-- The clauses of a program share no variables, and none of them was there
before. -/
theorem apart_of_program {clauses : List Clause}
    (result : program text { vocabulary := v } = .ok clauses r') :
    (∀ c ∈ clauses, ∀ x ∈ c.vars, v.supply.Mints r'.vocabulary.supply x) ∧
      clauses.Pairwise fun c d => c.vars.Disjoint d.vars := by
  obtain ⟨n, s, r₁, apart, ended⟩ :=
    whole_induction (fun s r => ∃ begun, s.Apart v.supply begun r) result
      ⟨v.supply, ⟨List.forall_mem_nil _, nofun⟩, nofun, Nat.le_refl _, Nat.le_refl _,
        List.forall_mem_nil _, .nil⟩
      fun proper apart fed => by
        obtain ⟨begun, apart⟩ := apart
        exact apart.of_feed proper fed
  obtain ⟨begun, apart⟩ := apart
  obtain ⟨rfl, rfl⟩ := ProgramReading.eq_of_atEnd ended
  constructor
  · intro c hc x hx
    exact (apart.minted c (List.mem_reverse.mpr hc) x hx).mono (Nat.le_refl _) apart.later
  · exact (List.pairwise_reverse.mp apart.disjoint).imp List.disjoint_symm

end Reading

namespace Vocabulary

variable {v v' : Vocabulary} {text : String}

/-- The variables of a term that is read are new. -/
theorem mints_of_parseTerm {t : Term} (result : v.parseTerm text = (.ok t, v')) :
    ∀ x ∈ t.vars, v.supply.Mints v'.supply x := by
  obtain ⟨r', made, rfl⟩ := exists_of_reading result
  exact mints_of_keeps (fun begun => keeps_term (kept_scopeSince begun) text) made
    (over_of_term made).allows_of_mem_vars

/-- The variables of a clause that is read are new. -/
theorem mints_of_parseClause {c : Clause} (result : v.parseClause text = (.ok c, v')) :
    ∀ x ∈ c.vars, v.supply.Mints v'.supply x := by
  obtain ⟨r', made, rfl⟩ := exists_of_reading result
  exact mints_of_keeps (fun begun => keeps_clause (kept_scopeSince begun) text) made
    (over_of_clause made).1.allows_of_mem_vars

/-- The variables of a query that is read are new. -/
theorem mints_of_parseGoals {goals : List Atom} (result : v.parseGoals text = (.ok goals, v')) :
    ∀ x ∈ varsOf (goals.flatMap Atom.args), v.supply.Mints v'.supply x := by
  obtain ⟨r', made, rfl⟩ := exists_of_reading result
  exact mints_of_keeps (fun begun => keeps_goals (kept_scopeSince begun) text) made
    (Alphabet.allows_of_mem_varsOf (over_of_goals made).2)

/-- No clause of a program has a variable that was there before, or that is in
another clause. -/
theorem apart_of_parseProgram {clauses : List Clause}
    (result : v.parseProgram text = (.ok clauses, v')) :
    (∀ c ∈ clauses, ∀ x ∈ c.vars, v.supply.Mints v'.supply x) ∧
      clauses.Pairwise fun c d => c.vars.Disjoint d.vars := by
  obtain ⟨r', made, rfl⟩ := exists_of_reading result
  exact apart_of_program made

end Vocabulary

end Resolvent
