/-
# Phrases

A phrase has a scope of variables of its own: it is a term that is read alone,
a clause, or a query. Whatever a text is read as, the result consists of
phrases, and these are all of one kind as far as their symbols are concerned.
The vocabulary knows the constants, functors and predicates in them. The
variables have been minted for one phrase each, one for each name in it.

That is preserved when reading goes on with other texts. The vocabulary grows,
and keeps what it has.
-/

import Resolvent.Proofs.Language.Freshness
import Resolvent.Proofs.Language.Namesakes

namespace Resolvent

/-- What has a scope of its own. -/
inductive Phrase
  | term (t : Term)
  | clause (c : Clause)
  | query (goals : List Atom)
  deriving DecidableEq

namespace Phrase

/-- The variables of a phrase. -/
def vars : Phrase → List Variable
  | term t => t.vars
  | clause c => c.vars
  | query goals => varsOf (goals.flatMap Atom.args)

/-- The phrase with all symbols replaced. -/
def relabel (ρ : Relabelling) : Phrase → Phrase
  | term t => term (t.relabel ρ)
  | clause c => clause (c.relabel ρ)
  | query goals => query (goals.map (Atom.relabel ρ))

/-- A phrase that uses symbols of an alphabet only. -/
def Over (A : Alphabet) : Phrase → Prop
  | term t => t.Over A
  | clause c => c.Over A
  | query goals => ∀ a ∈ goals, a.Over A

variable {A B C : Alphabet} {ρ ρ' : Relabelling} {p : Phrase}

/-- A phrase over an alphabet is one over any larger alphabet. -/
theorem Over.mono (within : A.Within B) (h : p.Over A) : p.Over B := by
  cases p with
  | term t => exact Term.Over.mono within h
  | clause c => exact Clause.Over.mono within h
  | query goals => exact within.atoms h

/-- The variables of a phrase are in its alphabet. -/
theorem Over.allows_of_mem_vars (h : p.Over A) : ∀ x ∈ p.vars, A.Allows x := by
  cases p with
  | term t => exact Term.Over.allows_of_mem_vars h
  | clause c => exact Clause.Over.allows_of_mem_vars h
  | query goals => exact Alphabet.allows_of_mem_varsOf h

/-- If all other symbols are taken over, only the variables have to be looked
at. -/
theorem Over.of_vars
    (others : ∀ {role : SymbolRole} (s : Symbol role), role ≠ .var → A.Allows s → B.Allows s)
    (h : p.Over A) (own : ∀ x ∈ p.vars, B.Allows x) : p.Over B := by
  cases p with
  | term t => exact Term.Over.of_vars others h own
  | clause c => exact Clause.Over.of_vars others h own
  | query goals =>
      intro a ha
      refine (h a ha).of_vars others fun x hx => own x ?_
      obtain ⟨t, ht, hx⟩ := hx
      exact mem_varsOf.mpr ⟨t, List.mem_flatMap.mpr ⟨a, ha, ht⟩, hx⟩

/-- What is known of the symbols of a phrase, and of those that replace them,
can be put together. -/
theorem Over.zip
    (both : ∀ {role : SymbolRole} (s : Symbol role), A.Allows s → B.Allows (ρ.map s) → C.Allows s)
    (h : p.Over A) (h' : (p.relabel ρ).Over B) : p.Over C := by
  cases p with
  | term t => exact Term.Over.zip both h h'
  | clause c => exact Clause.Over.zip both h h'
  | query goals => exact fun a ha => (h a ha).zip both (h' _ (List.mem_map_of_mem ha))

/-- A phrase sees no more of two relabellings than where they agree. -/
theorem Over.relabel_congr (h : p.Over (ρ.agreement ρ')) : p.relabel ρ = p.relabel ρ' := by
  cases p with
  | term t => exact congrArg term (Term.Over.relabel_congr h)
  | clause c => exact congrArg clause (Clause.Over.relabel_congr h)
  | query goals => exact congrArg query (List.map_congr_left fun a ha => (h a ha).relabel_congr)

/-- Variables are replaced by the variables of the new phrase. -/
theorem Over.map_mem_vars (h : p.Over A) (h' : (p.relabel ρ).Over B) {x : Variable}
    (hx : x ∈ p.vars) : ρ.map x ∈ (p.relabel ρ).vars := by
  let own := Alphabet.withVariables (p.relabel ρ).vars
  have owned : (p.relabel ρ).Over own := by
    refine h'.of_vars (fun {role} s other _ => ?_) fun _ => id
    cases role <;> trivial
  exact (h.zip (C := ⟨fun s => own.Allows (ρ.map s)⟩) (fun _ _ => id) owned).allows_of_mem_vars x hx

end Phrase

/-! ### Reading -/

namespace Vocabulary

open Reading

/-- Read a text. The result are the phrases in it. -/
def parse (v : Vocabulary) (text : String) : TextForm → Except ParseError (List Phrase) × Vocabulary
  | .term => (v.parseTerm text).map (.map fun t => [.term t]) id
  | .clause => (v.parseClause text).map (.map fun c => [.clause c]) id
  | .goals => (v.parseGoals text).map (.map fun goals => [.query goals]) id
  | .program => (v.parseProgram text).map (.map fun clauses => clauses.map .clause) id

/-- Between two states of a vocabulary, phrases have been read. -/
structure Reads (v : Vocabulary) (phrases : List Phrase) (v' : Vocabulary) : Prop where
  grows : v.Grows v'
  fits : ∀ p ∈ phrases, p.Over v'.alphabet
  apart : ∀ p ∈ phrases, NamesApart p.vars
  minted : ∀ p ∈ phrases, ∀ x ∈ p.vars, v.supply.Mints v'.supply x
  disjoint : phrases.Pairwise fun p q => p.vars.Disjoint q.vars

variable {u v v' w : Vocabulary} {text : String} {form : TextForm} {phrases more : List Phrase}

/-- A vocabulary may grow without any phrase being read. -/
theorem Grows.reads (h : v.Grows v') : v.Reads [] v' :=
  ⟨h, List.forall_mem_nil _, List.forall_mem_nil _, List.forall_mem_nil _, .nil⟩

/-- A single phrase has nothing to be kept apart from. -/
theorem reads_singleton {p : Phrase} (grows : v.Grows v')
    (fits : p.Over v'.alphabet ∧ NamesApart p.vars)
    (minted : ∀ x ∈ p.vars, v.supply.Mints v'.supply x) : v.Reads [p] v' :=
  ⟨grows, List.forall_mem_singleton.mpr fits.1, List.forall_mem_singleton.mpr fits.2,
    List.forall_mem_singleton.mpr minted, List.pairwise_singleton _ _⟩

/-- What is read later has other variables. -/
theorem Reads.append (h : u.Reads phrases v) (h' : v.Reads more w) :
    u.Reads (phrases ++ more) w := by
  have known : ∀ p ∈ phrases, p.Over w.alphabet :=
    fun p hp => (h.fits p hp).mono h'.grows.alphabet_within
  have earlier : ∀ p ∈ phrases, ∀ x ∈ p.vars, u.supply.Mints w.supply x :=
    fun p hp x hx => (h.minted p hp x hx).mono (Nat.le_refl _) h'.grows.supply
  have later : ∀ p ∈ more, ∀ x ∈ p.vars, u.supply.Mints w.supply x :=
    fun p hp x hx => (h'.minted p hp x hx).mono h.grows.supply (Nat.le_refl _)
  refine ⟨h.grows.trans h'.grows, List.forall_mem_append.mpr ⟨known, h'.fits⟩,
    List.forall_mem_append.mpr ⟨h.apart, h'.apart⟩, List.forall_mem_append.mpr ⟨earlier, later⟩, ?_⟩
  refine List.pairwise_append.mpr ⟨h.disjoint, h'.disjoint, fun p hp q hq => ?_⟩
  exact Supply.disjoint_of_mints (fun x hx => (h.minted p hp x hx).known) (h'.minted q hq)

/-- Reading a text as phrases leaves the vocabulary that reading it leaves. -/
theorem afterReading_eq : v.afterReading text form = (v.parse text form).2 := by
  cases form <;> rfl

/-- Reading a text as phrases lets the vocabulary grow. -/
theorem grows_parse (v : Vocabulary) (text : String) (form : TextForm) :
    v.Grows (v.parse text form).2 := by
  rw [← afterReading_eq]
  exact v.grows_afterReading text form

/-- A reading that succeeds does so with one of its kind, and leaves the same
vocabulary. -/
theorem exists_of_map {α β : Type} {outcome : Except ParseError α × Vocabulary} {f : α → β} {b : β}
    (result : outcome.map (Except.map f) id = (Except.ok b, v')) :
    ∃ a, outcome = (.ok a, v') ∧ f a = b := by
  obtain ⟨made, after⟩ := outcome
  obtain ⟨same, rfl⟩ := Prod.mk.inj result
  cases made with
  | error e => cases same
  | ok a => exact ⟨a, rfl, Except.ok.inj same⟩

/-- What is parsed from a text has been read in the meantime. -/
theorem reads_parse (result : v.parse text form = (.ok phrases, v')) : v.Reads phrases v' := by
  have grows := v.grows_parse text form
  rw [result] at grows
  cases form with
  | term =>
      obtain ⟨t, made, rfl⟩ := exists_of_map result
      exact reads_singleton grows (legible_of_parseTerm made) (mints_of_parseTerm made)
  | clause =>
      obtain ⟨c, made, rfl⟩ := exists_of_map result
      have legible := legible_of_parseClause made
      exact reads_singleton grows ⟨legible.fits, legible.apart⟩ (mints_of_parseClause made)
  | goals =>
      obtain ⟨goals, made, rfl⟩ := exists_of_map result
      exact reads_singleton grows (legible_of_parseGoals made).2 (mints_of_parseGoals made)
  | program =>
      obtain ⟨clauses, made, rfl⟩ := exists_of_map result
      have legible := legible_of_parseProgram made
      obtain ⟨minted, disjoint⟩ := apart_of_parseProgram made
      refine ⟨grows, ?_, ?_, ?_, List.pairwise_map.mpr disjoint⟩
      · exact List.forall_mem_map.mpr fun c hc => (legible c hc).fits
      · exact List.forall_mem_map.mpr fun c hc => (legible c hc).apart
      · exact List.forall_mem_map.mpr minted

section

variable {σ α : Type} {feed : σ → Token → Reading σ} {atEnd : Nat → σ → Reading α} {start : σ}
  {derived : α → List Lexeme → Prop} {relabel : Relabelling → α → α}
  {holds : σ → Reader → List Lexeme → Prop}

/-- What is one phrase is one phrase again. -/
theorem phrase_again (h : Recognizes feed atEnd start derived (NamedLike relabel) holds)
    {phrase : α → Phrase} (carries : ∀ ρ a, phrase (relabel ρ a) = (phrase a).relabel ρ)
    (parsed : (u.reading (whole feed atEnd start text)).map (Except.map fun a => [phrase a]) id =
      (Except.ok phrases, v')) (v : Vocabulary) :
    ∃ again, ((v.reading (whole feed atEnd start text)).map
        (Except.map fun a => [phrase a]) id).1 = .ok again ∧
      List.Forall₂ (NamedLike Phrase.relabel) again phrases := by
  obtain ⟨a, made, rfl⟩ := exists_of_map parsed
  obtain ⟨a', made', ρ, names, rfl⟩ := h.parse_again v (congrArg Prod.fst made)
  exact ⟨_, congrArg (Except.map _) made', .cons ⟨ρ, names, carries ρ a⟩ .nil⟩

end

/-- A text that is accepted once is accepted always, as phrases with the same
names. -/
theorem parse_again (parsed : u.parse text form = (.ok phrases, v')) (v : Vocabulary) :
    ∃ again, (v.parse text form).1 = .ok again ∧
      List.Forall₂ (NamedLike Phrase.relabel) again phrases := by
  cases form with
  | term => exact phrase_again recognizes_term (fun _ _ => rfl) parsed v
  | clause => exact phrase_again recognizes_clause (fun _ _ => rfl) parsed v
  | goals => exact phrase_again recognizes_goals (fun _ _ => rfl) parsed v
  | program =>
      obtain ⟨clauses, made, rfl⟩ := exists_of_map parsed
      obtain ⟨clauses', made', likes⟩ :=
        recognizes_program.parse_again v (congrArg Prod.fst made)
      refine ⟨_, congrArg (Except.map _) made', ?_⟩
      rw [List.forall₂_map_left_iff, List.forall₂_map_right_iff]
      refine likes.imp fun c' c like => ?_
      obtain ⟨ρ, names, rfl⟩ := like
      exact ⟨ρ, names, rfl⟩

end Vocabulary

end Resolvent
