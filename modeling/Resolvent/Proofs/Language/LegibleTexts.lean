/-
# Whole texts are legible

The terms, clauses and goals that have been read from whole texts are legible,
rules have bodies, queries have goals, and distinct variables of a clause or
query have distinct names.

At the end of a clause of a program its variables are forgotten. From then on
it is said of the clause what can be said without them.
-/

import Resolvent.Proofs.Language.Legibility

namespace Resolvent

open Reading

/-! ### Clauses and queries -/

namespace ClauseReading

/-- What has been read of a clause is over an alphabet. -/
inductive Over (A : Alphabet) : ClauseReading → Prop
  | inHead {a : AtomReading} (atom : a.Over A) : Over A (.inHead a)
  | inBody {head : Atom} {before : List Atom} {a : AtomReading} (conclusion : head.Over A)
      (atoms : ∀ b ∈ before, b.Over A) (atom : a.Over A) : Over A (.inBody head before a)
  | ended {c : Clause} (fits : c.Over A) (bodied : c.Bodied) : Over A (.ended c)

variable {r : Reader} {s : ClauseReading}

/-- A fact has no symbols but those of its atom. -/
theorem over_fact {A : Alphabet} {a : Atom} (h : a.Over A) : (Clause.fact a).Over A :=
  ⟨h, List.forall_mem_nil _⟩

/-- A rule has no symbols but those of its head and of its body, which has been
read from its end. -/
theorem over_rule {A : Alphabet} {head last : Atom} {before : List Atom} (h : head.Over A)
    (atoms : ∀ b ∈ last :: before, b.Over A) :
    (Clause.rule ⟨head, (last :: before).reverse⟩).Over A :=
  ⟨h, fun b hb => atoms b (List.mem_reverse.mp hb)⟩

/-- A rule that has been read has a body. -/
theorem bodied_rule (head last : Atom) (before : List Atom) :
    (Clause.rule ⟨head, (last :: before).reverse⟩).Bodied := by
  simp [Clause.Bodied]

/-- A token keeps what has been read of a clause within the lexicon. -/
theorem gives_feed {t : Token} (proper : t.Proper) (h : s.Over r.lexicon) :
    (s.feed t).Gives r fun s r' => s.Over r'.lexicon := by
  cases h with
  | inHead atom =>
      refine (AtomReading.gives_feed proper atom).bind fun p r' _ holds => ?_
      cases p with
      | going a => exact gives_pure (.inHead holds)
      | finished a =>
          dsimp only
          split
          · exact gives_pure (.inBody holds (List.forall_mem_nil _) .due)
          · exact gives_pure (.ended (over_fact holds) trivial)
          · exact gives_refuse _ t
  | inBody head before atom =>
      refine (AtomReading.gives_feed proper atom).bind fun p r' grown holds => ?_
      have head := head.mono grown.lexicon_within
      have before := grown.lexicon_within.atoms before
      cases p with
      | going a => exact gives_pure (.inBody head before holds)
      | finished a =>
          have atoms : ∀ b ∈ a :: _, b.Over r'.lexicon := List.forall_mem_cons.mpr ⟨holds, before⟩
          dsimp only
          split
          · exact gives_pure (.inBody head atoms .due)
          · exact gives_pure (.ended (over_rule head atoms) (bodied_rule _ _ _))
          · exact gives_refuse _ t
  | ended _ _ => exact gives_refuse none t

/-- A clause is over the lexicon when the text ends, and a rule has a body. -/
theorem gives_atEnd (h : s.Over r.lexicon) (n : Nat) :
    (s.atEnd n).Gives r fun c r' => c.Over r'.lexicon ∧ c.Bodied := by
  cases h with
  | inHead atom =>
      exact (AtomReading.gives_atEnd atom n).bind fun a r' _ fits =>
        gives_pure ⟨over_fact fits, trivial⟩
  | inBody head before atom =>
      refine (AtomReading.gives_atEnd atom n).bind fun a r' grown fits => ?_
      have before := grown.lexicon_within.atoms before
      have atoms := List.forall_mem_cons.mpr ⟨fits, before⟩
      exact gives_pure
        ⟨over_rule (head.mono grown.lexicon_within) atoms, bodied_rule _ _ _⟩
  | ended fits bodied => exact gives_pure ⟨fits, bodied⟩

end ClauseReading

namespace QueryReading

/-- What has been read of a query is over an alphabet. -/
inductive Over (A : Alphabet) : QueryReading → Prop
  | start : Over A .start
  | inGoal {before : List Atom} {a : AtomReading} (atoms : ∀ b ∈ before, b.Over A)
      (atom : a.Over A) : Over A (.inGoal before a)
  | ended {goals : List Atom} (some : goals ≠ []) (fits : ∀ a ∈ goals, a.Over A) :
      Over A (.ended goals)

variable {r : Reader} {s : QueryReading}

/-- A token keeps what has been read of a goal within the lexicon, and the
goals before it too. -/
theorem gives_feedGoal {t : Token} (proper : t.Proper) {before : List Atom} {a : AtomReading}
    (h : ∀ b ∈ before, b.Over r.lexicon) (atom : a.Over r.lexicon) :
    (feedGoal before a t).Gives r fun s r' => s.Over r'.lexicon := by
  refine (AtomReading.gives_feed proper atom).bind fun p r' grown holds => ?_
  have before := grown.lexicon_within.atoms h
  cases p with
  | going a => exact gives_pure (.inGoal before holds)
  | finished a =>
      have atoms : ∀ b ∈ a :: _, b.Over r'.lexicon := List.forall_mem_cons.mpr ⟨holds, before⟩
      dsimp only
      split
      · exact gives_pure (.inGoal atoms .due)
      · exact gives_pure (.ended (by simp) fun b hb => atoms b (List.mem_reverse.mp hb))
      · exact gives_refuse none t

/-- A token keeps what has been read of a query within the lexicon. -/
theorem gives_feed {t : Token} (proper : t.Proper) (h : s.Over r.lexicon) :
    (s.feed t).Gives r fun s r' => s.Over r'.lexicon := by
  cases h with
  | start =>
      simp only [feed]
      split
      · exact gives_pure (.inGoal (List.forall_mem_nil _) .due)
      · exact gives_feedGoal proper (List.forall_mem_nil _) .due
  | inGoal before atom => exact gives_feedGoal proper before atom
  | ended _ _ => exact gives_refuse none t

/-- The goals are over the lexicon when the text ends, and there is one at
least. -/
theorem gives_atEnd (h : s.Over r.lexicon) (n : Nat) :
    (s.atEnd n).Gives r fun goals r' => goals ≠ [] ∧ ∀ a ∈ goals, a.Over r'.lexicon := by
  cases h with
  | start => exact gives_expected _ _ n
  | inGoal before atom =>
      refine (AtomReading.gives_atEnd atom n).bind fun a r' grown fits => ?_
      have before := grown.lexicon_within.atoms before
      have atoms := List.forall_mem_cons.mpr ⟨fits, before⟩
      exact gives_pure ⟨by simp, fun b hb => atoms b (List.mem_reverse.mp hb)⟩
  | ended some fits => exact gives_pure ⟨some, fits⟩

end QueryReading

/-! ### Programs -/

/-- A clause that can be read again by way of its text. -/
structure Clause.Legible (v : Vocabulary) (c : Clause) : Prop where
  fits : c.Over v.alphabet
  bodied : c.Bodied
  apart : NamesApart c.vars

/-- A legible clause stays legible when more symbols become known. -/
theorem Clause.Legible.mono {c : Clause} {v v' : Vocabulary}
    (within : v.alphabet.Within v'.alphabet) (h : c.Legible v) : c.Legible v' :=
  ⟨h.fits.mono within, h.bodied, h.apart⟩

/-- When a clause has been read, its variables need not be known any more. -/
theorem Clause.Over.legible {c : Clause} {r : Reader} (h : c.Over r.lexicon) (bodied : c.Bodied) :
    c.Legible r.vocabulary :=
  ⟨h.mono r.lexicon_within_alphabet, bodied, Reader.namesApart_of_lexicon h.allows_of_mem_vars⟩

namespace ProgramReading

/-- The reading of the clause at hand, or of the one that begins. -/
def atHand (s : ProgramReading) : ClauseReading :=
  s.current.getD .start

/-- The reader of the clause at hand. With a new clause a scope is opened for
it. -/
def opened (s : ProgramReading) (r : Reader) : Reader :=
  match s.current with
  | some _ => r
  | none => { r with scope := [] }

/-- Where the reading of a program stands when that of the clause at hand has
come to a state. -/
def settled (finished : List Clause) : ClauseReading → ProgramReading
  | .ended c => ⟨c :: finished, none⟩
  | current => ⟨finished, some current⟩

/-- A token of a clause is read as if the clause were alone. -/
theorem feed_iff {s s' : ProgramReading} {t : Token} {r r' : Reader} :
    s.feed t r = .ok s' r' ↔
      ∃ next, s.atHand.feed t (s.opened r) = .ok next r' ∧ s' = settled s.finished next := by
  obtain ⟨finished, current⟩ := s
  have continued (current : ClauseReading) (r : Reader) :
      feed ⟨finished, some current⟩ t r = .ok s' r' ↔
        ∃ next, current.feed t r = .ok next r' ∧ s' = settled finished next := by
    constructor
    · intro result
      obtain ⟨_, _, same, result⟩ := exists_of_bind result
      obtain ⟨rfl, rfl⟩ := EStateM.Result.ok.inj same
      obtain ⟨next, r₁, made, ended⟩ := exists_of_bind result
      cases next <;> obtain ⟨rfl, rfl⟩ := EStateM.Result.ok.inj ended <;> exact ⟨_, made, rfl⟩
    · rintro ⟨next, made, rfl⟩
      apply (bind_of_ok made).trans
      cases next <;> rfl
  cases current with
  | some current => exact continued current r
  | none => exact continued .start { r with scope := [] }

/-- The finished clauses can be read again, and what has been read of the one
at hand is over the lexicon. -/
structure Legible (s : ProgramReading) (r : Reader) : Prop where
  finished : ∀ c ∈ s.finished, c.Legible r.vocabulary
  current : ∀ c ∈ s.current, c.Over r.lexicon

variable {r : Reader} {s : ProgramReading}

/-- The clause at hand is kept within the lexicon, and a finished one within
the alphabet. -/
theorem gives_feed_current {t : Token} (proper : t.Proper) {finished : List Clause}
    {current : ClauseReading} (h : Legible ⟨finished, some current⟩ r) :
    (feed ⟨finished, some current⟩ t).Gives r fun s r' => s.Legible r' := by
  refine (ClauseReading.gives_feed proper (h.current _ rfl)).bind fun next r' grown fits => ?_
  have before : ∀ c ∈ finished, c.Legible r'.vocabulary := fun c hc =>
    (h.finished c hc).mono grown.alphabet_within
  cases fits with
  | ended fits bodied =>
      exact gives_pure ⟨List.forall_mem_cons.mpr ⟨fits.legible bodied, before⟩, nofun⟩
  | inHead atom => exact gives_pure ⟨before, fun _ same => Option.some.inj same ▸ .inHead atom⟩
  | inBody head atoms atom =>
      exact gives_pure ⟨before, fun _ same => Option.some.inj same ▸ .inBody head atoms atom⟩

/-- The first token of a clause is read as by a reader that has forgotten the
variables. -/
theorem Legible.of_feed {t : Token} {s' : ProgramReading} {r' : Reader} (h : s.Legible r)
    (proper : t.Proper) (result : s.feed t r = .ok s' r') : s'.Legible r' := by
  obtain ⟨finished, current⟩ := s
  cases current with
  | some current => exact (gives_feed_current proper h s' r' result).2
  | none =>
      have anew : Legible ⟨finished, some .start⟩ { r with scope := [] } :=
        ⟨h.finished, fun _ same => Option.some.inj same ▸ .inHead .due⟩
      exact (gives_feed_current proper anew s' r' result).2

/-- A text may end between two clauses only. -/
theorem eq_of_atEnd {n : Nat} {clauses : List Clause} {r' : Reader}
    (result : s.atEnd n r = .ok clauses r') : s = ⟨clauses.reverse, none⟩ ∧ r' = r := by
  obtain ⟨finished, current⟩ := s
  cases current with
  | none =>
      obtain ⟨rfl, rfl⟩ := EStateM.Result.ok.inj result
      exact ⟨by rw [List.reverse_reverse], rfl⟩
  | some current =>
      obtain ⟨_, _, _, refused⟩ := exists_of_bind result
      cases refused

/-- All clauses of a program are legible when the text ends. -/
theorem legible_of_atEnd (h : s.Legible r) {n : Nat} {clauses : List Clause} {r' : Reader}
    (result : s.atEnd n r = .ok clauses r') : ∀ c ∈ clauses, c.Legible r'.vocabulary := by
  obtain ⟨rfl, rfl⟩ := eq_of_atEnd result
  exact fun c hc => h.finished c (List.mem_reverse.mpr hc)

end ProgramReading

/-! ### Whole texts -/

/-- The names among the tokens of a text are identifiers. -/
theorem Token.proper_of_ofText {text : String} {tokens : List Token}
    (cut : ofText text = .ok tokens) : ∀ t ∈ tokens, t.Proper :=
  fun t ht => (genuine_of_ofText cut t ht).isIdentifier

namespace Reading

/-- What holds before the first token and is kept by every token holds at the
end of the text. -/
theorem whole_induction {σ α : Type} {feed : σ → Token → Reading σ} {atEnd : Nat → σ → Reading α}
    {start : σ} {r r' : Reader} {text : String} {a : α} (holds : σ → Reader → Prop)
    (result : whole feed atEnd start text r = .ok a r') (begins : holds start r)
    (step : ∀ {t : Token} {s s' r r'}, t.Proper → holds s r → feed s t r = .ok s' r' →
      holds s' r') :
    ∃ n s r₁, holds s r₁ ∧ atEnd n s r₁ = .ok a r' := by
  rw [whole] at result
  cases cut : Token.ofText text with
  | error e =>
      rw [cut] at result
      cases result
  | ok tokens =>
      rw [cut] at result
      have proper := Token.proper_of_ofText cut
      obtain ⟨s, r₁, fed, ended⟩ := exists_of_bind result
      refine ⟨_, s, r₁, ?_, ended⟩
      clear cut result ended
      induction tokens generalizing start r with
      | nil =>
          obtain ⟨rfl, rfl⟩ := EStateM.Result.ok.inj fed
          exact begins
      | cons t tokens ih =>
          obtain ⟨first, others⟩ := List.forall_mem_cons.mp proper
          rw [List.foldlM_cons] at fed
          obtain ⟨s₁, r₂, read, fed⟩ := exists_of_bind fed
          exact ih (step first begins read) others fed

variable {r r' : Reader} {text : String}

/-- A term that has been read is over the lexicon of the reader it leaves. -/
theorem over_of_term {t : Term} (result : term text r = .ok t r') : t.Over r'.lexicon := by
  obtain ⟨n, s, r₁, fits, ended⟩ :=
    whole_induction (fun s r => s.Over r.lexicon) result .due fun proper fits fed =>
      (TermReading.gives_feedOnly proper fits _ _ fed).2
  exact (TermReading.gives_atEnd fits n _ _ ended).2

/-- A clause that has been read is over the lexicon of the reader it leaves. -/
theorem over_of_clause {c : Clause} (result : clause text r = .ok c r') :
    c.Over r'.lexicon ∧ c.Bodied := by
  obtain ⟨n, s, r₁, fits, ended⟩ :=
    whole_induction (fun s r => s.Over r.lexicon) result (.inHead .due) fun proper fits fed =>
      (ClauseReading.gives_feed proper fits _ _ fed).2
  exact (ClauseReading.gives_atEnd fits n _ _ ended).2

/-- Goals that have been read are over the lexicon of the reader they leave. -/
theorem over_of_goals {goals : List Atom} (result : Reading.goals text r = .ok goals r') :
    goals ≠ [] ∧ ∀ a ∈ goals, a.Over r'.lexicon := by
  obtain ⟨n, s, r₁, fits, ended⟩ :=
    whole_induction (fun s r => s.Over r.lexicon) result .start fun proper fits fed =>
      (QueryReading.gives_feed proper fits _ _ fed).2
  exact (QueryReading.gives_atEnd fits n _ _ ended).2

/-- Clauses that have been read are legible, each with a scope of its own. -/
theorem legible_of_program {clauses : List Clause} (result : program text r = .ok clauses r') :
    ∀ c ∈ clauses, c.Legible r'.vocabulary := by
  obtain ⟨n, s, r₁, legible, ended⟩ :=
    whole_induction ProgramReading.Legible result ⟨List.forall_mem_nil _, nofun⟩
      fun proper legible fed => legible.of_feed proper fed
  exact ProgramReading.legible_of_atEnd legible ended

end Reading

/-! ### Parsing -/

namespace Vocabulary

variable {v v' : Vocabulary} {text : String}

/-- A reading that succeeds does so in a reader, whose vocabulary is what is
left of it. -/
theorem exists_of_reading {α : Type} {reading : Reading α} {a : α}
    (result : v.reading reading = (.ok a, v')) :
    ∃ r', reading { vocabulary := v } = .ok a r' ∧ r'.vocabulary = v' := by
  unfold Vocabulary.reading at result
  split at result
  · next value r' made =>
      obtain ⟨same, grown⟩ := Prod.mk.inj result
      obtain rfl := Except.ok.inj same
      exact ⟨r', made, grown⟩
  · cases result

/-- A parsed term uses known symbols, and its variables are told by their
names. -/
theorem legible_of_parseTerm {t : Term} (result : v.parseTerm text = (.ok t, v')) :
    t.Over v'.alphabet ∧ NamesApart t.vars := by
  obtain ⟨r', made, rfl⟩ := exists_of_reading result
  have fits := over_of_term made
  exact ⟨fits.mono r'.lexicon_within_alphabet,
    Reader.namesApart_of_lexicon fits.allows_of_mem_vars⟩

/-- A parsed clause uses known symbols, and its variables are told by their
names. -/
theorem legible_of_parseClause {c : Clause} (result : v.parseClause text = (.ok c, v')) :
    c.Legible v' := by
  obtain ⟨r', made, rfl⟩ := exists_of_reading result
  obtain ⟨fits, bodied⟩ := over_of_clause made
  exact fits.legible bodied

/-- Parsed goals use known symbols, and their variables are told by their
names. -/
theorem legible_of_parseGoals {goals : List Atom} (result : v.parseGoals text = (.ok goals, v')) :
    goals ≠ [] ∧ (∀ a ∈ goals, a.Over v'.alphabet) ∧
      NamesApart (varsOf (goals.flatMap Atom.args)) := by
  obtain ⟨r', made, rfl⟩ := exists_of_reading result
  obtain ⟨some, fits⟩ := over_of_goals made
  exact ⟨some, r'.lexicon_within_alphabet.atoms fits,
    Reader.namesApart_of_lexicon (Alphabet.allows_of_mem_varsOf fits)⟩

/-- Parsed clauses use known symbols, and the variables of each one are told by
their names. -/
theorem legible_of_parseProgram {clauses : List Clause}
    (result : v.parseProgram text = (.ok clauses, v')) : ∀ c ∈ clauses, c.Legible v' := by
  obtain ⟨r', made, rfl⟩ := exists_of_reading result
  exact legible_of_program made

end Vocabulary

end Resolvent
