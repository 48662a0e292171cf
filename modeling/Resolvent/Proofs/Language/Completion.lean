/-
# What has been read can be completed

No state of a reading is a dead end. The term at hand is finished, with a
constant if there is none yet, every parenthesis that is open is closed, and a
full stop is put behind. What has been read together with what is added is then
written like a legible term, clause, query or program.

So whatever has been accepted so far is the beginning of a text that would be
accepted as a whole.
-/

import Resolvent.Proofs.Language.Spelling

namespace Resolvent

open Lexeme (Optional)

/-- An identifier is written like a variable or a constant. -/
theorem Term.exists_leaf {name : String} (identifier : IsIdentifier name) :
    ∃ t : Term, t.Over .legible ∧ t.lexemes = [⟨.name, name⟩] := by
  by_cases capital : isVariableName name
  · exact ⟨.var ⟨0, name⟩, .var ⟨identifier, capital⟩, rfl⟩
  · exact ⟨.const ⟨0, name⟩, .const ⟨identifier, capital⟩, rfl⟩

/-- There is a legible term. -/
theorem Term.exists_legible : ∃ t : Term, t.Over .legible :=
  ⟨.const ⟨0, "a"⟩, .const (by decide)⟩

/-- There is a legible atom. -/
theorem Atom.exists_legible : ∃ a : Atom, a.Over .legible :=
  ⟨⟨⟨0, "a"⟩, []⟩, ⟨by decide, List.forall_mem_nil _⟩⟩

variable {A : Alphabet}

namespace ArgumentList

/-- Parentheses are closed from the innermost one on. -/
theorem exists_closed_ended {args : List Term} {outer : List Frame} (some : args ≠ [])
    (terms : ∀ t ∈ args, t.Over .legible) (frames : ∀ f ∈ outer, f.Over .legible) :
    ∃ args' more, args' ≠ [] ∧ (∀ t ∈ args', t.Over .legible) ∧
      (ended args outer).lexemes ++ more = closed args' := by
  induction outer generalizing args with
  | nil =>
      refine ⟨args.reverse, [Mark.closing.lexeme], by simpa using some, by simpa using terms, ?_⟩
      rw [lexemes, around, List.nil_append, closed]
  | cons frame outer ih =>
      obtain ⟨first, others⟩ := List.forall_mem_cons.mp frames
      have whole : (Term.app frame.functor args.reverse).Over .legible :=
        .app first.functor (by simpa using some) (by simpa using terms)
      obtain ⟨args', more, some', legible, completed⟩ :=
        ih (List.cons_ne_nil _ frame.before) (List.forall_mem_cons.mpr ⟨whole, first.before⟩) others
      refine ⟨args', [Mark.closing.lexeme] ++ more, some', legible, ?_⟩
      rw [← completed, lexemes_ended_app, List.append_assoc]

/-- An argument list can be completed wherever its reading stands, since an
identifier may be put where a term is due and parentheses can be closed. -/
theorem exists_closed (within : A.Within .legible) {s : ArgumentList} (h : s.Over A) :
    ∃ args more, args ≠ [] ∧ (∀ t ∈ args, t.Over .legible) ∧ s.lexemes ++ more = closed args := by
  cases h.mono within with
  | @due before outer terms frames =>
      obtain ⟨t, legible⟩ := Term.exists_legible
      obtain ⟨args, more, some, legible, completed⟩ :=
        exists_closed_ended (List.cons_ne_nil t before)
          (List.forall_mem_cons.mpr ⟨legible, terms⟩) frames
      exact ⟨args, t.lexemes ++ more, some, legible, by
        rw [← completed, lexemes_ended_cons, List.append_assoc]⟩
  | @named name before outer identifier terms frames =>
      obtain ⟨t, legible, leaf⟩ := Term.exists_leaf identifier
      rw [← lexemes_ended_of_leaf before outer leaf]
      exact exists_closed_ended (List.cons_ne_nil t before)
        (List.forall_mem_cons.mpr ⟨legible, terms⟩) frames
  | ended some terms frames => exact exists_closed_ended some terms frames

end ArgumentList

/-- What has been read of a term can be completed to a legible one. -/
theorem TermReading.exists_completed (within : A.Within .legible) {s : TermReading}
    (h : s.Over A) : ∃ (t : Term) (more : List Lexeme), t.Over .legible ∧
      s.lexemes ++ more = t.lexemes := by
  cases h with
  | due =>
      obtain ⟨t, legible⟩ := Term.exists_legible
      exact ⟨t, t.lexemes, legible, rfl⟩
  | named identifier =>
      obtain ⟨t, legible, leaf⟩ := Term.exists_leaf identifier
      exact ⟨t, [], legible, leaf.symm⟩
  | @inside f args functor fits =>
      obtain ⟨args', more, some, legible, completed⟩ := ArgumentList.exists_closed within fits
      refine ⟨.app f args', more, .app (within f functor) some legible, ?_⟩
      rw [lexemes, ArgumentList.lexemes_app, ← completed, List.append_assoc _ args.lexemes]
  | ended fits => exact ⟨_, [], fits.mono within, List.append_nil _⟩

/-- What has been read of an atom can be completed to a legible one. -/
theorem AtomReading.exists_completed (within : A.Within .legible) {s : AtomReading}
    (h : s.Over A) : ∃ (a : Atom) (more : List Lexeme), a.Over .legible ∧
      s.lexemes ++ more = a.lexemes := by
  cases h with
  | due =>
      obtain ⟨a, legible⟩ := Atom.exists_legible
      exact ⟨a, a.lexemes, legible, rfl⟩
  | @named p predicate =>
      exact ⟨⟨p, []⟩, [], ⟨within p predicate, List.forall_mem_nil _⟩, rfl⟩
  | @inside p args predicate fits =>
      obtain ⟨args', more, some, legible, completed⟩ := ArgumentList.exists_closed within fits
      refine ⟨⟨p, args'⟩, more, ⟨within p predicate, legible⟩, ?_⟩
      rw [lexemes, ArgumentList.lexemes_atom some, ← completed, List.append_assoc _ args.lexemes]
  | ended fits => exact ⟨_, [], fits.mono within, List.append_nil _⟩

/-- What has been read of a clause can be completed to a legible one with its
full stop. -/
theorem ClauseReading.exists_completed (within : A.Within .legible) {s : ClauseReading}
    (h : s.Over A) : ∃ (c : Clause) (more : List Lexeme), c.Over .legible ∧ c.Bodied ∧
      s.lexemes ++ more = c.lexemes ++ [Mark.stop.lexeme] := by
  cases h with
  | @inHead a atom =>
      obtain ⟨a', more, legible, completed⟩ := AtomReading.exists_completed within atom
      refine ⟨.fact a', more ++ [Mark.stop.lexeme], over_fact legible, trivial, ?_⟩
      rw [lexemes, Clause.lexemes, ← completed, List.append_assoc]
  | @inBody head before a conclusion atoms atom =>
      obtain ⟨last, more, legible, completed⟩ := AtomReading.exists_completed within atom
      have fits := List.forall_mem_cons.mpr ⟨legible, within.atoms atoms⟩
      refine ⟨.rule ⟨head, (last :: before).reverse⟩, more ++ [Mark.stop.lexeme],
        over_rule (conclusion.mono within) fits, bodied_rule head last before, ?_⟩
      rw [lexemes, lexemes_rule, ← completed]
      simp
  | ended fits bodied => exact ⟨_, [], fits.mono within, bodied, List.append_nil _⟩

/-- What has been read of a query can be completed to a legible one, with the
arrow and the full stop that have been read. -/
theorem QueryReading.exists_completed (within : A.Within .legible) {s : QueryReading}
    (h : s.Over A) {ls : List Lexeme} (spells : s.Spells ls) :
    ∃ (goals : List Atom) (arrow stop more : List Lexeme), goals ≠ [] ∧
      (∀ a ∈ goals, a.Over .legible) ∧ Optional .query arrow ∧ Optional .stop stop ∧
      ls ++ more = arrow ++ Lexeme.listed (goals.map Atom.lexemes) ++ stop := by
  cases spells with
  | start =>
      obtain ⟨a, legible⟩ := Atom.exists_legible
      exact ⟨[a], [], [], a.lexemes, List.cons_ne_nil _ _, List.forall_mem_singleton.mpr legible,
        .inl rfl, .inl rfl, (List.append_nil _).symm⟩
  | @inGoal before a arrow may_begin =>
      cases h with
      | inGoal atoms atom =>
          obtain ⟨last, more, legible, completed⟩ := AtomReading.exists_completed within atom
          have fits := List.forall_mem_cons.mpr ⟨legible, within.atoms atoms⟩
          refine ⟨(last :: before).reverse, arrow, [], more, by simp,
            fun b hb => fits b (List.mem_reverse.mp hb), may_begin, .inl rfl, ?_⟩
          rw [listed_goals, ← completed]
          simp
  | ended may_begin =>
      cases h with
      | ended some fits =>
          exact ⟨_, _, _, [], some, within.atoms fits, may_begin, .inr rfl, List.append_nil _⟩

/-- What has been read of a program can be completed by completing the clause
at hand. -/
theorem ProgramReading.exists_completed {s : ProgramReading} {r : Reader} (h : s.Legible r) :
    ∃ (clauses : List Clause) (more : List Lexeme),
      (∀ c ∈ clauses, c.Over .legible ∧ c.Bodied) ∧
      s.lexemes ++ more = clauses.flatMap fun c => c.lexemes ++ [Mark.stop.lexeme] := by
  obtain ⟨finished, current⟩ := s
  have before : ∀ c ∈ finished.reverse, c.Over .legible ∧ c.Bodied := fun c hc =>
    have legible := h.finished c (List.mem_reverse.mp hc)
    ⟨legible.fits.mono r.vocabulary.alphabet_within_legible, legible.bodied⟩
  cases current with
  | none => exact ⟨finished.reverse, [], before, by simp [lexemes]⟩
  | some current =>
      obtain ⟨c, more, legible, bodied, completed⟩ :=
        ClauseReading.exists_completed Reader.lexicon_within_legible (h.current current rfl)
      refine ⟨finished.reverse ++ [c], more, List.forall_mem_append.mpr
        ⟨before, List.forall_mem_singleton.mpr ⟨legible, bodied⟩⟩, ?_⟩
      simp [lexemes, completed]

end Resolvent
