/-
# Parsing undoes printing

A text does not say which symbol a name stands for, and need not: a vocabulary
has one symbol for a name, and within a clause or a query a name stands for one
variable. So a legible term, clause or query in which distinct variables have
distinct names is found again in its text, but for the variables, which are new
each time a text is read. Without variables nothing is left that could differ,
and the text is as good as the term.

Whatever has been parsed is of this kind, and the values that a search finds
are made of the symbols of the clauses and goals that it was given.
-/

import Resolvent.Proofs.Language.LegibleTexts
import Resolvent.Proofs.Language.Rereading
import Resolvent.Proofs.Search.Alphabet

namespace Resolvent

/-- How symbols are found again by their names: as themselves if the vocabulary
knew them. -/
structure Vocabulary.Rereads (v : Vocabulary) (ρ : Relabelling) (v' : Vocabulary) : Prop where
  grows : v.Grows v'
  same_name : ∀ {role : SymbolRole} (s : Symbol role), (ρ.map s).name = s.name
  same : ∀ {role : SymbolRole} (s : Symbol role), v.Knows s → ρ.map s = s

namespace Vocabulary

variable {v v' : Vocabulary} {ρ : Relabelling}

/-- Variables with distinct names stay distinct. -/
theorem Rereads.injOn (h : v.Rereads ρ v') {xs : List Variable} (apart : NamesApart xs) :
    Set.InjOn ρ.map {x | x ∈ xs} := by
  intro x hx y hy merged
  have names : (ρ.map x).name = (ρ.map y).name := congrArg Symbol.name merged
  rw [h.same_name, h.same_name] at names
  exact apart hx hy names

/-- All but the variables of a term is found again as it was. -/
theorem Rereads.relabel_eq_subst (h : v.Rereads ρ v') {t : Term} (fits : t.Over v.alphabet) :
    t.relabel ρ = t.subst fun x => .var (ρ.map x) := by
  have known {role : SymbolRole} {s : Symbol role} (allowed : v.alphabet.Allows s)
      (not_var : role ≠ .var) : ρ.map s = s :=
    h.same s (allowed.2.resolve_left not_var)
  induction fits with
  | var _ => rfl
  | const allowed => exact congrArg Term.const (known allowed (by decide))
  | app allowed _ _ ih =>
      rw [Term.relabel_app, Term.subst_app, List.map_congr_left ih]
      exact congrArg (Term.app · _) (known allowed (by decide))

/-- What is found by a reader in the end is what its vocabulary knew, or is
new. -/
theorem exists_rereads {α : Type} {reading : Reading α} {value : Relabelling → α}
    {good : Reader → Prop} (grown : v.Grows (v.reading reading).2)
    (read : ∃ r', reading { vocabulary := v } = .ok (value r'.relabelling) r' ∧
      ({ vocabulary := v } : Reader).Extends r' ∧ good r') :
    ∃ ρ v', v.reading reading = (.ok (value ρ), v') ∧ v.Rereads ρ v' := by
  obtain ⟨r', result, more, _⟩ := read
  have parsed : v.reading reading = (.ok (value r'.relabelling), r'.vocabulary) := by
    rw [Vocabulary.reading, result]
  rw [parsed] at grown
  refine ⟨_, _, parsed, grown, r'.name_relabelling, fun {role} s known => ?_⟩
  show (r'.find? role s.name).getD s = s
  rw [more.find?_eq known, Option.getD_some]

variable (v)

/-- A term that is written is read back, up to its symbols. -/
theorem parseTerm_text {t : Term} (legible : t.Over .legible) :
    ∃ ρ v', v.parseTerm t.text = (.ok (t.relabel ρ), v') ∧ v.Rereads ρ v' :=
  exists_rereads (v.grows_parseTerm t.text) (Reading.term_text _ legible)

/-- A clause that is written is read back, up to its symbols, with or without a
full stop. -/
theorem parseClause_text {c : Clause} (legible : c.Over .legible) (bodied : c.Bodied)
    {stop : String} (may_stop : stop = "" ∨ stop = ".") :
    ∃ ρ v', v.parseClause (c.text ++ stop) = (.ok (c.relabel ρ), v') ∧ v.Rereads ρ v' :=
  exists_rereads (v.grows_parseClause _) (Reading.clause_text _ legible bodied may_stop)

/-- Goals that are written are read back, up to their symbols. -/
theorem parseGoals_text {goals : List Atom} (some : goals ≠ [])
    (legible : ∀ a ∈ goals, a.Over .legible) :
    ∃ ρ v', v.parseGoals (Text.listed (goals.map Atom.text)) =
      (.ok (goals.map (Atom.relabel ρ)), v') ∧ v.Rereads ρ v' :=
  exists_rereads (v.grows_parseGoals _) (Reading.goals_text _ some legible)

/-- A ground term of known symbols is found again as it was. -/
theorem parseTerm_text_of_ground {t : Term} (fits : t.Over v.alphabet) (ground : t.isGround) :
    (v.parseTerm t.text).1 = .ok t := by
  obtain ⟨ρ, v', parsed, rereads⟩ := v.parseTerm_text (fits.mono v.alphabet_within_legible)
  rw [parsed, rereads.relabel_eq_subst fits, Term.subst_eq_self ground]

/-- Ground terms of known symbols are told apart by their texts. -/
theorem eq_iff_text_eq {t u : Term} (fits : t.Over v.alphabet) (fits' : u.Over v.alphabet)
    (ground : t.isGround) (ground' : u.isGround) : t = u ↔ t.text = u.text := by
  constructor
  · exact congrArg Term.text
  · intro same
    have again := v.parseTerm_text_of_ground fits ground
    rw [same, v.parseTerm_text_of_ground fits' ground'] at again
    exact (Except.ok.inj again).symm

/-- The values of an answer are ground terms of known symbols. -/
theorem parseTerm_text_of_answered {store : Store} {goals : List Atom} {verbose recording : Bool}
    {given supply : Supply} {k : Nat} {visits : List Visit} {q : Query}
    (clauses : ∀ c ∈ store.clauses, c.Over v.alphabet) (asked : ∀ a ∈ goals, a.Over v.alphabet)
    (run : Query.Run store (.ofGoals goals verbose recording) given k visits q supply)
    {visit : Visit} (visited : visit ∈ visits) {answer : Answer}
    (answered : visit.event = .answered answer) :
    ∀ b ∈ answer.values, (v.parseTerm b.term.text).1 = .ok b.term := by
  intro b hb
  have outcome := run.outcome visit visited
  rw [answered] at outcome
  have ground := List.all_eq_true.mp outcome.isGround b hb
  have fits := run.over_of_answered v.alphabet_renames clauses asked visited answered b hb
  exact v.parseTerm_text_of_ground fits ground

/-- Parsing undoes printing. A legible term, clause or query, the variables of
which have distinct names, is parsed from its text, up to new variables of the
same names, and symbols that are known come back as themselves. All that is
ever parsed is of this kind, for its vocabulary and any later one. So ground
terms are told apart by their texts, and the values of the answers to a query
can be parsed and are the same terms again. -/
theorem parsing_undoes_printing :
    (∀ t : Term, t.Over .legible → NamesApart t.vars →
      ∃ ρ v', v.parseTerm t.text = (.ok (t.relabel ρ), v') ∧ v.Rereads ρ v' ∧
        Set.InjOn ρ.map {x | x ∈ t.vars}) ∧
    (∀ c : Clause, c.Over .legible → c.Bodied → NamesApart c.vars → ∀ stop ∈ ["", "."],
      ∃ ρ v', v.parseClause (c.text ++ stop) = (.ok (c.relabel ρ), v') ∧ v.Rereads ρ v' ∧
        Set.InjOn ρ.map {x | x ∈ c.vars}) ∧
    (∀ goals : List Atom, goals ≠ [] → (∀ a ∈ goals, a.Over .legible) →
      NamesApart (varsOf (goals.flatMap Atom.args)) →
      ∃ ρ v', v.parseGoals (Text.listed (goals.map Atom.text)) =
          (.ok (goals.map (Atom.relabel ρ)), v') ∧ v.Rereads ρ v' ∧
        Set.InjOn ρ.map {x | x ∈ varsOf (goals.flatMap Atom.args)}) ∧
    (∀ text v' w, v'.Grows w →
      (∀ t, v.parseTerm text = (.ok t, v') → t.Over w.alphabet ∧ NamesApart t.vars) ∧
      (∀ c, v.parseClause text = (.ok c, v') → c.Legible w) ∧
      (∀ goals, v.parseGoals text = (.ok goals, v') → goals ≠ [] ∧
        (∀ a ∈ goals, a.Over w.alphabet) ∧ NamesApart (varsOf (goals.flatMap Atom.args))) ∧
      ∀ clauses, v.parseProgram text = (.ok clauses, v') → ∀ c ∈ clauses, c.Legible w) ∧
    (∀ t u : Term, t.Over v.alphabet → u.Over v.alphabet → t.isGround → u.isGround →
      (t = u ↔ t.text = u.text)) ∧
    ∀ store goals verbose recording given k visits q supply,
      (∀ c ∈ Store.clauses store, c.Over v.alphabet) → (∀ a ∈ goals, a.Over v.alphabet) →
      Query.Run store (.ofGoals goals verbose recording) given k visits q supply →
      ∀ visit ∈ visits, ∀ answer, visit.event = .answered answer →
        ∀ b ∈ answer.values, (v.parseTerm b.term.text).1 = .ok b.term := by
  refine ⟨?terms, ?clauses, ?queries, ?parsed, ?ground, ?answers⟩
  case terms =>
    intro t legible apart
    obtain ⟨ρ, v', parsed, rereads⟩ := v.parseTerm_text legible
    exact ⟨ρ, v', parsed, rereads, rereads.injOn apart⟩
  case clauses =>
    intro c legible bodied apart stop may_stop
    obtain ⟨ρ, v', parsed, rereads⟩ := v.parseClause_text legible bodied (by simpa using may_stop)
    exact ⟨ρ, v', parsed, rereads, rereads.injOn apart⟩
  case queries =>
    intro goals some legible apart
    obtain ⟨ρ, v', parsed, rereads⟩ := v.parseGoals_text some legible
    exact ⟨ρ, v', parsed, rereads, rereads.injOn apart⟩
  case parsed =>
    intro text v' w grown
    have within := grown.alphabet_within
    refine ⟨fun t parsed => ?_, fun c parsed => ?_, fun goals parsed => ?_,
      fun clauses parsed c hc => ?_⟩
    · exact ⟨(legible_of_parseTerm parsed).1.mono within, (legible_of_parseTerm parsed).2⟩
    · exact (legible_of_parseClause parsed).mono within
    · obtain ⟨some, fits, apart⟩ := legible_of_parseGoals parsed
      exact ⟨some, within.atoms fits, apart⟩
    · exact (legible_of_parseProgram parsed c hc).mono within
  case ground => exact fun t u => v.eq_iff_text_eq
  case answers =>
    intro store goals verbose recording given k visits q supply clauses asked run visit visited
      answer answered
    exact v.parseTerm_text_of_answered clauses asked run visited answered

/-- The rule, the query and the answer of the small program are parsed from
their texts. -/
theorem parsing_undoes_printing_tiny :
    let f : Functor := ⟨5, "f"⟩
    let v : Vocabulary := ⟨[Tiny.a], [f], [⟨3, "p"⟩, ⟨4, "q"⟩], ⟨6⟩⟩
    let rule : Clause := .rule ⟨⟨⟨4, "q"⟩, [.var Tiny.x]⟩, [⟨⟨3, "p"⟩, [.var Tiny.x]⟩]⟩
    let open_term : Term := .app f [.var Tiny.x, .var Tiny.y]
    let ground_term : Term := .app f [.const Tiny.a]
    (∃ ρ v', v.parseTerm "f(X, Y)" = (.ok (open_term.relabel ρ), v') ∧ v.Rereads ρ v' ∧
      Set.InjOn ρ.map {x | x ∈ open_term.vars}) ∧
    (∃ ρ v', v.parseClause "q(X) :- p(X)." = (.ok (rule.relabel ρ), v') ∧ v.Rereads ρ v' ∧
      Set.InjOn ρ.map {x | x ∈ rule.vars} ∧ (rule.relabel ρ).Legible v') ∧
    (∃ ρ v', v.parseGoals "q(Y)" = (.ok (Tiny.goals.map (Atom.relabel ρ)), v') ∧
      v.Rereads ρ v' ∧ Set.InjOn ρ.map {x | x ∈ varsOf (Tiny.goals.flatMap Atom.args)}) ∧
    (.const Tiny.a = ground_term ↔ "a" = "f(a)") ∧
    ∃ visits q supply,
      Query.Run Tiny.store (.ofGoals Tiny.goals false false) Tiny.supply 3 visits q supply ∧
      (∃ visit ∈ visits, visit.event = .answered Tiny.answer) ∧
      ∀ b ∈ Tiny.answer.values, (v.parseTerm b.term.text).1 = .ok b.term := by
  intro f v rule open_term ground_term
  have read := v.alphabet_within_legible
  have f : v.alphabet.Allows f := ⟨by decide, .inr rfl⟩
  have p : v.alphabet.Allows (⟨3, "p"⟩ : Predicate) := ⟨by decide, .inr rfl⟩
  have q : v.alphabet.Allows (⟨4, "q"⟩ : Predicate) := ⟨by decide, .inr rfl⟩
  have a : (Term.const Tiny.a).Over v.alphabet := .const ⟨by decide, .inr rfl⟩
  have x : (Term.var Tiny.x).Over v.alphabet := .var ⟨by decide, .inl rfl⟩
  have y : (Term.var Tiny.y).Over v.alphabet := .var ⟨by decide, .inl rfl⟩
  have open_over : open_term.Over v.alphabet :=
    .app f (List.cons_ne_nil _ _)
      (List.forall_mem_cons.mpr ⟨x, List.forall_mem_singleton.mpr y⟩)
  have ground_over : ground_term.Over v.alphabet :=
    .app f (List.cons_ne_nil _ _) (List.forall_mem_singleton.mpr a)
  have fact_over : (Clause.fact ⟨⟨3, "p"⟩, [.const Tiny.a]⟩).Over v.alphabet :=
    ⟨⟨p, List.forall_mem_singleton.mpr a⟩, List.forall_mem_nil _⟩
  have rule_over : rule.Over v.alphabet :=
    ⟨⟨q, List.forall_mem_singleton.mpr x⟩,
      List.forall_mem_singleton.mpr ⟨p, List.forall_mem_singleton.mpr x⟩⟩
  have goals_over : ∀ a ∈ Tiny.goals, a.Over v.alphabet :=
    List.forall_mem_singleton.mpr ⟨q, List.forall_mem_singleton.mpr y⟩
  have clauses_over : ∀ c ∈ Tiny.store.clauses, c.Over v.alphabet :=
    List.forall_mem_cons.mpr ⟨fact_over, List.forall_mem_singleton.mpr rule_over⟩
  obtain ⟨terms, rules, queries, parsed, ground, answers⟩ := v.parsing_undoes_printing
  obtain ⟨ρ, v', made, rereads, distinct⟩ := rules rule (rule_over.mono read)
    (List.cons_ne_nil _ _) (by decide) "." (by decide)
  obtain ⟨earlier, q, supply, run, _⟩ := Tiny.run
  have visited := List.mem_append_right earlier
    (List.mem_singleton_self (⟨⟨[], Tiny.bindings⟩, .answered Tiny.answer⟩ : Visit))
  exact ⟨terms open_term (open_over.mono read) (by decide),
    ⟨ρ, v', made, rereads, distinct, (parsed _ v' v' (.refl v')).2.1 _ made⟩,
    queries Tiny.goals (List.cons_ne_nil _ _) (read.atoms goals_over) (by decide),
    ground _ _ a ground_over rfl rfl,
    _, q, supply, run, ⟨_, visited, rfl⟩,
    answers _ _ _ _ _ _ _ q supply clauses_over goals_over run _ visited _ rfl⟩

end Vocabulary

end Resolvent
