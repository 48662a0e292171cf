/-
# What is derived is accepted

The tokens of a derivation are accepted, and what is read is what was derived,
but for which symbols the names stand for. That terms, clauses and goals are
read from their tokens is known; what is added is the marks that may stand in
front or behind, and that clauses follow on one another in a program.

Between two clauses the variables are forgotten. So there is one relabelling
for each clause of a program, and none for all of them.
-/

import Resolvent.Proofs.Language.Grammar
import Resolvent.Proofs.Language.Legibility
import Resolvent.Proofs.Language.Rereading

namespace Resolvent

open Reading
open Lexeme (Optional)

/-- Names lead to symbols of the same name. -/
def Relabelling.KeepsNames (ρ : Relabelling) : Prop :=
  ∀ {role : SymbolRole} (s : Symbol role), (ρ.map s).name = s.name

/-- The first is the second, but for which symbols its names stand for. One
name may stand for one symbol in the first where it stands for several in the
second, and not the other way round. -/
def NamedLike {α : Type} (relabel : Relabelling → α → α) (a b : α) : Prop :=
  ∃ ρ : Relabelling, ρ.KeepsNames ∧ a = relabel ρ b

namespace Reading

variable {σ α : Type}

/-- The tokens are accepted, and wherever the text ends behind them, something
good is read. -/
def Accepts (feed : σ → Token → Reading σ) (atEnd : Nat → σ → Reading α) (s : σ) (r : Reader)
    (tokens : List Token) (good : α → Prop) : Prop :=
  ∃ s' r₁ a r', tokens.foldlM feed s r = .ok s' r₁ ∧ (∀ n, atEnd n s' r₁ = .ok a r') ∧ good a

variable {feed : σ → Token → Reading σ} {atEnd : Nat → σ → Reading α} {good : α → Prop}

/-- What may end with its last token or with a full stop behind it may end with
a full stop that may be missing. -/
theorem accepts_of_may_stop {s s' s'' : σ} {r r₁ : Reader} {a : α} {tokens stop : List Token}
    (fed : tokens.foldlM feed s r = .ok s' r₁) (ends : ∀ n, atEnd n s' r₁ = .ok a r₁)
    (stops : ∀ u : Token, u.kind = .stop → feed s' u r₁ = .ok s'' r₁)
    (ended : ∀ n, atEnd n s'' r₁ = .ok a r₁) (is_good : good a)
    (may_stop : Optional .stop (stop.map Token.lexeme)) :
    Accepts feed atEnd s r (tokens ++ stop) good := by
  cases may_stop with
  | inl missing =>
      rw [List.map_eq_nil_iff.mp missing, List.append_nil]
      exact ⟨s', r₁, a, r₁, fed, ends, is_good⟩
  | inr present =>
      obtain ⟨u, rfl, lexeme⟩ := List.map_eq_singleton_iff.mp present
      have stopped := foldlM_behind fed (stops u (congrArg Lexeme.kind lexeme)) []
      rw [List.append_nil] at stopped
      exact ⟨s'', r₁, a, r₁, stopped, ended, is_good⟩

end Reading

variable {tokens : List Token}

/-! ### Terms, clauses and queries -/

/-- A derived term is accepted, whatever the reader knows already. -/
theorem Term.DerivedFrom.accepts {t : Term} (h : t.DerivedFrom (tokens.map Token.lexeme))
    (genuine : ∀ l ∈ tokens.map Token.lexeme, l.Genuine) (r : Reader) :
    Accepts TermReading.feedOnly TermReading.atEnd .due r tokens
      (NamedLike Term.relabel · t) := by
  obtain ⟨legible, same⟩ := h.legible genuine
  obtain ⟨s, r₁, r', going, _, _, ends⟩ := TermReading.reads legible r tokens same
  exact ⟨s, r₁, _, r', going.foldlM id fun step => bind_of_ok step, ends, _,
    r'.name_relabelling, rfl⟩

/-- A derived clause is accepted with or without its full stop. -/
theorem ClauseText.accepts {c : Clause} (h : ClauseText c (tokens.map Token.lexeme))
    (genuine : ∀ l ∈ tokens.map Token.lexeme, l.Genuine) (r : Reader) :
    Accepts (fun state t => ClauseReading.feed t state) ClauseReading.atEnd .start r tokens
      (NamedLike Clause.relabel · c) := by
  generalize whole : tokens.map Token.lexeme = lexemes at h genuine
  cases h with
  | mk h may_stop =>
      obtain ⟨front, stop, rfl, here, behind⟩ := List.map_eq_append_iff.mp whole
      obtain ⟨legible, bodied, same⟩ := h.legible (List.forall_mem_append.mp genuine).1
      obtain ⟨s, r', fed, _, _, ends, stops⟩ :=
        ClauseReading.reads legible bodied r front (here.trans same)
      exact accepts_of_may_stop fed ends stops (fun _ => rfl) ⟨_, r'.name_relabelling, rfl⟩
        (behind ▸ may_stop)

/-- A derived query is accepted with or without its arrow and its full stop. -/
theorem QueryText.accepts {goals : List Atom} (h : QueryText goals (tokens.map Token.lexeme))
    (genuine : ∀ l ∈ tokens.map Token.lexeme, l.Genuine) (r : Reader) :
    Accepts (fun state t => QueryReading.feed t state) QueryReading.atEnd .start r tokens
      (NamedLike (fun ρ => List.map (Atom.relabel ρ)) · goals) := by
  generalize whole : tokens.map Token.lexeme = lexemes at h genuine
  cases h with
  | mk may_begin h may_stop =>
      obtain ⟨before, stop, rfl, front, behind⟩ := List.map_eq_append_iff.mp whole
      obtain ⟨arrow, inner, rfl, first, here⟩ := List.map_eq_append_iff.mp front
      have inside := (List.forall_mem_append.mp (List.forall_mem_append.mp genuine).1).2
      obtain ⟨some, legible, same⟩ := Atom.legible_of_listed h inside
      obtain ⟨s, r', fed, _, _, ends, stops⟩ :=
        QueryReading.reads some legible r (here.trans same)
      have accepted : Accepts (fun state t => QueryReading.feed t state) QueryReading.atEnd
          (.inGoal [] .due) r (inner ++ stop)
          (NamedLike (fun ρ => List.map (Atom.relabel ρ)) · goals) :=
        accepts_of_may_stop fed ends stops (fun _ => rfl) ⟨_, r'.name_relabelling, rfl⟩
          (behind ▸ may_stop)
      obtain ⟨s', r₁, a, r'', fed', rest⟩ := accepted
      refine ⟨s', r₁, a, r'', ?_, rest⟩
      rw [List.append_assoc, ← fed']
      rw [← first] at may_begin
      cases may_begin with
      | inl missing =>
          rw [List.map_eq_nil_iff.mp missing, List.nil_append]
          exact QueryReading.foldlM_start some (here.trans same) stop r
      | inr present =>
          obtain ⟨u, rfl, lexeme⟩ := List.map_eq_singleton_iff.mp present
          have kind : u.kind = .query := congrArg Lexeme.kind lexeme
          rw [List.singleton_append, List.foldlM_cons]
          refine bind_of_ok ?_
          simp only [QueryReading.feed, if_pos kind]
          rfl

/-! ### Programs -/

namespace ProgramReading

/-- Before the first token of a clause its reading may as well have begun. -/
theorem foldlM_none (finished : List Clause) {tokens : List Token} (more : tokens ≠ [])
    (r : Reader) :
    tokens.foldlM feed ⟨finished, none⟩ r =
      tokens.foldlM feed ⟨finished, some .start⟩ { r with scope := [] } := by
  obtain ⟨t, rest, rfl⟩ := List.exists_cons_of_ne_nil more
  rfl

/-- As long as the clause at hand goes on, it is read as if it were alone. -/
theorem foldlM_current (finished : List Clause) {s s' : ClauseReading} {r r' : Reader}
    {tokens : List Token} (goes_on : ∀ c, s' ≠ .ended c)
    (fed : tokens.foldlM (fun state t => ClauseReading.feed t state) s r = .ok s' r') :
    tokens.foldlM feed ⟨finished, some s⟩ r = .ok ⟨finished, some s'⟩ r' := by
  induction tokens generalizing s r with
  | nil =>
      obtain ⟨rfl, rfl⟩ := EStateM.Result.ok.inj fed
      rfl
  | cons t rest ih =>
      rw [List.foldlM_cons] at fed
      obtain ⟨s₁, r₁, step, fed⟩ := exists_of_bind fed
      have step' : feed ⟨finished, some s⟩ t r = .ok ⟨finished, some s₁⟩ r₁ := by
        refine (bind_of_ok step).trans ?_
        cases s₁ with
        | inHead a => rfl
        | inBody head before a => rfl
        | ended c =>
            -- Nothing is accepted behind the full stop, so it would be the
            -- last token.
            cases rest with
            | nil => exact absurd (EStateM.Result.ok.inj fed).1.symm (goes_on c)
            | cons u rest => cases fed
      rw [List.foldlM_cons, bind_of_ok step', ih fed]

/-- A clause is read with its full stop, and its variables are its own. -/
theorem reads_clause {c : Clause} (legible : c.Over .legible) (bodied : c.Bodied)
    (finished : List Clause) (r : Reader) {front : List Token} {stop : Token}
    (same : front.map Token.lexeme = c.lexemes) (stops : stop.kind = .stop) (rest : List Token) :
    ∃ c' r', NamedLike Clause.relabel c' c ∧
      (front ++ [stop] ++ rest).foldlM feed ⟨finished, none⟩ r =
        rest.foldlM feed ⟨c' :: finished, none⟩ r' := by
  obtain ⟨s, r', fed, _, _, _, ended⟩ :=
    ClauseReading.reads legible bodied { r with scope := [] } front same
  have step := ended stop stops
  have goes_on : ∀ c, s ≠ .ended c := by
    rintro c rfl
    cases step
  refine ⟨_, r', ⟨_, r'.name_relabelling, rfl⟩, ?_⟩
  rw [foldlM_none finished (by simp)]
  exact foldlM_behind (foldlM_current finished goes_on fed) (bind_of_ok step) rest

/-- A program is accepted clause by clause, behind whatever clauses have been
read. -/
theorem accepts {clauses : List Clause} {tokens : List Token}
    (each : ∀ c ∈ clauses, c.Over .legible ∧ c.Bodied)
    (same : tokens.map Token.lexeme =
      clauses.flatMap fun c => c.lexemes ++ [Mark.stop.lexeme])
    (finished : List Clause) (r : Reader) :
    Accepts feed atEnd ⟨finished, none⟩ r tokens fun read =>
      ∃ last, read = finished.reverse ++ last ∧
        List.Forall₂ (NamedLike Clause.relabel) last clauses := by
  induction clauses generalizing finished r tokens with
  | nil =>
      rw [List.flatMap_nil, List.map_eq_nil_iff] at same
      subst same
      exact ⟨_, r, _, r, rfl, fun _ => rfl, [], (List.append_nil _).symm, .nil⟩
  | cons c rest ih =>
      obtain ⟨⟨legible, bodied⟩, others⟩ := List.forall_mem_cons.mp each
      obtain ⟨front, stop, back, rfl, here, kind, later⟩ := exists_cut same
      obtain ⟨c', r', like, fed⟩ := reads_clause legible bodied finished r here kind back
      obtain ⟨s, r₁, read, r'', fed', ends, last, rfl, likes⟩ := ih others later (c' :: finished) r'
      exact ⟨s, r₁, _, r'', fed.trans fed', ends, c' :: last, by simp, .cons like likes⟩

end ProgramReading

/-- A derived program is accepted. -/
theorem ProgramText.accepts {clauses : List Clause}
    (h : ProgramText clauses (tokens.map Token.lexeme))
    (genuine : ∀ l ∈ tokens.map Token.lexeme, l.Genuine) (r : Reader) :
    Accepts ProgramReading.feed ProgramReading.atEnd {} r tokens
      (List.Forall₂ (NamedLike Clause.relabel) · clauses) := by
  obtain ⟨each, same⟩ := h.legible genuine
  obtain ⟨s, r₁, read, r', fed, ends, last, rfl, likes⟩ := ProgramReading.accepts each same [] r
  exact ⟨s, r₁, _, r', fed, ends, likes⟩

end Resolvent
