/-
# Texts are accepted by the grammar, and refused where they leave it

A text that consists of tokens is accepted if and only if they have a
derivation. What is read is then what is derived. Otherwise it is refused at
the first token with which no accepted text begins, and the end of the text
counts as a token.

Each of the four readings has the same five properties, from which this follows
for all of them at once: what has been accepted is remembered, refusals are at
the token at hand, the text may end only where it is derived, what has been
accepted can be completed, and what is derived is accepted. The last one is
also the reason why a refused token could not have been accepted in any other
text: were it part of a derivation, it would have been accepted here.
-/

import Resolvent.Proofs.Language.Acceptance
import Resolvent.Proofs.Language.Completion

namespace Resolvent

open Reading
open Lexeme (Optional)

/-! ### Where a text goes wrong -/

/-- The token and its place. -/
def Token.place (t : Token) : Option Lexeme × Nat :=
  (some t.lexeme, t.offset)

/-- The places of a text that a refusal can be at, with what is there: its
tokens, and its end behind them. -/
def Token.places (tokens : List Token) (length : Nat) : List (Option Lexeme × Nat) :=
  tokens.map place ++ [(none, length)]

/-- Some accepted text begins with these lexemes. Nothing follows on `none`,
the end of a text. -/
def Viable {α : Type} (parse : String → Except ParseError α) (front : List (Option Lexeme)) :
    Prop :=
  ∃ text tokens a, Token.ofText text = .ok tokens ∧ parse text = .ok a ∧
    front <+: (Token.places tokens text.length).map Prod.fst

/-- Where a text leaves what is accepted: what comes before this place can be
continued to an accepted text, and together with what is there it cannot. There
is one such place at most. -/
structure LeavesAt {α : Type} (parse : String → Except ParseError α)
    (before : List (Option Lexeme × Nat)) (found : Option Lexeme × Nat) : Prop where
  viable : Viable parse (before.map Prod.fst)
  not_viable : ¬ Viable parse ((before ++ [found]).map Prod.fst)

/-- A text is parsed according to a grammar. -/
structure ParsedBy {α : Type} (parse : String → Except ParseError α)
    (derived : α → List Lexeme → Prop) (like : α → α → Prop) (text : String)
    (tokens : List Token) : Prop where
  /-- It is accepted if and only if it has a derivation. -/
  accepts_iff : (∃ a, parse text = .ok a) ↔ ∃ a, derived a (tokens.map Token.lexeme)
  /-- What is read is derived, and whatever else is derived differs in its
  symbols alone. -/
  result : ∀ a, parse text = .ok a → derived a (tokens.map Token.lexeme) ∧
    ∀ b, derived b (tokens.map Token.lexeme) → like a b
  /-- It is refused at the place where it leaves what is accepted. -/
  refuses : ∀ e, parse text = .error e → ∃ before found after,
    Token.places tokens text.length = before ++ found :: after ∧ LeavesAt parse before found ∧
      e.offset = found.2

namespace Token

theorem map_place_fst (tokens : List Token) :
    (tokens.map place).map Prod.fst = (tokens.map lexeme).map some := by
  simp [place]

/-- What is found at the places of a text are its lexemes and its end. -/
theorem places_fst (tokens : List Token) (length : Nat) :
    (places tokens length).map Prod.fst = (tokens.map lexeme).map some ++ [none] := by
  rw [places, List.map_append, map_place_fst]
  rfl

end Token

namespace Lexeme

variable {front ls : List Lexeme}

/-- A beginning without the end of the text is one of the lexemes. -/
theorem isPrefix_of_places (h : front.map some <+: ls.map some ++ [none]) : front <+: ls := by
  rw [List.prefix_concat_iff] at h
  cases h with
  | inl whole =>
      have ends : none ∈ front.map some := by
        rw [whole]
        simp
      simp at ends
  | inr begins =>
      obtain ⟨front', begins, same⟩ := List.prefix_map_iff.mp begins
      rwa [(List.map_inj_right fun _ _ => Option.some.inj).mp same]

/-- A beginning with the end of the text is the whole text. -/
theorem eq_of_places (h : front.map some ++ [none] <+: ls.map some ++ [none]) : front = ls := by
  rw [List.prefix_concat_iff] at h
  cases h with
  | inl whole =>
      exact (List.map_inj_right fun _ _ => Option.some.inj).mp (List.append_cancel_right whole)
  | inr begins =>
      have inside : none ∈ ls.map some := begins.subset (by simp)
      simp at inside

end Lexeme

section

variable {α : Type} {parse : String → Except ParseError α}

/-- If something can be continued, so can whatever it begins with. -/
theorem Viable.of_front {front front' : List (Option Lexeme)} (begins : front <+: front')
    (h : Viable parse front') : Viable parse front := by
  obtain ⟨text, tokens, a, cut, parsed, continued⟩ := h
  exact ⟨text, tokens, a, cut, parsed, begins.trans continued⟩

/-- A text cannot leave again what it has left. -/
theorem LeavesAt.not_append {before more : List (Option Lexeme × Nat)}
    {found found' : Option Lexeme × Nat} (h : LeavesAt parse before found) :
    ¬ LeavesAt parse (before ++ found :: more) found' := by
  intro h'
  have begins : before ++ [found] <+: before ++ found :: more := ⟨more, by simp⟩
  exact h.not_viable (h'.viable.of_front (begins.map Prod.fst))

/-- A text leaves what is accepted at one place only. -/
theorem LeavesAt.unique {before before' after after' : List (Option Lexeme × Nat)}
    {found found' : Option Lexeme × Nat} (h : LeavesAt parse before found)
    (h' : LeavesAt parse before' found')
    (same : before ++ found :: after = before' ++ found' :: after') : found = found' := by
  cases List.append_eq_append_iff.mp same with
  | inl later =>
      obtain ⟨more, rfl, rest⟩ := later
      cases more with
      | nil => exact (List.cons.inj rest).1
      | cons first more =>
          obtain ⟨rfl, -⟩ := List.cons.inj rest
          exact absurd h' h.not_append
  | inr earlier =>
      obtain ⟨more, rfl, rest⟩ := earlier
      cases more with
      | nil => exact (List.cons.inj rest).1.symm
      | cons first more =>
          obtain ⟨rfl, -⟩ := List.cons.inj rest
          exact absurd h h'.not_append

end

/-! ### Readings of whole texts -/

namespace Reading

variable {σ α : Type}

/-- What is common to the readings of whole texts. -/
structure Recognizes (feed : σ → Token → Reading σ) (atEnd : Nat → σ → Reading α) (start : σ)
    (derived : α → List Lexeme → Prop) (like : α → α → Prop)
    (holds : σ → Reader → List Lexeme → Prop) : Prop where
  begins : ∀ v, holds start { vocabulary := v } []
  feeds : ∀ {t s r ls s' r'}, t.lexeme.Genuine → holds s r ls → feed s t r = .ok s' r' →
    holds s' r' (ls ++ [t.lexeme])
  refuses : ∀ {t s r ls e r'}, t.lexeme.Genuine → holds s r ls → feed s t r = .error e r' →
    e.offset = t.offset
  ends : ∀ {n s r ls a r'}, holds s r ls → atEnd n s r = .ok a r' → derived a ls
  refuses_end : ∀ {n s r ls e r'}, holds s r ls → atEnd n s r = .error e r' → e.offset = n
  completes : ∀ {s r ls}, holds s r ls → ∃ a more, (∀ l ∈ ls ++ more, l.Genuine) ∧
    derived a (ls ++ more)
  accepts : ∀ {a} {tokens : List Token}, derived a (tokens.map Token.lexeme) →
    (∀ l ∈ tokens.map Token.lexeme, l.Genuine) → ∀ r, Accepts feed atEnd start r tokens (like · a)

/-- A refusal has been uttered by the reading itself. -/
theorem exists_error_of_reading {v : Vocabulary} {reading : Reading α} {e : ParseError}
    (refused : (v.reading reading).1 = .error e) :
    ∃ r', reading { vocabulary := v } = .error e r' := by
  unfold Vocabulary.reading at refused
  split at refused
  · cases refused
  · next e' r' made =>
      obtain rfl := Except.error.inj refused
      exact ⟨r', made⟩

/-- Tokens are refused at one of them. -/
theorem exists_refused {feed : σ → Token → Reading σ} {s : σ} {r r' : Reader} {e : ParseError}
    {tokens : List Token} (refused : tokens.foldlM feed s r = .error e r') :
    ∃ before t after s' r₁, tokens = before ++ t :: after ∧
      before.foldlM feed s r = .ok s' r₁ ∧ feed s' t r₁ = .error e r' := by
  induction tokens generalizing s r with
  | nil => cases refused
  | cons t rest ih =>
      cases step : feed s t r with
      | ok s₁ r₁ =>
          rw [List.foldlM_cons, bind_of_ok step] at refused
          obtain ⟨before, u, after, s', r₂, rfl, fed, last⟩ := ih refused
          refine ⟨t :: before, u, after, s', r₂, rfl, ?_, last⟩
          rw [List.foldlM_cons, bind_of_ok step, fed]
      | error e' r₁ =>
          rw [List.foldlM_cons, bind_of_error step] at refused
          obtain ⟨rfl, rfl⟩ := EStateM.Result.error.inj refused
          exact ⟨[], t, rest, s, r, rfl, rfl, step⟩

namespace Recognizes

variable {feed : σ → Token → Reading σ} {atEnd : Nat → σ → Reading α} {start : σ}
  {derived : α → List Lexeme → Prop} {like : α → α → Prop}
  {holds : σ → Reader → List Lexeme → Prop}
  (h : Recognizes feed atEnd start derived like holds)

include h

/-- What holds at the start holds after any tokens, with their lexemes
added. -/
theorem held {s s' : σ} {r r' : Reader} {ls : List Lexeme} {tokens : List Token}
    (genuine : ∀ l ∈ tokens.map Token.lexeme, l.Genuine) (before : holds s r ls)
    (fed : tokens.foldlM feed s r = .ok s' r') : holds s' r' (ls ++ tokens.map Token.lexeme) := by
  induction tokens generalizing s r ls with
  | nil =>
      obtain ⟨rfl, rfl⟩ := EStateM.Result.ok.inj fed
      simpa using before
  | cons t rest ih =>
      obtain ⟨first, others⟩ := List.forall_mem_cons.mp genuine
      rw [List.foldlM_cons] at fed
      obtain ⟨s₁, r₁, step, fed⟩ := exists_of_bind fed
      simpa using ih others (h.feeds first before step) fed

variable (v : Vocabulary)

/-- A derivation is found by the reading, if perhaps with other symbols. -/
theorem parse_of_derived {text : String} {tokens : List Token} {a : α}
    (cut : Token.ofText text = .ok tokens) (is_derived : derived a (tokens.map Token.lexeme)) :
    ∃ a', (v.reading (whole feed atEnd start text)).1 = .ok a' ∧ like a' a := by
  have genuine := List.forall_mem_map.mpr (Token.genuine_of_ofText cut)
  obtain ⟨s, r₁, a', r', fed, ends, is_like⟩ :=
    h.accepts is_derived genuine { vocabulary := v }
  refine ⟨a', ?_, is_like⟩
  have result : whole feed atEnd start text { vocabulary := v } = .ok a' r' := by
    rw [whole, cut]
    exact (bind_of_ok fed).trans (ends _)
  rw [Vocabulary.reading, result]

/-- What is read has a derivation from the lexemes of the text. -/
theorem derived_of_parse {text : String} {tokens : List Token} {a : α}
    (cut : Token.ofText text = .ok tokens)
    (parsed : (v.reading (whole feed atEnd start text)).1 = .ok a) :
    derived a (tokens.map Token.lexeme) := by
  have genuine := List.forall_mem_map.mpr (Token.genuine_of_ofText cut)
  have made : v.reading (whole feed atEnd start text) = (.ok a, _) := Prod.ext parsed rfl
  obtain ⟨r', result, _⟩ := Vocabulary.exists_of_reading made
  rw [whole, cut] at result
  obtain ⟨s, r₁, fed, ended⟩ := exists_of_bind result
  exact h.ends (by simpa using h.held genuine (h.begins v) fed) ended

/-- A text that is accepted once is accepted always, and read alike. -/
theorem parse_again {u : Vocabulary} {text : String} {a : α}
    (parsed : (u.reading (whole feed atEnd start text)).1 = .ok a) :
    ∃ a', (v.reading (whole feed atEnd start text)).1 = .ok a' ∧ like a' a := by
  cases cut : Token.ofText text with
  | ok tokens => exact h.parse_of_derived v cut (h.derived_of_parse u cut parsed)
  | error e =>
      rw [whole, cut] at parsed
      cases parsed

/-- What has been accepted is the beginning of an accepted text. -/
theorem viable {s : σ} {r : Reader} {ls : List Lexeme} (held : holds s r ls) :
    Viable (fun text => (v.reading (whole feed atEnd start text)).1) (ls.map some) := by
  obtain ⟨a, more, genuine, is_derived⟩ := h.completes held
  obtain ⟨text, cuts⟩ := Lexeme.exists_cuts genuine
  obtain ⟨tokens, cut, same⟩ := cuts.exists_ofText
  rw [← same] at is_derived
  obtain ⟨a', parsed, _⟩ := h.parse_of_derived v cut is_derived
  refine ⟨text, tokens, a', cut, parsed, ?_⟩
  rw [Token.places_fst, same, List.map_append, List.append_assoc]
  exact List.prefix_append _ _

/-- A token that is refused behind others does not stand behind them in any
accepted text. -/
theorem leavesAt_of_refused {before : List Token} {t : Token} {s : σ} {r₁ r₂ : Reader}
    {e : ParseError} (genuine : ∀ l ∈ before.map Token.lexeme, l.Genuine)
    (fed : before.foldlM feed start { vocabulary := v } = .ok s r₁)
    (refused : feed s t r₁ = .error e r₂) :
    LeavesAt (fun text => (v.reading (whole feed atEnd start text)).1)
      (before.map Token.place) t.place where
  viable := by
    rw [Token.map_place_fst]
    exact h.viable v (h.held genuine (h.begins v) fed)
  not_viable := by
    have front : before.map Token.place ++ [t.place] = (before ++ [t]).map Token.place := by simp
    rw [front, Token.map_place_fst]
    intro viable
    obtain ⟨text, tokens, a, cut, parsed, begins⟩ := viable
    rw [Token.places_fst] at begins
    obtain ⟨more, same⟩ := Lexeme.isPrefix_of_places begins
    obtain ⟨front, rest, rfl, here, _⟩ := List.map_eq_append_iff.mp same.symm
    -- The other text would be accepted with these tokens in place of its own.
    have again : (front ++ rest).map Token.lexeme = (before ++ [t] ++ rest).map Token.lexeme := by
      rw [List.map_append, here, ← List.map_append]
    have genuine := List.forall_mem_map.mpr (Token.genuine_of_ofText cut)
    have is_derived := h.derived_of_parse v cut parsed
    rw [again] at genuine is_derived
    obtain ⟨s', r', _, _, accepted, _⟩ := h.accepts is_derived genuine { vocabulary := v }
    rw [List.append_assoc, List.foldlM_append, bind_of_ok fed, List.singleton_append,
      List.foldlM_cons] at accepted
    obtain ⟨_, _, step, _⟩ := exists_of_bind accepted
    rw [refused] at step
    cases step

/-- Tokens that are refused at the end of their text are not all the tokens of
an accepted one. -/
theorem leavesAt_end {text : String} {tokens : List Token} {s : σ} {r₁ : Reader} {e : ParseError}
    (cut : Token.ofText text = .ok tokens)
    (fed : tokens.foldlM feed start { vocabulary := v } = .ok s r₁)
    (refused : (v.reading (whole feed atEnd start text)).1 = .error e) :
    LeavesAt (fun text => (v.reading (whole feed atEnd start text)).1)
      (tokens.map Token.place) (none, text.length) where
  viable := by
    have genuine := List.forall_mem_map.mpr (Token.genuine_of_ofText cut)
    rw [Token.map_place_fst]
    exact h.viable v (h.held genuine (h.begins v) fed)
  not_viable := by
    rw [List.map_append, Token.map_place_fst]
    intro viable
    obtain ⟨text', tokens', a, cut', parsed, whole⟩ := viable
    rw [Token.places_fst] at whole
    have is_derived := h.derived_of_parse v cut' parsed
    rw [← Lexeme.eq_of_places whole] at is_derived
    obtain ⟨a', accepted, _⟩ := h.parse_of_derived v cut is_derived
    rw [refused] at accepted
    cases accepted

/-- Whatever recognizes its texts parses them by their grammar. -/
theorem parsedBy {text : String} {tokens : List Token} (cut : Token.ofText text = .ok tokens) :
    ParsedBy (fun text => (v.reading (whole feed atEnd start text)).1) derived like text
      tokens where
  accepts_iff := by
    constructor
    · rintro ⟨a, parsed⟩
      exact ⟨a, h.derived_of_parse v cut parsed⟩
    · rintro ⟨a, is_derived⟩
      obtain ⟨a', parsed, _⟩ := h.parse_of_derived v cut is_derived
      exact ⟨a', parsed⟩
  result a parsed := by
    refine ⟨h.derived_of_parse v cut parsed, fun b is_derived => ?_⟩
    obtain ⟨a', parsed', is_like⟩ := h.parse_of_derived v cut is_derived
    obtain rfl := Except.ok.inj (parsed.symm.trans parsed')
    exact is_like
  refuses e refused := by
    have genuine := List.forall_mem_map.mpr (Token.genuine_of_ofText cut)
    obtain ⟨r', result⟩ := exists_error_of_reading refused
    rw [whole, cut] at result
    cases fed : tokens.foldlM feed start { vocabulary := v } with
    | ok s r₁ =>
        have held := h.held genuine (h.begins v) fed
        have ended : atEnd text.length s r₁ = .error e r' := (bind_of_ok fed).symm.trans result
        exact ⟨_, _, [], rfl, h.leavesAt_end v cut fed refused, h.refuses_end held ended⟩
    | error e' r₁ =>
        obtain ⟨rfl, rfl⟩ := EStateM.Result.error.inj ((bind_of_error fed).symm.trans result)
        obtain ⟨before, t, after, s, r₂, rfl, fed', step⟩ := exists_refused fed
        rw [List.map_append, List.forall_mem_append, List.map_cons, List.forall_mem_cons] at genuine
        obtain ⟨front, first, _⟩ := genuine
        have held := h.held front (h.begins v) fed'
        exact ⟨_, _, Token.places after text.length, by simp [Token.places],
          h.leavesAt_of_refused v front fed' step, h.refuses first held step⟩

end Recognizes

/-! ### The four readings -/

/-- Terms are recognized one token at a time. -/
theorem recognizes_term :
    Recognizes TermReading.feedOnly TermReading.atEnd .due Term.DerivedFrom
      (NamedLike Term.relabel) fun s r ls => s.Over r.lexicon ∧ s.lexemes = ls where
  begins _ := ⟨.due, rfl⟩
  feeds genuine held result := by
    obtain ⟨fits, rfl⟩ := held
    exact ⟨(TermReading.gives_feedOnly genuine.isIdentifier fits _ _ result).2,
      (TermReading.makes_feedOnly genuine fits).of_ok result⟩
  refuses genuine held refused := (TermReading.makes_feedOnly genuine held.1).of_error refused
  ends held ended := by
    obtain ⟨fits, rfl⟩ := held
    have fits := (TermReading.gives_atEnd fits _ _ _ ended).2
    rw [← (TermReading.makes_atEnd _ _).of_ok ended]
    exact (fits.mono Reader.lexicon_within_legible).derivedFrom
  refuses_end _ refused := (TermReading.makes_atEnd _ _).of_error refused
  completes held := by
    obtain ⟨fits, rfl⟩ := held
    obtain ⟨t, more, legible, same⟩ :=
      TermReading.exists_completed Reader.lexicon_within_legible fits
    refine ⟨t, more, ?_⟩
    rw [same]
    exact ⟨legible.cuts.genuine, legible.derivedFrom⟩
  accepts := Term.DerivedFrom.accepts

/-- Clauses are recognized one token at a time. -/
theorem recognizes_clause :
    Recognizes (fun state t => ClauseReading.feed t state) ClauseReading.atEnd .start ClauseText
      (NamedLike Clause.relabel) fun s r ls => s.Over r.lexicon ∧ s.lexemes = ls where
  begins _ := ⟨.inHead .due, rfl⟩
  feeds genuine held result := by
    obtain ⟨fits, rfl⟩ := held
    exact ⟨(ClauseReading.gives_feed genuine.isIdentifier fits _ _ result).2,
      (ClauseReading.makes_feed genuine fits).of_ok result⟩
  refuses genuine held refused := (ClauseReading.makes_feed genuine held.1).of_error refused
  ends held ended := by
    obtain ⟨fits, rfl⟩ := held
    obtain ⟨stop, may_stop, same⟩ := (ClauseReading.makes_atEnd _ _).of_ok ended
    obtain ⟨fits, bodied⟩ := (ClauseReading.gives_atEnd fits _ _ _ ended).2
    rw [same]
    exact .mk ((fits.mono Reader.lexicon_within_legible).derivedFrom bodied) may_stop
  refuses_end _ refused := (ClauseReading.makes_atEnd _ _).of_error refused
  completes held := by
    obtain ⟨fits, rfl⟩ := held
    obtain ⟨c, more, legible, bodied, same⟩ :=
      ClauseReading.exists_completed Reader.lexicon_within_legible fits
    refine ⟨c, more, ?_⟩
    rw [same]
    exact ⟨(legible.cuts.ended .stop).genuine, .mk (legible.derivedFrom bodied) (.inr rfl)⟩
  accepts := ClauseText.accepts

/-- Queries are recognized one token at a time. -/
theorem recognizes_goals :
    Recognizes (fun state t => QueryReading.feed t state) QueryReading.atEnd .start QueryText
      (NamedLike fun ρ => List.map (Atom.relabel ρ))
      fun s r ls => s.Over r.lexicon ∧ s.Spells ls where
  begins _ := ⟨.start, .start⟩
  feeds genuine held result :=
    ⟨(QueryReading.gives_feed genuine.isIdentifier held.1 _ _ result).2,
      (QueryReading.makes_feed genuine held.1 held.2).of_ok result⟩
  refuses genuine held refused :=
    (QueryReading.makes_feed genuine held.1 held.2).of_error refused
  ends held ended := by
    obtain ⟨arrow, stop, may_begin, may_stop, rfl⟩ :=
      (QueryReading.makes_atEnd _ held.2).of_ok ended
    obtain ⟨some, fits⟩ := (QueryReading.gives_atEnd held.1 _ _ _ ended).2
    have legible := Reader.lexicon_within_legible.atoms fits
    exact .mk may_begin (Atom.listed_of_legible some legible) may_stop
  refuses_end held refused := (QueryReading.makes_atEnd _ held.2).of_error refused
  completes held := by
    obtain ⟨goals, arrow, stop, more, some, legible, may_begin, may_stop, same⟩ :=
      QueryReading.exists_completed Reader.lexicon_within_legible held.1 held.2
    have listed := Cuts.listed fun a ha => (legible a ha).cuts
    refine ⟨goals, more, ?_, ?_⟩
    · rw [same]
      exact List.forall_mem_append.mpr ⟨List.forall_mem_append.mpr
        ⟨may_begin.genuine (by decide), listed.genuine⟩,
        may_stop.genuine (by decide)⟩
    · rw [same]
      exact .mk may_begin (Atom.listed_of_legible some legible) may_stop
  accepts := QueryText.accepts

/-- Programs are recognized one token at a time. -/
theorem recognizes_program :
    Recognizes ProgramReading.feed ProgramReading.atEnd {} ProgramText
      (List.Forall₂ (NamedLike Clause.relabel)) fun s r ls => s.Legible r ∧ s.lexemes = ls where
  begins _ := ⟨⟨List.forall_mem_nil _, nofun⟩, rfl⟩
  feeds genuine held result := by
    obtain ⟨legible, rfl⟩ := held
    exact ⟨legible.of_feed genuine.isIdentifier result,
      (ProgramReading.makes_feed genuine legible.current).of_ok result⟩
  refuses genuine held refused :=
    (ProgramReading.makes_feed genuine held.1.current).of_error refused
  ends held ended := by
    obtain ⟨legible, rfl⟩ := held
    rw [(ProgramReading.makes_atEnd _ _).of_ok ended]
    refine programText_of_legible fun c hc => ?_
    have legible := ProgramReading.legible_of_atEnd legible ended c hc
    exact ⟨legible.fits.mono (Vocabulary.alphabet_within_legible _), legible.bodied⟩
  refuses_end _ refused := (ProgramReading.makes_atEnd _ _).of_error refused
  completes held := by
    obtain ⟨legible, rfl⟩ := held
    obtain ⟨clauses, more, each, same⟩ := ProgramReading.exists_completed legible
    refine ⟨clauses, more, ?_⟩
    rw [same]
    refine ⟨fun l hl => ?_, programText_of_legible each⟩
    obtain ⟨c, hc, hl⟩ := List.mem_flatMap.mp hl
    exact ((each c hc).1.cuts.ended .stop).genuine l hl
  accepts := ProgramText.accepts

end Reading

/-- Each of the four readings accepts the texts of its grammar and no others,
and what it reads is what is derived. A text that is refused is refused at its
first token, or at its end, with which it cannot be continued any more. A name
always has a first character, by which it can be told whether it is that of a
variable. -/
theorem Vocabulary.parsed_by_grammar (v : Vocabulary) {text : String} {tokens : List Token}
    (cut : Token.ofText text = .ok tokens) :
    ParsedBy (fun text => (v.parseTerm text).1) Term.DerivedFrom (NamedLike Term.relabel)
      text tokens ∧
    ParsedBy (fun text => (v.parseClause text).1) ClauseText (NamedLike Clause.relabel)
      text tokens ∧
    ParsedBy (fun text => (v.parseGoals text).1) QueryText
      (NamedLike fun ρ => List.map (Atom.relabel ρ)) text tokens ∧
    ParsedBy (fun text => (v.parseProgram text).1) ProgramText
      (List.Forall₂ (NamedLike Clause.relabel)) text tokens ∧
    ∀ t ∈ tokens, t.kind = .name → (isVariableName? t.text).isSome := by
  refine ⟨recognizes_term.parsedBy v cut, recognizes_clause.parsedBy v cut,
    recognizes_goals.parsedBy v cut, recognizes_program.parsedBy v cut, fun t ht kind => ?_⟩
  have identifier := (Token.genuine_of_ofText cut t ht).isIdentifier kind
  obtain ⟨c, more, spelled⟩ := List.exists_cons_of_ne_nil identifier.some
  rw [isVariableName?, show t.text.toList = c :: more from spelled]
  rfl

/-- A parenthesis too many. The four tokens before it can be continued to a
program. -/
theorem Vocabulary.parsed_by_grammar_unbalanced :
    let v : Vocabulary := {}
    let tokens : List Token := [⟨.name, "p", 0⟩, ⟨.opening, "(", 1⟩, ⟨.name, "X", 2⟩,
      ⟨.closing, ")", 3⟩, ⟨.closing, ")", 4⟩]
    Token.ofText "p(X))" = .ok tokens ∧
      (v.parseProgram "p(X))").1 = .error ⟨.expected (some .stop) (some ")"), 4⟩ ∧
      ∃ before found after, Token.places tokens 5 = before ++ found :: after ∧
        LeavesAt (fun text => (v.parseProgram text).1) before found ∧ 4 = found.2 := by
  intro v tokens
  have cut : Token.ofText "p(X))" = .ok tokens := by
    simp +decide [tokens, Token.ofText, Token.scan, Mark.at?, Mark.all, Mark.begins]
  have refused : (v.parseProgram "p(X))").1 = .error ⟨.expected (some .stop) (some ")"), 4⟩ := by
    cbv
  obtain ⟨_, _, _, programs, _⟩ := v.parsed_by_grammar cut
  exact ⟨cut, refused, programs.refuses _ refused⟩

end Resolvent
