/-
# What has been read so far

A state of a reading keeps no tokens, but what it keeps was built from tokens,
and these can be written down again. An accepted token is the next one of them,
and a finished term or atom is written with all of them. So no token is skipped
or read twice, and a refusal, which is always at the token at hand, leaves
nothing before it unread.

The arrow in front of a query is the one thing that leaves no trace. What has
been read of a query is therefore a relation and not a function.
-/

import Resolvent.Proofs.Language.Grammar
import Resolvent.Proofs.Language.LegibleTexts

namespace Resolvent

open Reading
open Lexeme (Optional)

/-! ### Readings that succeed or refuse -/

namespace Reading

variable {α β : Type} {n : Nat} {good : α → Prop} {good' : β → Prop}

/-- Whatever the reader, the reading gives something good or refuses the text
at the offset. -/
def Makes (reading : Reading α) (n : Nat) (good : α → Prop) : Prop :=
  ∀ r, match reading r with
    | .ok a _ => good a
    | .error e _ => e.offset = n

theorem Makes.of_ok {reading : Reading α} (h : reading.Makes n good) {r r' : Reader} {a : α}
    (result : reading r = .ok a r') : good a := by
  have made := h r
  rwa [result] at made

/-- A refusal is uttered at the place that is said. -/
theorem Makes.of_error {reading : Reading α} (h : reading.Makes n good) {r r' : Reader}
    {e : ParseError} (refused : reading r = .error e r') : e.offset = n := by
  have made := h r
  rwa [refused] at made

theorem makes_pure {a : α} (h : good a) : (pure a : Reading α).Makes n good :=
  fun _ => h

theorem makes_expected (wanted : Option TokenKind) (found : Option String) :
    (expected wanted found n : Reading α).Makes n good :=
  fun _ => rfl

theorem makes_refuse (wanted : Option TokenKind) (t : Token) :
    (refuse wanted t : Reading α).Makes t.offset good :=
  fun _ => rfl

/-- Readings may follow on each other as long as they refuse a text at one
place. -/
theorem Makes.bind {reading : Reading α} {next : α → Reading β} (first : reading.Makes n good)
    (second : ∀ a, good a → (next a).Makes n good') : (reading >>= next).Makes n good' := by
  intro r
  have made := first r
  show match EStateM.bind reading next r with
    | .ok a _ => good' a
    | .error e _ => e.offset = n
  unfold EStateM.bind
  cases result : reading r with
  | ok a r' =>
      rw [result] at made
      exact second a made r'
  | error e r' =>
      rw [result] at made
      exact made

/-- A functor is made with the name that is read. -/
theorem makes_functor (name : String) : (functor name).Makes n fun f => f.name = name :=
  fun r => Vocabulary.intern_name r.vocabulary.functors r.vocabulary.supply name

/-- A predicate is made with the name that is read. -/
theorem makes_predicate (name : String) : (predicate name).Makes n fun p => p.name = name :=
  fun r => Vocabulary.intern_name r.vocabulary.predicates r.vocabulary.supply name

/-- A leaf has its name for its only lexeme. -/
theorem makes_leaf (name : String) :
    (leaf name).Makes n fun t => t.lexemes = [⟨.name, name⟩] := by
  intro r
  have constant : (r.vocabulary.constant name).1.name = name := Vocabulary.intern_name _ _ name
  have variable' := Vocabulary.intern_name r.scope r.vocabulary.supply name
  by_cases capital : isVariableName name
  · simpa [leaf, modifyGet, MonadStateOf.modifyGet, EStateM.modifyGet, capital, Term.lexemes]
      using variable'
  · simpa [leaf, modifyGet, MonadStateOf.modifyGet, EStateM.modifyGet, capital, Term.lexemes]
      using constant

end Reading

/-! ### Argument lists -/

namespace Lexeme

/-- The lexemes of several items with a comma behind each of them. -/
def followed (items : List (List Lexeme)) : List Lexeme :=
  items.flatMap (· ++ [Mark.comma.lexeme])

/-- Behind the last item of a list there is no comma. -/
theorem listed_concat (items : List (List Lexeme)) (last : List Lexeme) :
    listed (items ++ [last]) = followed items ++ last := by
  induction items with
  | nil => rfl
  | cons item rest ih =>
      have next : listed (item :: (rest ++ [last])) =
          item ++ [Mark.comma.lexeme] ++ listed (rest ++ [last]) := by
        cases rest <;> rfl
      rw [List.cons_append, next, ih, followed, followed, List.flatMap_cons]
      simp

end Lexeme

open Lexeme (followed)

/-- The lexemes up to the arguments that are being read. -/
def Frame.lexemes (f : Frame) : List Lexeme :=
  followed (f.before.reverse.map Term.lexemes) ++ [⟨.name, f.functor.name⟩] ++
    [Mark.opening.lexeme]

namespace ArgumentList

/-- The lexemes of the applications around a list of arguments, outermost
first. -/
def around : List Frame → List Lexeme
  | [] => []
  | frame :: outer => around outer ++ frame.lexemes

/-- The lexemes that have been read, without the parenthesis in front. -/
def lexemes : ArgumentList → List Lexeme
  | .due before outer => around outer ++ followed (before.reverse.map Term.lexemes)
  | .named name before outer =>
    around outer ++ followed (before.reverse.map Term.lexemes) ++ [⟨.name, name⟩]
  | .ended args outer => around outer ++ Lexeme.listed (args.reverse.map Term.lexemes)

/-- The lexemes of a list of arguments with the parenthesis behind it. -/
def closed (args : List Term) : List Lexeme :=
  Lexeme.listed (args.map Term.lexemes) ++ [Mark.closing.lexeme]

/-- An application is written as its functor with closed arguments. -/
theorem lexemes_app (f : Functor) (args : List Term) :
    (Term.app f args).lexemes = [⟨.name, f.name⟩] ++ [Mark.opening.lexeme] ++ closed args := by
  rw [Term.lexemes, Term.lexemesEach_eq_map, closed, List.append_assoc]

/-- An atom with arguments is written like an application. -/
theorem lexemes_atom {args : List Term} (some : args ≠ []) (p : Predicate) :
    (⟨p, args⟩ : Atom).lexemes = [⟨.name, p.name⟩] ++ [Mark.opening.lexeme] ++ closed args := by
  obtain ⟨t, ts, rfl⟩ := List.exists_cons_of_ne_nil some
  rw [Atom.lexemes, closed, ← List.append_assoc]

/-- A term in the place where one was due. -/
theorem lexemes_ended_cons (last : Term) (before : List Term) (outer : List Frame) :
    (ended (last :: before) outer).lexemes = (due before outer).lexemes ++ last.lexemes := by
  rw [lexemes, lexemes, List.reverse_cons, List.map_append, List.map_singleton,
    Lexeme.listed_concat, List.append_assoc]

/-- A term that is written like a name has been read with that name. -/
theorem lexemes_ended_of_leaf {name : String} {last : Term} (before : List Term)
    (outer : List Frame) (leaf : last.lexemes = [⟨.name, name⟩]) :
    (ended (last :: before) outer).lexemes = (named name before outer).lexemes := by
  rw [lexemes_ended_cons, leaf, lexemes, lexemes]

/-- A comma behind a list of arguments makes another one due. -/
theorem lexemes_due {args : List Term} (some : args ≠ []) (outer : List Frame) :
    (due args outer).lexemes = (ended args outer).lexemes ++ [Mark.comma.lexeme] := by
  obtain ⟨last, before, rfl⟩ := List.exists_cons_of_ne_nil some
  simp [lexemes, Lexeme.listed_concat, followed]

/-- A parenthesis behind a list of arguments makes it an application. -/
theorem lexemes_ended_app (args : List Term) (frame : Frame) (outer : List Frame) :
    (ended (.app frame.functor args.reverse :: frame.before) outer).lexemes =
      (ended args (frame :: outer)).lexemes ++ [Mark.closing.lexeme] := by
  simp [lexemes, Lexeme.listed_concat, around, Frame.lexemes, Term.lexemes,
    Term.lexemesEach_eq_map]

variable {t : Token}

/-- The token behind a term is spelled behind it, whether or not it ends the
list. -/
theorem makes_behind (genuine : t.lexeme.Genuine) {args : List Term} (some : args ≠ [])
    (outer : List Frame) :
    (behind args outer t).Makes t.offset fun p =>
      p.Holds (·.lexemes = (ended args outer).lexemes ++ [t.lexeme])
        fun args' => args' ≠ [] ∧ closed args' = (ended args outer).lexemes ++ [t.lexeme] := by
  have mark {m : Mark} (known : m ∈ Mark.all) (kind : t.kind = m.kind) : t.lexeme = m.lexeme :=
    genuine.eq_mark known kind
  unfold behind
  split
  · next kind =>
      rw [mark (m := .comma) (by decide) kind]
      exact makes_pure (lexemes_due some _)
  · next kind =>
      rw [mark (m := .closing) (by decide) kind]
      exact makes_pure ⟨by simpa using some, rfl⟩
  · next frame _ kind =>
      rw [mark (m := .closing) (by decide) kind]
      exact makes_pure (lexemes_ended_app args frame _)
  · exact makes_refuse _ t

/-- An accepted token is the next lexeme, and a refusal is at the token. -/
theorem makes_feed (genuine : t.lexeme.Genuine) {A : Alphabet} {s : ArgumentList} (h : s.Over A) :
    (s.feed t).Makes t.offset fun p =>
      p.Holds (·.lexemes = s.lexemes ++ [t.lexeme])
        fun args => args ≠ [] ∧ closed args = s.lexemes ++ [t.lexeme] := by
  cases h with
  | @due before outer _ _ =>
      simp only [feed]
      split
      · next kind => exact makes_pure (by simp [Progress.Holds, lexemes, Token.lexeme, kind])
      · exact makes_refuse _ t
  | @named name before outer _ _ _ =>
      simp only [feed]
      split
      · next kind =>
          rw [genuine.eq_mark (m := .opening) (by decide) kind]
          refine (makes_functor name).bind fun f same => makes_pure ?_
          simp [Progress.Holds, lexemes, around, Frame.lexemes, same, followed]
      · refine (makes_leaf name).bind fun last leaf => ?_
        rw [← lexemes_ended_of_leaf before outer leaf]
        exact makes_behind genuine (List.cons_ne_nil _ _) outer
  | ended some _ _ => exact makes_behind genuine some _

/-- A text that ends inside an argument list is refused at its end. -/
theorem makes_atEnd {α : Type} {good : α → Prop} (n : Nat) (s : ArgumentList) :
    (s.atEnd n : Reading α).Makes n good := by
  cases s with
  | due _ _ => exact makes_expected _ _
  | named name _ _ => exact (makes_leaf name).bind fun _ _ => makes_expected _ _
  | ended _ _ => exact makes_expected _ _

end ArgumentList

/-! ### Terms and atoms -/

namespace TermReading

/-- The lexemes that have been read. -/
def lexemes : TermReading → List Lexeme
  | .due => []
  | .named name => [⟨.name, name⟩]
  | .inside f args => [⟨.name, f.name⟩] ++ [Mark.opening.lexeme] ++ args.lexemes
  | .ended t => t.lexemes

variable {t : Token} {A : Alphabet} {s : TermReading}

/-- A token of a term is spelled behind those before it, unless it is left
unread. -/
theorem makes_feed (genuine : t.lexeme.Genuine) (h : s.Over A) :
    (s.feed t).Makes t.offset fun p =>
      p.Holds (·.lexemes = s.lexemes ++ [t.lexeme]) (·.lexemes = s.lexemes) := by
  cases h with
  | due =>
      simp only [feed]
      split
      · next kind => exact makes_pure (by simp [Progress.Holds, lexemes, Token.lexeme, kind])
      · exact makes_refuse _ t
  | @named name _ =>
      simp only [feed]
      split
      · next kind =>
          rw [genuine.eq_mark (m := .opening) (by decide) kind]
          refine (makes_functor name).bind fun f same => makes_pure ?_
          simp [Progress.Holds, lexemes, ArgumentList.lexemes, ArgumentList.start,
            ArgumentList.around, followed, same]
      · exact (makes_leaf name).bind fun last leaf => makes_pure leaf
  | @inside f args _ fits =>
      refine (ArgumentList.makes_feed genuine fits).bind fun p holds => ?_
      cases p with
      | going args =>
          have read : args.lexemes = _ := holds
          exact makes_pure (by simp [Progress.Holds, lexemes, read])
      | finished args =>
          have read : ArgumentList.closed args = _ := holds.2
          exact makes_pure (by simp [Progress.Holds, lexemes, ArgumentList.lexemes_app, read])
  | ended _ => exact makes_pure rfl

theorem makes_feedOnly (genuine : t.lexeme.Genuine) (h : s.Over A) :
    (s.feedOnly t).Makes t.offset (·.lexemes = s.lexemes ++ [t.lexeme]) := by
  refine (makes_feed genuine h).bind fun p holds => ?_
  cases p with
  | going s => exact makes_pure holds
  | finished term => exact makes_refuse none t

/-- When the text ends, the term has been spelled. -/
theorem makes_atEnd (n : Nat) (s : TermReading) : (s.atEnd n).Makes n (·.lexemes = s.lexemes) := by
  cases s with
  | due => exact makes_expected _ _
  | named name => exact makes_leaf name
  | inside _ args => exact args.makes_atEnd n
  | ended _ => exact makes_pure rfl

end TermReading

namespace AtomReading

/-- The lexemes that have been read. -/
def lexemes : AtomReading → List Lexeme
  | .due => []
  | .named p => [⟨.name, p.name⟩]
  | .inside p args => [⟨.name, p.name⟩] ++ [Mark.opening.lexeme] ++ args.lexemes
  | .ended a => a.lexemes

variable {t : Token} {A : Alphabet} {s : AtomReading}

/-- A token of an atom is spelled behind those before it, unless it is left
unread. -/
theorem makes_feed (genuine : t.lexeme.Genuine) (h : s.Over A) :
    (s.feed t).Makes t.offset fun p =>
      p.Holds (·.lexemes = s.lexemes ++ [t.lexeme]) (·.lexemes = s.lexemes) := by
  cases h with
  | due =>
      simp only [feed]
      split
      · exact makes_refuse _ t
      · next kind =>
          split
          · exact fun _ => rfl
          · refine (makes_predicate t.text).bind fun p same => makes_pure ?_
            simp [Progress.Holds, lexemes, Token.lexeme, not_not.mp kind, same]
  | @named p _ =>
      simp only [feed]
      split
      · next kind =>
          rw [genuine.eq_mark (m := .opening) (by decide) kind]
          refine makes_pure ?_
          simp [Progress.Holds, lexemes, ArgumentList.lexemes, ArgumentList.start,
            ArgumentList.around, followed]
      · exact makes_pure rfl
  | @inside p args _ fits =>
      refine (ArgumentList.makes_feed genuine fits).bind fun progress holds => ?_
      cases progress with
      | going args =>
          have read : args.lexemes = _ := holds
          exact makes_pure (by simp [Progress.Holds, lexemes, read])
      | finished args =>
          obtain ⟨some, read⟩ := holds
          exact makes_pure (by simp [Progress.Holds, lexemes, ArgumentList.lexemes_atom some, read])
  | ended _ => exact makes_pure rfl

/-- When the text ends, the atom has been spelled. -/
theorem makes_atEnd (n : Nat) (s : AtomReading) : (s.atEnd n).Makes n (·.lexemes = s.lexemes) := by
  cases s with
  | due => exact makes_expected _ _
  | named p => exact makes_pure rfl
  | inside _ args => exact args.makes_atEnd n
  | ended _ => exact makes_pure rfl

end AtomReading

/-! ### Clauses and programs -/

namespace ClauseReading

/-- The lexemes that have been read. -/
def lexemes : ClauseReading → List Lexeme
  | .inHead a => a.lexemes
  | .inBody head before a =>
    head.lexemes ++ [Mark.neck.lexeme] ++ followed (before.reverse.map Atom.lexemes) ++ a.lexemes
  | .ended c => c.lexemes ++ [Mark.stop.lexeme]

/-- A rule is written as its head, the arrow, and its atoms with commas behind
all but the last one. -/
theorem lexemes_rule (head last : Atom) (before : List Atom) :
    (Clause.rule ⟨head, (last :: before).reverse⟩).lexemes =
      head.lexemes ++ [Mark.neck.lexeme] ++ followed (before.reverse.map Atom.lexemes) ++
        last.lexemes := by
  rw [Clause.lexemes_rule (by simp), List.reverse_cons, List.map_append, List.map_singleton,
    Lexeme.listed_concat, List.append_assoc _ (followed _)]

variable {t : Token} {A : Alphabet} {s : ClauseReading}

/-- A token of a clause is spelled behind those before it. -/
theorem makes_feed (genuine : t.lexeme.Genuine) (h : s.Over A) :
    (s.feed t).Makes t.offset (·.lexemes = s.lexemes ++ [t.lexeme]) := by
  cases h with
  | inHead atom =>
      refine (AtomReading.makes_feed genuine atom).bind fun p holds => ?_
      cases p with
      | going a => exact makes_pure holds
      | finished a =>
          have read : a.lexemes = _ := holds
          dsimp only
          split
          · next kind =>
              rw [genuine.eq_mark (m := .neck) (by decide) kind]
              exact makes_pure (by simp [lexemes, AtomReading.lexemes, followed, read])
          · next kind =>
              rw [genuine.eq_mark (m := .stop) (by decide) kind]
              exact makes_pure (by simp [lexemes, Clause.lexemes, read])
          · exact makes_refuse _ t
  | inBody _ _ atom =>
      refine (AtomReading.makes_feed genuine atom).bind fun p holds => ?_
      cases p with
      | going a =>
          have read : a.lexemes = _ := holds
          exact makes_pure (by simp [lexemes, read])
      | finished a =>
          have read : a.lexemes = _ := holds
          dsimp only
          split
          · next kind =>
              rw [genuine.eq_mark (m := .comma) (by decide) kind]
              exact makes_pure (by simp [lexemes, AtomReading.lexemes, followed, read])
          · next kind =>
              rw [genuine.eq_mark (m := .stop) (by decide) kind]
              exact makes_pure (by simp only [lexemes, lexemes_rule, read])
          · exact makes_refuse _ t
  | ended _ _ => exact makes_refuse none t

/-- When the text ends, the clause has been spelled, perhaps with its full
stop. -/
theorem makes_atEnd (n : Nat) (s : ClauseReading) :
    (s.atEnd n).Makes n fun c => ∃ stop, Optional .stop stop ∧ s.lexemes = c.lexemes ++ stop := by
  cases s with
  | inHead a =>
      refine (a.makes_atEnd n).bind fun a' read => makes_pure ⟨[], .inl rfl, ?_⟩
      rw [lexemes, Clause.lexemes, read, List.append_nil]
  | inBody head before a =>
      refine (a.makes_atEnd n).bind fun a' read => makes_pure ⟨[], .inl rfl, ?_⟩
      rw [lexemes, lexemes_rule, read, List.append_nil]
  | ended c => exact makes_pure ⟨_, .inr rfl, rfl⟩

end ClauseReading

namespace ProgramReading

/-- The lexemes that have been read. -/
def lexemes (s : ProgramReading) : List Lexeme :=
  s.finished.reverse.flatMap (fun c => c.lexemes ++ [Mark.stop.lexeme]) ++
    (s.current.map ClauseReading.lexemes).getD []

variable {t : Token} {A : Alphabet} {s : ProgramReading}

/-- The current clause -/
theorem makes_feed_current (genuine : t.lexeme.Genuine) {finished : List Clause}
    {current : ClauseReading} (h : current.Over A) :
    (feed ⟨finished, some current⟩ t).Makes t.offset
      (·.lexemes = (⟨finished, some current⟩ : ProgramReading).lexemes ++ [t.lexeme]) := by
  refine (ClauseReading.makes_feed genuine h).bind fun next read => ?_
  split
  · next c =>
      rw [ClauseReading.lexemes] at read
      exact makes_pure (by simp [lexemes, ← read])
  · exact makes_pure (by simp [lexemes, read])

/-- A token of a program is spelled behind those before it. -/
theorem makes_feed (genuine : t.lexeme.Genuine) (h : ∀ c ∈ s.current, c.Over A) :
    (s.feed t).Makes t.offset (·.lexemes = s.lexemes ++ [t.lexeme]) := by
  obtain ⟨finished, current⟩ := s
  cases current with
  | some current => exact makes_feed_current genuine (h current rfl)
  | none =>
      -- It is as if the clause had been begun, and the variables forgotten,
      -- before the token.
      have anew : (feed ⟨finished, some .start⟩ t).Makes t.offset _ :=
        makes_feed_current (A := A) genuine (.inHead .due)
      intro r
      exact anew { r with scope := [] }

/-- When the text ends, the clauses have been spelled, each with its full
stop. -/
theorem makes_atEnd (n : Nat) (s : ProgramReading) :
    (s.atEnd n).Makes n fun clauses =>
      s.lexemes = clauses.flatMap fun c => c.lexemes ++ [Mark.stop.lexeme] := by
  obtain ⟨finished, current⟩ := s
  cases current with
  | none => exact makes_pure (by simp [lexemes])
  | some current => exact (current.makes_atEnd n).bind fun _ _ => makes_expected _ _

end ProgramReading

/-! ### Queries -/

namespace QueryReading

/-- The lexemes that may have been read, an arrow in front or none. -/
inductive Spells : QueryReading → List Lexeme → Prop
  | start : Spells .start []
  | inGoal {before : List Atom} {a : AtomReading} {arrow : List Lexeme}
      (may_begin : Optional .query arrow) :
      Spells (.inGoal before a) (arrow ++ followed (before.reverse.map Atom.lexemes) ++ a.lexemes)
  | ended {goals : List Atom} {arrow : List Lexeme} (may_begin : Optional .query arrow) :
      Spells (.ended goals)
        (arrow ++ Lexeme.listed (goals.map Atom.lexemes) ++ [Mark.stop.lexeme])

variable {t : Token} {A : Alphabet} {s : QueryReading} {ls arrow : List Lexeme}

/-- Goals are written with commas behind all but the last one. -/
theorem listed_goals (last : Atom) (before : List Atom) :
    Lexeme.listed ((last :: before).reverse.map Atom.lexemes) =
      followed (before.reverse.map Atom.lexemes) ++ last.lexemes := by
  rw [List.reverse_cons, List.map_append, List.map_singleton, Lexeme.listed_concat]

/-- A token of a goal is spelled behind those before it. -/
theorem makes_feedGoal (genuine : t.lexeme.Genuine) (before : List Atom) {a : AtomReading}
    (h : a.Over A) (may_begin : Optional .query arrow) :
    (feedGoal before a t).Makes t.offset fun s =>
      s.Spells
        (arrow ++ followed (before.reverse.map Atom.lexemes) ++ a.lexemes ++ [t.lexeme]) := by
  refine (AtomReading.makes_feed genuine h).bind fun p holds => ?_
  cases p with
  | going a =>
      have read : a.lexemes = _ := holds
      rw [List.append_assoc, ← read]
      exact makes_pure (.inGoal may_begin)
  | finished a =>
      have read : a.lexemes = _ := holds
      dsimp only
      split
      · next kind =>
          rw [genuine.eq_mark (m := .comma) (by decide) kind, ← read]
          have spells : Spells (.inGoal (a :: before) .due) _ := .inGoal may_begin
          exact makes_pure (by simpa [AtomReading.lexemes, followed] using spells)
      · next kind =>
          rw [genuine.eq_mark (m := .stop) (by decide) kind, ← read]
          have spells : Spells (.ended (a :: before).reverse) _ := .ended may_begin
          rw [listed_goals, ← List.append_assoc] at spells
          exact makes_pure spells
      · exact makes_refuse none t

/-- A token of a query is spelled behind those before it. -/
theorem makes_feed (genuine : t.lexeme.Genuine) (h : s.Over A) (spells : s.Spells ls) :
    (s.feed t).Makes t.offset (Spells · (ls ++ [t.lexeme])) := by
  cases spells with
  | start =>
      simp only [feed]
      split
      · next kind =>
          rw [genuine.eq_mark (m := .query) (by decide) kind]
          exact makes_pure (.inGoal (.inr rfl))
      · exact makes_feedGoal genuine [] (A := A) .due (.inl rfl)
  | inGoal may_begin =>
      cases h with
      | inGoal _ atom => exact makes_feedGoal genuine _ atom may_begin
  | ended _ => exact makes_refuse none t

/-- When the text ends, the goals have been spelled, perhaps with an arrow in
front and a full stop behind. -/
theorem makes_atEnd (n : Nat) (spells : s.Spells ls) :
    (s.atEnd n).Makes n fun goals => ∃ arrow stop, Optional .query arrow ∧ Optional .stop stop ∧
      ls = arrow ++ Lexeme.listed (goals.map Atom.lexemes) ++ stop := by
  cases spells with
  | start => exact makes_expected _ _
  | @inGoal before a arrow may_begin =>
      refine (a.makes_atEnd n).bind fun last read =>
        makes_pure ⟨arrow, [], may_begin, .inl rfl, ?_⟩
      rw [listed_goals, read, List.append_nil, List.append_assoc]
  | ended may_begin => exact makes_pure ⟨_, _, may_begin, .inr rfl, rfl⟩

end QueryReading

end Resolvent
