/-
# Reading terms, clauses and queries

    program  =  { clause }
    clause   =  atom [ ":-" atom { "," atom } ] "."
    query    =  [ "?-" ] atom { "," atom } [ "." ]
    atom     =  name [ "(" term { "," term } ")" ]
    term     =  name [ "(" term { "," term } ")" ]

A text is read one token at a time. What has been read so far is kept as a
state, and each token leads from one state to the next or is refused; the end
of the text is asked about separately. So a text is refused at the first token
after which nothing that is to come could mend it.

A name followed by a parenthesis inside a term is a functor. Any other name
there is a variable or a constant, which is settled only when the next token is
seen. A name at the place of an atom is a predicate at once. A predicate or
functor is interned before its arguments are, and what a refused text has
interned stays.
-/

import Resolvent.Clause
import Resolvent.Language.Token
import Resolvent.Language.Vocabulary

namespace Resolvent

/-- What reading a text builds up beside its result: the vocabulary, and the
variables of the clause at hand. -/
structure Reader where
  vocabulary : Vocabulary
  scope : List Variable := []

/-- A computation that reads. A refusal does not undo what was interned before
it. -/
abbrev Reading (α : Type) := EStateM ParseError Reader α

namespace Reading

/-- Refuse a token, or the end of the text, since something else was due. -/
def expected {α : Type} (wanted : Option TokenKind) (found : Option String) (offset : Nat) :
    Reading α :=
  throw ⟨.expected wanted found, offset⟩

/-- Refuse a token where a token of some kind, or the end of the text, was
due. -/
def refuse {α : Type} (wanted : Option TokenKind) (t : Token) : Reading α :=
  expected wanted (some t.text) t.offset

/-- Name a functor. -/
def functor (name : String) : Reading Functor :=
  modifyGet fun r =>
    let (f, vocabulary) := r.vocabulary.functor name
    (f, { r with vocabulary })

/-- Name a predicate. -/
def predicate (name : String) : Reading Predicate :=
  modifyGet fun r =>
    let (p, vocabulary) := r.vocabulary.predicate name
    (p, { r with vocabulary })

/-- Name a variable of the clause at hand, or a constant. -/
def leaf (name : String) : Reading Term :=
  modifyGet fun r =>
    if isVariableName name then
      let (x, scope, supply) := Vocabulary.intern r.scope r.vocabulary.supply name
      (.var x, { vocabulary := { r.vocabulary with supply }, scope })
    else
      let (c, vocabulary) := r.vocabulary.constant name
      (.const c, { r with vocabulary })

/-- Forget the variables of the last clause. -/
def newScope : Reading Unit :=
  modify fun r => { r with scope := [] }

end Reading

open Reading

/-- A part of a text that is still being read, or has been read. -/
inductive Progress (σ α : Type)
  | going (state : σ)
  | finished (value : α)

/-! ### Argument lists -/

/-- An application whose arguments are being read: its functor, and the
arguments before the one at hand, newest first. -/
structure Frame where
  functor : Functor
  before : List Term

/-- Where the reading of an argument list stands. Lists of terms are newest
first; `outer` holds the applications around the list at hand, innermost
first. -/
inductive ArgumentList
  /-- A term has to follow. -/
  | due (before : List Term) (outer : List Frame)
  /-- A name has been read that may be a functor. -/
  | named (name : String) (before : List Term) (outer : List Frame)
  /-- A term has been read. -/
  | ended (args : List Term) (outer : List Frame)

namespace ArgumentList

/-- The state after an opening parenthesis. -/
def start : ArgumentList :=
  .due [] []

/-- Read the token behind a term. A closing parenthesis ends the innermost
list, which finishes the whole list or completes an argument of the next
one. -/
def behind (args : List Term) (outer : List Frame) (t : Token) :
    Reading (Progress ArgumentList (List Term)) :=
  match t.kind, outer with
  | .comma, _ => return .going (.due args outer)
  | .closing, [] => return .finished args.reverse
  | .closing, frame :: outer =>
    return .going (.ended (.app frame.functor args.reverse :: frame.before) outer)
  | _, _ => refuse (some .closing) t

/-- Read one token. -/
def feed (t : Token) : ArgumentList → Reading (Progress ArgumentList (List Term))
  | .due before outer =>
    if t.kind = .name then return .going (.named t.text before outer)
    else refuse (some .name) t
  | .named name before outer => do
    if t.kind = .opening then
      let f ← functor name
      return .going (.due [] (⟨f, before⟩ :: outer))
    else
      let last ← leaf name
      behind (last :: before) outer t
  | .ended args outer => behind args outer t

/-- Refuse the end of the text, which never ends an argument list. -/
def atEnd {α : Type} (offset : Nat) : ArgumentList → Reading α
  | .due _ _ => expected (some .name) none offset
  | .named name _ _ => do
    let _ ← leaf name
    expected (some .closing) none offset
  | .ended _ _ => expected (some .closing) none offset

end ArgumentList

/-! ### Terms -/

/-- Where the reading of a term stands. -/
inductive TermReading
  | due
  | named (name : String)
  | inside (f : Functor) (args : ArgumentList)
  | ended (t : Term)

namespace TermReading

/-- Read one token. The token behind a finished term is left unread. -/
def feed (t : Token) : TermReading → Reading (Progress TermReading Term)
  | .due =>
    if t.kind = .name then return .going (.named t.text) else refuse (some .name) t
  | .named name => do
    if t.kind = .opening then
      let f ← functor name
      return .going (.inside f .start)
    else return .finished (← leaf name)
  | .inside f args => do
    match ← args.feed t with
    | .going args => return .going (.inside f args)
    | .finished args => return .going (.ended (.app f args))
  | .ended term => return .finished term

/-- The term, if the text may end here. -/
def atEnd (offset : Nat) : TermReading → Reading Term
  | .due => expected (some .name) none offset
  | .named name => leaf name
  | .inside _ args => args.atEnd offset
  | .ended term => return term

/-- Read one token of a text that is a single term. -/
def feedOnly (state : TermReading) (t : Token) : Reading TermReading := do
  match ← state.feed t with
  | .going state => return state
  | .finished _ => refuse none t

end TermReading

/-! ### Atoms -/

/-- Where the reading of an atom stands. -/
inductive AtomReading
  | due
  | named (p : Predicate)
  | inside (p : Predicate) (args : ArgumentList)
  | ended (a : Atom)

namespace AtomReading

/-- Read one token. The token behind a finished atom is left unread. -/
def feed (t : Token) : AtomReading → Reading (Progress AtomReading Atom)
  | .due => do
    if t.kind ≠ .name then refuse (some .name) t
    else if isVariableName t.text then throw ⟨.variableAsPredicate t.text, t.offset⟩
    else return .going (.named (← predicate t.text))
  | .named p =>
    if t.kind = .opening then return .going (.inside p .start)
    else return .finished ⟨p, []⟩
  | .inside p args => do
    match ← args.feed t with
    | .going args => return .going (.inside p args)
    | .finished args => return .going (.ended ⟨p, args⟩)
  | .ended a => return .finished a

/-- The atom, if the text may end here. -/
def atEnd (offset : Nat) : AtomReading → Reading Atom
  | .due => expected (some .name) none offset
  | .named p => return ⟨p, []⟩
  | .inside _ args => args.atEnd offset
  | .ended a => return a

end AtomReading

/-! ### Clauses and programs -/

/-- Where the reading of a clause stands. The atoms of the body are newest
first. -/
inductive ClauseReading
  | inHead (a : AtomReading)
  | inBody (head : Atom) (before : List Atom) (a : AtomReading)
  | ended (c : Clause)

namespace ClauseReading

/-- The state in front of a clause. -/
def start : ClauseReading :=
  .inHead .due

/-- Read one token. Nothing may follow the full stop. -/
def feed (t : Token) : ClauseReading → Reading ClauseReading
  | .inHead a => do
    match ← a.feed t with
    | .going a => return .inHead a
    | .finished a =>
      match t.kind with
      | .neck => return .inBody a [] .due
      | .stop => return .ended (.fact a)
      | _ => refuse (some .stop) t
  | .inBody head before a => do
    match ← a.feed t with
    | .going a => return .inBody head before a
    | .finished a =>
      match t.kind with
      | .comma => return .inBody head (a :: before) .due
      | .stop => return .ended (.rule ⟨head, (a :: before).reverse⟩)
      | _ => refuse (some .stop) t
  | .ended _ => refuse none t

/-- The clause, if the text may end here. The full stop may be missing. -/
def atEnd (offset : Nat) : ClauseReading → Reading Clause
  | .inHead a => return .fact (← a.atEnd offset)
  | .inBody head before a => return .rule ⟨head, (((← a.atEnd offset) :: before).reverse)⟩
  | .ended c => return c

/-- Refuse the end of the text, since a full stop has to come before it. -/
def unstopped {α : Type} (offset : Nat) (state : ClauseReading) : Reading α := do
  let _ ← state.atEnd offset
  expected (some .stop) none offset

end ClauseReading

/-- Where the reading of a program stands: the finished clauses, newest first,
and the one at hand, if there is one. -/
structure ProgramReading where
  finished : List Clause := []
  current : Option ClauseReading := none

namespace ProgramReading

/-- Read one token. The first token of a clause opens a new scope for
variables. -/
def feed (state : ProgramReading) (t : Token) : Reading ProgramReading := do
  let current ←
    match state.current with
    | some current => pure current
    | none => do
      newScope
      pure .start
  match ← current.feed t with
  | .ended c => return ⟨c :: state.finished, none⟩
  | current => return ⟨state.finished, some current⟩

/-- The clauses, if the text may end here. -/
def atEnd (offset : Nat) (state : ProgramReading) : Reading (List Clause) :=
  match state.current with
  | none => return state.finished.reverse
  | some current => current.unstopped offset

end ProgramReading

/-! ### Queries -/

/-- Where the reading of a query stands. The goals are newest first. -/
inductive QueryReading
  | start
  | inGoal (before : List Atom) (a : AtomReading)
  | ended (goals : List Atom)

namespace QueryReading

/-- Read one token as part of a goal, or as what comes behind one. -/
def feedGoal (before : List Atom) (a : AtomReading) (t : Token) : Reading QueryReading := do
  match ← a.feed t with
  | .going a => return .inGoal before a
  | .finished a =>
    match t.kind with
    | .comma => return .inGoal (a :: before) .due
    | .stop => return .ended (a :: before).reverse
    | _ => refuse none t

/-- Read one token. The arrow in front and the full stop behind may be
missing. -/
def feed (t : Token) : QueryReading → Reading QueryReading
  | .start => if t.kind = .query then return .inGoal [] .due else feedGoal [] .due t
  | .inGoal before a => feedGoal before a t
  | .ended _ => refuse none t

/-- The goals, if the text may end here. -/
def atEnd (offset : Nat) : QueryReading → Reading (List Atom)
  | .start => expected (some .name) none offset
  | .inGoal before a => return ((← a.atEnd offset) :: before).reverse
  | .ended goals => return goals

end QueryReading

/-! ### Whole texts -/

namespace Reading

/-- Read a whole text: all its tokens in turn, and then its end. -/
def whole {σ α : Type} (feed : σ → Token → Reading σ) (atEnd : Nat → σ → Reading α) (start : σ)
    (text : String) : Reading α :=
  match Token.ofText text with
  | .error e => throw e
  | .ok tokens => do
    let state ← tokens.foldlM feed start
    atEnd text.length state

/-- A text that is one term. -/
def term : String → Reading Term :=
  whole TermReading.feedOnly TermReading.atEnd .due

/-- A text that is one clause, with or without its full stop. -/
def clause : String → Reading Clause :=
  whole (fun state t => state.feed t) ClauseReading.atEnd .start

/-- A text that is a query. -/
def goals : String → Reading (List Atom) :=
  whole (fun state t => state.feed t) QueryReading.atEnd .start

/-- A text that is a program. -/
def program : String → Reading (List Clause) :=
  whole ProgramReading.feed ProgramReading.atEnd {}

end Reading

namespace Vocabulary

/-- Read with this vocabulary and an empty scope. The vocabulary may have grown
even if the text is refused. -/
def reading {α : Type} (v : Vocabulary) (r : Reading α) : Except ParseError α × Vocabulary :=
  match r { vocabulary := v } with
  | .ok value reader => (.ok value, reader.vocabulary)
  | .error e reader => (.error e, reader.vocabulary)

/-- Read a term. -/
def parseTerm (v : Vocabulary) (text : String) : Except ParseError Term × Vocabulary :=
  v.reading (Reading.term text)

/-- Read a clause. -/
def parseClause (v : Vocabulary) (text : String) : Except ParseError Clause × Vocabulary :=
  v.reading (Reading.clause text)

/-- Read the goals of a query. -/
def parseGoals (v : Vocabulary) (text : String) : Except ParseError (List Atom) × Vocabulary :=
  v.reading (Reading.goals text)

/-- Read a program. -/
def parseProgram (v : Vocabulary) (text : String) : Except ParseError (List Clause) × Vocabulary :=
  v.reading (Reading.program text)

end Vocabulary

end Resolvent
