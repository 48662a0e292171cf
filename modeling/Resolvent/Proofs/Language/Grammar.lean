/-
# The grammar of texts

Here the grammar stands as it is documented, rule by rule, without regard to
how a text is read. A derivation leads from the tokens to what they stand for.
It tells the name of each symbol and no more, because which symbol is meant by
a name is not a matter of grammar.

The tokens can be read off what is derived from them: it is written with the
same ones. And whatever is written with legible symbols is derived from the
tokens of its text.
-/

import Resolvent.Proofs.Language.Lexemes

namespace Resolvent

namespace Lexeme

/-- Items with a comma between each two of them. There is one at least. -/
inductive Listed {α : Type} (item : α → List Lexeme → Prop) : List α → List Lexeme → Prop
  | single {a : α} {ls : List Lexeme} (only : item a ls) : Listed item [a] ls
  | cons {a : α} {rest : List α} {ls more : List Lexeme} (first : item a ls)
      (others : Listed item rest more) : Listed item (a :: rest) (ls ++ [Mark.comma.lexeme] ++ more)

/-- A mark that may be missing. -/
def Optional (m : Mark) (ls : List Lexeme) : Prop :=
  ls = [] ∨ ls = [m.lexeme]

end Lexeme

open Lexeme (Listed Optional)

/-- The derivations of a term. A name without arguments is a variable or a
constant, and a name with arguments is a functor, whatever its first
character. -/
inductive Term.DerivedFrom : Term → List Lexeme → Prop
  | var {x : Variable} (capital : isVariableName x.name) : DerivedFrom (.var x) [⟨.name, x.name⟩]
  | const {c : Constant} (small : ¬ isVariableName c.name) :
      DerivedFrom (.const c) [⟨.name, c.name⟩]
  | app {f : Functor} {args : List Term} {inner : List Lexeme} (h : Listed DerivedFrom args inner) :
      DerivedFrom (.app f args)
        ([⟨.name, f.name⟩] ++ [Mark.opening.lexeme] ++ inner ++ [Mark.closing.lexeme])

/-- The derivations of an atom. Its name cannot be that of a variable. -/
inductive Atom.DerivedFrom : Atom → List Lexeme → Prop
  | bare {p : Predicate} (small : ¬ isVariableName p.name) : DerivedFrom ⟨p, []⟩ [⟨.name, p.name⟩]
  | applied {p : Predicate} {args : List Term} {inner : List Lexeme}
      (small : ¬ isVariableName p.name) (h : Listed Term.DerivedFrom args inner) :
      DerivedFrom ⟨p, args⟩
        ([⟨.name, p.name⟩] ++ [Mark.opening.lexeme] ++ inner ++ [Mark.closing.lexeme])

/-- The derivations of a clause, up to its full stop. -/
inductive Clause.DerivedFrom : Clause → List Lexeme → Prop
  | fact {a : Atom} {ls : List Lexeme} (h : a.DerivedFrom ls) : DerivedFrom (.fact a) ls
  | rule {head : Atom} {body : List Atom} {front back : List Lexeme} (h : head.DerivedFrom front)
      (h' : Listed Atom.DerivedFrom body back) :
      DerivedFrom (.rule ⟨head, body⟩) (front ++ [Mark.neck.lexeme] ++ back)

/-- A text that is one clause. The full stop may be missing. -/
inductive ClauseText : Clause → List Lexeme → Prop
  | mk {c : Clause} {ls stop : List Lexeme} (h : c.DerivedFrom ls)
      (may_stop : Optional .stop stop) : ClauseText c (ls ++ stop)

/-- A text that is a query. The arrow and the full stop may be missing. -/
inductive QueryText : List Atom → List Lexeme → Prop
  | mk {goals : List Atom} {arrow ls stop : List Lexeme} (may_begin : Optional .query arrow)
      (h : Listed Atom.DerivedFrom goals ls) (may_stop : Optional .stop stop) :
      QueryText goals (arrow ++ ls ++ stop)

/-- A text that is a program. A full stop stands behind each clause. -/
inductive ProgramText : List Clause → List Lexeme → Prop
  | nil : ProgramText [] []
  | cons {c : Clause} {rest : List Clause} {ls more : List Lexeme} (first : c.DerivedFrom ls)
      (others : ProgramText rest more) :
      ProgramText (c :: rest) (ls ++ [Mark.stop.lexeme] ++ more)

/-! ### What is written is derived -/

namespace Lexeme

variable {α : Type} {item : α → List Lexeme → Prop} {items : List α} {ls : List Lexeme}

/-- Items are listed with their lexemes and commas between them. -/
theorem listed_of_forall {lexemes : α → List Lexeme} (some : items ≠ [])
    (each : ∀ a ∈ items, item a (lexemes a)) : Listed item items (listed (items.map lexemes)) := by
  induction items with
  | nil => exact absurd rfl some
  | cons a rest ih =>
      obtain ⟨first, others⟩ := List.forall_mem_cons.mp each
      cases rest with
      | nil => exact .single first
      | cons next rest => exact .cons first (ih (List.cons_ne_nil _ _) others)

/-- A mark that may be missing is genuine if it is there. -/
theorem Optional.genuine {m : Mark} (h : Optional m ls) (known : m ∈ Mark.all) :
    ∀ l ∈ ls, l.Genuine := by
  cases h with
  | inl missing => simp [missing]
  | inr present => simpa [present] using Genuine.mark known

/-- What is so for each item and its own lexemes, provided that these are
genuine, is so for all items and the lexemes of the list. -/
theorem Listed.forall_of_genuine {good : α → Prop} {lexemes : α → List Lexeme}
    (h : Listed item items ls) (genuine : ∀ l ∈ ls, l.Genuine)
    (each : ∀ a ls, item a ls → (∀ l ∈ ls, l.Genuine) → good a ∧ ls = lexemes a) :
    items ≠ [] ∧ (∀ a ∈ items, good a) ∧ ls = listed (items.map lexemes) := by
  induction h with
  | single only =>
      obtain ⟨fits, rfl⟩ := each _ _ only genuine
      exact ⟨List.cons_ne_nil _ _, List.forall_mem_singleton.mpr fits, rfl⟩
  | @cons a rest ls more first others ih =>
      obtain ⟨front, behind⟩ := List.forall_mem_append.mp genuine
      obtain ⟨fits, rfl⟩ := each _ _ first (List.forall_mem_append.mp front).1
      obtain ⟨some, all, rfl⟩ := ih behind
      refine ⟨List.cons_ne_nil _ _, List.forall_mem_cons.mpr ⟨fits, all⟩, ?_⟩
      obtain ⟨next, rest, rfl⟩ := List.exists_cons_of_ne_nil some
      rfl

end Lexeme

namespace Term

/-- Induction on derivations. What is shown for an application may use that
each argument, with its own lexemes, is known already. -/
theorem DerivedFrom.induct {motive : Term → List Lexeme → Prop}
    (var : ∀ x : Variable, isVariableName x.name → motive (.var x) [⟨.name, x.name⟩])
    (const : ∀ c : Constant, ¬ isVariableName c.name → motive (.const c) [⟨.name, c.name⟩])
    (app : ∀ (f : Functor) (args : List Term) (inner : List Lexeme), Listed motive args inner →
      motive (.app f args)
        ([⟨.name, f.name⟩] ++ [Mark.opening.lexeme] ++ inner ++ [Mark.closing.lexeme]))
    {t : Term} {ls : List Lexeme} (h : t.DerivedFrom ls) : motive t ls := by
  refine @DerivedFrom.rec (fun t ls _ => motive t ls) (fun ts ls _ => Listed motive ts ls)
    ?_ ?_ ?_ ?_ ?_ t ls h
  · exact var _
  · exact const _
  · exact fun _ => app _ _ _
  · exact fun _ => .single
  · exact fun _ _ => .cons

/-- A legible term is derived from its own lexemes. -/
theorem Over.derivedFrom {t : Term} (h : t.Over .legible) : t.DerivedFrom t.lexemes := by
  induction h with
  | var h => exact .var h.2
  | const h => exact .const h.2
  | app h some _ ih =>
      rw [lexemes, lexemesEach_eq_map]
      exact .app (Lexeme.listed_of_forall some ih)

/-- Only legible terms are derived from what can be read, and only from their
own lexemes. -/
theorem DerivedFrom.legible {t : Term} {ls : List Lexeme} (h : t.DerivedFrom ls) :
    (∀ l ∈ ls, l.Genuine) → t.Over .legible ∧ ls = t.lexemes := by
  refine h.induct (motive := fun t ls => (∀ l ∈ ls, l.Genuine) → t.Over .legible ∧ ls = t.lexemes)
    ?var ?const ?app
  case var =>
    intro x capital genuine
    exact ⟨.var ⟨(genuine _ (List.mem_singleton_self _)).isIdentifier rfl, capital⟩, rfl⟩
  case const =>
    intro c small genuine
    exact ⟨.const ⟨(genuine _ (List.mem_singleton_self _)).isIdentifier rfl, small⟩, rfl⟩
  case app =>
    intro f args inner h genuine
    have name : IsIdentifier f.name := (genuine ⟨.name, f.name⟩ (by simp)).isIdentifier rfl
    have inside : ∀ l ∈ inner, l.Genuine := fun l hl => genuine l (by simp [hl])
    obtain ⟨some, fits, rfl⟩ := h.forall_of_genuine inside fun _ _ same => same
    refine ⟨.app ⟨name, trivial⟩ some fits, ?_⟩
    rw [lexemes, lexemesEach_eq_map]

end Term

namespace Atom

/-- A legible atom is derived from its own lexemes. -/
theorem Over.derivedFrom {a : Atom} (h : a.Over .legible) : a.DerivedFrom a.lexemes := by
  obtain ⟨p, args⟩ := a
  cases args with
  | nil => exact .bare h.predicate.2
  | cons t ts =>
      have args := Lexeme.listed_of_forall (List.cons_ne_nil t ts) fun t ht =>
        (h.args t ht).derivedFrom
      exact .applied h.predicate.2 args

/-- Only legible atoms are derived from what can be read, and only from their
own lexemes. -/
theorem DerivedFrom.legible {a : Atom} {ls : List Lexeme} (h : a.DerivedFrom ls)
    (genuine : ∀ l ∈ ls, l.Genuine) : a.Over .legible ∧ ls = a.lexemes := by
  cases h with
  | bare small =>
      have name := (genuine _ (List.mem_singleton_self _)).isIdentifier rfl
      exact ⟨⟨⟨name, small⟩, List.forall_mem_nil _⟩, rfl⟩
  | @applied p args inner small h =>
      have name : IsIdentifier p.name := (genuine ⟨.name, p.name⟩ (by simp)).isIdentifier rfl
      have inside : ∀ l ∈ inner, l.Genuine := fun l hl => genuine l (by simp [hl])
      obtain ⟨some, fits, rfl⟩ := h.forall_of_genuine inside fun _ _ => Term.DerivedFrom.legible
      obtain ⟨t, ts, rfl⟩ := List.exists_cons_of_ne_nil some
      exact ⟨⟨⟨name, small⟩, fits⟩, rfl⟩

/-- Atoms are listed as they are written. -/
theorem listed_of_legible {atoms : List Atom} (some : atoms ≠ [])
    (h : ∀ a ∈ atoms, a.Over .legible) :
    Listed DerivedFrom atoms (Lexeme.listed (atoms.map lexemes)) :=
  Lexeme.listed_of_forall some fun a ha => (h a ha).derivedFrom

/-- The same holds for atoms with commas between them. -/
theorem legible_of_listed {atoms : List Atom} {ls : List Lexeme}
    (h : Listed DerivedFrom atoms ls) (genuine : ∀ l ∈ ls, l.Genuine) :
    atoms ≠ [] ∧ (∀ a ∈ atoms, a.Over .legible) ∧ ls = Lexeme.listed (atoms.map lexemes) :=
  h.forall_of_genuine genuine fun _ _ => DerivedFrom.legible

end Atom

namespace Clause

/-- A legible clause is derived from its own lexemes. A rule needs a body,
since there is no way to write one without. -/
theorem Over.derivedFrom {c : Clause} (h : c.Over .legible) (bodied : c.Bodied) :
    c.DerivedFrom c.lexemes := by
  cases c with
  | fact a => exact .fact (Atom.Over.derivedFrom h.head)
  | rule r =>
      rw [lexemes_rule bodied]
      exact .rule (Atom.Over.derivedFrom h.head) (Atom.listed_of_legible bodied h.body)

/-- Only legible clauses are derived from what can be read, and only from their
own lexemes. -/
theorem DerivedFrom.legible {c : Clause} {ls : List Lexeme} (h : c.DerivedFrom ls)
    (genuine : ∀ l ∈ ls, l.Genuine) : c.Over .legible ∧ c.Bodied ∧ ls = c.lexemes := by
  cases h with
  | fact h =>
      obtain ⟨fits, rfl⟩ := h.legible genuine
      exact ⟨⟨fits, List.forall_mem_nil _⟩, trivial, rfl⟩
  | rule h h' =>
      obtain ⟨front, back⟩ := List.forall_mem_append.mp genuine
      obtain ⟨fits, rfl⟩ := h.legible (List.forall_mem_append.mp front).1
      obtain ⟨some, each, rfl⟩ := Atom.legible_of_listed h' back
      exact ⟨⟨fits, each⟩, some, (lexemes_rule some).symm⟩

end Clause

/-- Legible clauses with a full stop behind each of them are a program. -/
theorem programText_of_legible {clauses : List Clause}
    (h : ∀ c ∈ clauses, c.Over .legible ∧ c.Bodied) :
    ProgramText clauses (clauses.flatMap fun c => c.lexemes ++ [Mark.stop.lexeme]) := by
  induction clauses with
  | nil => exact .nil
  | cons c rest ih =>
      obtain ⟨⟨legible, bodied⟩, others⟩ := List.forall_mem_cons.mp h
      exact .cons (legible.derivedFrom bodied) (ih others)

/-- Only legible clauses are derived as a program, and only from their own
lexemes. -/
theorem ProgramText.legible {clauses : List Clause} {ls : List Lexeme} (h : ProgramText clauses ls)
    (genuine : ∀ l ∈ ls, l.Genuine) :
    (∀ c ∈ clauses, c.Over .legible ∧ c.Bodied) ∧
      ls = clauses.flatMap fun c => c.lexemes ++ [Mark.stop.lexeme] := by
  induction h with
  | nil => exact ⟨List.forall_mem_nil _, rfl⟩
  | cons first _ ih =>
      obtain ⟨front, behind⟩ := List.forall_mem_append.mp genuine
      obtain ⟨legible, bodied, rfl⟩ := first.legible (List.forall_mem_append.mp front).1
      obtain ⟨others, rfl⟩ := ih behind
      exact ⟨List.forall_mem_cons.mpr ⟨⟨legible, bodied⟩, others⟩, rfl⟩

end Resolvent
