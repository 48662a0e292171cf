/-
# Where a token stands does not matter

The place of a token is looked at only when the token is refused. If the same
tokens stand at other places, they are refused at other places, and are
otherwise read in the same way. This is all that keeps a part of a text from
being read as if it stood alone. The place where a text ends does not matter
either.
-/

import Resolvent.Proofs.Language.LegibleTexts

namespace Resolvent

/-- The token at another place. -/
def Token.movedTo (offset : Nat) (t : Token) : Token :=
  { t with offset }

/-- Tokens with the same lexeme differ in nothing but their place. -/
theorem Token.eq_movedTo {t t' : Token} (same : t'.lexeme = t.lexeme) :
    t' = t.movedTo t'.offset := by
  obtain ⟨kind, text, offset⟩ := t
  obtain ⟨kind', text', offset'⟩ := t'
  obtain ⟨rfl, rfl⟩ := Lexeme.mk.inj same
  rfl

namespace Reading

variable {α β : Type}

/-- The reading with its refusal, if there is one, at another place. -/
def movedTo (offset : Nat) (reading : Reading α) : Reading α := fun r =>
  match reading r with
  | .ok a r' => .ok a r'
  | .error e r' => .error { e with offset } r'

/-- A reading in two parts is moved by moving both parts. -/
theorem movedTo_bind (n : Nat) (reading : Reading α) (next : α → Reading β) :
    (reading >>= next).movedTo n = reading.movedTo n >>= fun a => (next a).movedTo n := by
  funext r
  show movedTo n (EStateM.bind reading next) r = EStateM.bind _ _ r
  cases made : reading r with
  | ok a r' => simp only [movedTo, EStateM.bind, made]
  | error e r' => simp only [movedTo, EStateM.bind, made]

/-- What succeeds is not moved. -/
theorem ok_of_movedTo {n : Nat} {reading : Reading α} {r r' : Reader} {a : α}
    (h : reading r = .ok a r') : reading.movedTo n r = .ok a r' := by
  rw [movedTo, h]

/-- Tokens that are accepted are accepted at other places, and the same is
read. -/
theorem foldlM_of_lexemes {σ : Type} {feed : σ → Token → Reading σ} {s s' : σ} {r r' : Reader}
    {tokens tokens' : List Token}
    (anywhere : ∀ {s s' r r'} (t : Token) (n : Nat), feed s t r = .ok s' r' →
      feed s (t.movedTo n) r = .ok s' r')
    (same : tokens'.map Token.lexeme = tokens.map Token.lexeme)
    (fed : tokens.foldlM feed s r = .ok s' r') : tokens'.foldlM feed s r = .ok s' r' := by
  induction tokens generalizing tokens' s r with
  | nil => rwa [List.map_eq_nil_iff.mp same]
  | cons t rest ih =>
      obtain ⟨t', rest', rfl, here, later⟩ := List.map_eq_cons_iff.mp same
      rw [List.foldlM_cons] at fed
      obtain ⟨s₁, r₁, step, fed⟩ := exists_of_bind fed
      rw [List.foldlM_cons, Token.eq_movedTo here, bind_of_ok (anywhere t _ step), ih later fed]

end Reading

open Reading

variable (n : Nat) (t : Token)

namespace ArgumentList

/-- The token behind a term is read alike at every place, up to the place of a
refusal. -/
theorem behind_movedTo (args : List Term) (outer : List Frame) :
    behind args outer (t.movedTo n) = (behind args outer t).movedTo n := by
  obtain ⟨kind, text, offset⟩ := t
  cases kind <;> cases outer <;> rfl

/-- A token of an argument list is read alike at every place, up to the place
of a refusal. -/
theorem feed_movedTo (s : ArgumentList) : s.feed (t.movedTo n) = (s.feed t).movedTo n := by
  cases s with
  | due before outer =>
      show (if t.kind = .name then _ else _) = Reading.movedTo n (if t.kind = .name then _ else _)
      split <;> rfl
  | named name before outer =>
      show (if t.kind = .opening then _ else _) =
        Reading.movedTo n (if t.kind = .opening then _ else _)
      split
      · rfl
      · rw [movedTo_bind]
        simp only [behind_movedTo]
        rfl
  | ended args outer => exact behind_movedTo n t args outer

/-- Where a text ends matters to an argument list only as the place of the
refusal. -/
theorem atEnd_movedTo {α : Type} (m : Nat) (s : ArgumentList) :
    (s.atEnd n : Reading α) = (s.atEnd m).movedTo n := by
  cases s with
  | due before outer => rfl
  | named name before outer => rfl
  | ended args outer => rfl

end ArgumentList

namespace AtomReading

/-- A token of an atom is read alike at every place, up to the place of a
refusal. -/
theorem feed_movedTo (s : AtomReading) : s.feed (t.movedTo n) = (s.feed t).movedTo n := by
  cases s with
  | due =>
      obtain ⟨kind, text, offset⟩ := t
      cases kind with
      | name =>
          show (if isVariableName text then _ else _) =
            Reading.movedTo n (if isVariableName text then _ else _)
          split <;> rfl
      | _ => rfl
  | named p =>
      show (if t.kind = .opening then _ else _) =
        Reading.movedTo n (if t.kind = .opening then _ else _)
      split <;> rfl
  | inside p args =>
      simp only [feed, args.feed_movedTo, movedTo_bind]
      congr 1
      funext progress
      cases progress <;> rfl
  | ended a => rfl

/-- Where a text ends matters to an atom only as the place of a refusal. -/
theorem atEnd_movedTo (m : Nat) (s : AtomReading) : s.atEnd n = (s.atEnd m).movedTo n := by
  cases s with
  | due => rfl
  | named p => rfl
  | inside p args => exact args.atEnd_movedTo n m
  | ended a => rfl

end AtomReading

/-- A token of a clause is read alike at every place, up to the place of a
refusal. -/
theorem ClauseReading.feed_movedTo (s : ClauseReading) :
    s.feed (t.movedTo n) = (s.feed t).movedTo n := by
  cases s with
  | inHead a =>
      simp only [feed, a.feed_movedTo, movedTo_bind]
      congr 1
      funext progress
      obtain ⟨kind, text, offset⟩ := t
      cases progress with
      | going a => rfl
      | finished a => cases kind <;> rfl
  | inBody head before a =>
      simp only [feed, a.feed_movedTo, movedTo_bind]
      congr 1
      funext progress
      obtain ⟨kind, text, offset⟩ := t
      cases progress with
      | going a => rfl
      | finished a => cases kind <;> rfl
  | ended c => rfl

namespace ProgramReading

variable {n t} {s s' : ProgramReading} {r r' : Reader}

/-- What a program accepts at one place it accepts at any other. -/
theorem feed_movedTo (result : s.feed t r = .ok s' r') : s.feed (t.movedTo n) r = .ok s' r' := by
  obtain ⟨next, made, same⟩ := feed_iff.mp result
  apply feed_iff.mpr
  refine ⟨next, ?_, same⟩
  rw [ClauseReading.feed_movedTo]
  exact ok_of_movedTo made

end ProgramReading

namespace QueryReading

/-- A token of a goal is read alike at every place, up to the place of a
refusal. -/
theorem feedGoal_movedTo (before : List Atom) (a : AtomReading) :
    feedGoal before a (t.movedTo n) = (feedGoal before a t).movedTo n := by
  simp only [feedGoal, a.feed_movedTo, movedTo_bind]
  congr 1
  funext progress
  obtain ⟨kind, text, offset⟩ := t
  cases progress with
  | going a => rfl
  | finished a => cases kind <;> rfl

/-- A token of a query is read alike at every place, up to the place of a
refusal. -/
theorem feed_movedTo (s : QueryReading) : s.feed (t.movedTo n) = (s.feed t).movedTo n := by
  cases s with
  | start =>
      show (if t.kind = .query then _ else _) = Reading.movedTo n (if t.kind = .query then _ else _)
      split
      · rfl
      · exact feedGoal_movedTo n t [] .due
  | inGoal before a => exact feedGoal_movedTo n t before a
  | ended goals => rfl

/-- Where a text ends matters to a query only as the place of a refusal. -/
theorem atEnd_movedTo (m : Nat) (s : QueryReading) : s.atEnd n = (s.atEnd m).movedTo n := by
  cases s with
  | start => rfl
  | inGoal before a =>
      simp only [atEnd, a.atEnd_movedTo n m, movedTo_bind]
      rfl
  | ended goals => rfl

end QueryReading

end Resolvent
