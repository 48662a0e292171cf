/-
# What is read can be written

Whatever a reading accepts is built from names that the text contains. Each
name is an identifier, its role is told by its first character and by what
stands behind it, and it leads to the symbol that the reader knows by it. So
all that has been read of a text is legible, and every token keeps it so.

Nothing is said about readings that are refused.
-/

import Resolvent.Proofs.Language.Lexicon

namespace Resolvent

open Reading

/-! ### Readings that succeed -/

/-- The text of the token is an identifier if it is a name. -/
def Token.Proper (t : Token) : Prop :=
  t.kind = .name → IsIdentifier t.text

namespace Reading

variable {α β : Type}

/-- If the reading succeeds, the reader still knows what it knew before, and
what is given is good for the reader as it is then. -/
def Gives (reading : Reading α) (r : Reader) (good : α → Reader → Prop) : Prop :=
  ∀ a r', reading r = .ok a r' → r.Extends r' ∧ good a r'

variable {r : Reader} {good : α → Reader → Prop} {good' : β → Reader → Prop}

/-- What is good already is given as it is. -/
theorem gives_pure {a : α} (h : good a r) : (pure a : Reading α).Gives r good := by
  rintro _ _ ⟨⟩
  exact ⟨.refl r, h⟩

/-- A refusal gives nothing, so there is nothing that would have to be good. -/
theorem gives_expected (wanted : Option TokenKind) (found : Option String) (n : Nat) :
    (expected wanted found n : Reading α).Gives r good :=
  nofun

theorem gives_refuse (wanted : Option TokenKind) (t : Token) :
    (refuse wanted t : Reading α).Gives r good :=
  nofun

/-- Where one reading after another succeeds, each of them has. -/
theorem exists_of_bind {reading : Reading α} {next : α → Reading β} {b : β} {r'' : Reader}
    (result : (reading >>= next) r = .ok b r'') :
    ∃ a r', reading r = .ok a r' ∧ next a r' = .ok b r'' := by
  replace result : EStateM.bind reading next r = .ok b r'' := result
  unfold EStateM.bind at result
  cases made : reading r with
  | error e r' => simp [made] at result
  | ok a r' => exact ⟨a, r', rfl, by simpa only [made] using result⟩

/-- What one part of a reading gives, the next one may use, with a reader that
has only learned more. -/
theorem Gives.bind {reading : Reading α} {next : α → Reading β} (first : reading.Gives r good)
    (second : ∀ a r', r.Extends r' → good a r' → (next a).Gives r' good') :
    (reading >>= next).Gives r good' := by
  intro b r'' result
  obtain ⟨a, r', made, made'⟩ := exists_of_bind result
  obtain ⟨grown, given⟩ := first a r' made
  obtain ⟨later, given'⟩ := second a r' grown given b r'' made'
  exact ⟨grown.trans later, given'⟩

/-- A functor that has been named is in the lexicon. -/
theorem gives_functor {name : String} (identifier : IsIdentifier name) :
    (functor name).Gives r fun f r' => r'.lexicon.Allows f := by
  intro f r' result
  obtain ⟨grown, known, _⟩ := r.learned (⟨0, name⟩ : Functor)
  obtain ⟨rfl, rfl⟩ := EStateM.Result.ok.inj ((functor_eq ⟨0, name⟩ r).symm.trans result)
  exact ⟨grown, Reader.lexicon_relabelling ⟨identifier, trivial⟩ known⟩

/-- A predicate that has been named is in the lexicon. -/
theorem gives_predicate {name : String} (identifier : IsIdentifier name)
    (small : ¬ isVariableName name) :
    (predicate name).Gives r fun p r' => r'.lexicon.Allows p := by
  intro p r' result
  obtain ⟨grown, known, _⟩ := r.learned (⟨0, name⟩ : Predicate)
  obtain ⟨rfl, rfl⟩ := EStateM.Result.ok.inj ((predicate_eq ⟨0, name⟩ r).symm.trans result)
  exact ⟨grown, Reader.lexicon_relabelling ⟨identifier, small⟩ known⟩

/-- A variable or constant that has been named is in the lexicon. -/
theorem gives_leaf {name : String} (identifier : IsIdentifier name) :
    (leaf name).Gives r fun t r' => t.Over r'.lexicon := by
  intro t r' result
  by_cases capital : isVariableName name
  · obtain ⟨grown, known, _⟩ := r.learned (⟨0, name⟩ : Variable)
    have legible : Alphabet.legible.Allows (⟨0, name⟩ : Variable) := ⟨identifier, capital⟩
    obtain ⟨rfl, rfl⟩ := EStateM.Result.ok.inj ((leaf_var legible r).symm.trans result)
    exact ⟨grown, .var (Reader.lexicon_relabelling legible known)⟩
  · obtain ⟨grown, known, _⟩ := r.learned (⟨0, name⟩ : Constant)
    have legible : Alphabet.legible.Allows (⟨0, name⟩ : Constant) := ⟨identifier, capital⟩
    obtain ⟨rfl, rfl⟩ := EStateM.Result.ok.inj ((leaf_const legible r).symm.trans result)
    exact ⟨grown, .const (Reader.lexicon_relabelling legible known)⟩

end Reading

/-- What is asked of a part of a text, still being read or read. -/
def Progress.Holds {σ α : Type} (state : σ → Prop) (value : α → Prop) : Progress σ α → Prop
  | .going s => state s
  | .finished a => value a

/-! ### Argument lists -/

/-- An unfinished application over an alphabet. -/
structure Frame.Over (A : Alphabet) (f : Frame) : Prop where
  functor : A.Allows f.functor
  before : ∀ t ∈ f.before, t.Over A

namespace ArgumentList

/-- What has been read of an argument list is over an alphabet. -/
inductive Over (A : Alphabet) : ArgumentList → Prop
  | due {before : List Term} {outer : List Frame} (terms : ∀ t ∈ before, t.Over A)
      (frames : ∀ f ∈ outer, f.Over A) : Over A (.due before outer)
  | named {name : String} {before : List Term} {outer : List Frame}
      (identifier : IsIdentifier name) (terms : ∀ t ∈ before, t.Over A)
      (frames : ∀ f ∈ outer, f.Over A) : Over A (.named name before outer)
  | ended {args : List Term} {outer : List Frame} (some : args ≠ []) (terms : ∀ t ∈ args, t.Over A)
      (frames : ∀ f ∈ outer, f.Over A) : Over A (.ended args outer)

/-- A list of arguments is over an alphabet, and is not empty. -/
def Finished (A : Alphabet) (args : List Term) : Prop :=
  args ≠ [] ∧ ∀ t ∈ args, t.Over A

variable {A B : Alphabet} {r : Reader}

/-- Frames over an alphabet are frames over a larger one. -/
theorem frames_mono {outer : List Frame} (within : A.Within B) (h : ∀ f ∈ outer, f.Over A) :
    ∀ f ∈ outer, f.Over B :=
  fun f hf => ⟨within _ (h f hf).functor, within.terms (h f hf).before⟩

/-- What has been read of an argument list over an alphabet is so over a larger
one. -/
theorem Over.mono {s : ArgumentList} (within : A.Within B) (h : s.Over A) : s.Over B := by
  cases h with
  | due terms frames => exact .due (within.terms terms) (frames_mono within frames)
  | named name terms frames =>
      exact .named name (within.terms terms) (frames_mono within frames)
  | ended some terms frames =>
      exact .ended some (within.terms terms) (frames_mono within frames)

theorem over_start : start.Over A :=
  .due (List.forall_mem_nil _) (List.forall_mem_nil _)

/-- The token behind a term ends an argument list or goes on with it, and
learns nothing. -/
theorem gives_behind {args : List Term} {outer : List Frame} (some : args ≠ [])
    (terms : ∀ t ∈ args, t.Over r.lexicon) (frames : ∀ f ∈ outer, f.Over r.lexicon) (t : Token) :
    (behind args outer t).Gives r fun p r' => p.Holds (Over r'.lexicon) (Finished r'.lexicon) := by
  unfold behind
  split
  · exact gives_pure (Over.due terms frames)
  · exact gives_pure (show Finished r.lexicon _ from ⟨by simpa using some, by simpa using terms⟩)
  · next frame outer _ =>
      obtain ⟨first, others⟩ := List.forall_mem_cons.mp frames
      have whole : (Term.app frame.functor args.reverse).Over r.lexicon :=
        .app first.functor (by simpa using some) (by simpa using terms)
      exact gives_pure (Over.ended (List.cons_ne_nil _ _)
        (List.forall_mem_cons.mpr ⟨whole, first.before⟩) others)
  · exact gives_refuse _ t

/-- Every token keeps what has been read over the lexicon. -/
theorem gives_feed {t : Token} (proper : t.Proper) {s : ArgumentList} (h : s.Over r.lexicon) :
    (s.feed t).Gives r fun p r' => p.Holds (Over r'.lexicon) (Finished r'.lexicon) := by
  cases h with
  | due terms frames =>
      simp only [feed]
      split
      · next kind => exact gives_pure (Over.named (proper kind) terms frames)
      · exact gives_refuse _ t
  | named name terms frames =>
      simp only [feed]
      split
      · refine (gives_functor name).bind fun f r' grown allowed =>
          gives_pure (Over.due (List.forall_mem_nil _) ?_)
        have before := grown.lexicon_within.terms terms
        exact List.forall_mem_cons.mpr
          ⟨⟨allowed, before⟩, frames_mono grown.lexicon_within frames⟩
      · refine (gives_leaf name).bind fun last r' grown fits => ?_
        have before := grown.lexicon_within.terms terms
        exact gives_behind (List.cons_ne_nil _ _) (List.forall_mem_cons.mpr ⟨fits, before⟩)
          (frames_mono grown.lexicon_within frames) t
  | ended some terms frames => exact gives_behind some terms frames t

/-- A text does not end inside an argument list. -/
theorem gives_atEnd {α : Type} {good : α → Reader → Prop} {s : ArgumentList} (h : s.Over A)
    (n : Nat) : (s.atEnd n : Reading α).Gives r good := by
  cases h with
  | due _ _ => exact gives_expected _ _ n
  | named name _ _ => exact (gives_leaf name).bind fun _ _ _ _ => gives_expected _ _ n
  | ended _ _ _ => exact gives_expected _ _ n

end ArgumentList

/-! ### Terms and atoms -/

namespace TermReading

/-- What has been read of a term is over an alphabet. -/
inductive Over (A : Alphabet) : TermReading → Prop
  | due : Over A .due
  | named {name : String} (identifier : IsIdentifier name) : Over A (.named name)
  | inside {f : Functor} {args : ArgumentList} (functor : A.Allows f) (fits : args.Over A) :
      Over A (.inside f args)
  | ended {t : Term} (fits : t.Over A) : Over A (.ended t)

variable {r : Reader} {s : TermReading}

/-- A token keeps what has been read of a term within the lexicon. -/
theorem gives_feed {t : Token} (proper : t.Proper) (h : s.Over r.lexicon) :
    (s.feed t).Gives r fun p r' => p.Holds (Over r'.lexicon) (Term.Over r'.lexicon) := by
  cases h with
  | due =>
      simp only [feed]
      split
      · next kind => exact gives_pure (Over.named (proper kind))
      · exact gives_refuse _ t
  | named identifier =>
      simp only [feed]
      split
      · exact (gives_functor identifier).bind fun f r' _ allowed =>
          gives_pure (Over.inside allowed ArgumentList.over_start)
      · exact (gives_leaf identifier).bind fun last r' _ fits => gives_pure fits
  | inside functor args =>
      refine (ArgumentList.gives_feed proper args).bind fun p r' grown holds => ?_
      have functor := grown.lexicon_within _ functor
      cases p with
      | going args => exact gives_pure (Over.inside functor holds)
      | finished args => exact gives_pure (Over.ended (.app functor holds.1 holds.2))
  | ended fits => exact gives_pure fits

theorem gives_feedOnly {t : Token} (proper : t.Proper) (h : s.Over r.lexicon) :
    (s.feedOnly t).Gives r fun s r' => s.Over r'.lexicon := by
  refine (gives_feed proper h).bind fun p r' _ holds => ?_
  cases p with
  | going s => exact gives_pure holds
  | finished term => exact gives_refuse none t

/-- A term is over the lexicon when the text ends. -/
theorem gives_atEnd (h : s.Over r.lexicon) (n : Nat) :
    (s.atEnd n).Gives r fun t r' => t.Over r'.lexicon := by
  cases h with
  | due => exact gives_expected _ _ n
  | named identifier => exact gives_leaf identifier
  | inside _ args => exact ArgumentList.gives_atEnd args n
  | ended fits => exact gives_pure fits

end TermReading

namespace AtomReading

/-- What has been read of an atom is over an alphabet. -/
inductive Over (A : Alphabet) : AtomReading → Prop
  | due : Over A .due
  | named {p : Predicate} (predicate : A.Allows p) : Over A (.named p)
  | inside {p : Predicate} {args : ArgumentList} (predicate : A.Allows p) (fits : args.Over A) :
      Over A (.inside p args)
  | ended {a : Atom} (fits : a.Over A) : Over A (.ended a)

variable {r : Reader} {s : AtomReading}

/-- A token keeps what has been read of an atom within the lexicon. -/
theorem gives_feed {t : Token} (proper : t.Proper) (h : s.Over r.lexicon) :
    (s.feed t).Gives r fun p r' => p.Holds (Over r'.lexicon) (Atom.Over r'.lexicon) := by
  cases h with
  | due =>
      simp only [feed]
      split
      · exact gives_refuse _ t
      · next kind =>
          split
          · rintro _ _ ⟨⟩
          · next small =>
              exact (gives_predicate (proper (not_not.mp kind)) small).bind fun p r' _ allowed =>
                gives_pure (Over.named allowed)
  | named predicate =>
      simp only [feed]
      split
      · exact gives_pure (Over.inside predicate ArgumentList.over_start)
      · exact gives_pure (show Atom.Over _ _ from ⟨predicate, List.forall_mem_nil _⟩)
  | inside predicate args =>
      refine (ArgumentList.gives_feed proper args).bind fun p r' grown holds => ?_
      have predicate := grown.lexicon_within _ predicate
      cases p with
      | going args => exact gives_pure (Over.inside predicate holds)
      | finished args => exact gives_pure (Over.ended ⟨predicate, holds.2⟩)
  | ended fits => exact gives_pure fits

/-- An atom is over the lexicon when the text ends. -/
theorem gives_atEnd (h : s.Over r.lexicon) (n : Nat) :
    (s.atEnd n).Gives r fun a r' => a.Over r'.lexicon := by
  cases h with
  | due => exact gives_expected _ _ n
  | named predicate => exact gives_pure ⟨predicate, List.forall_mem_nil _⟩
  | inside _ args => exact ArgumentList.gives_atEnd args n
  | ended fits => exact gives_pure fits

end AtomReading

end Resolvent
