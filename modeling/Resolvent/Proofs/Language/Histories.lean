/-
# Histories of readings

Texts of any kind are read with one vocabulary, one after the other, and any of
them may be refused anywhere. A refused text leaves names behind that would not
be known without it. They change in which order symbols are interned, and so
which symbols there are, but not what a name stands for: each time one and the
same symbol, and a variable of its own for each phrase.

So nothing can be told from the phrases about the texts that have been refused
in between. If these are left out, all others are read as before, but for a
relabelling. For the variables it is put together from relabellings of the
single phrases, which have none of them in common. For the other symbols it is
given by the vocabulary in the end.
-/

import Resolvent.Proofs.Language.Phrases
import Resolvent.Proofs.Language.RoundTrip

namespace Resolvent

/-- A text, and what it is to be read as. -/
structure Prompt where
  form : TextForm
  text : String
  deriving DecidableEq

/-- The texts that have been read, each with the phrases in it or with why it
was refused. -/
abbrev Transcript := List (Prompt × Except ParseError (List Phrase))

namespace Transcript

/-- The texts that have not been refused. -/
def accepted (transcript : Transcript) : List (Prompt × List Phrase) :=
  transcript.filterMap fun e => e.2.toOption.map (e.1, ·)

/-- The same text, and phrases with the same names. -/
structure Alike (e e' : Prompt × List Phrase) : Prop where
  prompt : e.1 = e'.1
  phrases : List.Forall₂ (NamedLike Phrase.relabel) e.2 e'.2

/-- All phrases that have been read. -/
def phrases (transcript : Transcript) : List Phrase :=
  transcript.accepted.flatMap Prod.snd

/-- If no text has been refused then all of them are left. -/
theorem accepted_of_ok (entries : List (Prompt × List Phrase)) :
    accepted (entries.map fun e => (e.1, .ok e.2)) = entries := by
  induction entries with
  | nil => rfl
  | cons e rest ih => exact congrArg (e :: ·) ih

/-- What is replaced everywhere is replaced in each part, if the parts are as
long as before. -/
theorem eq_map_of_alike {again entries : List (Prompt × List Phrase)} {g : Phrase → Phrase}
    (alike : List.Forall₂ Alike again entries)
    (same : again.flatMap Prod.snd = (entries.flatMap Prod.snd).map g) :
    again = entries.map fun e => (e.1, e.2.map g) := by
  induction alike with
  | nil => rfl
  | @cons e' e again entries like _ ih =>
      rw [List.flatMap_cons, List.flatMap_cons, List.map_append] at same
      obtain ⟨first, rest⟩ := List.append_inj same (by simp [like.phrases.length_eq])
      rw [List.map_cons, ← ih rest, ← first, ← like.prompt]

end Transcript

namespace Vocabulary

/-- Read texts one after the other. -/
def parseAll (v : Vocabulary) : List Prompt → Transcript × Vocabulary
  | [] => ([], v)
  | p :: prompts =>
    let (result, v) := v.parse p.text p.form
    let (rest, v) := v.parseAll prompts
    ((p, result) :: rest, v)

variable {v v' : Vocabulary}

theorem parseAll_cons (v : Vocabulary) (p : Prompt) (prompts : List Prompt) :
    v.parseAll (p :: prompts) =
      ((p, (v.parse p.text p.form).1) :: ((v.parse p.text p.form).2.parseAll prompts).1,
        ((v.parse p.text p.form).2.parseAll prompts).2) := rfl

/-- Some texts are read after others with the vocabulary that these leave. -/
theorem parseAll_append (v : Vocabulary) (front back : List Prompt) :
    v.parseAll (front ++ back) = ((v.parseAll front).1 ++ ((v.parseAll front).2.parseAll back).1,
      ((v.parseAll front).2.parseAll back).2) := by
  induction front generalizing v with
  | nil => rfl
  | cons p front ih =>
      rw [List.cons_append, parseAll_cons, ih, parseAll_cons, List.cons_append]

/-- What is true of one text is true of all of them. A refused text adds no
phrase. -/
theorem reads_parseAll (v : Vocabulary) (prompts : List Prompt) :
    v.Reads (v.parseAll prompts).1.phrases (v.parseAll prompts).2 := by
  induction prompts generalizing v with
  | nil => exact (Grows.refl v).reads
  | cons p prompts ih =>
      cases result : v.parse p.text p.form with
      | mk outcome v' =>
          rw [parseAll, result]
          cases outcome with
          | ok phrases => exact (reads_parse result).append (ih v')
          | error e =>
              have grows := v.grows_parse p.text p.form
              rw [result] at grows
              exact grows.reads.append (ih v')

/-- The texts that are accepted are accepted by any other vocabulary, one after
the other. -/
theorem parseAll_accepted (v w : Vocabulary) (prompts : List Prompt) :
    ∃ again : List (Prompt × List Phrase),
      (w.parseAll ((v.parseAll prompts).1.accepted.map Prod.fst)).1 =
        again.map (fun e => (e.1, .ok e.2)) ∧
      List.Forall₂ Transcript.Alike again (v.parseAll prompts).1.accepted := by
  induction prompts generalizing v w with
  | nil => exact ⟨[], rfl, .nil⟩
  | cons p prompts ih =>
      cases result : v.parse p.text p.form with
      | mk outcome v' =>
          rw [parseAll_cons, result]
          cases outcome with
          | error e => exact ih v' w
          | ok phrases =>
              obtain ⟨first, made, likes⟩ := parse_again result w
              obtain ⟨rest, same, others⟩ := ih v' (w.parse p.text p.form).2
              refine ⟨(p, first) :: rest, ?_, .cons ⟨rfl, likes⟩ others⟩
              exact congrArg₂ (fun r more => (p, r) :: more) made same

/-! ### One relabelling for all -/

/-- Other variables, and for each other symbol the one that the vocabulary has
for its name. -/
def translation (v : Vocabulary) (f : Variable → Variable) : Relabelling where
  map s := (Relabelling.onVariables f).map (({ vocabulary := v } : Reader).relabelling.map s)

variable {f : Variable → Variable}

/-- A symbol that is no variable is translated into the one known by its
name. -/
theorem translation_of_knows {role : SymbolRole} (other : role ≠ .var) {s s' : Symbol role}
    (known : v.Knows s') (same : s'.name = s.name) : (v.translation f).map s = s' := by
  have found : ({ vocabulary := v } : Reader).relabelling.map s = s' := by
    unfold Knows at known
    show (Reader.find? _ role s.name).getD s = s'
    rw [← same, known, Option.getD_some]
  show (Relabelling.onVariables f).map (Reader.relabelling _ |>.map s) = s'
  rw [found]
  cases role with
  | var => exact absurd rfl other
  | const => rfl
  | functor => rfl
  | predicate => rfl

/-- A translation keeps names if it keeps those of variables. -/
theorem keepsNames_translation (v : Vocabulary) (names : ∀ x, (f x).name = x.name) :
    (v.translation f).KeepsNames := by
  intro role s
  cases role with
  | var => exact names s
  | const => exact Reader.name_relabelling _ s
  | functor => exact Reader.name_relabelling _ s
  | predicate => exact Reader.name_relabelling _ s

/-- A grown vocabulary translates what a smaller one knows to the same symbols,
so that nothing is reread differently. -/
theorem Grows.rereads_translation (h : v.Grows v') (names : ∀ x, (f x).name = x.name) :
    v.Rereads (v'.translation f) v' where
  grows := h
  same_name := v'.keepsNames_translation names
  same {role} s known := by
    by_cases minted : role = .var
    · subst minted
      cases known
    · exact translation_of_knows minted (h.knows known) rfl

/-- On the other symbols of a phrase there is no choice. -/
theorem relabel_eq_translation {A : Alphabet} {ρ : Relabelling} {p : Phrase} (names : ρ.KeepsNames)
    (fits : p.Over A) (fits' : (p.relabel ρ).Over v.alphabet) (own : ∀ x ∈ p.vars, ρ.map x = f x) :
    p.relabel ρ = p.relabel (v.translation f) := by
  have known : p.Over ⟨fun s => v.alphabet.Allows (ρ.map s)⟩ := fits.zip (fun _ _ => id) fits'
  apply Phrase.Over.relabel_congr
  refine known.of_vars (fun {role} s other allowed => ?_) own
  exact (translation_of_knows other (allowed.2.resolve_left other) (names s)).symm

end Vocabulary

namespace Phrase

variable {p q : Phrase} {phrases : List Phrase} {ρ : Relabelling} {f : Variable → Variable}

/-- A relabelling on the variables of a phrase, and another function on all
others. -/
def glue (p : Phrase) (ρ : Relabelling) (f : Variable → Variable) (x : Variable) : Variable :=
  if p.vars.contains x then ρ.map x else f x

/-- In the phrase itself its own replacement counts. -/
theorem glue_of_mem {x : Variable} (hx : x ∈ p.vars) : p.glue ρ f x = ρ.map x :=
  if_pos (List.contains_iff_mem.mpr hx)

/-- In a phrase with other variables the other replacement counts. -/
theorem glue_of_disjoint (alone : p.vars.Disjoint q.vars) {x : Variable} (hx : x ∈ q.vars) :
    p.glue ρ f x = f x :=
  if_neg fun hx' => alone (List.contains_iff_mem.mp hx') hx

/-- If both replacements keep names then so do both together. -/
theorem name_glue (names : ρ.KeepsNames) (names' : ∀ x, (f x).name = x.name) (x : Variable) :
    (p.glue ρ f x).name = x.name := by
  unfold glue
  split
  · exact names x
  · exact names' x

/-- If names are kept, distinct variables of a phrase stay distinct. So nothing
is merged unless a variable of the phrase becomes the same as one of the
others. -/
theorem injOn_glue (names : ρ.KeepsNames) (own : NamesApart p.vars)
    (others : Set.InjOn f {x | ∃ q ∈ phrases, x ∈ q.vars})
    (alone : ∀ q ∈ phrases, p.vars.Disjoint q.vars)
    (distinct : ∀ x ∈ p.vars, ∀ q ∈ phrases, ∀ y ∈ q.vars, ρ.map x ≠ f y) :
    Set.InjOn (p.glue ρ f) {x | ∃ q ∈ p :: phrases, x ∈ q.vars} := by
  have whole : {x | ∃ q ∈ p :: phrases, x ∈ q.vars} =
      {x | x ∈ p.vars} ∪ {x | ∃ q ∈ phrases, x ∈ q.vars} := by
    ext x
    simp
  have parted : Disjoint {x | x ∈ p.vars} {x | ∃ q ∈ phrases, x ∈ q.vars} :=
    Set.disjoint_left.mpr fun x hx ⟨q, hq, hx'⟩ => alone q hq hx hx'
  rw [whole, Set.injOn_union parted]
  refine ⟨?_, others.congr fun x ⟨q, hq, hx⟩ => (glue_of_disjoint (alone q hq) hx).symm, ?_⟩
  · intro x hx y hy merged
    rw [glue_of_mem hx, glue_of_mem hy] at merged
    exact own hx hy (by rw [← names x, ← names y, merged])
  · intro x hx y ⟨q, hq, hy⟩
    rw [glue_of_mem hx, glue_of_disjoint (alone q hq) hy]
    exact distinct x hx q hq y hy

end Phrase

namespace Vocabulary

variable {v : Vocabulary}

/-- Phrases that have no variables in common are all replaced by the same
relabelling, if those that replace them have none in common either. -/
theorem exists_translation {A : Alphabet} {again phrases : List Phrase}
    (likes : List.Forall₂ (NamedLike Phrase.relabel) again phrases)
    (fits : ∀ p ∈ phrases, p.Over A) (fits' : ∀ p ∈ again, p.Over v.alphabet)
    (apart : ∀ p ∈ phrases, NamesApart p.vars)
    (disjoint : phrases.Pairwise fun p q => p.vars.Disjoint q.vars)
    (disjoint' : again.Pairwise fun p q => p.vars.Disjoint q.vars) :
    ∃ f : Variable → Variable, (∀ x, (f x).name = x.name) ∧
      Set.InjOn f {x | ∃ p ∈ phrases, x ∈ p.vars} ∧
      again = phrases.map (Phrase.relabel (v.translation f)) := by
  induction likes with
  | nil => exact ⟨id, fun _ => rfl, by simp, rfl⟩
  | @cons p' p again phrases like _ ih =>
      obtain ⟨ρ, names, rfl⟩ := like
      obtain ⟨first, others⟩ := List.forall_mem_cons.mp fits
      obtain ⟨first', others'⟩ := List.forall_mem_cons.mp fits'
      obtain ⟨own, apart⟩ := List.forall_mem_cons.mp apart
      obtain ⟨alone, disjoint⟩ := List.pairwise_cons.mp disjoint
      obtain ⟨alone', disjoint'⟩ := List.pairwise_cons.mp disjoint'
      obtain ⟨f, names', injOn, rfl⟩ := ih others others' apart disjoint disjoint'
      have image (q : Phrase) (hq : q ∈ phrases) : q.relabel (v.translation f) ∈
          phrases.map (Phrase.relabel (v.translation f)) := List.mem_map_of_mem hq
      refine ⟨p.glue ρ f, Phrase.name_glue names names', ?distinct, ?same⟩
      case distinct =>
        -- A variable that two of them became would be in two of the phrases
        -- that replace them.
        refine Phrase.injOn_glue names own injOn alone fun x hx q hq y hy merged => ?_
        have hx' := first.map_mem_vars first' hx
        have hy' := (others q hq).map_mem_vars (others' _ (image q hq)) hy
        exact alone' _ (image q hq) hx' (merged ▸ hy')
      case same =>
        have rest : ∀ q ∈ phrases, q.relabel (v.translation f) =
            q.relabel (v.translation (p.glue ρ f)) := by
          intro q hq
          refine relabel_eq_translation (v.keepsNames_translation names') (others q hq)
            (others' _ (image q hq)) fun x hx => ?_
          exact (Phrase.glue_of_disjoint (alone q hq) hx).symm
        rw [List.map_cons, List.map_congr_left rest, ← relabel_eq_translation names first first']
        exact fun x hx => (Phrase.glue_of_mem hx).symm

/-- Whatever is read with one vocabulary, and whether or not it is refused, a
name keeps its meaning.

The vocabulary only grows, and never has another symbol for a name. All symbols
of what has been read are the ones that it has for their names, so that those
of one role are the same if their names are. In a phrase this is true of the
variables too, and no variable is in two phrases.

Without the texts that have been refused, the others are read as before, but
for which symbols stand in them. Distinct ones stay distinct, and what was
known from the start stays what it is. -/
theorem names_keep_their_meaning (v : Vocabulary) (prompts : List Prompt) :
    let transcript := (v.parseAll prompts).1
    let known := (v.parseAll prompts).2
    let kept := v.parseAll (transcript.accepted.map Prod.fst)
    (∀ front back, prompts = front ++ back → (v.parseAll front).2.Grows known ∧
      ∀ (role : SymbolRole) (s : Symbol role), (v.parseAll front).2.Knows s → known.Knows s) ∧
    (∀ p ∈ transcript.phrases, p.Over known.alphabet ∧ NamesApart p.vars) ∧
    (∀ role : SymbolRole, Set.InjOn Symbol.name {s : Symbol role | known.Knows s}) ∧
    (transcript.phrases.Pairwise fun p q => p.vars.Disjoint q.vars) ∧
    ∃ ρ, v.Rereads ρ kept.2 ∧
      (∀ role : SymbolRole, Set.InjOn ρ.map {s : Symbol role | known.Knows s}) ∧
      Set.InjOn ρ.map {x : Variable | ∃ p ∈ transcript.phrases, x ∈ p.vars} ∧
      kept.1 = transcript.accepted.map fun e => (e.1, .ok (e.2.map (Phrase.relabel ρ))) := by
  intro transcript known kept
  have read : v.Reads transcript.phrases known := v.reads_parseAll prompts
  have unique : ∀ role : SymbolRole, Set.InjOn Symbol.name {s : Symbol role | known.Knows s} :=
    fun role s hs s' hs' same => eq_of_knows hs hs' same
  refine ⟨?grows, fun p hp => ⟨read.fits p hp, read.apart p hp⟩, unique, read.disjoint, ?kept⟩
  case grows =>
    intro front back same
    have grown : (v.parseAll front).2.Grows known := by
      have later := ((v.parseAll front).2.reads_parseAll back).grows
      rwa [← congrArg Prod.snd (v.parseAll_append front back), ← same] at later
    exact ⟨grown, fun role s => grown.knows⟩
  case kept =>
    obtain ⟨again, same, alike⟩ := v.parseAll_accepted v prompts
    have reread : v.Reads (again.flatMap Prod.snd) kept.2 := by
      have reread := v.reads_parseAll (transcript.accepted.map Prod.fst)
      rwa [same, Transcript.phrases, Transcript.accepted_of_ok] at reread
    have likes : List.Forall₂ (NamedLike Phrase.relabel) (again.flatMap Prod.snd)
        transcript.phrases :=
      List.rel_flatMap alike fun _ _ like => like.phrases
    obtain ⟨f, names, injOn, flat⟩ := exists_translation likes read.fits reread.fits read.apart
      read.disjoint reread.disjoint
    have keeps : (kept.2.translation f).KeepsNames := kept.2.keepsNames_translation names
    refine ⟨kept.2.translation f, reread.grows.rereads_translation names, ?_, injOn, ?_⟩
    · intro role s hs s' hs' merged
      apply unique role hs hs'
      rw [← keeps s, ← keeps s', merged]
    · rw [same, Transcript.eq_map_of_alike alike flat, List.map_map]
      rfl

/-- The refused text has left `p`, `a` and `b` behind. Without it `b` is
interned only after `q`. -/
theorem names_keep_their_meaning_refused :
    let v : Vocabulary := {}
    let refused : Prompt := ⟨.clause, "p(a, b"⟩
    let accepted : Prompt := ⟨.program, "q(X, b). r(X)."⟩
    let q : Phrase := .clause (.fact ⟨⟨3, "q"⟩, [.var ⟨4, "X"⟩, .const ⟨2, "b"⟩]⟩)
    let r : Phrase := .clause (.fact ⟨⟨5, "r"⟩, [.var ⟨6, "X"⟩]⟩)
    let q' : Phrase := .clause (.fact ⟨⟨0, "q"⟩, [.var ⟨1, "X"⟩, .const ⟨2, "b"⟩]⟩)
    let r' : Phrase := .clause (.fact ⟨⟨3, "r"⟩, [.var ⟨4, "X"⟩]⟩)
    (v.parseAll [refused, accepted]).1.accepted = [(accepted, [q, r])] ∧
    (v.parseAll [accepted]).1 = [(accepted, .ok [q', r'])] ∧
    (v.parseAll [refused]).2.Grows (v.parseAll [refused, accepted]).2 ∧
    ∃ ρ : Relabelling, ρ.KeepsNames ∧ [q', r'] = [q, r].map (Phrase.relabel ρ) := by
  intro v refused accepted q r q' r'
  have before : (v.parseAll [refused, accepted]).1.accepted = [(accepted, [q, r])] := by cbv
  have after : (v.parseAll [accepted]).1 = [(accepted, .ok [q', r'])] := by cbv
  obtain ⟨grows, -, -, -, ρ, rereads, -, -, same⟩ :=
    v.names_keep_their_meaning [refused, accepted]
  rw [before] at same
  have entry := (List.cons.inj (after.symm.trans same)).1
  exact ⟨before, after, (grows [refused] [accepted] rfl).1, ρ, rereads.same_name,
    Except.ok.inj (congrArg Prod.snd entry)⟩

end Vocabulary

end Resolvent
