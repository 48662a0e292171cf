/-
# Programs given by their lines

The sample programs are written line by line, and each of their lines is a
program by itself. It is therefore enough to read every line alone. Whatever a
vocabulary knows already, it reads from the whole text what is read from the
lines, up to the choice of symbols for the names.

For a constant, a functor or a predicate there is no choice in the end, since
the vocabulary has one symbol for a name. Only the variables of a clause are
different each time.
-/

import Resolvent.Proofs.Language.Concatenation
import Resolvent.Proofs.Language.Namesakes
import Resolvent.Proofs.Search.Tree

namespace Resolvent

namespace Vocabulary

/-- A text that some vocabulary reads as a program with these clauses. -/
def Accepts (text : String) (clauses : List Clause) : Prop :=
  ∃ u u' : Vocabulary, u.parseProgram text = (.ok clauses, u')

/-- Lines are accepted if they are read by a vocabulary that knows nothing. -/
theorem accepts_of_read {lines : List (String × List Clause)}
    (read : ∀ line ∈ lines,
      (({} : Vocabulary).parseProgram line.1).1.toOption = some line.2) :
    List.Forall₂ Accepts (lines.map Prod.fst) (lines.map Prod.snd) := by
  rw [List.forall₂_map_left_iff, List.forall₂_map_right_iff, List.forall₂_same]
  intro line among
  have found := read line among
  cases parsed : ({} : Vocabulary).parseProgram line.1 with
  | mk outcome u =>
      rw [parsed] at found
      cases outcome with
      | error e => cases found
      | ok clauses =>
          cases found
          exact ⟨{}, u, parsed⟩

/-- An empty text is a program without clauses. -/
theorem parseProgram_empty (v : Vocabulary) : v.parseProgram "" = (.ok [], v) := by
  have cut : Token.ofText "" = .ok [] := by
    rw [Token.ofText]
    show Token.scan [] 0 [] = .ok []
    rw [Token.scan]
    rfl
  exact parseProgram_eq_ok_iff.mpr ⟨[], { vocabulary := v }, cut, rfl, rfl⟩

/-- One more line is read behind lines that have been read. -/
private theorem parseProgram_line {v v' v'' : Vocabulary} {above line : String}
    {clauses clauses' : List Clause} (first : v.parseProgram above = (.ok clauses, v'))
    (ended : above = "" ∨ above.toList.getLast? = some '\n')
    (second : v'.parseProgram line = (.ok clauses', v'')) :
    v.parseProgram (above ++ line ++ "\n") = (.ok (clauses ++ clauses'), v'') := by
  have whole : v.parseProgram (above ++ line) = (.ok (clauses ++ clauses'), v'') := by
    rcases ended with rfl | last
    · rw [v.parseProgram_empty] at first
      cases first
      rw [String.empty_append]
      exact second
    · exact parseProgram_append (.inl last) first second
  have behind : LineBetween (above ++ line).toList "\n".toList := .inr (by simp [EndsLine])
  have closed := parseProgram_append behind whole v''.parseProgram_newline
  rwa [List.append_nil] at closed

/-- Every vocabulary reads from a text what is read from its lines. -/
theorem parseProgram_of_lines {texts : List String} {each : List (List Clause)}
    (accepted : List.Forall₂ Accepts texts each) (v : Vocabulary) :
    ∃ clauses v', v.parseProgram (Text.lines texts) = (.ok clauses, v') ∧
      List.Forall₂ (NamedLike Clause.relabel) clauses each.flatten := by
  suffices behind : ∀ (above : String) (read : List Clause) (v' : Vocabulary),
      (above = "" ∨ above.toList.getLast? = some '\n') → v.parseProgram above = (.ok read, v') →
      ∃ clauses v'',
        v.parseProgram (texts.foldl (fun above line => above ++ line ++ "\n") above) =
          (.ok (read ++ clauses), v'') ∧
        List.Forall₂ (NamedLike Clause.relabel) clauses each.flatten by
    exact behind "" [] v (.inl rfl) v.parseProgram_empty
  induction accepted with
  | nil =>
      intro above read v' _ parsed
      exact ⟨[], v', by rw [List.append_nil]; exact parsed, .nil⟩
  | @cons line clauses _ _ first _ ih =>
      intro above read v' ended parsed
      obtain ⟨u, u', accepted⟩ := first
      obtain ⟨again, v'', parsed', likes⟩ := parseProgram_again accepted v'
      obtain ⟨others, last, whole, likes'⟩ := ih (above ++ line ++ "\n") (read ++ again) v''
        (.inr (by simp)) (parseProgram_line parsed ended parsed')
      rw [List.append_assoc] at whole
      exact ⟨again ++ others, last, whole, List.rel_append likes likes'⟩

/-! ### The symbols of the vocabulary -/

/-- For each symbol the one that the vocabulary has for its name. The variables
are given. -/
def dictionary (v : Vocabulary) (named : String → Variable) : Relabelling where
  map {role} s :=
    match role with
    | .var => named s.name
    | .const => (v.constant s.name).1
    | .functor => (v.functor s.name).1
    | .predicate => (v.predicate s.name).1

variable {v : Vocabulary} {named : String → Variable}

/-- Different names stand for different predicates. -/
theorem predicate_ne (v : Vocabulary) {name name' : String} (different : name ≠ name') :
    (v.predicate name).1 ≠ (v.predicate name').1 := by
  refine mt (congrArg Symbol.name) ?_
  rwa [predicate, predicate, intern_name, intern_name]

/-- Interning gives the symbol that is found, if there is one. -/
theorem intern_eq_of_find? {role : SymbolRole} {known : List (Symbol role)} {supply : Supply}
    {name : String} {s : Symbol role} (found : known.find? (·.name = name) = some s) :
    (intern known supply name).1 = s := by
  rw [intern, found]

/-- A dictionary gives the symbol that is known by the name, unless it is a
variable. -/
theorem dictionary_of_knows {role : SymbolRole} (other : role ≠ .var) {s s' : Symbol role}
    (known : v.Knows s') (same : s'.name = s.name) : (v.dictionary named).map s = s' := by
  unfold Knows at known
  rw [same] at known
  cases role with
  | var => exact absurd rfl other
  | const => exact intern_eq_of_find? known
  | functor => exact intern_eq_of_find? known
  | predicate => exact intern_eq_of_find? known

/-- A legible clause has for each name the symbol of the vocabulary, and a
variable of its own. -/
theorem exists_dictionary {u : Vocabulary} {c : Clause} {ρ : Relabelling} (names : ρ.KeepsNames)
    (legible : c.Legible u) (legible' : (c.relabel ρ).Legible v) :
    ∃ named : String → Variable, (∀ name, (named name).name = name) ∧
      c.relabel ρ = c.relabel (v.dictionary named) := by
  let named (name : String) : Variable :=
    ((c.vars.find? (·.name = name)).map ρ.map).getD ⟨0, name⟩
  have own : ∀ x ∈ c.vars, named x.name = ρ.map x := by
    intro x hx
    obtain ⟨y, found⟩ := Option.isSome_iff_exists.mp
      (List.find?_isSome (p := (·.name = x.name)) |>.mpr ⟨x, hx, decide_eq_true rfl⟩)
    have same : y.name = x.name := by simpa using List.find?_some found
    obtain rfl := legible.apart (List.mem_of_find?_eq_some found) hx same
    simp only [named, found, Option.map_some, Option.getD_some]
  refine ⟨named, fun name => ?_, ?_⟩
  · cases found : c.vars.find? (·.name = name) with
    | none => simp only [named, found, Option.map_none, Option.getD_none]
    | some y =>
        simp only [named, found, Option.map_some, Option.getD_some]
        exact (names y).trans (by simpa using List.find?_some found)
  · have known : c.Over ⟨fun s => v.alphabet.Allows (ρ.map s)⟩ :=
      legible.fits.zip (fun _ _ => id) legible'.fits
    refine (known.of_vars (fun {role} s other allowed => ?_) fun x hx => ?_).relabel_congr
    · exact (dictionary_of_knows other (allowed.2.resolve_left other) (names s)).symm
    · exact (own x hx).symm

/-- All clauses of a program, each with variables of its own. -/
theorem exists_dictionaries {clauses clauses' : List Clause}
    (likes : List.Forall₂ (NamedLike Clause.relabel) clauses clauses')
    (legible : ∀ c ∈ clauses, c.Legible v) (legible' : ∀ c ∈ clauses', ∃ u, c.Legible u) :
    ∃ named : Nat → String → Variable, (∀ i name, (named i name).name = name) ∧
      clauses = clauses'.mapIdx fun i c => c.relabel (v.dictionary (named i)) := by
  induction likes with
  | nil => exact ⟨fun _ name => ⟨0, name⟩, fun _ _ => rfl, rfl⟩
  | cons like _ ih =>
      obtain ⟨ρ, names, rfl⟩ := like
      obtain ⟨here, legible⟩ := List.forall_mem_cons.mp legible
      obtain ⟨⟨u, here'⟩, legible'⟩ := List.forall_mem_cons.mp legible'
      obtain ⟨first, called, same⟩ := exists_dictionary names here' here
      obtain ⟨named, called', rfl⟩ := ih legible legible'
      refine ⟨fun i => i.casesOn first named, fun i => ?_, ?_⟩
      · cases i with
        | zero => exact called
        | succ i => exact called' i
      · rw [List.mapIdx_cons, same]
        rfl

/-- A clause that is accepted can be read, and so it is legible for some
vocabulary. -/
theorem exists_legible_of_accepts {texts : List String} {each : List (List Clause)}
    (accepted : List.Forall₂ Accepts texts each) : ∀ c ∈ each.flatten, ∃ u, c.Legible u := by
  induction accepted with
  | nil => simp
  | cons first _ ih =>
      obtain ⟨u, u', read⟩ := first
      rw [List.flatten_cons, List.forall_mem_append]
      exact ⟨fun c hc => ⟨u', legible_of_parseProgram read c hc⟩, ih⟩

end Vocabulary

/-- Every clause that is read is named like one of those that are known from
the lines. -/
theorem exists_namedLike_of_mem {clauses clauses' : List Clause}
    (likes : List.Forall₂ (NamedLike Clause.relabel) clauses clauses') :
    ∀ c ∈ clauses, ∃ d ∈ clauses', NamedLike Clause.relabel c d := by
  induction likes with
  | nil => simp
  | cons first _ ih =>
      intro c hc
      rcases List.mem_cons.mp hc with rfl | later
      · exact ⟨_, List.mem_cons_self, first⟩
      · obtain ⟨d, hd, like⟩ := ih c later
        exact ⟨d, List.mem_cons_of_mem _ hd, like⟩

/-- The clauses that are added to a store are there beside those that were
there before. -/
theorem Store.mem_clauses_extend {store : Store} {clauses : List Clause} {c : Clause} :
    c ∈ (store.extend clauses).clauses ↔ c ∈ store.clauses ∨ c ∈ clauses := by
  induction clauses generalizing store with
  | nil => simp [extend]
  | cons d rest ih =>
      have added : c ∈ (store.add d).clauses ↔ c ∈ store.clauses ∨ c = d := by
        cases d <;> simp [add, Store.clauses] <;> grind
      have later : store.extend (d :: rest) = (store.add d).extend rest := rfl
      rw [later, ih, added, List.mem_cons, or_assoc]

/-- A knowledge base with nothing in it has the clauses of a program when it is
given its text. -/
theorem KnowledgeBase.addProgram_of_lines {texts : List String} {each : List (List Clause)}
    (accepted : List.Forall₂ Vocabulary.Accepts texts each) (v : Vocabulary) :
    ∃ clauses base, addProgram ⟨{}, v⟩ (Text.lines texts) = (.ok clauses, base) ∧
      List.Forall₂ (NamedLike Clause.relabel) clauses each.flatten ∧
      ∀ c, c ∈ base.store.clauses ↔ c ∈ clauses := by
  obtain ⟨clauses, v', parsed, likes⟩ := Vocabulary.parseProgram_of_lines accepted v
  refine ⟨clauses, ⟨Store.extend {} clauses, v'⟩, ?_, likes, fun c => ?_⟩
  · simp only [addProgram, parsed]
  · rw [Store.mem_clauses_extend]
    exact or_iff_right List.not_mem_nil

/-- What is in the knowledge base then, in the order of the lines: the clauses
with the symbols of the vocabulary, and variables that may be different in each
clause. -/
theorem KnowledgeBase.exists_dictionaries_of_lines {texts : List String} {each : List (List Clause)}
    (accepted : List.Forall₂ Vocabulary.Accepts texts each) (v : Vocabulary) :
    ∃ base, ∃ named : Nat → String → Variable, (∀ i name, (named i name).name = name) ∧
      let clauses := each.flatten.mapIdx fun i c => c.relabel (base.vocabulary.dictionary (named i))
      addProgram ⟨{}, v⟩ (Text.lines texts) = (.ok clauses, base) ∧
        base.store = Store.extend {} clauses := by
  obtain ⟨clauses, v', parsed, likes⟩ := Vocabulary.parseProgram_of_lines accepted v
  obtain ⟨named, called, rfl⟩ := Vocabulary.exists_dictionaries likes
    (Vocabulary.legible_of_parseProgram parsed) (Vocabulary.exists_legible_of_accepts accepted)
  let clauses := each.flatten.mapIdx fun i c => c.relabel (v'.dictionary (named i))
  refine ⟨⟨Store.extend {} clauses, v'⟩, named, called, ?_, rfl⟩
  simp only [addProgram, parsed]
  rfl

/-- The variables of a program have been handed out when it has been read. -/
theorem KnowledgeBase.knows_of_addProgram {v : Vocabulary} {text : String} {clauses : List Clause}
    {base : KnowledgeBase} (added : addProgram ⟨{}, v⟩ text = (.ok clauses, base)) :
    base.vocabulary.supply.Knows base.store [] := by
  unfold addProgram at added
  split at added
  · next read v' parsed =>
      cases added
      refine ⟨fun c hc x hx => ?_, by simp⟩
      rcases Store.mem_clauses_extend.mp hc with old | new
      · cases old
      · exact ((Vocabulary.apart_of_parseProgram parsed).1 c new x hx).known
  · cases added

/-- Two more variables can be handed out for a goal that is ground
otherwise. -/
theorem KnowledgeBase.exists_fresh {v : Vocabulary} {text : String} {clauses : List Clause}
    {base : KnowledgeBase} (added : addProgram ⟨{}, v⟩ text = (.ok clauses, base)) :
    ∃ (x y : Variable) (given : Supply), x ≠ y ∧ ∀ goal : Atom,
      (∀ t ∈ goal.args, t.isGround ∨ t = .var x ∨ t = .var y) → given.Knows base.store [goal] := by
  let supply := base.vocabulary.supply
  refine ⟨⟨supply.next, "X"⟩, ⟨supply.next + 1, "Y"⟩, ⟨supply.next + 2⟩, by simp,
    fun goal asked => ⟨fun c hc x hx => ?_, List.forall_mem_singleton.mpr ?_⟩⟩
  · exact ((knows_of_addProgram added).clauses c hc x hx).mono (Nat.le_add_right _ 2)
  · rintro z ⟨t, ht, hz⟩
    rcases asked t ht with ground | rfl | rfl
    · exact absurd hz (Term.isGround_iff.mp ground z)
    · obtain rfl := List.mem_singleton.mp (Term.vars_var _ ▸ hz)
      simp [Supply.Covers]
    · obtain rfl := List.mem_singleton.mp (Term.vars_var _ ▸ hz)
      simp [Supply.Covers]

end Resolvent
