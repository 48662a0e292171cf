/-
# Symbols found again by their names

What is written of a symbol is its name. When a text is read, each name leads
to the symbol of that name which the reader knows by then, or to a new one
which it knows from then on. A reader never forgets a symbol and never finds
another one for a name, so the symbol that a name has led to is still the one
that it leads to when the whole text has been read.

The term that is read is therefore the term that was written, with each symbol
replaced by the one that the reader finds in the end.
-/

import Resolvent.Language.Reading
import Resolvent.Proofs.Language.Lexemes

namespace Resolvent

/-- A symbol of the same role for each symbol. -/
structure Relabelling where
  map : {role : SymbolRole} → Symbol role → Symbol role

namespace Term

mutual

/-- The term with all symbols replaced. -/
def relabel (ρ : Relabelling) : Term → Term
  | .var x => .var (ρ.map x)
  | .const c => .const (ρ.map c)
  | .app f args => .app (ρ.map f) (relabelEach ρ args)

/-- The terms with all symbols replaced. -/
def relabelEach (ρ : Relabelling) : List Term → List Term
  | [] => []
  | t :: ts => relabel ρ t :: relabelEach ρ ts

end

@[simp] theorem relabel_var (ρ : Relabelling) (x : Variable) :
    (Term.var x).relabel ρ = .var (ρ.map x) := rfl

@[simp] theorem relabel_const (ρ : Relabelling) (c : Constant) :
    (Term.const c).relabel ρ = .const (ρ.map c) := rfl

/-- An application has its functor and its arguments relabelled. -/
@[simp] theorem relabel_app (ρ : Relabelling) (f : Functor) (args : List Term) :
    (Term.app f args).relabel ρ = .app (ρ.map f) (args.map (relabel ρ)) := by
  have each : relabelEach ρ args = args.map (relabel ρ) := by
    induction args with
    | nil => rfl
    | cons t ts ih => rw [relabelEach, ih, List.map_cons]
  rw [relabel, each]

end Term

/-- The atom with all symbols replaced. -/
def Atom.relabel (ρ : Relabelling) (a : Atom) : Atom :=
  ⟨ρ.map a.predicate, a.args.map (Term.relabel ρ)⟩

/-- The clause with all symbols replaced. A fact stays a fact, and a rule a
rule. -/
def Clause.relabel (ρ : Relabelling) : Clause → Clause
  | .fact a => .fact (a.relabel ρ)
  | .rule r => .rule ⟨r.head.relabel ρ, r.body.map (Atom.relabel ρ)⟩

/-- The symbols on which two relabellings agree. -/
def Relabelling.agreement (ρ ρ' : Relabelling) : Alphabet where
  Allows s := ρ.map s = ρ'.map s

/-- Only the symbols of a term matter. -/
theorem Term.Over.relabel_congr {ρ ρ' : Relabelling} {t : Term} (h : t.Over (ρ.agreement ρ')) :
    t.relabel ρ = t.relabel ρ' := by
  induction h with
  | var h => exact congrArg Term.var h
  | const h => exact congrArg Term.const h
  | app h _ _ ih =>
      rw [relabel_app, relabel_app, List.map_congr_left ih]
      exact congrArg (Term.app · _) h

/-- An atom sees no more of two relabellings than where they agree. -/
theorem Atom.Over.relabel_congr {ρ ρ' : Relabelling} {a : Atom} (h : a.Over (ρ.agreement ρ')) :
    a.relabel ρ = a.relabel ρ' := by
  have args := List.map_congr_left fun t ht => (h.args t ht).relabel_congr
  exact congrArg₂ Atom.mk h.predicate args

/-! ### What readers know -/

/-- A name that has been looked for is found. -/
theorem Vocabulary.find?_intern {role : SymbolRole} (known : List (Symbol role)) (supply : Supply)
    (name : String) :
    (intern known supply name).2.1.find? (·.name = name) = some (intern known supply name).1 := by
  unfold intern
  split
  · next found => exact found
  · next unknown =>
      rw [List.find?_append, unknown]
      simp [Supply.mint]

namespace Reader

/-- The known symbols of a role, the variables of the text included. -/
def table (r : Reader) : (role : SymbolRole) → List (Symbol role)
  | .var => r.scope
  | .const => r.vocabulary.constants
  | .functor => r.vocabulary.functors
  | .predicate => r.vocabulary.predicates

/-- The known symbol of a name. -/
def find? (r : Reader) (role : SymbolRole) (name : String) : Option (Symbol role) :=
  (r.table role).find? (·.name = name)

/-- The symbols of which the reader knows the names. -/
def naming (r : Reader) : Alphabet where
  Allows {role} s := (r.find? role s.name).isSome

/-- Replace each symbol by the known one of the same name, if there is one. -/
def relabelling (r : Reader) : Relabelling where
  map {role} s := (r.find? role s.name).getD s

/-- The second reader knows all that the first one knows. -/
def Extends (r r' : Reader) : Prop :=
  ∀ role, r.table role <+: r'.table role

theorem Extends.refl (r : Reader) : r.Extends r :=
  fun _ => List.prefix_rfl

/-- A reader that goes on to learn has learned all the more. -/
theorem Extends.trans {r r' r'' : Reader} (h : r.Extends r') (h' : r'.Extends r'') :
    r.Extends r'' :=
  fun role => (h role).trans (h' role)

/-- A name leads to the same symbol later on. -/
theorem Extends.find?_eq {r r' : Reader} (h : r.Extends r') {role : SymbolRole} {name : String}
    {s : Symbol role} (found : r.find? role name = some s) : r'.find? role name = some s := by
  obtain ⟨more, same⟩ := h role
  rw [find?, ← same, List.find?_append, ← find?, found]
  rfl

/-- The reader goes on to find the same symbols. -/
theorem Extends.naming_within {r r' : Reader} (h : r.Extends r') :
    r.naming.Within r'.naming := by
  intro role s known
  obtain ⟨found, known⟩ := Option.isSome_iff_exists.mp known
  exact Option.isSome_iff_exists.mpr ⟨found, h.find?_eq known⟩

/-- Later a name still stands for what it stood for. -/
theorem Extends.naming_within_agreement {r r' : Reader} (h : r.Extends r') :
    r.naming.Within (r.relabelling.agreement r'.relabelling) := by
  intro role s known
  obtain ⟨found, known⟩ := Option.isSome_iff_exists.mp known
  show (r.find? role s.name).getD s = (r'.find? role s.name).getD s
  rw [known, h.find?_eq known]

/-- The symbol that has been found has the name that was looked for. -/
theorem name_relabelling (r : Reader) {role : SymbolRole} (s : Symbol role) :
    (r.relabelling.map s).name = s.name := by
  show ((r.find? role s.name).getD s).name = s.name
  cases found : r.find? role s.name with
  | none => rfl
  | some s' => simpa using List.find?_some found

/-- What becomes of the reader when a symbol is looked for among those of its
role. -/
theorem extends_of_intern {r r' : Reader} {role : SymbolRole} {supply : Supply} {s : Symbol role}
    (here : r'.table role = (Vocabulary.intern (r.table role) supply s.name).2.1)
    (elsewhere : ∀ other, other ≠ role → r'.table other = r.table other) :
    r.Extends r' ∧ r'.naming.Allows s ∧
      r'.relabelling.map s = (Vocabulary.intern (r.table role) supply s.name).1 := by
  have found : r'.find? role s.name =
      some (Vocabulary.intern (r.table role) supply s.name).1 := by
    rw [find?, here, Vocabulary.find?_intern]
  refine ⟨fun other => ?_, Option.isSome_iff_exists.mpr ⟨_, found⟩, ?_⟩
  · by_cases same : other = role
    · subst same
      rw [here]
      exact Vocabulary.isPrefix_intern _ _ _
    · exact elsewhere other same ▸ List.prefix_rfl
  · show (r'.find? role s.name).getD s = _
    rw [found]
    rfl

/-- The reader after a name has been looked for. -/
def learn (r : Reader) (role : SymbolRole) (name : String) : Reader :=
  match role with
  | .var =>
    let (_, scope, supply) := Vocabulary.intern r.scope r.vocabulary.supply name
    ⟨{ r.vocabulary with supply }, scope⟩
  | .const => { r with vocabulary := (r.vocabulary.constant name).2 }
  | .functor => { r with vocabulary := (r.vocabulary.functor name).2 }
  | .predicate => { r with vocabulary := (r.vocabulary.predicate name).2 }

/-- When a symbol has been learned, its name stands for what interning it has
given. -/
theorem learned (r : Reader) {role : SymbolRole} (s : Symbol role) :
    r.Extends (r.learn role s.name) ∧ (r.learn role s.name).naming.Allows s ∧
      (r.learn role s.name).relabelling.map s =
        (Vocabulary.intern (r.table role) r.vocabulary.supply s.name).1 := by
  cases role <;>
    refine extends_of_intern rfl fun other different => ?_ <;>
    cases other <;> first | rfl | exact absurd rfl different

end Reader

/-! ### Reading a name -/

namespace Reading

variable {α β : Type}

/-- What comes after an accepted reading goes on with its reader. -/
theorem bind_of_ok {first : Reading α} {next : α → Reading β} {r r' : Reader} {a : α}
    (h : first r = .ok a r') : (first >>= next) r = next a r' := by
  show EStateM.bind first next r = _
  rw [EStateM.bind, h]

/-- Nothing comes after a refusal. -/
theorem bind_of_error {first : Reading α} {next : α → Reading β} {r r' : Reader} {e : ParseError}
    (h : first r = .error e r') : (first >>= next) r = .error e r' := by
  show EStateM.bind first next r = _
  rw [EStateM.bind, h]

/-- The name of a variable is read as the variable that it stands for by
then. -/
theorem leaf_var {x : Variable} (h : Alphabet.legible.Allows x) (r : Reader) :
    leaf x.name r = .ok (.var ((r.learn .var x.name).relabelling.map x)) (r.learn .var x.name) := by
  have capital : isVariableName x.name := h.2
  rw [(r.learned x).2.2, leaf]
  show EStateM.modifyGet _ r = _
  rw [EStateM.modifyGet, if_pos capital]
  rfl

/-- The name of a constant is read as the constant that it stands for by
then. -/
theorem leaf_const {c : Constant} (h : Alphabet.legible.Allows c) (r : Reader) :
    leaf c.name r =
      .ok (.const ((r.learn .const c.name).relabelling.map c)) (r.learn .const c.name) := by
  have small : ¬ isVariableName c.name := h.2
  rw [(r.learned c).2.2, leaf]
  show EStateM.modifyGet _ r = _
  rw [EStateM.modifyGet, if_neg small]
  rfl

/-- The name of a functor is read as the functor that it stands for by then. -/
theorem functor_eq (f : Functor) (r : Reader) :
    functor f.name r =
      .ok ((r.learn .functor f.name).relabelling.map f) (r.learn .functor f.name) := by
  rw [(r.learned f).2.2]
  rfl

/-- The name of a predicate is read as the predicate that it stands for by
then. -/
theorem predicate_eq (p : Predicate) (r : Reader) :
    predicate p.name r =
      .ok ((r.learn .predicate p.name).relabelling.map p) (r.learn .predicate p.name) := by
  rw [(r.learned p).2.2]
  rfl

end Reading

end Resolvent
