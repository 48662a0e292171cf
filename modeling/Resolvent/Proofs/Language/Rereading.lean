/-
# Reading what has been written

The tokens of a legible term, atom or clause are accepted one by one, and lead
to the term, atom or clause with each symbol replaced by the one that the
reader knows for its name.

A name inside a term is looked for only when the next token is seen, because a
parenthesis would make it a functor. What is reached with the last token of a
term is therefore a state and a reader from which any other token leads on as
if the term had been read already.
-/

import Resolvent.Proofs.Language.Relabelling

namespace Resolvent

open Reading

/-! ### Going on -/

/-- Tokens are accepted one by one, and more have to follow. -/
inductive Going {σ α : Type} (feed : Token → σ → Reading (Progress σ α)) :
    σ → Reader → List Token → σ → Reader → Prop
  | nil (s : σ) (r : Reader) : Going feed s r [] s r
  | cons {s s' s'' : σ} {r r' r'' : Reader} {t : Token} {ts : List Token}
      (first : feed t s r = .ok (.going s') r') (rest : Going feed s' r' ts s'' r'') :
      Going feed s r (t :: ts) s'' r''

namespace Going

variable {σ τ α β : Type} {feed : Token → σ → Reading (Progress σ α)} {s s' s'' : σ}
  {r r' r'' : Reader} {ts ts' : List Token}

theorem single {t : Token} (h : feed t s r = .ok (.going s') r') : Going feed s r [t] s' r' :=
  .cons h (.nil s' r')

theorem append (h : Going feed s r ts s' r') (h' : Going feed s' r' ts' s'' r'') :
    Going feed s r (ts ++ ts') s'' r'' := by
  induction h with
  | nil => exact h'
  | cons first _ ih => exact .cons first (ih h')

/-- Inside something larger the tokens are accepted as well. -/
theorem inside (outer : Token → τ → Reading (Progress τ β)) (wrap : σ → τ)
    (step : ∀ {t s r s' r'}, feed t s r = .ok (.going s') r' →
      outer t (wrap s) r = .ok (.going (wrap s')) r')
    (h : Going feed s r ts s' r') : Going outer (wrap s) r ts (wrap s') r' := by
  induction h with
  | nil => exact .nil _ _
  | cons first _ ih => exact .cons (step first) ih

/-- A reading that goes on is carried along by one that contains it. -/
theorem foldlM {outer : τ → Token → Reading τ} (wrap : σ → τ)
    (step : ∀ {t s r s' r'}, feed t s r = .ok (.going s') r' →
      outer (wrap s) t r = .ok (wrap s') r')
    (h : Going feed s r ts s' r') : ts.foldlM outer (wrap s) r = .ok (wrap s') r' := by
  induction h with
  | nil => rfl
  | cons first _ ih => rw [List.foldlM_cons, bind_of_ok (step first), ih]

end Going

/-- One more token is accepted behind others. -/
theorem Reading.foldlM_behind {σ : Type} {feed : σ → Token → Reading σ} {s s' s'' : σ}
    {r r' r'' : Reader} {ts : List Token} {t : Token} (before : ts.foldlM feed s r = .ok s' r')
    (step : feed s' t r' = .ok s'' r'') (rest : List Token) :
    (ts ++ [t] ++ rest).foldlM feed s r = rest.foldlM feed s'' r'' := by
  rw [List.append_assoc, List.singleton_append, List.foldlM_append, bind_of_ok before,
    List.foldlM_cons, bind_of_ok step]

/-- Where a mark stands between lexemes, there is a token of its kind between
the tokens. -/
theorem exists_cut {tokens : List Token} {before behind : List Lexeme} {m : Mark}
    (same : tokens.map Token.lexeme = before ++ [m.lexeme] ++ behind) :
    ∃ (front : List Token) (middle : Token) (back : List Token),
      tokens = front ++ [middle] ++ back ∧ front.map Token.lexeme = before ∧
        middle.kind = m.kind ∧ back.map Token.lexeme = behind := by
  obtain ⟨front, back, rfl, whole, rest⟩ := List.map_eq_append_iff.mp same
  obtain ⟨first, last, rfl, part, mark⟩ := List.map_eq_append_iff.mp whole
  obtain ⟨middle, rfl, lexeme⟩ := List.map_eq_singleton_iff.mp mark
  exact ⟨first, middle, back, rfl, part, congrArg Lexeme.kind lexeme, rest⟩

/-- The tokens of a name with something between parentheses behind it. -/
theorem exists_cut_parentheses {tokens : List Token} {name : String} {inner : List Lexeme}
    (same : tokens.map Token.lexeme =
      [⟨.name, name⟩] ++ [Mark.opening.lexeme] ++ inner ++ [Mark.closing.lexeme]) :
    ∃ (first opening : Token) (middle : List Token) (closing : Token),
      tokens = [first] ++ [opening] ++ middle ++ [closing] ∧
        first.kind = .name ∧ first.text = name ∧ opening.kind = .opening ∧
        closing.kind = .closing ∧ middle.map Token.lexeme = inner := by
  rw [← List.append_nil (_ ++ [Mark.closing.lexeme])] at same
  obtain ⟨front, closing, back, rfl, front_same, closes, nothing⟩ := exists_cut same
  obtain ⟨named, opening, middle, rfl, name_same, opens, inside⟩ := exists_cut front_same
  obtain ⟨first, rfl, lexeme⟩ := List.map_eq_singleton_iff.mp name_same
  obtain ⟨kind, text⟩ := Lexeme.mk.inj lexeme
  rw [List.map_eq_nil_iff] at nothing
  exact ⟨first, opening, middle, closing, by rw [nothing, List.append_nil], kind, text, opens,
    closes, inside⟩

/-! ### Argument lists -/

namespace ArgumentList

/-- With the last token of a term, all is as if the term had been read. -/
def ReadsTerm (t : Term) : Prop :=
  ∀ (before : List Term) (outer : List Frame) (r : Reader) (tokens : List Token),
    tokens.map Token.lexeme = t.lexemes →
    ∃ s r₁ r', Going feed (.due before outer) r tokens s r₁ ∧ r.Extends r' ∧ t.Over r'.naming ∧
      ∀ u : Token, u.kind ≠ .opening →
        s.feed u r₁ = behind (t.relabel r'.relabelling :: before) outer u r'

theorem going_named {t : Token} {name : String} (kind : t.kind = .name) (text : t.text = name)
    (before : List Term) (outer : List Frame) (r : Reader) :
    Going feed (.due before outer) r [t] (.named name before outer) r := by
  refine .single ?_
  rw [feed, if_pos kind, text]
  rfl

/-- A name that is not followed by a parenthesis is a term by itself. -/
theorem readsTerm_of_leaf {t : Term} {name : String} (lexemes : t.lexemes = [⟨.name, name⟩])
    (looked : ∀ r, ∃ r', r.Extends r' ∧ t.Over r'.naming ∧
      leaf name r = .ok (t.relabel r'.relabelling) r') : ReadsTerm t := by
  intro before outer r tokens same
  rw [lexemes, List.map_eq_singleton_iff] at same
  obtain ⟨token, rfl, lexeme⟩ := same
  obtain ⟨kind, text⟩ := Lexeme.mk.inj lexeme
  obtain ⟨r', grown, known, found⟩ := looked r
  refine ⟨_, r, r', going_named kind text before outer r, grown, known, fun u other => ?_⟩
  rw [feed, if_neg other, bind_of_ok found]

/-- The tokens of terms with commas between them are read term by term. -/
theorem reads_listed {args : List Term} (some : args ≠ []) (each : ∀ t ∈ args, ReadsTerm t)
    (before : List Term) (outer : List Frame) (r : Reader) {tokens : List Token}
    (same : tokens.map Token.lexeme = Lexeme.listed (args.map Term.lexemes)) :
    ∃ s r₁ r', Going feed (.due before outer) r tokens s r₁ ∧ r.Extends r' ∧
      (∀ t ∈ args, t.Over r'.naming) ∧
      ∀ u : Token, u.kind ≠ .opening →
        s.feed u r₁ =
          behind ((args.map (Term.relabel r'.relabelling)).reverse ++ before) outer u r' := by
  induction args generalizing before r tokens with
  | nil => exact absurd rfl some
  | cons t rest ih =>
      obtain ⟨first, others⟩ := List.forall_mem_cons.mp each
      cases rest with
      | nil =>
          obtain ⟨s, r₁, r', going, grown, known, settled⟩ := first before outer r tokens same
          exact ⟨s, r₁, r', going, grown, by simpa using known, by simpa using settled⟩
      | cons next rest =>
          obtain ⟨front, comma, back, rfl, here, kind, later⟩ := exists_cut same
          obtain ⟨s, r₁, r₂, going, grown, known, settled⟩ := first before outer r front here
          obtain ⟨s', r₃, r', going', grown', known', settled'⟩ :=
            ih (List.cons_ne_nil _ _) others (t.relabel r₂.relabelling :: before) r₂ later
          have step : s.feed comma r₁ =
              .ok (.going (.due (t.relabel r₂.relabelling :: before) outer)) r₂ := by
            rw [settled comma (by rw [kind]; decide)]
            simp only [behind, kind, Mark.comma]
            rfl
          have still := (known.mono grown'.naming_within_agreement).relabel_congr
          refine ⟨s', r₃, r', (going.append (.single step)).append going', grown.trans grown',
            List.forall_mem_cons.mpr ⟨known.mono grown'.naming_within, known'⟩, fun u other => ?_⟩
          rw [settled' u other, still]
          simp

/-- What a closing parenthesis makes of a list that it does not finish. -/
theorem behind_closing (args : List Term) (frame : Frame) (outer : List Frame) {u : Token}
    (closes : u.kind = .closing) (r : Reader) :
    behind args (frame :: outer) u r =
      .ok (.going (.ended (.app frame.functor args.reverse :: frame.before) outer)) r := by
  simp only [behind, closes]
  rfl

/-- Every legible term is read from its tokens. -/
theorem readsTerm {t : Term} (h : t.Over .legible) : ReadsTerm t := by
  induction h with
  | @var x h =>
      exact readsTerm_of_leaf rfl fun r =>
        ⟨_, (r.learned x).1, .var (r.learned x).2.1, leaf_var h r⟩
  | @const c h =>
      exact readsTerm_of_leaf rfl fun r =>
        ⟨_, (r.learned c).1, .const (r.learned c).2.1, leaf_const h r⟩
  | @app f args _ some _ ih =>
      intro before outer r tokens same
      rw [Term.lexemes, Term.lexemesEach_eq_map] at same
      obtain ⟨first, opening, middle, closing, rfl, kind, text, opens, closes, inside⟩ :=
        exists_cut_parentheses same
      obtain ⟨grown, known, _⟩ := r.learned f
      -- The functor is looked for before the arguments are read.
      let g := (r.learn .functor f.name).relabelling.map f
      obtain ⟨s, r₁, r', going, later, each, settled⟩ :=
        reads_listed some ih [] (⟨g, before⟩ :: outer) (r.learn .functor f.name) inside
      have named := going_named kind text before outer r
      have opened : Going feed (.named f.name before outer) r [opening]
          (.due [] (⟨g, before⟩ :: outer)) (r.learn .functor f.name) := by
        refine .single ?_
        rw [feed, if_pos opens, bind_of_ok (functor_eq f r)]
        rfl
      have closed := (settled closing (by rw [closes]; decide)).trans
        (behind_closing _ _ outer closes r')
      refine ⟨_, r', r', ((named.append opened).append going).append (.single closed),
        grown.trans later, .app (later.naming_within f known) some each, fun u _ => ?_⟩
      have still : g = r'.relabelling.map f := later.naming_within_agreement f known
      simp [feed, still]

/-- Inside something larger, arguments are read up to the parenthesis that
closes their list. -/
theorem reads_closed {τ β : Type} (outer : Token → τ → Reading (Progress τ β))
    (wrap : ArgumentList → τ) (whole : List Term → τ)
    (goes : ∀ {t s r s' r'}, feed t s r = .ok (.going s') r' →
      outer t (wrap s) r = .ok (.going (wrap s')) r')
    (finishes : ∀ {t s r args r'}, feed t s r = .ok (.finished args) r' →
      outer t (wrap s) r = .ok (.going (whole args)) r')
    {args : List Term} (some : args ≠ []) (h : ∀ t ∈ args, t.Over .legible) (r : Reader)
    {middle : List Token} (same : middle.map Token.lexeme = Lexeme.listed (args.map Term.lexemes))
    {closing : Token} (closes : closing.kind = .closing) :
    ∃ r', Going outer (wrap start) r (middle ++ [closing])
        (whole (args.map (Term.relabel r'.relabelling))) r' ∧
      r.Extends r' ∧ ∀ t ∈ args, t.Over r'.naming := by
  obtain ⟨s, r₁, r', going, grown, known, settled⟩ :=
    reads_listed some (fun t ht => readsTerm (h t ht)) [] [] r same
  have closed : s.feed closing r₁ =
      .ok (.finished (args.map (Term.relabel r'.relabelling))) r' := by
    rw [settled closing (by rw [closes]; decide)]
    simp only [behind, closes, List.append_nil, List.reverse_reverse]
    rfl
  exact ⟨r', (going.inside outer wrap goes).append (.single (finishes closed)), grown, known⟩

end ArgumentList

/-! ### Terms -/

namespace TermReading

/-- The tokens of the term are accepted, and the text may end with the last of
them. -/
def Reads (t : Term) : Prop :=
  ∀ (r : Reader) (tokens : List Token), tokens.map Token.lexeme = t.lexemes →
    ∃ s r₁ r', Going feed .due r tokens s r₁ ∧ r.Extends r' ∧ t.Over r'.naming ∧
      ∀ n, s.atEnd n r₁ = .ok (t.relabel r'.relabelling) r'

theorem going_named {t : Token} {name : String} (kind : t.kind = .name) (text : t.text = name)
    (r : Reader) : Going feed .due r [t] (.named name) r := by
  refine .single ?_
  rw [feed, if_pos kind, text]
  rfl

/-- A name that is looked up as a leaf is read as that leaf. -/
theorem reads_of_leaf {t : Term} {name : String} (lexemes : t.lexemes = [⟨.name, name⟩])
    (looked : ∀ r, ∃ r', r.Extends r' ∧ t.Over r'.naming ∧
      leaf name r = .ok (t.relabel r'.relabelling) r') : Reads t := by
  intro r tokens same
  rw [lexemes, List.map_eq_singleton_iff] at same
  obtain ⟨token, rfl, lexeme⟩ := same
  obtain ⟨kind, text⟩ := Lexeme.mk.inj lexeme
  obtain ⟨r', grown, known, found⟩ := looked r
  exact ⟨_, r, r', going_named kind text r, grown, known, fun _ => found⟩

/-- A legible term can be read wherever a term is due. -/
theorem reads {t : Term} (h : t.Over .legible) : Reads t := by
  cases h with
  | @var x h =>
      exact reads_of_leaf rfl fun r =>
        ⟨_, (r.learned x).1, .var (r.learned x).2.1, leaf_var h r⟩
  | @const c h =>
      exact reads_of_leaf rfl fun r =>
        ⟨_, (r.learned c).1, .const (r.learned c).2.1, leaf_const h r⟩
  | @app f args _ some each =>
      intro r tokens same
      rw [Term.lexemes, Term.lexemesEach_eq_map] at same
      obtain ⟨first, opening, middle, closing, rfl, kind, text, opens, closes, inner⟩ :=
        exists_cut_parentheses same
      obtain ⟨grown, known, _⟩ := r.learned f
      let g := (r.learn .functor f.name).relabelling.map f
      have opened : Going feed (.named f.name) r [opening] (.inside g .start)
          (r.learn .functor f.name) := by
        refine .single ?_
        rw [feed, if_pos opens, bind_of_ok (functor_eq f r)]
        rfl
      obtain ⟨r', going, later, fits⟩ :=
        ArgumentList.reads_closed feed (.inside g) (fun args => .ended (.app g args))
          (fun step => bind_of_ok step) (fun step => bind_of_ok step) some each
          (r.learn .functor f.name) inner closes
      refine ⟨.ended (.app g (args.map (Term.relabel r'.relabelling))), r', r', ?_,
        grown.trans later, .app (later.naming_within f known) some fits, fun _ => ?_⟩
      · rw [List.append_assoc]
        exact ((going_named kind text r).append opened).append going
      · have still : g = r'.relabelling.map f := later.naming_within_agreement f known
        rw [Term.relabel_app, ← still]
        rfl

end TermReading

/-! ### Atoms -/

namespace AtomReading

/-- All of an atom has been read. -/
structure Settled (s : AtomReading) (a : Atom) : Prop where
  ends : ∀ n r, s.atEnd n r = .ok a r
  finishes : ∀ (u : Token) r, u.kind ≠ .opening → s.feed u r = .ok (.finished a) r

/-- The tokens of a legible atom are accepted, and it has been read with the
last of them. -/
theorem reads {a : Atom} (h : a.Over .legible) (r : Reader) {tokens : List Token}
    (same : tokens.map Token.lexeme = a.lexemes) :
    ∃ s r', Going feed .due r tokens s r' ∧ r.Extends r' ∧ a.Over r'.naming ∧
      s.Settled (a.relabel r'.relabelling) := by
  obtain ⟨p, args⟩ := a
  obtain ⟨grown, known, _⟩ := r.learned p
  let q := (r.learn .predicate p.name).relabelling.map p
  have named {token : Token} (kind : token.kind = .name) (text : token.text = p.name) :
      Going feed .due r [token] (.named q) (r.learn .predicate p.name) := by
    refine .single ?_
    have small : ¬ isVariableName p.name := h.predicate.2
    simp only [feed, kind, text, ne_eq, not_true_eq_false, if_false, if_neg small]
    rw [bind_of_ok (predicate_eq p r)]
    rfl
  cases args with
  | nil =>
      obtain ⟨token, rfl, lexeme⟩ := List.map_eq_singleton_iff.mp same
      obtain ⟨kind, text⟩ := Lexeme.mk.inj lexeme
      refine ⟨_, _, named kind text, grown, ⟨known, by simp⟩, fun _ _ => rfl, fun u r other => ?_⟩
      rw [feed, if_neg other]
      rfl
  | cons t ts =>
      obtain ⟨first, opening, middle, closing, rfl, kind, text, opens, closes, inner⟩ :=
        exists_cut_parentheses same
      have opened : Going feed (.named q) (r.learn .predicate p.name) [opening]
          (.inside q .start) (r.learn .predicate p.name) := by
        refine .single ?_
        rw [feed, if_pos opens]
        rfl
      obtain ⟨r', going, later, fits⟩ :=
        ArgumentList.reads_closed feed (.inside q) (fun args => .ended ⟨q, args⟩)
          (fun step => bind_of_ok step) (fun step => bind_of_ok step) (List.cons_ne_nil t ts) h.args
          (r.learn .predicate p.name) inner closes
      have still : q = r'.relabelling.map p := later.naming_within_agreement p known
      refine ⟨.ended ⟨q, (t :: ts).map (Term.relabel r'.relabelling)⟩, r', ?_, grown.trans later,
        ⟨later.naming_within p known, fits⟩, ?_⟩
      · rw [List.append_assoc]
        exact ((named kind text).append opened).append going
      · rw [Atom.relabel, ← still]
        exact ⟨fun _ _ => rfl, fun _ _ _ => rfl⟩

/-- Atoms with commas between them are accepted one by one, wherever a comma
leads to the next atom. -/
theorem reads_listed {σ : Type} (outer : σ → Token → Reading σ) (wrap : List Atom → AtomReading → σ)
    (goes : ∀ {before t s r s' r'}, feed t s r = .ok (.going s') r' →
      outer (wrap before s) t r = .ok (wrap before s') r')
    (goes_on : ∀ {before t s r a r'}, feed t s r = .ok (.finished a) r' → t.kind = .comma →
      outer (wrap before s) t r = .ok (wrap (a :: before) .due) r')
    {atoms : List Atom} (some : atoms ≠ []) (each : ∀ a ∈ atoms, a.Over .legible)
    (before : List Atom) (r : Reader) {tokens : List Token}
    (same : tokens.map Token.lexeme = Lexeme.listed (atoms.map Atom.lexemes)) :
    ∃ front last s r', tokens.foldlM outer (wrap before .due) r = .ok (wrap front s) r' ∧
      s.Settled last ∧ r.Extends r' ∧ (∀ a ∈ atoms, a.Over r'.naming) ∧
      last :: front = (atoms.map (Atom.relabel r'.relabelling)).reverse ++ before := by
  induction atoms generalizing before r tokens with
  | nil => exact absurd rfl some
  | cons a rest ih =>
      obtain ⟨first, others⟩ := List.forall_mem_cons.mp each
      cases rest with
      | nil =>
          obtain ⟨s, r', going, grown, known, settled⟩ := reads first r same
          exact ⟨before, _, s, r', going.foldlM (wrap before) goes, settled, grown,
            by simpa using known, rfl⟩
      | cons next rest =>
          obtain ⟨front, comma, back, rfl, here, kind, later⟩ := exists_cut same
          obtain ⟨s, r₁, going, grown, known, settled⟩ := reads first r here
          have step : outer (wrap before s) comma r₁ = .ok (wrap (_ :: before) .due) r₁ :=
            goes_on (settled.finishes comma r₁ (by rw [kind]; decide)) kind
          obtain ⟨front', last, s', r', fed, settled', grown', known', read⟩ :=
            ih (List.cons_ne_nil _ _) others (a.relabel r₁.relabelling :: before) r₁ later
          have still := (known.mono grown'.naming_within_agreement).relabel_congr
          refine ⟨front', last, s', r', ?_, settled', grown.trans grown',
            List.forall_mem_cons.mpr ⟨known.mono grown'.naming_within, known'⟩, ?_⟩
          · rw [foldlM_behind (going.foldlM (wrap before) goes) step]
            exact fed
          · rw [read, still]
            simp

end AtomReading

/-! ### Clauses and queries -/

namespace ClauseReading

/-- The tokens of the clause are accepted, and the text may end with the last
of them or with a full stop behind it. -/
def Reads (c : Clause) : Prop :=
  ∀ (r : Reader) (tokens : List Token), tokens.map Token.lexeme = c.lexemes →
    ∃ s r', tokens.foldlM (fun state t => feed t state) start r = .ok s r' ∧ r.Extends r' ∧
      c.Over r'.naming ∧ (∀ n, s.atEnd n r' = .ok (c.relabel r'.relabelling) r') ∧
      ∀ u : Token, u.kind = .stop → s.feed u r' = .ok (.ended (c.relabel r'.relabelling)) r'

/-- The head is read like any atom. -/
theorem feed_inHead {t : Token} {s s' : AtomReading} {r r' : Reader}
    (step : AtomReading.feed t s r = .ok (.going s') r') :
    feed t (.inHead s) r = .ok (.inHead s') r' :=
  bind_of_ok step

/-- A legible fact can be read as a clause. -/
theorem reads_fact {a : Atom} (h : a.Over .legible) : Reads (.fact a) := by
  intro r tokens same
  obtain ⟨s, r', going, grown, known, settled⟩ := AtomReading.reads h r same
  refine ⟨.inHead s, r', going.foldlM ClauseReading.inHead feed_inHead, grown,
    ⟨known, List.forall_mem_nil _⟩, fun n => bind_of_ok (settled.ends n r'), fun u stops => ?_⟩
  rw [feed, bind_of_ok (settled.finishes u r' (by rw [stops]; decide))]
  simp only [stops]
  rfl

/-- A rule can be read as a clause if it has a body, and all its atoms are
legible. -/
theorem reads_rule {head : Atom} {body : List Atom} (h : head.Over .legible) (some : body ≠ [])
    (each : ∀ a ∈ body, a.Over .legible) : Reads (.rule ⟨head, body⟩) := by
  intro r tokens same
  obtain ⟨front, neck, back, rfl, here, kind, later⟩ :=
    exists_cut (same.trans (Clause.lexemes_rule some))
  obtain ⟨s, r₁, going, grown, known, settled⟩ := AtomReading.reads h r here
  let head' := head.relabel r₁.relabelling
  have step : feed neck (.inHead s) r₁ = .ok (.inBody head' [] .due) r₁ := by
    rw [feed, bind_of_ok (settled.finishes neck r₁ (by rw [kind]; decide))]
    simp only [kind, Mark.neck]
    rfl
  obtain ⟨before, last, s', r', fed, settled', grown', known', read⟩ :=
    AtomReading.reads_listed (fun state t => feed t state) (.inBody head')
      (fun step => bind_of_ok step)
      (fun step comma => by rw [feed, bind_of_ok step]; simp only [comma]; rfl)
      some each [] r₁ later
  have still : head' = head.relabel r'.relabelling :=
    (known.mono grown'.naming_within_agreement).relabel_congr
  have whole : Clause.rule ⟨head', (last :: before).reverse⟩ =
      (Clause.rule ⟨head, body⟩).relabel r'.relabelling := by
    rw [read, still]
    simp [Clause.relabel]
  refine ⟨.inBody head' before s', r', ?_, grown.trans grown',
    ⟨known.mono grown'.naming_within, known'⟩, fun n => ?_, fun u stops => ?_⟩
  · exact (foldlM_behind (going.foldlM .inHead feed_inHead) step back).trans fed
  · rw [← whole]
    exact bind_of_ok (settled'.ends n r')
  · rw [← whole, feed, bind_of_ok (settled'.finishes u r' (by rw [stops]; decide))]
    simp only [stops]
    rfl

/-- A legible clause can be read, except for a rule without a body. -/
theorem reads {c : Clause} (h : c.Over .legible) (bodied : c.Bodied) : Reads c := by
  cases c with
  | fact a => exact reads_fact h.head
  | rule rule => exact reads_rule h.head bodied h.body

end ClauseReading

/-- Atoms begin with a name. -/
theorem Atom.exists_listed_eq_cons {atoms : List Atom} (some : atoms ≠ []) :
    ∃ name others, Lexeme.listed (atoms.map Atom.lexemes) = ⟨.name, name⟩ :: others := by
  obtain ⟨⟨p, args⟩, rest, rfl⟩ := List.exists_cons_of_ne_nil some
  cases rest <;> cases args <;> exact ⟨p.name, _, rfl⟩

namespace QueryReading

/-- The tokens of legible goals are accepted, and the text may end with the
last of them or with a full stop behind it. -/
theorem reads {goals : List Atom} (some : goals ≠ []) (h : ∀ a ∈ goals, a.Over .legible)
    (r : Reader) {tokens : List Token}
    (same : tokens.map Token.lexeme = Lexeme.listed (goals.map Atom.lexemes)) :
    ∃ s r', tokens.foldlM (fun state t => feed t state) (.inGoal [] .due) r = .ok s r' ∧
      r.Extends r' ∧ (∀ a ∈ goals, a.Over r'.naming) ∧
      (∀ n, s.atEnd n r' = .ok (goals.map (Atom.relabel r'.relabelling)) r') ∧
      ∀ u : Token, u.kind = .stop →
        s.feed u r' = .ok (.ended (goals.map (Atom.relabel r'.relabelling))) r' := by
  obtain ⟨before, last, s, r', fed, settled, grown, known, read⟩ :=
    AtomReading.reads_listed (fun state t => feed t state) .inGoal
      (fun step => bind_of_ok step)
      (fun step comma => by rw [feed, feedGoal, bind_of_ok step]; simp only [comma]; rfl)
      some h [] r same
  have whole : (last :: before).reverse = goals.map (Atom.relabel r'.relabelling) := by
    rw [read]
    simp
  refine ⟨_, r', fed, grown, known, fun n => ?_, fun u stops => ?_⟩
  · rw [atEnd, bind_of_ok (settled.ends n r'), whole]
    rfl
  · rw [← whole, feed, feedGoal, bind_of_ok (settled.finishes u r' (by rw [stops]; decide))]
    simp only [stops]
    rfl

/-- Goals begin with a name, so without an arrow in front of them they are read
like behind one. -/
theorem foldlM_start {goals : List Atom} (some : goals ≠ []) {tokens : List Token}
    (same : tokens.map Token.lexeme = Lexeme.listed (goals.map Atom.lexemes))
    (more : List Token) (r : Reader) :
    (tokens ++ more).foldlM (fun state t => feed t state) start r =
      (tokens ++ more).foldlM (fun state t => feed t state) (.inGoal [] .due) r := by
  obtain ⟨name, others, listed⟩ := Atom.exists_listed_eq_cons some
  obtain ⟨first, rest, rfl, lexeme, _⟩ := List.map_eq_cons_iff.mp (same.trans listed)
  have named : first.kind ≠ .query := by
    rw [show first.kind = .name from congrArg Lexeme.kind lexeme]
    decide
  rw [List.cons_append, List.foldlM_cons, List.foldlM_cons]
  simp only [feed, if_neg named]

end QueryReading

/-! ### Whole texts -/

namespace Reading

/-- A text is read by way of its tokens. -/
theorem whole_of_cuts {σ α : Type} {feed : σ → Token → Reading σ} {atEnd : Nat → σ → Reading α}
    {start : σ} {text : String} {lexemes : List Lexeme} (cuts : Cuts text lexemes) {r : Reader}
    {value : Reader → α} {good : Reader → Prop}
    (reads : ∀ tokens : List Token, tokens.map Token.lexeme = lexemes →
      ∃ s r₁ r', tokens.foldlM feed start r = .ok s r₁ ∧ good r' ∧
        ∀ n, atEnd n s r₁ = .ok (value r') r') :
    ∃ r', whole feed atEnd start text r = .ok (value r') r' ∧ good r' := by
  obtain ⟨tokens, cut, same⟩ := cuts.exists_ofText
  obtain ⟨s, r₁, r', accepted, known, ended⟩ := reads tokens same
  refine ⟨r', ?_, known⟩
  rw [whole, cut]
  exact (bind_of_ok accepted).trans (ended _)

variable (r : Reader)

/-- A term that is written is read as itself, with the symbols that the reader
has for its names. -/
theorem term_text {t : Term} (h : t.Over .legible) :
    ∃ r', term t.text r = .ok (t.relabel r'.relabelling) r' ∧ r.Extends r' ∧ t.Over r'.naming := by
  refine whole_of_cuts h.cuts fun tokens same => ?_
  obtain ⟨s, r₁, r', going, grown, known, ended⟩ := TermReading.reads h r tokens same
  exact ⟨s, r₁, r', going.foldlM id fun step => bind_of_ok step, ⟨grown, known⟩, ended⟩

/-- A clause is read with its full stop or without it. -/
theorem clause_text {c : Clause} (h : c.Over .legible)
    (bodied : c.Bodied) {stop : String}
    (may_stop : stop = "" ∨ stop = ".") :
    ∃ r', clause (c.text ++ stop) r = .ok (c.relabel r'.relabelling) r' ∧ r.Extends r' ∧
      c.Over r'.naming := by
  rcases may_stop with rfl | rfl
  · rw [String.append_empty]
    refine whole_of_cuts h.cuts fun tokens same => ?_
    obtain ⟨s, r', fed, grown, known, ended, _⟩ := ClauseReading.reads h bodied r tokens same
    exact ⟨s, r', r', fed, ⟨grown, known⟩, ended⟩
  · refine whole_of_cuts (h.cuts.ended .stop) fun tokens same => ?_
    obtain ⟨front, back, rfl, here, stopped⟩ := List.map_eq_append_iff.mp same
    obtain ⟨stop, rfl, lexeme⟩ := List.map_eq_singleton_iff.mp stopped
    obtain ⟨s, r', fed, grown, known, _, stops⟩ := ClauseReading.reads h bodied r front here
    have step := stops stop (congrArg Lexeme.kind lexeme)
    refine ⟨.ended (c.relabel r'.relabelling), r', r', ?_, ⟨grown, known⟩, fun _ => rfl⟩
    rw [← List.append_nil (front ++ [stop]), foldlM_behind fed step]
    rfl

/-- Goals that are written are read as themselves, with the symbols that the
reader has for their names. -/
theorem goals_text {goals : List Atom} (some : goals ≠ []) (h : ∀ a ∈ goals, a.Over .legible) :
    ∃ r', Reading.goals (Text.listed (goals.map Atom.text)) r =
        .ok (goals.map (Atom.relabel r'.relabelling)) r' ∧
      r.Extends r' ∧ ∀ a ∈ goals, a.Over r'.naming := by
  refine whole_of_cuts (.listed fun a ha => (h a ha).cuts) fun tokens same => ?_
  obtain ⟨s, r', fed, grown, known, ended, _⟩ := QueryReading.reads some h r same
  have begins := QueryReading.foldlM_start some same [] r
  rw [List.append_nil] at begins
  exact ⟨s, r', r', begins.trans fed, ⟨grown, known⟩, ended⟩

end Reading

end Resolvent
