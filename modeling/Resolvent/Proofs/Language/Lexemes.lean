/-
# How written terms and clauses are cut into tokens

Terms, atoms and clauses are written without regard to what stands around them.
Here it is said which tokens their texts are cut into, and that it is the same
ones whatever text comes behind, as long as that does not go on with a name. A
name is as long as it can be, so this is the only way in which two texts put
one after the other could run into each other.

The place of a token in the text matters for the wording of errors alone, and
is left out.
-/

import Mathlib
import Resolvent.Language.Token
import Resolvent.Proofs.Terms.Alphabet

namespace Resolvent

/-- What a token is, wherever it stands. -/
structure Lexeme where
  kind : TokenKind
  text : String

/-- A token without its place. -/
def Token.lexeme (t : Token) : Lexeme :=
  ⟨t.kind, t.text⟩

deriving instance DecidableEq for Mark

namespace Mark

/-- The mark as a token. -/
def lexeme (m : Mark) : Lexeme :=
  ⟨m.kind, m.text⟩

/-- The arrow of a rule. -/
def neck : Mark := ⟨.neck, ':', ['-']⟩

/-- The arrow in front of a query. -/
def query : Mark := ⟨.query, '?', ['-']⟩

/-- The parenthesis in front of arguments. -/
def opening : Mark := ⟨.opening, '(', []⟩

/-- The parenthesis behind arguments. -/
def closing : Mark := ⟨.closing, ')', []⟩

/-- The comma between arguments and between atoms. -/
def comma : Mark := ⟨.comma, ',', []⟩

/-- The full stop of a clause. -/
def stop : Mark := ⟨.stop, '.', []⟩

end Mark

/-- A name that consists of name characters, of one at least. -/
structure IsIdentifier (name : String) : Prop where
  some : name.toList ≠ []
  characters : ∀ c ∈ name.toList, isNameCharacter c

instance (name : String) : Decidable (IsIdentifier name) :=
  decidable_of_iff (name.toList ≠ [] ∧ name.toList.all isNameCharacter)
    ⟨fun h => ⟨h.1, List.all_eq_true.mp h.2⟩, fun h => ⟨h.some, List.all_eq_true.mpr h.characters⟩⟩

/-- Whether the first character of a name suits its role. Any identifier can
name a functor, since a functor is known by the parenthesis behind it. -/
def SymbolRole.Suits (role : SymbolRole) (name : String) : Prop :=
  match role with
  | .var => isVariableName name
  | .functor => True
  | .const | .predicate => ¬ isVariableName name

instance : (role : SymbolRole) → (name : String) → Decidable (role.Suits name)
  | .var, name => inferInstanceAs (Decidable (isVariableName name))
  | .functor, _ => .isTrue trivial
  | .const, name => inferInstanceAs (Decidable (¬ isVariableName name))
  | .predicate, name => inferInstanceAs (Decidable (¬ isVariableName name))

/-- The symbols that can be read: each has an identifier for a name, and one
that suits its role. -/
def Alphabet.legible : Alphabet where
  Allows {role} s := IsIdentifier s.name ∧ role.Suits s.name

instance {role : SymbolRole} (s : Symbol role) : Decidable (Alphabet.legible.Allows s) :=
  inferInstanceAs (Decidable (IsIdentifier s.name ∧ role.Suits s.name))

/-- A text with which a name in front of it does not go on. -/
def EndsName (tail : List Char) : Prop :=
  ∀ c ∈ tail.head?, ¬ isNameCharacter c

/-- A text is cut into some tokens if another text comes behind it. -/
def Lexes (text tail : List Char) (lexemes : List Lexeme) : Prop :=
  ∀ found offset, ∃ (tokens : List Token) (after : Nat), tokens.map Token.lexeme = lexemes ∧
    Token.scan found offset (text ++ tail) = Token.scan (tokens.reverse ++ found) after tail

/-! ### Single tokens -/

/-- A character that may stand in a name is no blank. -/
theorem not_isBlank_of_isNameCharacter {c : Char} (h : isNameCharacter c) : ¬ Text.isBlank c := by
  have range : 48 ≤ c.toNat ∧ c.toNat ≤ 122 := by
    simp only [isNameCharacter, Char.isAlphanum, Char.isAlpha, Char.isUpper, Char.isLower,
      Char.isDigit, Bool.or_eq_true, Bool.and_eq_true, decide_eq_true_eq,
      UInt32.le_iff_toNat_le] at h
    rcases h with ((⟨low, high⟩ | ⟨low, high⟩) | ⟨low, high⟩) | rfl
    · exact ⟨Nat.le_trans (by decide) low, Nat.le_trans high (by decide)⟩
    · exact ⟨Nat.le_trans (by decide) low, Nat.le_trans high (by decide)⟩
    · exact ⟨Nat.le_trans (by decide) low, Nat.le_trans high (by decide)⟩
    · decide
  simp only [Text.isBlank, Text.blanks, Text.Ranges.contains, List.any_cons, List.any_nil,
    Bool.or_eq_true, Bool.and_eq_true, decide_eq_true_eq, Bool.false_eq_true, or_false]
  omega

/-- A run of one kind of characters ends where another character comes, or no
character at all. -/
theorem span_run {p : Char → Bool} {run tail : List Char} (all : ∀ c ∈ run, p c)
    (ends : ∀ c ∈ tail.head?, ¬ p c) :
    (run ++ tail).takeWhile p = run ∧ (run ++ tail).dropWhile p = tail := by
  rw [List.takeWhile_append_of_pos all, List.dropWhile_append_of_pos all]
  cases tail with
  | nil => simp
  | cons c tail =>
      have stops := ends c rfl
      rw [List.takeWhile_cons_of_neg stops, List.dropWhile_cons_of_neg stops, List.append_nil]
      exact ⟨rfl, rfl⟩

namespace Token

variable (found : List Token) (offset : Nat)

/-- A name is taken as a whole. -/
theorem scan_name {name : String} {tail : List Char} (identifier : IsIdentifier name)
    (ends : EndsName tail) : scan found offset (name.toList ++ tail) =
      scan (⟨.name, name, offset⟩ :: found) (offset + name.toList.length) tail := by
  obtain ⟨some, characters⟩ := identifier
  obtain ⟨c, more, spelled⟩ := List.exists_cons_of_ne_nil some
  rw [spelled] at characters
  obtain ⟨first, others⟩ := List.forall_mem_cons.mp characters
  obtain ⟨taken, left⟩ := span_run others ends
  have not_percent : c ≠ '%' := by
    rintro rfl
    exact absurd first (by decide)
  rw [spelled, List.cons_append, scan, if_neg (not_isBlank_of_isNameCharacter first),
    if_neg not_percent, if_pos first]
  dsimp only
  rw [taken, left, ← spelled, String.ofList_toList, spelled, List.length_cons, Nat.add_assoc,
    Nat.add_comm 1]

/-- A mark is taken as it is, whatever comes behind. -/
theorem scan_mark {m : Mark} (known : m ∈ Mark.all) (tail : List Char) :
    scan found offset (m.text.toList ++ tail) =
      scan (⟨m.kind, m.text, offset⟩ :: found) (offset + m.text.toList.length) tail := by
  have plain : ∀ m ∈ Mark.all, ¬ Text.isBlank m.first ∧ m.first ≠ '%' ∧
      ¬ isNameCharacter m.first := by decide
  obtain ⟨not_blank, not_percent, not_name⟩ := plain m known
  have found_mark : Mark.at? m.first (m.more ++ tail) = some m := by
    simp only [Mark.all, List.mem_cons, List.not_mem_nil, or_false] at known
    rcases known with rfl | rfl | rfl | rfl | rfl | rfl <;> rfl
  have spelled : m.text.toList = m.first :: m.more := by rw [Mark.text, String.toList_ofList]
  rw [spelled, List.cons_append, scan, if_neg not_blank, if_neg not_percent, if_neg not_name,
    found_mark]
  dsimp only
  rw [List.drop_left, List.length_cons, Nat.add_assoc, Nat.add_comm 1]

end Token

namespace Lexes

variable {text text' tail : List Char} {lexemes lexemes' : List Lexeme}

theorem nil (tail : List Char) : Lexes [] tail [] :=
  fun _ offset => ⟨[], offset, rfl, rfl⟩

/-- Texts can be put together where the first one is cut with the second one
behind it. -/
theorem append (first : Lexes text (text' ++ tail) lexemes) (second : Lexes text' tail lexemes') :
    Lexes (text ++ text') tail (lexemes ++ lexemes') := by
  intro found offset
  obtain ⟨tokens, between, same, scanned⟩ := first found offset
  obtain ⟨tokens', after, same', scanned'⟩ := second (tokens.reverse ++ found) between
  refine ⟨tokens ++ tokens', after, by rw [List.map_append, same, same'], ?_⟩
  rw [List.append_assoc, scanned, scanned', List.reverse_append, List.append_assoc]

/-- A name is cut out as a whole. -/
theorem name {name : String} (identifier : IsIdentifier name) (ends : EndsName tail) :
    Lexes name.toList tail [⟨.name, name⟩] :=
  fun found offset =>
    ⟨[⟨.name, name, offset⟩], _, rfl, Token.scan_name found offset identifier ends⟩

/-- A mark is cut out as it is, whatever comes behind. -/
theorem mark {m : Mark} (known : m ∈ Mark.all) (tail : List Char) :
    Lexes m.text.toList tail [m.lexeme] :=
  fun found offset => ⟨[⟨m.kind, m.text, offset⟩], _, rfl, Token.scan_mark found offset known tail⟩

/-- Blanks are dropped. -/
theorem blank {c : Char} (h : Text.isBlank c) (tail : List Char) : Lexes [c] tail [] := by
  intro found offset
  refine ⟨[], offset + 1, rfl, ?_⟩
  rw [List.cons_append, Token.scan, if_pos h]
  rfl

end Lexes

/-! ### Texts put together -/

/-- A text is cut into tokens in one way, if what comes behind does not go on
with a name. -/
def Cuts (text : String) (lexemes : List Lexeme) : Prop :=
  ∀ tail, EndsName tail → Lexes text.toList tail lexemes

/-- A text is cut into tokens in one way, whatever comes behind, and ends a
name in front. -/
structure Separates (text : String) (lexemes : List Lexeme) : Prop where
  ends : ∀ tail, EndsName (text.toList ++ tail)
  lexes : ∀ tail, Lexes text.toList tail lexemes

namespace Cuts

variable {text text' separator : String} {lexemes lexemes' marks : List Lexeme}

/-- An identifier is cut out as one name. -/
theorem name {name : String} (identifier : IsIdentifier name) : Cuts name [⟨.name, name⟩] :=
  fun _ ends => .name identifier ends

/-- Behind a separator any text may follow. -/
theorem then_separator (first : Cuts text lexemes) (between : Separates separator marks)
    (tail : List Char) : Lexes (text ++ separator).toList tail (lexemes ++ marks) := by
  rw [String.toList_append]
  exact (first _ (between.ends tail)).append (between.lexes tail)

/-- Behind a text that separates, another one is cut as it is alone. -/
theorem behind (front : Separates text lexemes) (second : Cuts text' lexemes') :
    Cuts (text ++ text') (lexemes ++ lexemes') := by
  intro tail ends
  rw [String.toList_append]
  exact (front.lexes _).append (second tail ends)

/-- A text may end with a separator. -/
theorem ended (first : Cuts text lexemes) (behind : Separates separator marks) :
    Cuts (text ++ separator) (lexemes ++ marks) :=
  fun tail _ => first.then_separator behind tail

/-- Two texts with a separator between them are cut as each of them is
alone. -/
theorem separated (first : Cuts text lexemes) (between : Separates separator marks)
    (second : Cuts text' lexemes') :
    Cuts (text ++ separator ++ text') (lexemes ++ marks ++ lexemes') := by
  intro tail ends
  rw [String.toList_append]
  exact (first.then_separator between _).append (second tail ends)

end Cuts

namespace Separates

variable {text text' : String} {lexemes lexemes' : List Lexeme}

/-- Separators may follow on each other. -/
theorem append (first : Separates text lexemes) (second : Separates text' lexemes') :
    Separates (text ++ text') (lexemes ++ lexemes') where
  ends tail := by
    rw [String.toList_append, List.append_assoc]
    exact first.ends _
  lexes tail := by
    rw [String.toList_append]
    exact (first.lexes _).append (second.lexes tail)

/-- A mark separates, as no name goes on with one. -/
theorem mark {m : Mark} (h : m ∈ Mark.all) : Separates m.text [m.lexeme] where
  ends tail := by
    have not_name : ∀ m ∈ Mark.all, ¬ isNameCharacter m.first := by decide
    simpa [EndsName, Mark.text] using not_name m h
  lexes := .mark h

theorem space : Separates " " [] :=
  ⟨by simp [EndsName, isNameCharacter], .blank (by decide)⟩

theorem opening : Separates "(" [Mark.opening.lexeme] :=
  mark (m := .opening) (by decide)

theorem closing : Separates ")" [Mark.closing.lexeme] :=
  mark (m := .closing) (by decide)

theorem stop : Separates "." [Mark.stop.lexeme] :=
  mark (m := .stop) (by decide)

theorem comma : Separates ", " [Mark.comma.lexeme] :=
  (mark (m := .comma) (by decide)).append space

theorem neck : Separates " :- " [Mark.neck.lexeme] :=
  (space.append (mark (m := .neck) (by decide))).append space

end Separates

/-! ### Terms, atoms and clauses -/

/-- The lexemes of several items with a comma between each two of them. -/
def Lexeme.listed : List (List Lexeme) → List Lexeme
  | [] => []
  | [item] => item
  | item :: next :: rest => item ++ [Mark.comma.lexeme] ++ listed (next :: rest)

/-- Items are cut where the commas between them are. -/
theorem Cuts.listed {α : Type} {text : α → String} {lexemes : α → List Lexeme} {items : List α}
    (each : ∀ item ∈ items, Cuts (text item) (lexemes item)) :
    Cuts (Text.listed (items.map text)) (Lexeme.listed (items.map lexemes)) := by
  induction items with
  | nil => exact fun tail _ => .nil tail
  | cons item rest ih =>
      obtain ⟨first, others⟩ := List.forall_mem_cons.mp each
      cases rest with
      | nil => exact first
      | cons next rest => exact first.separated .comma (ih others)

namespace Term

mutual

/-- The tokens of a term as it is written. -/
def lexemes : Term → List Lexeme
  | .var x => [⟨.name, x.name⟩]
  | .const c => [⟨.name, c.name⟩]
  | .app f args =>
    [⟨.name, f.name⟩] ++ [Mark.opening.lexeme] ++ Lexeme.listed (lexemesEach args) ++
      [Mark.closing.lexeme]

/-- The tokens of several terms, term by term. -/
def lexemesEach : List Term → List (List Lexeme)
  | [] => []
  | t :: ts => lexemes t :: lexemesEach ts

end

theorem texts_eq_map (ts : List Term) : texts ts = ts.map text := by
  induction ts with
  | nil => rfl
  | cons t ts ih => rw [texts, ih, List.map_cons]

theorem lexemesEach_eq_map (ts : List Term) : lexemesEach ts = ts.map lexemes := by
  induction ts with
  | nil => rfl
  | cons t ts ih => rw [lexemesEach, ih, List.map_cons]

/-- Whatever text comes behind, a legible term is cut into the same tokens. -/
theorem Over.cuts {t : Term} (h : t.Over .legible) : Cuts t.text t.lexemes := by
  induction h with
  | var h => exact .name h.1
  | const h => exact .name h.1
  | app h _ _ ih =>
      rw [text, lexemes, texts_eq_map, lexemesEach_eq_map]
      exact ((Cuts.name h.1).separated .opening (.listed ih)).ended .closing

end Term

/-- The tokens of an atom as it is written. -/
def Atom.lexemes (a : Atom) : List Lexeme :=
  match a.args with
  | [] => [⟨.name, a.predicate.name⟩]
  | args =>
    [⟨.name, a.predicate.name⟩] ++ [Mark.opening.lexeme] ++ Lexeme.listed (args.map Term.lexemes) ++
      [Mark.closing.lexeme]

/-- An atom is cut into its lexemes as it is written. -/
theorem Atom.Over.cuts {a : Atom} (h : a.Over .legible) : Cuts a.text a.lexemes := by
  obtain ⟨predicate, args⟩ := a
  cases args with
  | nil => exact .name h.predicate.1
  | cons t ts =>
      have parts := Cuts.listed fun t ht => (h.args t ht).cuts
      rw [← Term.texts_eq_map] at parts
      exact ((Cuts.name h.predicate.1).separated .opening parts).ended .closing

/-- A rule has a body. Without one it is written like a fact, and would be read
as one. -/
def Clause.Bodied : Clause → Prop
  | .fact _ => True
  | .rule r => r.body ≠ []

/-- The tokens of a clause as it is written, without its full stop. -/
def Clause.lexemes : Clause → List Lexeme
  | .fact a => a.lexemes
  | .rule r =>
    match r.body with
    | [] => r.head.lexemes
    | body => r.head.lexemes ++ [Mark.neck.lexeme] ++ Lexeme.listed (body.map Atom.lexemes)

/-- A rule with a body is its head, the arrow and the body. -/
theorem Clause.lexemes_rule {head : Atom} {body : List Atom} (some : body ≠ []) :
    (Clause.rule ⟨head, body⟩).lexemes =
      head.lexemes ++ [Mark.neck.lexeme] ++ Lexeme.listed (body.map Atom.lexemes) := by
  obtain ⟨b, bs, rfl⟩ := List.exists_cons_of_ne_nil some
  rfl

/-- A clause is cut into its lexemes as it is written, up to its full stop. -/
theorem Clause.Over.cuts {c : Clause} (h : c.Over .legible) : Cuts c.text c.lexemes := by
  obtain ⟨head, body⟩ := h
  cases c with
  | fact a => exact Atom.Over.cuts head
  | rule r =>
      obtain ⟨a, atoms⟩ := r
      cases atoms with
      | nil => exact Atom.Over.cuts head
      | cons b bs =>
          exact (Atom.Over.cuts head).separated .neck (.listed fun a ha => (body a ha).cuts)

/-- A whole text that is cut into some tokens consists of these. -/
theorem Lexes.exists_ofText {text : String} {lexemes : List Lexeme}
    (h : Lexes text.toList [] lexemes) :
    ∃ tokens, Token.ofText text = .ok tokens ∧ tokens.map Token.lexeme = lexemes := by
  obtain ⟨tokens, after, same, scanned⟩ := h [] 0
  refine ⟨tokens, ?_, same⟩
  rw [List.append_nil, List.append_nil] at scanned
  rw [Token.ofText, scanned, Token.scan, List.reverse_reverse]

/-- A text that is cut into lexemes is tokenized into them. -/
theorem Cuts.exists_ofText {text : String} {lexemes : List Lexeme} (h : Cuts text lexemes) :
    ∃ tokens, Token.ofText text = .ok tokens ∧ tokens.map Token.lexeme = lexemes :=
  (h [] (by simp [EndsName])).exists_ofText

/-! ### The other way round -/

/-- What a token of a text can be: an identifier or a mark. -/
inductive Lexeme.Genuine : Lexeme → Prop
  | name {name : String} (identifier : IsIdentifier name) : Genuine ⟨.name, name⟩
  | mark {m : Mark} (h : m ∈ Mark.all) : Genuine m.lexeme

/-- The kind of a mark tells which mark it is. -/
theorem Lexeme.Genuine.eq_mark {l : Lexeme} (genuine : l.Genuine) {m : Mark} (h : m ∈ Mark.all)
    (kind : l.kind = m.kind) : l = m.lexeme := by
  cases genuine with
  | name _ =>
      have not_name : ∀ m ∈ Mark.all, m.kind ≠ .name := by decide
      exact absurd kind.symm (not_name m h)
  | @mark m' h' =>
      have one_kind : ∀ m ∈ Mark.all, ∀ m' ∈ Mark.all, m'.kind = m.kind → m' = m := by decide
      rw [one_kind m h m' h' kind]

/-- A token with the kind of a name is an identifier. -/
theorem Lexeme.Genuine.isIdentifier {l : Lexeme} (genuine : l.Genuine) (kind : l.kind = .name) :
    IsIdentifier l.text := by
  cases genuine with
  | name identifier => exact identifier
  | @mark m h =>
      have not_name : ∀ m ∈ Mark.all, m.kind ≠ .name := by decide
      exact absurd kind (not_name m h)

namespace Token

/-- Tokens that are cut out of any text are genuine. -/
theorem genuine_of_scan {found tokens : List Token} {offset : Nat} {text : List Char}
    (genuine : ∀ t ∈ found, t.lexeme.Genuine) (result : scan found offset text = .ok tokens) :
    ∀ t ∈ tokens, t.lexeme.Genuine := by
  fun_induction scan found offset text with
  | case1 found offset =>
      obtain rfl := Except.ok.inj result
      exact fun t ht => genuine t (List.mem_reverse.mp ht)
  | case2 found offset c rest blank ih => exact ih genuine result
  | case3 found offset rest comment _ ih => exact ih genuine result
  | case4 found offset c rest _ _ named more ih =>
      refine ih (List.forall_mem_cons.mpr ⟨.name ⟨by simp, ?_⟩, genuine⟩) result
      rw [String.toList_ofList]
      exact List.forall_mem_cons.mpr ⟨named, fun _ h => List.mem_takeWhile_imp h⟩
  | case5 found offset c rest _ _ _ m mark ih =>
      have known := List.mem_of_find?_eq_some mark
      exact ih (List.forall_mem_cons.mpr ⟨.mark known, genuine⟩) result
  | case6 found offset c rest => cases result

/-- No text is cut into anything but identifiers and marks. -/
theorem genuine_of_ofText {text : String} {tokens : List Token}
    (cut : ofText text = .ok tokens) : ∀ t ∈ tokens, t.lexeme.Genuine :=
  genuine_of_scan (List.forall_mem_nil _) cut

end Token

/-- A text is cut into genuine lexemes only. -/
theorem Cuts.genuine {text : String} {lexemes : List Lexeme} (h : Cuts text lexemes) :
    ∀ l ∈ lexemes, l.Genuine := by
  obtain ⟨tokens, cut, rfl⟩ := h.exists_ofText
  exact List.forall_mem_map.mpr (Token.genuine_of_ofText cut)

/-- Identifiers and marks are the tokens of a text, whichever they are and in
whatever order. -/
theorem Lexeme.exists_cuts {lexemes : List Lexeme} (genuine : ∀ l ∈ lexemes, l.Genuine) :
    ∃ text, Cuts text lexemes := by
  induction lexemes with
  | nil => exact ⟨"", fun tail _ => .nil tail⟩
  | cons l rest ih =>
      obtain ⟨first, others⟩ := List.forall_mem_cons.mp genuine
      obtain ⟨text, cuts⟩ := ih others
      cases first with
      | @name name identifier => exact ⟨_, (Cuts.name identifier).separated .space cuts⟩
      | @mark m known => exact ⟨_, Cuts.behind (.mark known) cuts⟩

end Resolvent
