/-
# A text is nothing but its tokens and what separates them

A text is split, from left to right, into tokens, runs of blanks and comments,
each as long as it can be. The tokens are all that is kept of the pieces, but
together with their places they still tell what every gap between them can be
made of. Where no piece begins, the text is refused. A longest piece is
determined by the text, so there is one way to split a text, and one place at
most where this stops.

What stands in the gaps makes no difference to the tokens: they can be written
with any blanks and comments between them, of which there have to be some
between two names only.
-/

import Mathlib.Data.List.Chain
import Mathlib.Order.Bounds.Basic
import Resolvent.Proofs.Language.Recognition

namespace Resolvent

/-- A text with which the line in front of it does not go on. -/
def EndsLine (tail : List Char) : Prop :=
  ∀ c ∈ tail.head?, c = '\n'

/-- Between two texts a line ends, with the last character of the first or
behind it. -/
def LineBetween (front behind : List Char) : Prop :=
  front.getLast? = some '\n' ∨ EndsLine behind

/-- A piece of a text: a token, or something that separates tokens. -/
inductive Piece
  | blanks (run : List Char)
  | comment (words : List Char)
  | token (l : Lexeme)

namespace Piece

/-- A piece as it is written. -/
def text : Piece → List Char
  | blanks run => run
  | comment words => '%' :: words
  | token l => l.text.toList

/-- Whether a piece is dropped. -/
def Separating : Piece → Prop
  | blanks _ | comment _ => True
  | token _ => False

/-- Every piece is dropped or becomes a token. -/
theorem separating_or_token (p : Piece) : p.Separating ∨ ∃ l, p = token l := by
  cases p with
  | blanks _ => exact .inl trivial
  | comment _ => exact .inl trivial
  | token l => exact .inr ⟨l, rfl⟩

/-- The token at an offset, unless the piece is dropped. -/
def token? (offset : Nat) : Piece → Option Token
  | blanks _ | comment _ => none
  | token l => some ⟨l.kind, l.text, offset⟩

/-- Several pieces as they are written, one behind the other. -/
def written (pieces : List Piece) : List Char :=
  pieces.flatMap text

/-- The tokens among the pieces, the first of which stands at an offset. -/
def tokens (offset : Nat) : List Piece → List Token
  | [] => []
  | p :: pieces => (p.token? offset).toList ++ tokens (offset + p.text.length) pieces

/-- A piece that is as long as it can be with this text behind it. Comments run
to the end of the line. -/
inductive Fits : Piece → List Char → Prop
  | blanks {run tail : List Char} (some : run ≠ []) (all : ∀ c ∈ run, Text.isBlank c)
      (ends : ∀ c ∈ tail.head?, ¬ Text.isBlank c) : Fits (.blanks run) tail
  | comment {words tail : List Char} (one_line : '\n' ∉ words) (ends : EndsLine tail) :
      Fits (.comment words) tail
  | name {name : String} {tail : List Char} (identifier : IsIdentifier name)
      (ends : EndsName tail) : Fits (.token ⟨.name, name⟩) tail
  | mark {m : Mark} {tail : List Char} (known : m ∈ Mark.all) : Fits (.token m.lexeme) tail

/-- A text is split into longest pieces, up to some rest. -/
inductive Splits : List Char → List Piece → List Char → Prop
  | nil (rest : List Char) : Splits rest [] rest
  | cons {p : Piece} {pieces : List Piece} {text rest : List Char} (first : p.Fits text)
      (others : Splits text pieces rest) : Splits (p.text ++ text) (p :: pieces) rest

/-- There is some text, and no piece begins it. -/
structure Blocked (text : List Char) : Prop where
  some : text ≠ []
  none_fits : ∀ (p : Piece) (tail : List Char), p.Fits tail → text ≠ p.text ++ tail

/-- What comes before this place is split into pieces, and no piece begins
there. -/
def StuckAt (text : List Char) (n : Nat) : Prop :=
  ∃ pieces, Splits text pieces (text.drop n) ∧ Blocked (text.drop n)

/-- Nothing but separating pieces stands between two places. -/
def Gap (text : List Char) (from_ upto : Nat) : Prop :=
  from_ ≤ upto ∧ ∃ pieces : List Piece, (∀ p ∈ pieces, p.Separating) ∧
    Splits (text.drop from_) pieces (text.drop upto)

end Piece

theorem LineBetween.nil (front : List Char) : LineBetween front [] :=
  .inr nofun

/-- What has no end of a line in it goes on to the end of its line. -/
theorem LineBetween.endsLine {front behind : List Char} (line : LineBetween front behind)
    (one_line : '\n' ∉ front) : EndsLine behind := by
  cases line with
  | inl last => exact absurd (List.mem_of_getLast? last) one_line
  | inr ends => exact ends

/-- A line that ends behind a text ends behind the last part of it. -/
theorem LineBetween.of_append {front tail behind : List Char}
    (line : LineBetween (front ++ tail) behind) (some : tail ≠ []) : LineBetween tail behind := by
  unfold LineBetween at *
  rwa [List.getLast?_append_of_ne_nil _ some] at line

/-- A line feed goes on with no name. -/
theorem EndsLine.endsName {tail : List Char} (h : EndsLine tail) : EndsName tail := by
  intro c begins
  rw [h c begins]
  decide

/-! ### Single pieces -/

namespace Piece

namespace Fits

variable {p : Piece} {tail : List Char}

/-- A token that fits is one that can be cut out. -/
theorem genuine {l : Lexeme} (h : (Piece.token l).Fits tail) : l.Genuine := by
  cases h with
  | name identifier _ => exact .name identifier
  | mark known => exact .mark known

/-- A name that fits is as long as it can be. -/
theorem endsName {l : Lexeme} (h : (Piece.token l).Fits tail) (kind : l.kind = .name) :
    EndsName tail := by
  cases h with
  | name _ ends => exact ends
  | @mark m _ known =>
      have not_name : ∀ m ∈ Mark.all, m.kind ≠ .name := by decide
      exact absurd kind (not_name m known)

/-- No piece is empty, so every piece takes the text further. -/
theorem text_ne_nil (h : p.Fits tail) : p.text ≠ [] := by
  cases h with
  | blanks some _ _ => exact some
  | comment _ _ => exact List.cons_ne_nil _ _
  | name identifier _ => exact identifier.some
  | mark _ => simp [text, Mark.lexeme, Mark.text]

/-- If a name character comes behind a piece, the piece does not end with
one. -/
theorem getLast?_text {c : Char} {rest : List Char} (h : p.Fits (c :: rest))
    (more : isNameCharacter c) : ∀ d ∈ p.text.getLast?, ¬ isNameCharacter d := by
  intro d last
  cases h with
  | blanks _ all _ =>
      intro named
      exact not_isBlank_of_isNameCharacter named (all d (List.mem_of_getLast? last))
  | comment _ ends =>
      obtain rfl := ends c rfl
      exact absurd more (by decide)
  | name _ ends => exact absurd more (ends c rfl)
  | @mark m _ known =>
      have not_name : ∀ m ∈ Mark.all, (m.first :: m.more).getLast?.all (!isNameCharacter ·) := by
        decide
      have plain := not_name m known
      have ends : (m.first :: m.more).getLast? = some d := by
        simpa [text, Mark.lexeme, Mark.text] using last
      rw [ends] at plain
      simpa using plain

end Fits

end Piece

namespace Token

/-- The place behind a token. -/
def finish (t : Token) : Nat :=
  t.offset + t.text.toList.length

variable (found : List Token) (offset : Nat)

/-- A run of blanks is dropped. -/
theorem scan_blanks {run : List Char} (all : ∀ c ∈ run, Text.isBlank c) (tail : List Char) :
    scan found offset (run ++ tail) = scan found (offset + run.length) tail := by
  induction run generalizing offset with
  | nil => rfl
  | cons c run ih =>
      obtain ⟨first, others⟩ := List.forall_mem_cons.mp all
      rw [List.cons_append, scan, if_pos first, ih _ others, List.length_cons, Nat.add_assoc,
        Nat.add_comm 1]

/-- A comment is dropped, up to the end of the line. -/
theorem scan_comment {words tail : List Char} (one_line : '\n' ∉ words) (ends : EndsLine tail) :
    scan found offset ('%' :: words ++ tail) = scan found (offset + (words.length + 1)) tail := by
  have all : ∀ c ∈ words, decide (c ≠ '\n') := by
    intro c hc
    apply decide_eq_true
    rintro rfl
    exact one_line hc
  have stops : ∀ c ∈ tail.head?, ¬ decide (c ≠ '\n') := by simpa [EndsLine] using ends
  obtain ⟨taken, left⟩ := span_run all stops
  rw [List.cons_append, scan, if_neg (by decide), if_pos rfl]
  dsimp only
  rw [taken, left, Nat.add_assoc, Nat.add_comm 1]

/-- A piece that is as long as it can be is taken as it is, and remains so if
another line is put behind the text. Blanks may then go on as well, but that
does not matter for them. -/
theorem scan_piece {p : Piece} {tail behind : List Char} (h : p.Fits tail)
    (line : LineBetween (p.text ++ tail) behind) : scan found offset (p.text ++ (tail ++ behind)) =
      scan ((p.token? offset).toList ++ found) (offset + p.text.length) (tail ++ behind) := by
  cases h with
  | blanks _ all _ => exact scan_blanks found offset all _
  | mark known => exact scan_mark found offset known _
  | @comment words _ one_line ends =>
      apply scan_comment found offset one_line
      cases tail with
      | cons _ _ => exact ends
      | nil =>
          apply line.endsLine
          simpa [Piece.text] using one_line
  | @name name _ identifier ends =>
      apply scan_name found offset identifier
      cases tail with
      | cons _ _ => exact ends
      | nil =>
          apply EndsLine.endsName
          apply line.endsLine
          rw [List.append_nil]
          intro inside
          exact absurd (identifier.characters _ inside) (by decide)

end Token

namespace Piece

/-! ### Splitting a text -/

namespace Splits

variable {text rest rest' : List Char} {pieces pieces' : List Piece}

/-- A text is its pieces as they are written, and the rest. -/
theorem eq_append (h : Splits text pieces rest) : text = written pieces ++ rest := by
  induction h with
  | nil rest => rfl
  | cons _ _ ih => rw [ih, written, written, List.flatMap_cons, List.append_assoc]

/-- The first piece fits what comes behind it. -/
theorem of_cons {p : Piece} (h : Splits text (p :: pieces) rest) :
    ∃ tail, text = p.text ++ tail ∧ p.Fits tail ∧ Splits tail pieces rest := by
  cases h with
  | @cons _ _ tail _ first others => exact ⟨tail, rfl, first, others⟩

/-- There is only one way to split the empty text. -/
theorem of_nil (h : Splits [] pieces rest) : pieces = [] ∧ rest = [] := by
  obtain ⟨nothing, ended⟩ := List.append_eq_nil_iff.mp h.eq_append.symm
  cases pieces with
  | nil => exact ⟨rfl, ended⟩
  | cons p pieces =>
      obtain ⟨_, _, fits, _⟩ := h.of_cons
      exact absurd (List.append_eq_nil_iff.mp nothing).1 fits.text_ne_nil

/-- A rest can be split further. -/
theorem append (h : Splits text pieces rest) (h' : Splits rest pieces' rest') :
    Splits text (pieces ++ pieces') rest' := by
  induction h with
  | nil _ => exact h'
  | cons first _ ih => exact .cons first (ih h')

/-- All pieces are taken, one after the other, also if another line is put
behind the text. -/
theorem scan (h : Splits text pieces rest) {behind : List Char} (line : LineBetween text behind)
    (found : List Token) (offset : Nat) :
    Token.scan found offset (text ++ behind) =
      Token.scan ((tokens offset pieces).reverse ++ found) (offset + (written pieces).length)
        (rest ++ behind) := by
  induction h generalizing found offset with
  | nil rest => rfl
  | @cons p pieces text rest first others ih =>
      have same : (tokens offset (p :: pieces)).reverse =
          (tokens (offset + p.text.length) pieces).reverse ++ (p.token? offset).toList := by
        rw [tokens, List.reverse_append]
        cases p.token? offset <;> rfl
      rw [List.append_assoc, Token.scan_piece found offset first line, same, List.append_assoc,
        written, List.flatMap_cons, List.length_append, ← Nat.add_assoc, ← written]
      by_cases ended : text = []
      · subst ended
        obtain ⟨rfl, rfl⟩ := others.of_nil
        rfl
      · exact ih (line.of_append ended) _ _

end Splits

/-- The first character that is not dropped is of another kind. -/
theorem not_of_mem_head?_dropWhile {p : Char → Bool} {text : List Char} {c : Char}
    (h : c ∈ (text.dropWhile p).head?) : ¬ p c := by
  intro holds
  have stops := List.head?_dropWhile_not p text
  rw [Option.mem_def.mp h] at stops
  simp [holds] at stops

/-- A text begins with a longest piece, or it is refused at its first
character. -/
theorem exists_fits_or_error (c : Char) (rest : List Char) :
    (∃ (p : Piece) (tail : List Char), p.Fits tail ∧ c :: rest = p.text ++ tail) ∨
      ∀ found offset, Token.scan found offset (c :: rest) = .error ⟨.strayCharacter c, offset⟩ := by
  by_cases blank : Text.isBlank c
  · have run : ∀ d ∈ c :: rest.takeWhile Text.isBlank, Text.isBlank d :=
      List.forall_mem_cons.mpr ⟨blank, fun d hd => List.mem_takeWhile_imp hd⟩
    have ends : ∀ d ∈ (rest.dropWhile Text.isBlank).head?, ¬ Text.isBlank d :=
      fun d hd => not_of_mem_head?_dropWhile hd
    refine .inl ⟨_, _, .blanks (List.cons_ne_nil _ _) run ends, ?_⟩
    rw [text, List.cons_append, List.takeWhile_append_dropWhile]
  by_cases percent : c = '%'
  · subst percent
    have one_line : '\n' ∉ rest.takeWhile (· ≠ '\n') := fun inside => by
      simpa using List.mem_takeWhile_imp inside
    have ends : EndsLine (rest.dropWhile (· ≠ '\n')) := fun d hd => by
      simpa using not_of_mem_head?_dropWhile hd
    refine .inl ⟨_, _, .comment one_line ends, ?_⟩
    rw [text, List.cons_append, List.takeWhile_append_dropWhile]
  by_cases named : isNameCharacter c
  · have spelled : (String.ofList (c :: rest.takeWhile isNameCharacter)).toList =
        c :: rest.takeWhile isNameCharacter := String.toList_ofList
    have identifier : IsIdentifier (String.ofList (c :: rest.takeWhile isNameCharacter)) := by
      refine ⟨by simp, ?_⟩
      rw [spelled]
      exact List.forall_mem_cons.mpr ⟨named, fun d hd => List.mem_takeWhile_imp hd⟩
    have ends : EndsName (rest.dropWhile isNameCharacter) :=
      fun d hd => not_of_mem_head?_dropWhile hd
    refine .inl ⟨_, _, .name identifier ends, ?_⟩
    rw [text, spelled, List.cons_append, List.takeWhile_append_dropWhile]
  cases begun : Mark.at? c rest with
  | some m =>
      have begins := List.find?_some begun
      simp only [Mark.begins, Bool.and_eq_true, decide_eq_true_eq, List.isPrefixOf_iff_prefix]
        at begins
      obtain ⟨rfl, tail, rfl⟩ := begins
      refine .inl ⟨_, tail, .mark (List.mem_of_find?_eq_some begun), ?_⟩
      simp [text, Mark.lexeme, Mark.text]
  | none =>
      right
      intro found offset
      rw [Token.scan, if_neg blank, if_neg percent, if_neg named, begun]

/-- A text that no piece begins is refused at its first character. -/
theorem scan_of_blocked {c : Char} {rest : List Char} (blocked : Blocked (c :: rest))
    (found : List Token) (offset : Nat) :
    Token.scan found offset (c :: rest) = .error ⟨.strayCharacter c, offset⟩ := by
  cases exists_fits_or_error c rest with
  | inl begins =>
      obtain ⟨p, tail, fits, same⟩ := begins
      exact absurd same (blocked.none_fits p tail fits)
  | inr refused => exact refused found offset

/-- Every text can be split up to its end, or up to a place where no piece
begins. -/
theorem exists_splits (whole : List Char) :
    ∃ pieces rest, Splits whole pieces rest ∧ (rest = [] ∨ Blocked rest) := by
  by_cases blocked : Blocked whole
  · exact ⟨[], whole, .nil whole, .inr blocked⟩
  by_cases empty : whole = []
  · exact ⟨[], whole, .nil whole, .inl empty⟩
  have begins : ∃ (p : Piece) (tail : List Char), p.Fits tail ∧ whole = p.text ++ tail := by
    by_contra none_fits
    apply blocked
    exact ⟨empty, fun p tail fits same => none_fits ⟨p, tail, fits, same⟩⟩
  obtain ⟨p, tail, fits, same⟩ := begins
  have shorter : tail.length < whole.length := by
    have := List.length_pos_iff.mpr fits.text_ne_nil
    rw [same, List.length_append]
    omega
  obtain ⟨pieces, rest, split, ending⟩ := exists_splits tail
  rw [same]
  exact ⟨p :: pieces, rest, .cons fits split, ending⟩
termination_by whole.length

/-! ### The tokens among the pieces -/

/-- A text can be split in two between any two of its pieces. -/
theorem Splits.of_append {text rest : List Char} {front back : List Piece}
    (h : Splits text (front ++ back) rest) :
    ∃ between, Splits text front between ∧ Splits between back rest := by
  induction front generalizing text with
  | nil => exact ⟨text, .nil text, h⟩
  | cons p front ih =>
      cases h with
      | cons first others =>
          obtain ⟨between, before, behind⟩ := ih others
          exact ⟨between, .cons first before, behind⟩

/-- No piece ends inside a name. -/
theorem Splits.getLast?_written {text rest : List Char} {pieces : List Piece} {c : Char}
    (h : Splits text pieces (c :: rest)) (more : isNameCharacter c) :
    ∀ d ∈ (written pieces).getLast?, ¬ isNameCharacter d := by
  generalize left : c :: rest = behind at h
  induction h with
  | nil _ => simp [written]
  | @cons p pieces text _ first others ih =>
      intro d last
      rw [written, List.flatMap_cons, List.getLast?_append, ← written] at last
      cases final : (written pieces).getLast? with
      | some e =>
          rw [final] at last
          exact ih left d (by rw [final]; exact last)
      | none =>
          rw [final, Option.none_or] at last
          have empty := List.getLast?_eq_none_iff.mp final
          rw [others.eq_append, empty, List.nil_append, ← left] at first
          exact first.getLast?_text more d last

/-- A separating piece moves the tokens behind it and adds none. -/
theorem tokens_separating {p : Piece} (h : p.Separating) (pieces : List Piece) (offset : Nat) :
    tokens offset (p :: pieces) = tokens (offset + p.text.length) pieces := by
  cases p with
  | blanks _ => rfl
  | comment _ => rfl
  | token _ => exact h.elim

/-- A token moves those behind it by its own length. -/
theorem tokens_token (l : Lexeme) (pieces : List Piece) (offset : Nat) :
    tokens offset (.token l :: pieces) =
      ⟨l.kind, l.text, offset⟩ :: tokens (offset + l.text.toList.length) pieces :=
  rfl

/-- Each token stands behind the pieces in front of it. -/
theorem exists_of_mem_tokens {pieces : List Piece} {offset : Nat} {t : Token}
    (h : t ∈ tokens offset pieces) : ∃ front l back, pieces = front ++ .token l :: back ∧
      t = ⟨l.kind, l.text, offset + (written front).length⟩ := by
  induction pieces generalizing offset with
  | nil => cases h
  | cons p pieces ih =>
      rw [tokens, List.mem_append] at h
      cases h with
      | inl here =>
          cases p with
          | blanks _ => cases here
          | comment _ => cases here
          | token l => exact ⟨[], l, pieces, rfl, List.mem_singleton.mp here⟩
      | inr later =>
          obtain ⟨front, l, back, rfl, rfl⟩ := ih later
          refine ⟨p :: front, l, back, rfl, ?_⟩
          rw [written, written, List.flatMap_cons, List.length_append, Nat.add_assoc]

/-- A token of a text stands where it says, behind other pieces, and is as long
as it can be. -/
theorem Splits.exists_of_mem_tokens {text : List Char} {pieces : List Piece} {t : Token}
    (h : Splits text pieces []) (ht : t ∈ tokens 0 pieces) :
    ∃ front tail, Splits text front (t.text.toList ++ tail) ∧ (written front).length = t.offset ∧
      (Piece.token t.lexeme).Fits tail := by
  obtain ⟨front, l, back, rfl, rfl⟩ := Piece.exists_of_mem_tokens ht
  obtain ⟨between, before, behind⟩ := h.of_append
  cases behind with
  | @cons _ _ tail _ fits _ => exact ⟨front, tail, before, (Nat.zero_add _).symm, fits⟩

/-- No token stands in front of the first place. -/
theorem le_offset_of_mem_tokens {pieces : List Piece} {offset : Nat} {t : Token}
    (h : t ∈ tokens offset pieces) : offset ≤ t.offset := by
  obtain ⟨front, l, back, _, rfl⟩ := exists_of_mem_tokens h
  exact Nat.le_add_right _ _

/-- Tokens come in the order of their offsets, and what is behind them all
comes last. -/
theorem Splits.increasing {text rest : List Char} {pieces : List Piece}
    (h : Splits text pieces rest) (offset : Nat) :
    ((tokens offset pieces).map Token.offset ++
      [offset + (written pieces).length]).Pairwise (· < ·) := by
  induction h generalizing offset with
  | nil _ => exact List.pairwise_singleton _ _
  | @cons p pieces _ _ first _ ih =>
      have behind := ih (offset + p.text.length)
      rw [written, List.flatMap_cons, List.length_append, ← Nat.add_assoc, ← written]
      cases p.separating_or_token with
      | inl separating =>
          rw [tokens_separating separating]
          exact behind
      | inr token =>
          obtain ⟨l, rfl⟩ := token
          have inside : 0 < l.text.toList.length := List.length_pos_iff.mpr first.text_ne_nil
          rw [tokens_token, List.map_cons, List.cons_append]
          refine List.pairwise_cons.mpr ⟨fun n hn => ?_, behind⟩
          rw [List.mem_append, List.mem_map, List.mem_singleton] at hn
          cases hn with
          | inl later =>
              obtain ⟨t, ht, rfl⟩ := later
              have := le_offset_of_mem_tokens ht
              dsimp only
              omega
          | inr final =>
              rw [final, Piece.text]
              dsimp only
              omega

/-- What lies between two tokens that come one after the other, in front of the
first, and behind the last. The induction has seen a part of the gap at hand
already. -/
theorem Splits.gaps {whole : List Char} {pieces : List Piece} {start offset : Nat}
    (h : Splits (whole.drop offset) pieces []) (inside : offset ≤ whole.length)
    (seen : Gap whole start offset) :
    List.Forall₂ (Gap whole) (start :: (tokens offset pieces).map Token.finish)
      ((tokens offset pieces).map Token.offset ++ [whole.length]) := by
  induction pieces generalizing start offset with
  | nil =>
      have ended : whole.length ≤ offset := List.drop_eq_nil_iff.mp h.eq_append
      obtain rfl := Nat.le_antisymm inside ended
      exact .cons seen .nil
  | cons p pieces ih =>
      obtain ⟨tail, same, fits, others⟩ := h.of_cons
      have left : whole.drop (offset + p.text.length) = tail := by
        rw [← List.drop_drop, same, List.drop_left]
      have room : offset + p.text.length ≤ whole.length := by
        have := congrArg List.length same
        rw [List.length_drop, List.length_append] at this
        omega
      rw [← left] at others
      cases p.separating_or_token with
      | inl separating =>
          rw [tokens_separating separating]
          apply ih others room
          obtain ⟨before, dropped, all, split⟩ := seen
          refine ⟨Nat.le_add_right_of_le before, dropped ++ [p], ?_, ?_⟩
          · exact List.forall_mem_append.mpr ⟨all, List.forall_mem_singleton.mpr separating⟩
          · apply split.append
            rw [same, left]
            exact .cons fits (.nil tail)
      | inr token =>
          obtain ⟨l, rfl⟩ := token
          rw [tokens_token, List.map_cons, List.map_cons, List.cons_append]
          apply List.Forall₂.cons seen
          exact ih others room ⟨Nat.le_refl _, [], List.forall_mem_nil _, .nil _⟩

/-! ### The whole text -/

variable {text : String}

/-- The tokens of a text that is split are found as far as it is split. -/
theorem Splits.ofText_eq {pieces : List Piece} {rest : List Char}
    (h : Splits text.toList pieces rest) :
    Token.ofText text = Token.scan (tokens 0 pieces).reverse (written pieces).length rest := by
  have whole := h.scan (.nil _) [] 0
  rwa [List.append_nil, List.append_nil, List.append_nil, Nat.zero_add] at whole

/-- A text that is split up to its end has the tokens among the pieces. -/
theorem Splits.ofText {pieces : List Piece} (h : Splits text.toList pieces []) :
    Token.ofText text = .ok (tokens 0 pieces) := by
  rw [h.ofText_eq, Token.scan, List.reverse_reverse]

/-- Where a text is stuck it is refused, and with the character there. -/
theorem StuckAt.ofText {n : Nat} (h : StuckAt text.toList n) :
    ∃ c, text.toList[n]? = some c ∧ Token.ofText text = .error ⟨.strayCharacter c, n⟩ := by
  obtain ⟨pieces, split, blocked⟩ := h
  obtain ⟨c, rest, left⟩ := List.exists_cons_of_ne_nil blocked.some
  have inside : n < text.toList.length := by
    by_contra beyond
    rw [List.drop_eq_nil_of_le (Nat.le_of_not_lt beyond)] at left
    cases left
  have whole := congrArg List.length split.eq_append
  rw [List.length_append, List.length_drop] at whole
  have place : (written pieces).length = n := by omega
  refine ⟨c, ?_, ?_⟩
  · rw [← List.head?_drop, left, List.head?_cons]
  · rw [left] at blocked
    rw [split.ofText_eq, left, scan_of_blocked blocked, place]

end Piece

open Piece

/-- What the tokens of a text tell about the text, as far as it is split into
them. -/
structure Token.Cover (text : List Char) (tokens : List Token) : Prop where
  /-- They are identifiers and marks. -/
  genuine : ∀ t ∈ tokens, t.lexeme.Genuine
  /-- They come one after the other, and the end of the text behind them. -/
  increasing : ((places tokens text.length).map Prod.snd).Pairwise (· < ·)
  /-- Each is what the text has at its place. -/
  in_place : ∀ t ∈ tokens, t.text.toList <+: text.drop t.offset
  /-- There are only blanks and comments in front of the first, between each
  two of them and behind the last. -/
  gaps : List.Forall₂ (Gap text) (0 :: tokens.map finish) ((places tokens text.length).map Prod.snd)
  /-- Around a name there are no more name characters. -/
  maximal : ∀ t ∈ tokens, t.kind = .name →
    (∀ c ∈ (text.take t.offset).getLast?, ¬ isNameCharacter c) ∧ EndsName (text.drop t.finish)

/-- The places are those of the tokens and the end of the text. -/
theorem Token.places_snd (tokens : List Token) (length : Nat) :
    (places tokens length).map Prod.snd = tokens.map offset ++ [length] := by
  simp [places, place]

/-- The tokens of a text that is split to its end cover it, but for what is
dropped. -/
theorem Piece.Splits.cover {text : List Char} {pieces : List Piece} (h : Splits text pieces []) :
    Token.Cover text (tokens 0 pieces) where
  genuine t ht := by
    obtain ⟨_, _, _, _, fits⟩ := h.exists_of_mem_tokens ht
    exact fits.genuine
  increasing := by
    have ordered := h.increasing 0
    rwa [Nat.zero_add, ← List.append_nil (written pieces), ← h.eq_append, ← Token.places_snd]
      at ordered
  in_place t ht := by
    obtain ⟨front, tail, before, place, _⟩ := h.exists_of_mem_tokens ht
    rw [before.eq_append, ← place, List.drop_left]
    exact List.prefix_append _ _
  gaps := by
    rw [Token.places_snd]
    have whole : Splits (text.drop 0) pieces [] := h
    exact whole.gaps (Nat.zero_le _) ⟨Nat.le_refl 0, [], List.forall_mem_nil _, .nil _⟩
  maximal t ht kind := by
    obtain ⟨front, tail, before, place, fits⟩ := h.exists_of_mem_tokens ht
    have identifier := fits.genuine.isIdentifier kind
    obtain ⟨c, more, spelled⟩ := List.exists_cons_of_ne_nil identifier.some
    have whole := before.eq_append
    constructor
    · rw [whole, ← place, List.take_left]
      have named := identifier.characters c (by rw [spelled]; exact List.mem_cons_self)
      have begins : t.text.toList = c :: more := spelled
      rw [begins, List.cons_append] at before
      exact before.getLast?_written named
    · rw [whole, Token.finish, ← place, ← List.drop_drop, List.drop_left, List.drop_left]
      exact fits.endsName kind

/-! ### Tokens with anything between them -/

/-- What can be put between tokens: blanks, and comments with an end of the
line. -/
inductive Separator : List Char → Prop
  | nil : Separator []
  | blank {c : Char} {more : List Char} (blank : Text.isBlank c) (others : Separator more) :
      Separator (c :: more)
  | comment {words more : List Char} (one_line : '\n' ∉ words) (others : Separator more) :
      Separator ('%' :: words ++ '\n' :: more)

namespace Lexeme

/-- Tokens as they are written, each with what stands behind it. -/
def spaced (items : List (Lexeme × List Char)) : List Char :=
  items.flatMap fun item => item.1.text.toList ++ item.2

/-- There is something between a name and a name behind it. -/
def NamesParted (items : List (Lexeme × List Char)) : Prop :=
  items.IsChain fun item next => item.1.kind = .name → next.1.kind = .name → item.2 ≠ []

end Lexeme

/-- A separator is dropped, whatever comes behind it. -/
theorem Separator.lexes {text : List Char} (h : Separator text) (tail : List Char) :
    Lexes text tail [] := by
  induction h with
  | nil => exact .nil tail
  | blank blank _ ih => exact (Lexes.blank blank _).append ih
  | @comment words more one_line _ ih =>
      have ended : Lexes ('%' :: words) ('\n' :: more ++ tail) [] := fun found offset =>
        ⟨[], _, rfl, Token.scan_comment found offset one_line (by simp [EndsLine])⟩
      exact ended.append ((Lexes.blank (c := '\n') (by decide) _).append ih)

/-- What is put between tokens ends a name, if it is anything. -/
theorem Separator.endsName {text : List Char} (h : Separator text) (some : text ≠ [])
    (tail : List Char) : EndsName (text ++ tail) := by
  intro c first
  cases h with
  | nil => exact absurd rfl some
  | blank blank _ =>
      obtain rfl := Option.some.inj first
      exact fun named => not_isBlank_of_isNameCharacter named blank
  | comment _ _ =>
      obtain rfl := Option.some.inj first
      decide

namespace Lexeme

/-- A genuine token is cut out as it is if nothing goes on with it. -/
theorem Genuine.lexes {l : Lexeme} {tail : List Char} (h : l.Genuine)
    (ends : l.kind = .name → EndsName tail) : Lexes l.text.toList tail [l] := by
  cases h with
  | name identifier => exact .name identifier (ends rfl)
  | mark known => exact .mark known tail

/-- A name is ended by what stands behind it, or else by the token that comes
next. -/
theorem endsName_spaced {l : Lexeme} {behind : List Char} {rest : List (Lexeme × List Char)}
    (named : l.kind = .name) (separator : Separator behind)
    (genuine : ∀ item ∈ rest, item.1.Genuine) (parted : NamesParted ((l, behind) :: rest)) :
    EndsName (behind ++ spaced rest) := by
  by_cases nothing : behind = []
  · subst nothing
    cases rest with
    | nil => simp [EndsName, spaced]
    | cons next rest =>
        have not_name := (List.isChain_cons_cons.mp parted).1 named
        obtain ⟨l', behind'⟩ := next
        rw [List.nil_append, spaced, List.flatMap_cons, List.append_assoc]
        cases (List.forall_mem_cons.mp genuine).1 with
        | name _ => exact absurd rfl (not_name rfl)
        | mark known => exact (Separates.mark known).ends _
  · exact separator.endsName nothing _

/-- Tokens are cut out of a text in which they stand with anything between
them. -/
theorem lexes_spaced {items : List (Lexeme × List Char)}
    (each : ∀ item ∈ items, item.1.Genuine ∧ Separator item.2) (parted : NamesParted items) :
    Lexes (spaced items) [] (items.map Prod.fst) := by
  induction items with
  | nil => exact .nil []
  | cons item rest ih =>
      obtain ⟨l, behind⟩ := item
      obtain ⟨⟨genuine, separator⟩, others⟩ := List.forall_mem_cons.mp each
      have later := ih others parted.tail
      have ends (named : l.kind = .name) : EndsName (behind ++ spaced rest ++ []) := by
        rw [List.append_nil]
        exact endsName_spaced named separator (fun item h => (others item h).1) parted
      have both := (genuine.lexes ends).append ((separator.lexes _).append later)
      rwa [← List.append_assoc] at both

end Lexeme

namespace Token

/-- Texts are cut into tokens without loss, and how tokens are set apart does
not matter.

A text is cut into tokens that cover it, or else it is refused at the one place
that is reached by longest pieces and where none begins. Tokens that are
written one behind the other, with anything between them that can be there, and
something between two names, are cut out again. -/
theorem cut_without_loss :
    (∀ text : String,
      (∃ tokens, ofText text = .ok tokens ∧ Cover text.toList tokens ∧
        ∀ n, ¬ StuckAt text.toList n) ∨
      ∃ c n, ofText text = .error ⟨.strayCharacter c, n⟩ ∧ text.toList[n]? = some c ∧
        IsLeast {n | StuckAt text.toList n} n) ∧
    ∀ front items, Separator front → (∀ item ∈ items, item.1.Genuine ∧ Separator item.2) →
      Lexeme.NamesParted items →
      ∃ tokens, ofText (String.ofList (front ++ Lexeme.spaced items)) = .ok tokens ∧
        tokens.map lexeme = items.map Prod.fst := by
  refine ⟨fun text => ?cut, fun front items separator each parted => ?written⟩
  case cut =>
    obtain ⟨pieces, rest, split, ending⟩ := exists_splits text.toList
    cases ending with
    | inl ended =>
        subst ended
        refine .inl ⟨_, split.ofText, split.cover, fun n stuck => ?_⟩
        obtain ⟨c, _, refused⟩ := stuck.ofText
        rw [split.ofText] at refused
        cases refused
    | inr blocked =>
        have left : text.toList.drop (written pieces).length = rest := by
          rw [split.eq_append, List.drop_left]
        have stuck : StuckAt text.toList (written pieces).length :=
          ⟨pieces, by rwa [left], by rwa [left]⟩
        obtain ⟨c, here, refused⟩ := stuck.ofText
        refine .inr ⟨c, _, refused, here, stuck, fun n other => ?_⟩
        obtain ⟨c', _, refused'⟩ := other.ofText
        rw [refused] at refused'
        cases refused'
        exact Nat.le_refl _
  case written =>
    have lexes := (separator.lexes _).append (Lexeme.lexes_spaced each parted)
    apply Lexes.exists_ofText
    rw [String.toList_ofList]
    exact lexes

/-- A rule with a comment where a blank would do, and nothing between the arrow
and its body. -/
theorem cut_without_loss_commented :
    ∃ tokens, ofText " p%is\n:-q ." = .ok tokens ∧ Cover " p%is\n:-q .".toList tokens ∧
      tokens.map lexeme = [⟨.name, "p"⟩, Mark.neck.lexeme, ⟨.name, "q"⟩, Mark.stop.lexeme] := by
  have blank : Separator [' '] := .blank (by decide) .nil
  have comment : Separator ('%' :: ['i', 's'] ++ ['\n']) := .comment (by decide) .nil
  have p : Lexeme.Genuine ⟨.name, "p"⟩ := .name (by decide)
  have q : Lexeme.Genuine ⟨.name, "q"⟩ := .name (by decide)
  have neck : Mark.neck.lexeme.Genuine := .mark (by decide)
  have stop : Mark.stop.lexeme.Genuine := .mark (by decide)
  obtain ⟨cut, written⟩ := cut_without_loss
  obtain ⟨tokens, made, same⟩ := written [' ']
    [(⟨.name, "p"⟩, '%' :: ['i', 's'] ++ ['\n']), (Mark.neck.lexeme, []), (⟨.name, "q"⟩, [' ']),
      (Mark.stop.lexeme, [])] blank
    (by simpa [p, q, neck, stop, blank, Separator.nil] using comment)
    (by simp [Lexeme.NamesParted, Mark.lexeme, Mark.neck, Mark.stop])
  replace made : ofText " p%is\n:-q ." = .ok tokens := made
  refine ⟨tokens, made, ?_, same⟩
  cases cut " p%is\n:-q ." with
  | inl accepted =>
      obtain ⟨tokens', made', cover, _⟩ := accepted
      rw [made] at made'
      cases made'
      exact cover
  | inr refused =>
      obtain ⟨_, _, refused, _⟩ := refused
      rw [made] at refused
      cases refused

end Token

end Resolvent
