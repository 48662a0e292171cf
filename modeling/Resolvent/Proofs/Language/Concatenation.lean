/-
# Programs one behind the other

At the end of a line no token and no comment goes on, whatever it is. So a text
with another text on the lines behind it is cut into the tokens of both, and
only the places of the latter are different. A program may end wherever a
clause may begin, and the scope of variables that it leaves is not looked at
any more. So the second text is read by a reader that has read the first, as if
they had been two.

If the parts and the whole are read by different readers, the clauses differ in
their symbols alone. Where a vocabulary is known in the end to which all of
these readers have contributed, the symbols cannot differ either, since each of
them is the one that this vocabulary has for the name.
-/

import Resolvent.KnowledgeBase
import Resolvent.Proofs.Language.Freshness
import Resolvent.Proofs.Language.Namesakes
import Resolvent.Proofs.Language.Pieces
import Resolvent.Proofs.Language.Places
import Resolvent.Proofs.Text.Joined

namespace Resolvent

open Reading

/-! ### Tokens -/

/-- The tokens of a text that stands further behind. -/
theorem Piece.tokens_add (pieces : List Piece) (offset k : Nat) :
    tokens (offset + k) pieces =
      (tokens offset pieces).map fun t => t.movedTo (t.offset + k) := by
  induction pieces generalizing offset with
  | nil => rfl
  | cons p pieces ih =>
      rw [tokens, tokens, Nat.add_right_comm, ih, List.map_append]
      cases p <;> rfl

namespace Token

/-- A text that is cut into tokens is split into pieces, and these are its
tokens. -/
theorem exists_splits {text : List Char} {offset : Nat} {tokens : List Token}
    (cut : scan [] offset text = .ok tokens) :
    ∃ pieces, Piece.Splits text pieces [] ∧ tokens = Piece.tokens offset pieces := by
  obtain ⟨pieces, rest, split, ending⟩ := Piece.exists_splits text
  have whole := split.scan (.nil _) [] offset
  rw [List.append_nil, List.append_nil, List.append_nil, cut] at whole
  cases ending with
  | inl ended =>
      subst ended
      rw [scan, List.reverse_reverse] at whole
      exact ⟨pieces, split, Except.ok.inj whole⟩
  | inr blocked =>
      obtain ⟨c, more, rfl⟩ := List.exists_cons_of_ne_nil blocked.some
      rw [Piece.scan_of_blocked blocked] at whole
      cases whole

/-- Where a line ends between two texts, they have the tokens of both. -/
theorem ofText_append {front back : String} {tokens tokens' : List Token}
    (line : LineBetween front.toList back.toList) (cut : ofText front = .ok tokens)
    (cut' : ofText back = .ok tokens') :
    ofText (front ++ back) =
      .ok (tokens ++ tokens'.map fun t => t.movedTo (t.offset + front.length)) := by
  obtain ⟨pieces, split, rfl⟩ := exists_splits cut
  obtain ⟨pieces', split', rfl⟩ := exists_splits cut'
  have length : (Piece.written pieces).length = front.length := by
    rw [← List.append_nil (Piece.written pieces), ← split.eq_append, String.length_toList]
  have behind := split'.scan (.nil _) (Piece.tokens 0 pieces).reverse (0 + front.length)
  rw [List.append_nil, List.append_nil] at behind
  rw [ofText, String.toList_append, split.scan line, length, List.append_nil, List.nil_append,
    behind, scan, List.reverse_append, List.reverse_reverse, List.reverse_reverse,
    Piece.tokens_add]

end Token

/-- A whole text is accepted if its tokens are, and if it may end behind
them. -/
theorem Reading.whole_eq_ok_iff {σ α : Type} {feed : σ → Token → Reading σ}
    {atEnd : Nat → σ → Reading α} {start : σ} {text : String} {a : α} {r r' : Reader} :
    whole feed atEnd start text r = .ok a r' ↔ ∃ tokens s r₁, Token.ofText text = .ok tokens ∧
      tokens.foldlM feed start r = .ok s r₁ ∧ atEnd text.length s r₁ = .ok a r' := by
  unfold whole
  cases Token.ofText text with
  | error e => exact ⟨nofun, nofun⟩
  | ok tokens =>
      constructor
      · intro result
        obtain ⟨s, r₁, fed, ended⟩ := exists_of_bind result
        exact ⟨tokens, s, r₁, rfl, fed, ended⟩
      · rintro ⟨_, s, r₁, cut, fed, ended⟩
        obtain rfl := Except.ok.inj cut
        exact (bind_of_ok fed).trans ended

/-! ### Programs -/

namespace ProgramReading

/-- The state with earlier clauses below those that it has finished. -/
def above (earlier : List Clause) (s : ProgramReading) : ProgramReading :=
  ⟨s.finished ++ earlier, s.current⟩

variable {earlier : List Clause} {s s' : ProgramReading} {r r' : Reader}

/-- The clauses that are finished have no influence on those that follow. -/
theorem feed_above {t : Token} (result : s.feed t r = .ok s' r') :
    (s.above earlier).feed t r = .ok (s'.above earlier) r' := by
  obtain ⟨next, made, rfl⟩ := feed_iff.mp result
  apply feed_iff.mpr
  refine ⟨next, made, ?_⟩
  cases next <;> rfl

/-- Clauses are read behind others as they are read alone. -/
theorem foldlM_above {tokens : List Token} (fed : tokens.foldlM feed s r = .ok s' r') :
    tokens.foldlM feed (s.above earlier) r = .ok (s'.above earlier) r' := by
  induction tokens generalizing s r with
  | nil =>
      obtain ⟨rfl, rfl⟩ := EStateM.Result.ok.inj fed
      rfl
  | cons t rest ih =>
      rw [List.foldlM_cons] at fed
      obtain ⟨s₁, r₁, step, fed⟩ := exists_of_bind fed
      rw [List.foldlM_cons, bind_of_ok (feed_above step), ih fed]

/-- Between two clauses a program goes on as if it began there. -/
theorem foldlM_again {tokens : List Token} {v : Vocabulary} (scope : List Variable)
    (fed : tokens.foldlM feed {} { vocabulary := v } = .ok s r') :
    ∃ r'', tokens.foldlM feed ⟨earlier, none⟩ ⟨v, scope⟩ = .ok (s.above earlier) r'' ∧
      r''.vocabulary = r'.vocabulary := by
  by_cases none_left : tokens = []
  · subst none_left
    obtain ⟨rfl, rfl⟩ := EStateM.Result.ok.inj fed
    exact ⟨⟨v, scope⟩, rfl, rfl⟩
  · refine ⟨r', ?_, rfl⟩
    have begins : above earlier {} = ⟨earlier, none⟩ := rfl
    rw [foldlM_none earlier none_left, ← foldlM_above fed, begins, foldlM_none earlier none_left]

end ProgramReading

namespace Vocabulary

variable {u u' v v' v'' : Vocabulary} {front back : String} {clauses clauses' : List Clause}

/-- A reading with a vocabulary succeeds in a reader with an empty scope. -/
theorem reading_eq_ok_iff {α : Type} {reading : Reading α} {a : α} :
    v.reading reading = (.ok a, v') ↔
      ∃ r', reading { vocabulary := v } = .ok a r' ∧ r'.vocabulary = v' := by
  constructor
  · exact exists_of_reading
  · rintro ⟨r', made, rfl⟩
    rw [Vocabulary.reading, made]

/-- A program is read if its tokens are accepted and lead to a place between
two clauses. -/
theorem parseProgram_eq_ok_iff {text : String} : v.parseProgram text = (.ok clauses, v') ↔
    ∃ tokens r', Token.ofText text = .ok tokens ∧
      tokens.foldlM ProgramReading.feed {} { vocabulary := v } = .ok ⟨clauses.reverse, none⟩ r' ∧
      r'.vocabulary = v' := by
  unfold parseProgram program
  simp only [reading_eq_ok_iff, whole_eq_ok_iff]
  constructor
  · rintro ⟨r', ⟨tokens, s, r₁, cut, fed, ended⟩, grown⟩
    obtain ⟨rfl, rfl⟩ := ProgramReading.eq_of_atEnd ended
    exact ⟨tokens, r', cut, fed, grown⟩
  · rintro ⟨tokens, r', cut, fed, grown⟩
    refine ⟨r', ⟨tokens, _, r', cut, fed, ?_⟩, grown⟩
    rw [ProgramReading.atEnd, List.reverse_reverse]
    rfl

/-- Two programs, one on the lines behind the other, are read like one after
the other. -/
theorem parseProgram_append (line : LineBetween front.toList back.toList)
    (first : v.parseProgram front = (.ok clauses, v'))
    (second : v'.parseProgram back = (.ok clauses', v'')) :
    v.parseProgram (front ++ back) = (.ok (clauses ++ clauses'), v'') := by
  obtain ⟨tokens, r, cut, fed, rfl⟩ := parseProgram_eq_ok_iff.mp first
  obtain ⟨tokens', r', cut', fed', rfl⟩ := parseProgram_eq_ok_iff.mp second
  obtain ⟨r'', again, same⟩ := ProgramReading.foldlM_again r.scope fed'
  apply parseProgram_eq_ok_iff.mpr
  refine ⟨_, r'', Token.ofText_append line cut cut', ?_, same⟩
  rw [List.foldlM_append, bind_of_ok fed, List.reverse_append]
  exact foldlM_of_lexemes (fun t n => ProgramReading.feed_movedTo)
    (by simp [Token.movedTo, Token.lexeme]) again

/-- An empty line adds nothing to a program. -/
theorem parseProgram_newline (v : Vocabulary) : v.parseProgram "\n" = (.ok [], v) := by
  have cut : Token.ofText "\n" = .ok [] := by
    rw [Token.ofText]
    show Token.scan [] 0 ['\n'] = .ok []
    rw [Token.scan, if_pos (by decide), Token.scan]
    rfl
  exact parseProgram_eq_ok_iff.mpr ⟨[], { vocabulary := v }, cut, rfl, rfl⟩

/-- Two programs with a line feed between them are read one after the other,
the second one with the vocabulary that the first one leaves. -/
theorem parseProgram_lines (first : v.parseProgram front = (.ok clauses, v'))
    (second : v'.parseProgram back = (.ok clauses', v'')) :
    v.parseProgram (front ++ "\n" ++ back) = (.ok (clauses ++ clauses'), v'') := by
  have ended : LineBetween front.toList "\n".toList := .inr (by simp [EndsLine])
  have between : LineBetween (front ++ "\n").toList back.toList := .inl (by simp)
  have begun := parseProgram_append ended first (v'.parseProgram_newline)
  rw [List.append_nil] at begun
  exact parseProgram_append between begun second

/-- A program that is accepted once is accepted always, with the same names. -/
theorem parseProgram_again {text : String} (parsed : u.parseProgram text = (.ok clauses, u'))
    (v : Vocabulary) : ∃ again v', v.parseProgram text = (.ok again, v') ∧
      List.Forall₂ (NamedLike Clause.relabel) again clauses := by
  have accepted : (u.parseProgram text).1 = .ok clauses := by rw [parsed]
  obtain ⟨again, parsed', likes⟩ := recognizes_program.parse_again v accepted
  exact ⟨again, _, Prod.ext parsed' rfl, likes⟩

/-- What has been read stays legible when the vocabulary grows. -/
theorem legible_later {text : String} (parsed : v.parseProgram text = (.ok clauses, v'))
    (grown : v'.Grows v'') : ∀ c ∈ clauses, c.Legible v'' :=
  fun c hc => (legible_of_parseProgram parsed c hc).mono grown.alphabet_within

/-- Where the symbols of both are known in the end, programs with the same
names are variants. -/
theorem variants_of_namedLike {w : Vocabulary} (likes : List.Forall₂ (NamedLike Clause.relabel)
    clauses' clauses) (legible : ∀ c ∈ clauses, c.Legible w)
    (legible' : ∀ c ∈ clauses', c.Legible w) : List.Forall₂ Clause.Variant clauses clauses' := by
  induction likes with
  | nil => exact .nil
  | cons like _ ih =>
      obtain ⟨first, others⟩ := List.forall_mem_cons.mp legible
      obtain ⟨first', others'⟩ := List.forall_mem_cons.mp legible'
      exact .cons (variant_of_namedLike like first first') (ih others others')

end Vocabulary

/-! ### Files -/

namespace KnowledgeBase

variable {base base' base'' : KnowledgeBase} {bytes bytes' : List UInt8}
  {clauses clauses' : List Clause}

/-- Adding a file succeeds if its bytes are a text and the text is a
program. -/
theorem addOpened_eq_ok_iff : base.addOpened (.ok bytes) = (.ok clauses, base') ↔
    ∃ text v, programText bytes = .ok text ∧
      base.vocabulary.parseProgram text = (.ok clauses, v) ∧
      base' = ⟨base.store.extend clauses, v⟩ := by
  rw [addOpened]
  cases decoded : programText bytes with
  | error e => simp
  | ok text =>
      simp only [addProgram]
      split
      · next made v parsed =>
          simp only [Except.mapError, Prod.mk.injEq, Except.ok.injEq, exists_and_left,
            exists_eq_left', parsed]
          constructor
          · rintro ⟨rfl, rfl⟩
            exact ⟨v, ⟨rfl, rfl⟩, rfl⟩
          · rintro ⟨_, ⟨rfl, rfl⟩, rfl⟩
            exact ⟨rfl, rfl⟩
      · next e v parsed => simp [Except.mapError, parsed]

/-- The text in two files, with a line feed between them, is that of both, on
different lines. -/
theorem programText_lines {text text' : String} (decoded : programText bytes = .ok text)
    (decoded' : programText bytes' = .ok text') : ∃ between,
      programText (bytes ++ 10 :: bytes') = .ok (text ++ between ++ text') ∧
        (between = "\n" ∨ between = "" ∧ text.toList.getLast? = some '\n') := by
  unfold programText at decoded decoded' ⊢
  cases read : Text.decodeUtf8 bytes with
  | error e =>
      rw [read] at decoded
      cases decoded
  | ok cs =>
      cases read' : Text.decodeUtf8 bytes' with
      | error e =>
          rw [read'] at decoded'
          cases decoded'
      | ok cs' =>
          rw [read] at decoded
          rw [read'] at decoded'
          obtain rfl := Except.ok.inj decoded
          obtain rfl := Except.ok.inj decoded'
          have feed := Text.decodeUtf8_append Text.decodeUtf8_newline read'
          obtain ⟨between, same, ends⟩ := Text.unifyLineEnds_append_newline cs cs'
          refine ⟨String.ofList between, ?_, ?_⟩
          · change Except.map _ (Text.decodeUtf8 (bytes ++ ([10] ++ bytes'))) = _
            rw [Text.decodeUtf8_append read feed, Except.map, List.singleton_append, same,
              String.ofList_append, String.ofList_append]
          · rw [String.toList_ofList]
            exact ends.imp (fun line => by rw [line]) fun ended => ⟨by rw [ended.1], ended.2⟩

/-- Files put together, with a line feed between them, are loaded like one
after the other. -/
theorem addOpened_lines (first : base.addOpened (.ok bytes) = (.ok clauses, base'))
    (second : base'.addOpened (.ok bytes') = (.ok clauses', base'')) :
    base.addOpened (.ok (bytes ++ 10 :: bytes')) = (.ok (clauses ++ clauses'), base'') := by
  obtain ⟨text, v, decoded, parsed, rfl⟩ := addOpened_eq_ok_iff.mp first
  obtain ⟨text', v', decoded', parsed', rfl⟩ := addOpened_eq_ok_iff.mp second
  obtain ⟨between, whole, ends⟩ := programText_lines decoded decoded'
  apply addOpened_eq_ok_iff.mpr
  refine ⟨_, v', whole, ?_, by rw [Store.extend, Store.extend, Store.extend, List.foldl_append]⟩
  cases ends with
  | inl line =>
      rw [line]
      exact Vocabulary.parseProgram_lines parsed parsed'
  | inr ended =>
      rw [ended.1, String.append_empty]
      exact Vocabulary.parseProgram_append (.inl ended.2) parsed parsed'

/-- The bytes are those of a program file, which some knowledge base can
load. -/
def Loadable (bytes : List UInt8) : Prop :=
  ∃ (base base' : KnowledgeBase) (clauses : List Clause),
    base.addOpened (.ok bytes) = (.ok clauses, base')

/-- A loadable file can be added to any knowledge base. -/
theorem Loadable.addOpened (loadable : Loadable bytes) (base : KnowledgeBase) :
    ∃ clauses base', base.addOpened (.ok bytes) = (.ok clauses, base') := by
  obtain ⟨other, _, clauses, loaded⟩ := loadable
  obtain ⟨text, v, decoded, parsed, _⟩ := addOpened_eq_ok_iff.mp loaded
  obtain ⟨again, v', parsed', _⟩ := Vocabulary.parseProgram_again parsed base.vocabulary
  exact ⟨again, _, addOpened_eq_ok_iff.mpr ⟨text, v', decoded, parsed', rfl⟩⟩

end KnowledgeBase

/-- Programs can be put together by writing one on the lines behind the other.

Texts that are accepted, by whatever vocabularies, are accepted together. What
is read are the clauses of the first and then those of the second, up to the
variables: no clause shares one with another, and the other symbols are the
same if the vocabularies have become parts of one. A vocabulary that reads the
parts one after the other reads the same as from the whole. So a file that
consists of two others leaves a knowledge base as they leave it. -/
theorem KnowledgeBase.programs_compose :
    (∀ (front back : String) (u u' w w' : Vocabulary) (clauses clauses' : List Clause),
      u.parseProgram front = (.ok clauses, u') → w.parseProgram back = (.ok clauses', w') →
      ∀ v : Vocabulary, ∃ whole v', v.parseProgram (front ++ "\n" ++ back) = (.ok whole, v') ∧
        List.Forall₂ (NamedLike Clause.relabel) whole (clauses ++ clauses') ∧
        (whole.Pairwise fun c d => c.vars.Disjoint d.vars) ∧
        (∀ known : Vocabulary, u'.Grows known → w'.Grows known → v'.Grows known →
          List.Forall₂ Clause.Variant (clauses ++ clauses') whole) ∧
        ∃ first between second, v.parseProgram front = (.ok first, between) ∧
          between.parseProgram back = (.ok second, v') ∧ whole = first ++ second) ∧
    ∀ (base : KnowledgeBase) (openFile : OpenFile) (path path' joined : String)
      (bytes bytes' : List UInt8), openFile (Path.simplest path) = .ok bytes →
      openFile (Path.simplest path') = .ok bytes' →
      openFile (Path.simplest joined) = .ok (bytes ++ 10 :: bytes') →
      Loadable bytes → Loadable bytes' →
      ∃ clauses between clauses' after, base.addFile openFile path = (.ok clauses, between) ∧
        between.addFile openFile path' = (.ok clauses', after) ∧
        base.addFile openFile joined = (.ok (clauses ++ clauses'), after) := by
  refine ⟨?texts, ?files⟩
  case texts =>
    intro front back u u' w w' clauses clauses' parsed parsed' v
    obtain ⟨first, between, made, likes⟩ := Vocabulary.parseProgram_again parsed v
    obtain ⟨second, v', made', likes'⟩ := Vocabulary.parseProgram_again parsed' between
    have whole := Vocabulary.parseProgram_lines made made'
    have named := List.rel_append likes likes'
    refine ⟨_, v', whole, named, (Vocabulary.apart_of_parseProgram whole).2, ?_,
      first, between, second, made, made', rfl⟩
    intro known grown grown' later
    exact Vocabulary.variants_of_namedLike named
      (List.forall_mem_append.mpr ⟨Vocabulary.legible_later parsed grown,
        Vocabulary.legible_later parsed' grown'⟩) (Vocabulary.legible_later whole later)
  case files =>
    intro base openFile path path' joined bytes bytes' opened opened' opened'' loadable loadable'
    obtain ⟨clauses, between, loaded⟩ := loadable.addOpened base
    obtain ⟨clauses', after, loaded'⟩ := loadable'.addOpened between
    unfold addFile
    rw [opened, opened', opened'']
    exact ⟨clauses, between, clauses', after, loaded, loaded', addOpened_lines loaded loaded'⟩

/-- The first text ends within a comment. It would hide the second one in the
same line. -/
theorem KnowledgeBase.programs_compose_commented :
    let v : Vocabulary := {}
    let p : Clause := .fact ⟨⟨0, "p"⟩, [.const ⟨1, "a"⟩]⟩
    let q : Clause := .fact ⟨⟨2, "q"⟩, [.var ⟨3, "X"⟩]⟩
    let known : Vocabulary := ⟨[⟨1, "a"⟩], [], [⟨0, "p"⟩, ⟨2, "q"⟩], ⟨4⟩⟩
    let openFile : OpenFile := fun path =>
      if path = "p" then .ok [112, 46, 37]
      else if path = "q" then .ok [113, 46]
      else .ok ([112, 46, 37] ++ 10 :: [113, 46])
    (∃ whole v', known.parseProgram ("p(a). % ends" ++ "\n" ++ "q(X).") = (.ok whole, v') ∧
      List.Forall₂ Clause.Variant [p, q] whole) ∧
    v.parseProgram ("p(a). % ends" ++ "q(X).") = (.ok [p], ⟨[⟨1, "a"⟩], [], [⟨0, "p"⟩], ⟨2⟩⟩) ∧
    ∃ clauses between clauses' after,
      KnowledgeBase.addFile {} openFile "p" = (.ok clauses, between) ∧
      between.addFile openFile "q" = (.ok clauses', after) ∧
      KnowledgeBase.addFile {} openFile "both" = (.ok (clauses ++ clauses'), after) := by
  intro v p q known openFile
  let early : Vocabulary := ⟨[⟨1, "a"⟩], [], [⟨0, "p"⟩], ⟨2⟩⟩
  have first : v.parseProgram "p(a). % ends" = (.ok [p], early) := by cbv
  have second : early.parseProgram "q(X)." = (.ok [q], known) := by cbv
  have hidden : v.parseProgram ("p(a). % ends" ++ "q(X).") = (.ok [p], early) := by cbv
  have loaded : KnowledgeBase.addOpened {} (.ok [112, 46, 37]) =
      (.ok [.fact ⟨⟨0, "p"⟩, []⟩], ⟨⟨[⟨⟨0, "p"⟩, []⟩], []⟩, [], [], [⟨0, "p"⟩], ⟨1⟩⟩) := by cbv
  have loaded' : KnowledgeBase.addOpened {} (.ok [113, 46]) =
      (.ok [.fact ⟨⟨0, "q"⟩, []⟩], ⟨⟨[⟨⟨0, "q"⟩, []⟩], []⟩, [], [], [⟨0, "q"⟩], ⟨1⟩⟩) := by cbv
  obtain ⟨texts, files⟩ := programs_compose
  obtain ⟨whole, v', read, _, _, variants, _⟩ := texts _ _ _ _ _ _ _ _ first second known
  have grown := early.grows_parseProgram "q(X)."
  have grown' := known.grows_parseProgram ("p(a). % ends" ++ "\n" ++ "q(X).")
  rw [second] at grown
  rw [read] at grown'
  have variants := variants v' (grown.trans grown') grown' (.refl v')
  exact ⟨⟨whole, v', read, variants⟩, hidden, files {} openFile "p" "q" "both" _ _ (by cbv) (by cbv)
    (by cbv) ⟨_, _, _, loaded⟩ ⟨_, _, _, loaded'⟩⟩

end Resolvent
