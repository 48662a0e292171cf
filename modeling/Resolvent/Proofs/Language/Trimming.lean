/-
# What does not count around a query

A text may lose the blanks at its ends: they stand behind the last token, or
within a comment. It may lose a full stop at its very end as well, but for
another reason. There the full stop is a token, unless a comment hides it, and
then it is the last one. A query may end with it or without it, and since the
name in front of it is known as soon as the text ends, the same is read.

Whether a comment hides the last character cannot be told from the end of the
text. So what is shown first leaves it open: the last character makes no
difference at all, or it is read as if it stood alone.
-/

import Resolvent.Proofs.Language.Concatenation
import Resolvent.Proofs.Text.Parts

namespace Resolvent

open Reading

/-! ### The last character of a text -/

/-- A mark at the end of a text is not changed by another character, unless
that is a hyphen. -/
theorem Mark.at?_concat {b : Char} (not_hyphen : b ≠ '-') (c : Char) (rest : List Char) :
    Mark.at? c (rest ++ [b]) = Mark.at? c rest := by
  apply List.find?_congr
  cases rest <;> simp [all, begins, List.isPrefixOf, Ne.symm not_hyphen]

/-- A mark that is found is within the text. -/
theorem Mark.length_le_of_at? {m : Mark} {c : Char} {rest : List Char}
    (begun : Mark.at? c rest = some m) : m.more.length ≤ rest.length := by
  have begins := List.find?_some begun
  rw [Mark.begins, Bool.and_eq_true, List.isPrefixOf_iff_prefix] at begins
  exact begins.2.length_le

/-- A run that ends before the end of the text, or else is ended by the
character behind it. -/
theorem span_concat {p : Char → Bool} {b : Char} (text : List Char)
    (ends : ¬ p b ∨ text.dropWhile p ≠ []) : (text ++ [b]).takeWhile p = text.takeWhile p ∧
      (text ++ [b]).dropWhile p = text.dropWhile p ++ [b] := by
  have run : ∀ c ∈ text.takeWhile p, p c := fun c hc => List.mem_takeWhile_imp hc
  have stops : ∀ c ∈ (text.dropWhile p ++ [b]).head?, ¬ p c := by
    intro c first
    by_cases whole : text.dropWhile p = []
    · rw [whole] at first
      obtain rfl := Option.some.inj first
      exact ends.resolve_right (absurd whole)
    · apply Piece.not_of_mem_head?_dropWhile
      rwa [List.head?_append_of_ne_nil _ whole] at first
  have both := span_run run stops
  rwa [← List.append_assoc, List.takeWhile_append_dropWhile] at both

namespace Token

/-- A character with which no token goes on is hidden by a comment, or else it
is read as if it stood alone. -/
theorem scan_concat {b : Char} (not_name : ¬ isNameCharacter b) (not_hyphen : b ≠ '-')
    (found : List Token) (offset : Nat) (text : List Char) :
    scan found offset (text ++ [b]) = scan found offset text ∨
      ∃ place, scan found offset (text ++ [b]) =
        scan found offset text >>= fun tokens => scan tokens.reverse place [b] := by
  induction found, offset, text using scan.induct with
  | case1 found offset =>
      refine .inr ⟨offset, ?_⟩
      rw [scan.eq_def found offset []]
      exact congrArg (scan · offset [b]) found.reverse_reverse.symm
  | case2 found offset c rest blank ih =>
      rw [List.cons_append, scan, if_pos blank, scan, if_pos blank]
      exact ih
  | case3 found offset rest comment not_blank ih =>
      rw [List.cons_append, scan, if_neg not_blank, if_pos rfl, scan, if_neg not_blank, if_pos rfl]
      dsimp only
      by_cases ended : rest.dropWhile (· ≠ '\n') = []
      · -- The comment has come to no end, and the character ends it at most.
        left
        rw [List.dropWhile_append, ended, if_pos List.isEmpty_nil]
        by_cases line : b = '\n'
        · subst line
          rw [List.dropWhile_cons_of_neg (by decide), scan, scan, if_pos (by decide), scan]
        · rw [List.dropWhile_cons_of_pos (by simpa using line), List.dropWhile_nil, scan, scan]
      · obtain ⟨taken, left⟩ := span_concat (b := b) rest (.inr ended)
        rw [taken, left]
        exact ih
  | case4 found offset c rest not_blank not_percent named more ih =>
      obtain ⟨taken, left⟩ := span_concat rest (.inl not_name)
      rw [List.cons_append, scan, if_neg not_blank, if_neg not_percent, if_pos named, scan,
        if_neg not_blank, if_neg not_percent, if_pos named]
      dsimp only
      rw [taken, left]
      exact ih
  | case5 found offset c rest not_blank not_percent not_named m begun ih =>
      rw [List.cons_append, scan, if_neg not_blank, if_neg not_percent, if_neg not_named, scan,
        if_neg not_blank, if_neg not_percent, if_neg not_named, Mark.at?_concat not_hyphen, begun]
      dsimp only
      rw [List.drop_append_of_le_length (Mark.length_le_of_at? begun)]
      exact ih
  | case6 found offset c rest not_blank not_percent not_named none_begins =>
      left
      rw [List.cons_append, scan, if_neg not_blank, if_neg not_percent, if_neg not_named, scan,
        if_neg not_blank, if_neg not_percent, if_neg not_named, Mark.at?_concat not_hyphen,
        none_begins]

/-- Blanks at the end of a text make no difference. -/
theorem scan_append_blanks {run : List Char} (all : ∀ c ∈ run, Text.isBlank c)
    (found : List Token) (offset : Nat) (text : List Char) :
    scan found offset (text ++ run) = scan found offset text := by
  induction run using List.reverseRecOn with
  | nil => rw [List.append_nil]
  | append_singleton run b ih =>
      obtain ⟨others, last⟩ := List.forall_mem_append.mp all
      have blank := last b (List.mem_singleton_self b)
      have not_name : ¬ isNameCharacter b := fun named => not_isBlank_of_isNameCharacter named blank
      have not_hyphen : b ≠ '-' := by
        rintro rfl
        exact absurd blank (by decide)
      rw [← ih others, ← List.append_assoc]
      cases scan_concat not_name not_hyphen found offset (text ++ run) with
      | inl hidden => exact hidden
      | inr alone =>
          obtain ⟨place, same⟩ := alone
          have dropped : ∀ tokens : List Token, scan tokens.reverse place [b] = .ok tokens := by
            intro tokens
            rw [scan, if_pos blank, scan, List.reverse_reverse]
          rw [same]
          simp only [dropped]
          exact bind_pure _

/-- A full stop at the end of a text is in a comment, or it is the last
token. -/
theorem scan_concat_stop {text : List Char} {tokens : List Token}
    (cut : scan [] 0 (text ++ ['.']) = .ok tokens) : ∃ others, scan [] 0 text = .ok others ∧
      (tokens = others ∨ ∃ place, tokens = others ++ [⟨.stop, ".", place⟩]) := by
  cases scan_concat (by decide) (by decide) [] 0 text (b := '.') with
  | inl hidden => exact ⟨tokens, hidden.symm.trans cut, .inl rfl⟩
  | inr alone =>
      obtain ⟨place, same⟩ := alone
      have last : ∀ others : List Token,
          scan others.reverse place ['.'] = .ok (others ++ [⟨.stop, ".", place⟩]) := by
        intro others
        rw [scan, if_neg (by decide), if_neg (by decide), if_neg (by decide)]
        show scan (⟨.stop, ".", place⟩ :: others.reverse) (place + 1) [] = _
        rw [scan, List.reverse_cons, List.reverse_reverse]
      simp only [last] at same
      rw [same] at cut
      cases made : scan [] 0 text with
      | error e =>
          rw [made] at cut
          cases cut
      | ok others =>
          rw [made] at cut
          exact ⟨others, rfl, .inr ⟨place, (Except.ok.inj cut).symm⟩⟩

/-- A text has the same tokens further behind. -/
theorem exists_ofText_of_scan (text : String) {tokens : List Token} {offset : Nat}
    (cut : scan [] offset text.toList = .ok tokens) : ∃ tokens', ofText text = .ok tokens' ∧
      tokens'.map lexeme = tokens.map lexeme := by
  obtain ⟨pieces, split, rfl⟩ := exists_splits cut
  refine ⟨_, split.ofText, ?_⟩
  rw [← Nat.zero_add offset, Piece.tokens_add, List.map_map]
  rfl

end Token

/-- What a text loses at its ends are blanks. -/
theorem Text.exists_strip (text : List Char) : ∃ front back, (∀ c ∈ front, isBlank c) ∧
    (∀ c ∈ back, isBlank c) ∧ text = front ++ (strip text ++ back) :=
  exists_trimmed isBlank text

/-! ### The end of a query -/

section

variable {t : Token} {r r' : Reader}

/-- No full stop stands within an argument list. -/
theorem ArgumentList.feed_stop_ne_ok (stop : t.kind = .stop) (s : ArgumentList)
    (progress : Progress ArgumentList (List Term)) : s.feed t r ≠ .ok progress r' := by
  obtain ⟨kind, text, offset⟩ := t
  obtain rfl : kind = .stop := stop
  cases s with
  | due before outer => nofun
  | named name before outer =>
      intro fed
      obtain ⟨last, r₁, _, refused⟩ := exists_of_bind fed
      cases outer <;> cases refused
  | ended args outer => cases outer <;> nofun

/-- A full stop finishes an atom, and so does the end of the text. -/
theorem AtomReading.atEnd_of_stop (stop : t.kind = .stop) {s : AtomReading}
    {progress : Progress AtomReading Atom} (fed : s.feed t r = .ok progress r') (n : Nat) :
    ∃ a, progress = .finished a ∧ s.atEnd n r = .ok a r' := by
  obtain ⟨kind, text, offset⟩ := t
  obtain rfl : kind = .stop := stop
  cases s with
  | due => cases fed
  | named p =>
      obtain ⟨rfl, rfl⟩ := EStateM.Result.ok.inj fed
      exact ⟨_, rfl, rfl⟩
  | inside p args =>
      obtain ⟨inner, r₁, refused, _⟩ := exists_of_bind fed
      exact absurd refused (args.feed_stop_ne_ok rfl inner)
  | ended a =>
      obtain ⟨rfl, rfl⟩ := EStateM.Result.ok.inj fed
      exact ⟨_, rfl, rfl⟩

/-- A query that ends with a full stop may end without it. -/
theorem QueryReading.atEnd_of_stop (stop : t.kind = .stop) {s s' : QueryReading} {r₁ : Reader}
    {goals : List Atom} {m : Nat} (fed : s.feed t r = .ok s' r₁)
    (ended : s'.atEnd m r₁ = .ok goals r') (n : Nat) : s.atEnd n r = .ok goals r' := by
  obtain ⟨kind, text, offset⟩ := t
  obtain rfl : kind = .stop := stop
  cases s with
  | start => cases fed
  | inGoal before a =>
      obtain ⟨progress, r₂, read, next⟩ := exists_of_bind fed
      obtain ⟨goal, rfl, last⟩ := a.atEnd_of_stop rfl read n
      obtain ⟨rfl, rfl⟩ := EStateM.Result.ok.inj next
      obtain ⟨rfl, rfl⟩ := EStateM.Result.ok.inj ended
      exact bind_of_ok last
  | ended goals => cases fed

end

namespace Vocabulary

variable {v v' : Vocabulary} {text text' : String} {goals : List Atom} {tokens tokens' : List Token}

/-- A text whose tokens are the same as those of a query is the same query. -/
theorem parseGoals_of_lexemes (cut : Token.ofText text = .ok tokens)
    (cut' : Token.ofText text' = .ok tokens')
    (same : tokens'.map Token.lexeme = tokens.map Token.lexeme)
    (parsed : v.parseGoals text = (.ok goals, v')) : v.parseGoals text' = (.ok goals, v') := by
  obtain ⟨r', result, grown⟩ := exists_of_reading parsed
  obtain ⟨_, s, r₁, again, fed, ended⟩ := whole_eq_ok_iff.mp result
  obtain rfl := Except.ok.inj (cut.symm.trans again)
  refine reading_eq_ok_iff.mpr ⟨r', whole_eq_ok_iff.mpr ⟨_, s, r₁, cut', ?_, ?_⟩, grown⟩
  · refine foldlM_of_lexemes (fun t n made => ?_) same fed
    rw [QueryReading.feed_movedTo]
    exact ok_of_movedTo made
  · rw [s.atEnd_movedTo text'.length text.length]
    exact ok_of_movedTo ended

/-- Blanks around a query make no difference. -/
theorem parseGoals_strip (parsed : v.parseGoals text = (.ok goals, v')) :
    v.parseGoals (String.ofList (Text.strip text.toList)) = (.ok goals, v') := by
  obtain ⟨front, back, before, behind, whole⟩ := Text.exists_strip text.toList
  obtain ⟨r', result, _⟩ := exists_of_reading parsed
  obtain ⟨tokens, _, _, cut, _, _⟩ := whole_eq_ok_iff.mp result
  have stripped := cut
  rw [Token.ofText, whole, Token.scan_blanks [] 0 before, Token.scan_append_blanks behind]
    at stripped
  obtain ⟨tokens', cut', same⟩ :=
    Token.exists_ofText_of_scan (String.ofList (Text.strip text.toList))
      (by rwa [String.toList_ofList])
  exact parseGoals_of_lexemes cut cut' same parsed

/-- A full stop at the very end of a query makes no difference. -/
theorem parseGoals_dropLast (parsed : v.parseGoals text = (.ok goals, v'))
    (stop : text.toList.getLast? = some '.') :
    v.parseGoals (String.ofList text.toList.dropLast) = (.ok goals, v') := by
  obtain ⟨r', result, grown⟩ := exists_of_reading parsed
  obtain ⟨tokens, s, r₁, cut, fed, ended⟩ := whole_eq_ok_iff.mp result
  have whole := cut
  rw [Token.ofText, ← List.dropLast_append_getLast? _ stop] at whole
  obtain ⟨others, before, last⟩ := Token.scan_concat_stop whole
  have cut' : Token.ofText (String.ofList text.toList.dropLast) = .ok others := by
    rwa [Token.ofText, String.toList_ofList]
  cases last with
  | inl hidden => exact parseGoals_of_lexemes cut cut' (by rw [hidden]) parsed
  | inr token =>
      obtain ⟨place, rfl⟩ := token
      rw [List.foldlM_append] at fed
      obtain ⟨s₀, r₀, fed', rest⟩ := exists_of_bind fed
      rw [List.foldlM_cons] at rest
      obtain ⟨s₂, r₂, stopped, rest⟩ := exists_of_bind rest
      obtain ⟨rfl, rfl⟩ := EStateM.Result.ok.inj rest
      refine reading_eq_ok_iff.mpr ⟨r', whole_eq_ok_iff.mpr ⟨others, s₀, r₀, cut', fed', ?_⟩, grown⟩
      exact s₀.atEnd_of_stop rfl stopped ended _

/-- There is no query without a token. -/
theorem toList_ne_nil_of_parseGoals (parsed : v.parseGoals text = (.ok goals, v')) :
    text.toList ≠ [] := by
  intro empty
  obtain ⟨r', result, _⟩ := exists_of_reading parsed
  obtain ⟨tokens, s, r₁, cut, fed, ended⟩ := whole_eq_ok_iff.mp result
  rw [Token.ofText, empty, Token.scan] at cut
  obtain rfl := Except.ok.inj cut
  obtain ⟨rfl, rfl⟩ := EStateM.Result.ok.inj fed
  cases ended

end Vocabulary

end Resolvent
