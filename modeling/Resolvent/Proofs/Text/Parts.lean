/-
# Texts taken apart

A text is divided at every mark in it, so the parts of a text with a mark
somewhere are those of what stands in front of that mark and those of what
stands behind it. Proofs about parts go from mark to mark and not from
character to character, by an induction of their own: a text has no mark in it,
or it has a first one.

Trimming cuts a text down to something that does not begin or end with a
character to be dropped. It is told apart from other such pieces by what is
missing, which is of the kind to be dropped throughout.
-/

import Mathlib.Data.List.DropRight
import Resolvent.Text.Blank
import Resolvent.Text.Line

namespace Resolvent.Text

/-! ### Parts -/

variable {mark : Char} {text : List Char}

/-- Induction on a text from the mark behind one part to the mark behind the
next. -/
@[elab_as_elim]
theorem induction_at {motive : List Char → Prop} (mark : Char)
    (last : ∀ text, mark ∉ text → motive text)
    (next : ∀ text rest, mark ∉ text → motive rest → motive (text ++ mark :: rest))
    (text : List Char) : motive text :=
  if marked : mark ∈ text then by
    obtain ⟨first, rest, rfl, unmarked⟩ := List.eq_append_cons_of_mem marked
    exact next first rest unmarked (induction_at mark last next rest)
  else last text marked
termination_by text.length
decreasing_by simp_all; omega

/-- At a mark a part ends and another one begins. -/
theorem splitAt_append_cons (mark : Char) (part text rest : List Char) :
    splitAt mark part (text ++ mark :: rest) = splitAt mark part text ++ parts mark rest := by
  induction text generalizing part with
  | nil => simp [splitAt, parts]
  | cons c text ih =>
      rw [List.cons_append, splitAt, splitAt]
      split
      · rw [ih, List.cons_append]
      · exact ih _

/-- The parts around a mark are those in front of it and those behind it. -/
theorem parts_append_cons (mark : Char) (text rest : List Char) :
    parts mark (text ++ mark :: rest) = parts mark text ++ parts mark rest :=
  splitAt_append_cons mark [] text rest

/-- Without a mark there is only one part. -/
theorem parts_eq_singleton (unmarked : mark ∉ text) : parts mark text = [text] := by
  have general (part : List Char) : splitAt mark part text = [part.reverse ++ text] := by
    induction text generalizing part with
    | nil => simp [splitAt]
    | cons c text ih =>
        rw [List.mem_cons, not_or] at unmarked
        rw [splitAt, if_neg (Ne.symm unmarked.1), ih unmarked.2]
        simp
  exact general []

/-- There is one part more than there are marks. -/
theorem length_parts (mark : Char) (text : List Char) :
    (parts mark text).length = text.count mark + 1 := by
  induction text using induction_at mark with
  | last text unmarked =>
      rw [parts_eq_singleton unmarked, List.count_eq_zero_of_not_mem unmarked]
      rfl
  | next text rest unmarked ih =>
      rw [parts_append_cons, List.length_append, ih, parts_eq_singleton unmarked, List.count_append,
        List.count_eq_zero_of_not_mem unmarked, List.count_cons_self, List.length_singleton]
      omega

/-! ### Trimming -/

variable {drop : Char → Bool} {front back : List Char}

/-- The end is trimmed like the beginning, only from behind. -/
theorem trimmed_eq_rdropWhile (drop : Char → Bool) (text : List Char) :
    trimmed drop text = (text.dropWhile drop).rdropWhile drop := rfl

/-- What is dropped at the ends may as well not be there. -/
theorem trimmed_append (before : ∀ c ∈ front, drop c) (behind : ∀ c ∈ back, drop c) :
    trimmed drop (front ++ (text ++ back)) = trimmed drop text := by
  rw [trimmed, trimmed, List.dropWhile_append_of_pos before, List.dropWhile_append]
  split
  · next all =>
      rw [List.isEmpty_iff.mp all, List.dropWhile_eq_nil_iff.mpr behind]
  · have reversed : ∀ c ∈ back.reverse, drop c := fun c hc => behind c (List.mem_reverse.mp hc)
    rw [List.reverse_append, List.dropWhile_append_of_pos reversed]

/-- There is nothing to trim where neither end is to be dropped. -/
theorem trimmed_eq_self (begins : ∀ c ∈ text.head?, ¬ drop c)
    (ends : ∀ c ∈ text.getLast?, ¬ drop c) : trimmed drop text = text := by
  have left : text.dropWhile drop = text := by
    cases text with
    | nil => rfl
    | cons c rest => exact List.dropWhile_cons_of_neg (begins c rfl)
  rw [trimmed_eq_rdropWhile, left, List.rdropWhile_eq_self_iff]
  exact fun some => ends _ (List.getLast?_eq_some_getLast some)

/-- A trimmed text does not end with anything to be dropped. -/
theorem not_of_mem_getLast?_trimmed (drop : Char → Bool) (text : List Char) :
    ∀ c ∈ (trimmed drop text).getLast?, ¬ drop c := by
  intro c last
  rw [trimmed, List.getLast?_reverse] at last
  have stops := List.head?_dropWhile_not drop (text.dropWhile drop).reverse
  rw [last] at stops
  exact Bool.eq_false_iff.mp stops

theorem not_of_mem_head?_trimmed (drop : Char → Bool) (text : List Char) :
    ∀ c ∈ (trimmed drop text).head?, ¬ drop c := by
  intro c first
  obtain ⟨behind, whole⟩ := List.rdropWhile_prefix drop (text.dropWhile drop)
  have stops := List.head?_dropWhile_not drop text
  rw [trimmed_eq_rdropWhile] at first
  rw [← whole, List.head?_append, first] at stops
  exact Bool.eq_false_iff.mp stops

/-- Nothing of the kind to be dropped stands in front of what begins with
something else. -/
theorem eq_nil_of_head? (before : ∀ c ∈ front, drop c)
    (begins : ∀ c ∈ (front ++ text).head?, ¬ drop c) : front = [] := by
  cases front with
  | nil => rfl
  | cons c front => exact absurd (before c List.mem_cons_self) (begins c rfl)

/-- Nothing of the kind to be dropped stands behind what ends with something
else. -/
theorem eq_nil_of_getLast? (behind : ∀ c ∈ back, drop c)
    (ends : ∀ c ∈ (text ++ back).getLast?, ¬ drop c) : back = [] := by
  cases last : back.getLast? with
  | none => exact List.getLast?_eq_none_iff.mp last
  | some c =>
      refine absurd (behind c (List.mem_of_getLast? last)) (ends c ?_)
      rw [List.getLast?_append, last]
      rfl

/-- What a text loses at its ends is of the kind to be dropped. -/
theorem exists_trimmed (drop : Char → Bool) (text : List Char) :
    ∃ front back, (∀ c ∈ front, drop c) ∧ (∀ c ∈ back, drop c) ∧
      text = front ++ (trimmed drop text ++ back) := by
  let left := text.dropWhile drop
  have back : left.reverse.takeWhile drop ++ (trimmed drop text).reverse = left.reverse := by
    rw [trimmed, List.reverse_reverse, List.takeWhile_append_dropWhile]
  refine ⟨text.takeWhile drop, (left.reverse.takeWhile drop).reverse,
    fun c hc => List.mem_takeWhile_imp hc,
    fun c hc => List.mem_takeWhile_imp (List.mem_reverse.mp hc), ?_⟩
  have whole := congrArg List.reverse back
  rw [List.reverse_append, List.reverse_reverse, List.reverse_reverse] at whole
  rw [whole, List.takeWhile_append_dropWhile]

end Resolvent.Text
