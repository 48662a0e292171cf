/-
# Lines

A line ends with a line feed, a carriage return, or the two in this order.
Inside the program every line ends with a line feed.
-/

namespace Resolvent.Text

/-- A text with a line feed at the end of every line, however the line
ended. -/
def unifyLineEnds : List Char → List Char
  | [] => []
  | '\r' :: '\n' :: rest => '\n' :: unifyLineEnds rest
  | '\r' :: rest => '\n' :: unifyLineEnds rest
  | c :: rest => c :: unifyLineEnds rest

/-- The parts of a text between the occurrences of a character; `part` is what
has been read of the current part, last character first. -/
def splitAt (mark : Char) (part : List Char) : List Char → List (List Char)
  | [] => [part.reverse]
  | c :: rest =>
    if c = mark then part.reverse :: splitAt mark [] rest else splitAt mark (c :: part) rest

/-- The parts of a text between the occurrences of a character. -/
def parts (mark : Char) (text : List Char) : List (List Char) :=
  splitAt mark [] text

/-- The lines of a text without their ends. A text that ends with a line end
has no empty line behind it. -/
def linesOf (text : List Char) : List (List Char) :=
  let lines := parts '\n' (unifyLineEnds text)
  if lines.getLast? = some [] then lines.dropLast else lines

/-- Every text has at least one part, if only an empty one. -/
theorem splitAt_ne_nil (mark : Char) (part text : List Char) : splitAt mark part text ≠ [] := by
  induction text generalizing part with
  | nil => simp [splitAt]
  | cons c rest ih =>
    rw [splitAt]
    split
    · simp
    · exact ih _

/-- Splitting loses nothing but the marks. -/
theorem intercalate_splitAt (mark : Char) (part text : List Char) :
    List.intercalate [mark] (splitAt mark part text) = part.reverse ++ text := by
  induction text generalizing part with
  | nil => simp [splitAt, List.intercalate]
  | cons c rest ih =>
    rw [splitAt]
    split
    · next h =>
      obtain ⟨first, others, he⟩ := List.exists_cons_of_ne_nil (splitAt_ne_nil mark [] rest)
      have hrest := ih []
      rw [he] at hrest ⊢
      simp only [List.intercalate, List.intersperse_cons_cons, List.flatten_cons] at hrest ⊢
      rw [hrest, h]
      simp
    · rw [ih]
      simp

end Resolvent.Text
