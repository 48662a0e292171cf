/-
# Layout

Lists of texts are set with a comma and a space between the items, and the
sections of a report are ruled off from each other.
-/

namespace Resolvent.Text

/-- Items in order with a separator between each two of them. -/
def separated (separator : String) : List String → String
  | [] => ""
  | [item] => item
  | item :: next :: rest => item ++ separator ++ separated separator (next :: rest)

/-- Items with a comma and a space between each two of them. -/
def listed (items : List String) : String :=
  separated ", " items

/-- Lines of text, each ended by a line feed. -/
def lines (texts : List String) : String :=
  texts.foldl (fun above line => above ++ line ++ "\n") ""

/-- The rule that sets off a section of a report. -/
def rule : String :=
  String.ofList (List.replicate 60 '=')

end Resolvent.Text
