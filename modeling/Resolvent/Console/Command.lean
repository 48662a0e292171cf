/-
# Commands

A line typed at the prompt is a command. Blanks around it and one full stop at
its end do not count. It leaves the session, lists the store, consults program
files, or else is a query. Files are consulted by naming them between brackets,
or between the parentheses of `consult`, with commas between the names; blanks
and quotation marks around a name do not count, but a comma within quotation
marks still separates.
-/

import Resolvent.Text.Blank
import Resolvent.Text.Line

namespace Resolvent

/-- What a line at the prompt asks for. -/
inductive Command
  | nothing
  | leave
  | list
  | consult (paths : List String)
  | query (text : String)
  deriving DecidableEq

namespace Command

/-- A line without the blanks around it and without the full stop at its
end. -/
def body (line : List Char) : List Char :=
  let text := Text.strip line
  if text.getLast? = some '.' then Text.strip text.dropLast else text

/-- What stands between an opening and a closing text, if it is not empty and
on a single line. -/
def enclosed? (opening : List Char) (closing : Char) (text : List Char) : Option (List Char) :=
  if opening.isPrefixOf text ∧ (text.drop opening.length).getLast? = some closing then
    let inner := (text.drop opening.length).dropLast
    if inner ≠ [] ∧ '\n' ∉ inner then some inner else none
  else none

/-- The names in a consult form, between its brackets or parentheses. -/
def consulted? (text : List Char) : Option (List Char) :=
  enclosed? ['['] ']' text <|> enclosed? "consult(".toList ')' text

/-- A file name without the blanks and quotation marks around it. -/
def fileName (name : List Char) : String :=
  String.ofList (Text.trimmed (fun c => c = '\'' || c = '"') (Text.strip name))

/-- The command of a line. -/
def ofLine (line : String) : Command :=
  let text := body line.toList
  let word := String.ofList text
  if text = [] then .nothing
  else if word = "halt" ∨ word = "quit" ∨ word = "exit" then .leave
  else if word = "listing" then .list
  else
    match consulted? text with
    | some names => .consult ((Text.parts ',' names).map fileName)
    | none => .query word

end Command

end Resolvent
