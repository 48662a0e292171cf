/-
# Paths

A path is a text whose components are separated by slashes. Its simplest
spelling leaves out what has no influence on the file it names, as far as that
can be told from the text alone: empty components and the component for the
directory itself. The component for the parent directory stays, since it
depends on what is there.
-/

import Resolvent.Text.Layout
import Resolvent.Text.Line

namespace Resolvent.Path

/-- The components of a path between its slashes. -/
def components (path : String) : List String :=
  (Text.parts '/' path.toList).map String.ofList

/-- Whether a path starts at the root of the file system. -/
def isAbsolute (path : String) : Bool :=
  path.toList.head? = some '/'

/-- The slashes that the simplest spelling begins with. Two slashes in front
are kept, since a system may give them a meaning of their own; three or more
are as one. -/
def root (path : String) : String :=
  match (path.toList.takeWhile (· = '/')).length with
  | 0 => ""
  | 2 => "//"
  | _ => "/"

/-- The simplest spelling of a path. The empty path is the directory itself. -/
def simplest (path : String) : String :=
  let names := (components path).filter fun name => name ≠ "" && name ≠ "."
  let spelled := root path ++ Text.separated "/" names
  if spelled = "" then "." else spelled

end Resolvent.Path
