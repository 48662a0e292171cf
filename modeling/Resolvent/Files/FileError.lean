/-
# File errors

What the file system answers when a file cannot be opened. Each cause has its
customary number and wording.
-/

import Resolvent.Text.Quoted

namespace Resolvent

/-- Why a file cannot be opened. -/
inductive FileError.Cause
  | notFound | notDirectory | isDirectory | nameTooLong
  deriving DecidableEq

/-- A file that cannot be opened, by the path that was asked for. -/
structure FileError where
  cause : FileError.Cause
  path : String
  deriving DecidableEq

namespace FileError

/-- The number of a cause. -/
def Cause.number : Cause → Nat
  | .notFound => 2
  | .notDirectory => 20
  | .isDirectory => 21
  | .nameTooLong => 36

/-- The wording of a cause. -/
def Cause.text : Cause → String
  | .notFound => "No such file or directory"
  | .notDirectory => "Not a directory"
  | .isDirectory => "Is a directory"
  | .nameTooLong => "File name too long"

/-- The wording of an error. -/
def message (e : FileError) : String :=
  let path := Text.quoted e.path
  s!"[Errno {e.cause.number}] {e.cause.text}: {path}"

end FileError

/-- Why a path cannot be opened: the file system refuses it, or it holds the
null character and is no path at all. -/
inductive OpenError
  | refused (e : FileError)
  | nullCharacter
  deriving DecidableEq

/-- The wording of an error. -/
def OpenError.message : OpenError → String
  | .refused e => e.message
  | .nullCharacter => "embedded null byte"

end Resolvent
