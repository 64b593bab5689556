/-!
# Surroundings of a command

A command finds files by path, and a JSON library that puts into words why it does not
accept a text.  Both are given to it, so what is said of a command holds wherever it
runs.
-/

namespace PlacementRules

inductive FileError where
  | missing
  | denied
  | notDirectory
  | directory
  | nameTooLong
  | notText
  | unreadable (reason : String)
deriving DecidableEq, Repr, Inhabited

def FileError.message : FileError → String
  | missing => "No such file or directory (os error 2)"
  | denied => "Permission denied (os error 13)"
  | notDirectory => "Not a directory (os error 20)"
  | directory => "Is a directory (os error 21)"
  | nameTooLong => "File name too long (os error 36)"
  | notText => "stream did not contain valid UTF-8"
  | unreadable reason => reason

/-- The contents of files by path. -/
abbrev Files := String → Except FileError String

structure Surroundings where
  files : Files
  /-- What is wrong with a text that is no JSON document. -/
  documentFault : String → String
  /-- What is wrong with a text that is no JSON list of placements. -/
  placementsFault : String → String

end PlacementRules
