import PlacementRules.Command.Arguments

/-!
# Command-line program

Reads the files a command names and prints its response.
-/

namespace PlacementRules

def usage : String :=
  "usage: placement-rules [--output text|json] COMMAND\n" ++
  "  evaluate FILE [--placements FILE] [--connected] [--skip-validation] [--max-depth N]\n" ++
  "  validate FILE [--max-depth N]\n" ++
  "  explain FILE\n" ++
  "  expr TEXT [--placements FILE]\n"

def readFile (file : String) : IO (Except FileError String) := do
  try
    return .ok (← IO.FS.readFile file)
  catch
    | .noFileOrDirectory .. => return .error .missing
    | .permissionDenied .. => return .error .denied
    | .inappropriateType _ 21 _ => return .error .directory
    | .inappropriateType .. => return .error .notDirectory
    | .invalidArgument _ _ "name too long" => return .error .nameTooLong
    | .userError _ => return .error .notText
    | error => return .error (.unreadable (toString error))

def Command.fileNames : Command → List String
  | evaluate file placements _ _ _ => file :: placements.toList
  | validate file _ => [file]
  | explain file => [file]
  | expression _ placements => placements.toList

/-- Read files ahead, so that a command can look them up. -/
def readFiles (names : List String) : IO Files := do
  let contents ← names.mapM fun name => do return (name, ← readFile name)
  return fun name => (contents.lookup name).getD (.error .missing)

def surroundings (files : Files) : Surroundings where
  files := files
  documentFault _ := "the text is not a JSON document"
  placementsFault _ := "the text is not a JSON list of placements"

end PlacementRules

def main (arguments : List String) : IO UInt32 := do
  match PlacementRules.Invocation.ofArguments? arguments with
  | none =>
      (← IO.getStderr).putStr PlacementRules.usage
      return 2
  | some invocation =>
      let files ← PlacementRules.readFiles invocation.command.fileNames
      let response := invocation.command.run (PlacementRules.surroundings files)
        invocation.format
      (← IO.getStdout).putStr response.output
      response.messages.forM (← IO.getStderr).putStrLn
      return response.code.toUInt32
