import PlacementRules.Command.Surroundings
import PlacementRules.Document.Placements
import PlacementRules.Document.Reports
import PlacementRules.Document.Scenario
import PlacementRules.Evaluation
import PlacementRules.Json.Printer
import PlacementRules.Text.Printer
import PlacementRules.Text.Reader

/-!
# Commands and their responses

What the command line does: a command reads the files it names and is answered
by an exit code, a text for the output and messages for the error stream.  The code
is 0 for a pass, 1 for a fail or a refusal, and 2 for an error.
-/

namespace PlacementRules

inductive OutputFormat where
  | text
  | json
deriving DecidableEq, Repr, Inhabited

inductive Command where
  | evaluate (scenario : String) (placements : Option String)
      (connected skipValidation : Bool) (maxDepth : Nat)
  | validate (scenario : String) (maxDepth : Nat)
  | explain (scenario : String)
  | expression (rule : String) (placements : Option String)
deriving DecidableEq, Repr, Inhabited

inductive CommandError where
  | file (error : FileError)
  | document (error : DocumentError)
  | rule (error : ParseError)
deriving DecidableEq, Repr, Inhabited

def CommandError.message : CommandError → String
  | file error => error.message
  | document error => error.message
  | rule error => error.message

/--
How a command ends.  Its messages stand on the error stream, each on lines of its own;
the lines of a log, which can stand between them, are no part of the response.
-/
structure Response where
  code : Nat := 0
  output : String := ""
  messages : List String := []
deriving DecidableEq, Repr, Inhabited

namespace Response

def verdictCode (passed : Bool) : Nat :=
  if passed then 0 else 1

def ofError (error : CommandError) : Response where
  code := 2
  messages := ["error: " ++ error.message]

def showing (format : OutputFormat) (passed : Bool) (text : String) (json : Json) :
    Response where
  code := verdictCode passed
  output :=
    match format with
    | .text => text ++ "\n"
    | .json => json.pretty ++ "\n"

def refusing (format : OutputFormat) (report : Report) : Response :=
  match format with
  | .text => { code := 1, messages := [report.message] }
  | .json => { code := 1, output := report.toJson.pretty ++ "\n" }

def ofOutcome (format : OutputFormat) (outcome : Outcome) : Response :=
  showing format outcome.passedAll outcome.text outcome.toJson

def ofReport (format : OutputFormat) (report : Report) : Response :=
  showing format report.isOk report.text report.toJson

def titleLine : Option String → String
  | some title => "# " ++ title ++ "\n"
  | none => ""

/-- The rules of a scenario in words, a line a check under the title. -/
def explaining (format : OutputFormat) (scenario : Scenario) : Response where
  output :=
    match format with
    | .text => titleLine scenario.title ++ Check.explainAll scenario.rules.checks
    | .json => scenario.rules.toJson.pretty ++ "\n"

def ofVerdict (format : OutputFormat) (passed : Bool) : Response :=
  showing format passed (Outcome.verdictText passed) (.bool passed)

def withWarning (warning : Option String) (response : Response) : Response :=
  { response with messages := warning.toList ++ response.messages }

end Response

namespace Command

variable (system : Surroundings)

def readScenario (file : String) : Except CommandError Scenario :=
  match system.files file with
  | .error error => .error (.file error)
  | .ok text => (Scenario.ofText system.documentFault text).mapError .document

/-- Read the placements of a file; without a file there are none. -/
def readPlacements : Option String → Except CommandError (List Placement)
  | none => .ok []
  | some file =>
      match system.files file with
      | .error error => .error (.file error)
      | .ok text =>
          match Placement.listOfText? text with
          | none => .error (.document (.notJson (system.placementsFault text)))
          | some placements => .ok placements

def evaluateScenario (format : OutputFormat) (skipValidation : Bool) (maxDepth : Nat)
    (connected : Bool) (placements : List Placement) (scenario : Scenario) : Response :=
  if skipValidation then
    .ofOutcome format (scenario.rules.evaluate maxDepth placements connected)
  else
    match scenario.rules.evaluateValidated maxDepth placements connected with
    | .ok outcome => .ofOutcome format outcome
    | .error report => .refusing format report

def depthWarning (rule : Node) : Option String :=
  match rule.overflow defaultMaxDepth with
  | [] => none
  | violations =>
      some <| "warning: groups nested too deeply at " ++
        Violation.pathsText violations ++ "; they evaluate to false"

def evaluateRule (format : OutputFormat) (placements : Option String) (rule : Node) :
    Response :=
  .withWarning (depthWarning rule) <|
    match readPlacements system placements with
    | .error error => .ofError error
    | .ok placements =>
        .ofVerdict format (((Check.ofAim "expr").withTree rule).resolve placements)

def run (format : OutputFormat) : Command → Response
  | evaluate file placements connected skipValidation maxDepth =>
      match readScenario system file with
      | .error error => .ofError error
      | .ok scenario =>
          match readPlacements system placements with
          | .error error => .ofError error
          | .ok placements =>
              evaluateScenario format skipValidation maxDepth connected placements
                scenario
  | validate file maxDepth =>
      match readScenario system file with
      | .error error => .ofError error
      | .ok scenario =>
          .ofReport format (Check.validate maxDepth scenario.rules.checks)
  | explain file =>
      match readScenario system file with
      | .error error => .ofError error
      | .ok scenario => .explaining format scenario
  | expression rule placements =>
      match Node.parse rule with
      | .error error => .ofError (.rule error)
      | .ok node => evaluateRule system format placements node

section

variable {system} {file : String} {error : CommandError}

theorem run_evaluate_of_scenario_error {format : OutputFormat}
    {placements : Option String} {connected skip : Bool} {limit : Nat}
    (herror : readScenario system file = .error error) :
    run system format (.evaluate file placements connected skip limit) =
      .ofError error := by
  rw [run, herror]

theorem run_validate_of_scenario_error {format : OutputFormat} {limit : Nat}
    (herror : readScenario system file = .error error) :
    run system format (.validate file limit) = .ofError error := by
  rw [run, herror]

end

end Command

end PlacementRules
