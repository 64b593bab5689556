import PlacementRules.Check
import PlacementRules.Depth

/-!
# Validation reports

A report names every check whose tree nests groups too deeply and puts it into
words for the author of the rules.  The words come from a message set, so they
can be given in any language; what is reported does not depend on them.
-/

namespace PlacementRules

structure Messages where
  /-- The sentence about a check with an aim, from the aim and the joined paths. -/
  aimIssue : String → String → String
  /-- The sentence about a check without an aim, from its number, counted from 1. -/
  checkIssue : Nat → String → String
  /-- What stands for the paths of an issue that has none. -/
  unknownLocation : String
  /-- The closing sentence, from the depth limit. -/
  depthSummary : Nat → String

def Messages.english : Messages where
  aimIssue aim paths :=
    "Aim \"" ++ aim ++ "\" has unsupported nested groups (" ++ paths ++ ")."
  checkIssue number paths :=
    "Check " ++ toString number ++ " has unsupported nested groups (" ++ paths ++ ")."
  unknownLocation := "unknown location"
  depthSummary
    | 0 => "Rules currently do not support subgroups."
    | 1 => "Rules currently support at most one level of subgroups."
    | limit =>
        "Rules currently support at most " ++ toString limit ++ " levels of subgroups."

/-- A check whose tree nests groups too deeply. -/
structure Issue where
  /-- The aim of the check, if it has one. -/
  aim : Option String
  /-- The position of the check among all checks, counted from 0. -/
  index : Nat
  violations : List Violation
deriving DecidableEq, Repr, Inhabited

namespace Issue

def pathsText (issue : Issue) : String :=
  Violation.pathsText issue.violations

def sentence (messages : Messages) (issue : Issue) : String :=
  let paths :=
    if issue.pathsText = "" then messages.unknownLocation else issue.pathsText
  match issue.aim with
  | some aim => messages.aimIssue aim paths
  | none => messages.checkIssue (issue.index + 1) paths

end Issue

def Check.overflow (limit : Nat) (check : Check) : List Violation :=
  match check.root? with
  | some root => root.overflow limit
  | none => []

def Check.issue? (limit index : Nat) (check : Check) : Option Issue :=
  match check.overflow limit with
  | [] => none
  | first :: more =>
      some
        { aim := if check.aim = "" then none else some check.aim
          index := index
          violations := first :: more }

def Check.issues (limit : Nat) (checks : List Check) : List Issue :=
  checks.zipIdx.filterMap fun entry => entry.1.issue? limit entry.2

structure Report where
  isOk : Bool
  issues : List Issue
  message : String
deriving DecidableEq, Repr, Inhabited

namespace Report

def text (report : Report) : String :=
  if report.isOk then "rules ok" else report.message

/-- The report on a list of checks: one sentence an issue, then the summary. -/
def ofChecks (messages : Messages) (limit : Nat) (checks : List Check) : Report :=
  match Check.issues limit checks with
  | [] => { isOk := true, issues := [], message := "" }
  | first :: more =>
      { isOk := false
        issues := first :: more
        message :=
          " ".intercalate <|
            (first :: more).map (Issue.sentence messages) ++
              [messages.depthSummary limit] }

end Report

/-- The report on a list of checks, in English. -/
def Check.validate (limit : Nat) (checks : List Check) : Report :=
  Report.ofChecks .english limit checks

end PlacementRules
