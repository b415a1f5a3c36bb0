import BranchBound.CommandLine.Demo
import BranchBound.Report.Log
import BranchBound.Report.Summary
import BranchBound.Wire.Search

/-!
# Running a command

A run has two halves.  `prepare` turns an invocation, with the text of its file if it names one,
into a search or into an immediate end; `conclude` turns the record of that search into what is
printed.  Between them nothing happens but the search, so a caller is free to choose the clock.

Log lines are kept apart from the texts; they are shown from warnings on, and from information on if
the options ask for it.
-/

namespace BranchBound

namespace CommandLine

open Report (LogLine Level)

/-- What a run leaves behind. -/
structure Output where
  /-- The exit code. -/
  exit : Nat
  /-- What goes to standard output. -/
  out : String
  /-- What goes to standard error, without the log. -/
  err : String
  /-- The log. -/
  log : List LogLine

/-- Why a file has no text. -/
inductive FileError where
  | missing
  | directory
  | notDirectory
  | nameTooLong
  | notText
  | other (text : String)

namespace FileError

/-- The reason in words. -/
def message : FileError → String
  | .missing => "No such file or directory (os error 2)"
  | .directory => "Is a directory (os error 21)"
  | .notDirectory => "Not a directory (os error 20)"
  | .nameTooLong => "File name too long (os error 36)"
  | .notText => "stream did not contain valid UTF-8"
  | .other text => text

end FileError

/-- A search to be run and what is needed to report on it. -/
structure Prepared where
  /-- The request with the options' changes. -/
  request : Request Binary64
  /-- The settings for everything that the request does not say. -/
  base : Search.Settings Binary64
  /-- The options. -/
  options : Options
  /-- What has been printed before. -/
  heading : String

/-- Exit code of arguments that make no sense. -/
def misuseCode : Nat := 2

/-- Exit code of a run that fails. -/
def failureCode : Nat := 1

/-- The name and version. -/
def versionText : String := "solver-cli 0.1.0\n"

/-- How to call the program. -/
def helpText : String :=
  "Usage: solver-cli solve <REQUEST> [OPTIONS]\n" ++
  "       solver-cli demo <knapsack|assignment|facility> [OPTIONS]\n\n" ++
  "Options:\n" ++
  "      --json                   Print the full result as JSON\n" ++
  "      --tree                   Print the search tree\n" ++
  "      --time-limit <SECONDS>   Wall-clock limit\n" ++
  "      --strategy <STRATEGY>    most-fractional, first-fractional or max-coefficient\n" ++
  "      --max-nodes <COUNT>      Node budget\n" ++
  "      --max-lp-iter <COUNT>    Pivot budget of each relaxation\n" ++
  "  -v, --verbose                Log progress\n" ++
  "  -h, --help                   Print help\n" ++
  "  -V, --version                Print version\n"

/-! ## Failures -/

/-- The causes of a failure below its headline: one is indented, several are numbered. -/
def causeText : List String → String
  | [] => ""
  | [cause] => "\n\nCaused by:\n    " ++ cause
  | causes =>
      "\n\nCaused by:" ++
        String.join (causes.mapIdx (fun i cause => s!"\n    {i}: " ++ cause))

/-- A failure in words. -/
def failureText (headline : String) (causes : List String) : String :=
  "Error: " ++ headline ++ causeText causes ++ "\n"

/-- A run that fails after printing `out` and logging `log`. -/
def failure (out : String) (log : List LogLine) (headline : String) (causes : List String) :
    Output :=
  ⟨failureCode, out, failureText headline causes, log⟩

/-- The causes that the failure of a search has. -/
def causesOf : SearchError → List String
  | .relaxationFailed defect => [(SearchError.relaxationFailed defect).message, defect.message]
  | error => [error.message]

/-- An error of reading in words. -/
def readErrorText : Json.ReadError → String
  | .misfit cause => cause.message
  | .malformed => "malformed JSON"
  | .truncated => "EOF while parsing"

/-! ## Before the search -/

/-- The settings that the options ask for. -/
def baseSettings (o : Options) : Search.Settings Binary64 :=
  let s : Search.Settings Binary64 := { Search.Settings.standard with verbose := o.verbose }
  let s := match o.timeLimit with
    | some seconds => s.withTimeLimit seconds
    | none => s
  match o.maxPivots with
  | some pivots => { s with linear := { s.linear with maxPivots := pivots } }
  | none => s

/-- The request with the options' changes. -/
def overridden (r : Request Binary64) (o : Options) : Request Binary64 :=
  { r with
    branching := o.strategy.getD r.branching
    maxNodes := o.maxNodes.or r.maxNodes }

/-- Check the options that depend on nothing else and make ready to search. -/
def prepareRequest (heading : String) (r : Request Binary64) (o : Options) :
    Except Output Prepared :=
  match o.timeLimit with
  | some seconds =>
    if seconds.isNaN || decide (seconds < 0) then
      .error (failure heading []
        ("--time-limit must be non-negative, got " ++ Decimal.plain seconds) [])
    else .ok ⟨overridden r o, baseSettings o, o, heading⟩
  | none => .ok ⟨overridden r o, baseSettings o, o, heading⟩

/-- The path of the file that a command needs. -/
def Command.path? : Command → Option String
  | .solve path => some path
  | .demo _ => none

/-- Make ready to search; `file` is the text of the file that the command names. -/
def prepare (invocation : Invocation) (file : Except FileError String) : Except Output Prepared :=
  let o := invocation.options
  match invocation.command with
  | .solve path =>
    match file with
    | .error e => .error (failure "" [] ("Failed to read " ++ path) [e.message])
    | .ok text =>
      match Request.schema.read text with
      | .error e => .error (failure "" [] ("Failed to parse request " ++ path) [readErrorText e])
      | .ok request => prepareRequest "" request o
  | .demo demo =>
    let heading := if o.json then "" else demo.title ++ "\n" ++ demo.description ++ "\n\n"
    prepareRequest heading (.ofProgram demo.program) o

/-! ## After the search -/

/-- Where the lines of the command line come from. -/
def target : String := "solver_cli"

/-- The branching rule in the log. -/
def ruleWord : BranchingRule → String
  | .mostFractional => "MostFractional"
  | .firstFractional => "FirstFractional"
  | .maxCoefficient => "MaxCoefficient"

/-- The line before the search. -/
def openingLine (p : Prepared) : LogLine :=
  ⟨.info, target, "Solving with " ++ ruleWord p.request.branching ++
    s!", node budget {p.request.maxNodes.getD p.base.maxNodes}"⟩

/-- The line for a snapshot that was received. -/
def progressLine (snapshot : Search.Progress Binary64) : LogLine :=
  ⟨.info, target, s!"Explored {snapshot.explored} nodes ({snapshot.percent}%), best " ++
    (match snapshot.best with
      | some v => Decimal.fixed 4 v
      | none => "-")⟩

/-- The least grave level that is shown. -/
def logLimit (o : Options) : Level := if o.verbose then .info else .warn

/-- All lines of a run, in order for each part of the solver. -/
def logOf (p : Prepared) (run : Search.Run Binary64 (Search.Solution Binary64)) : List LogLine :=
  Report.shown (logLimit p.options)
    (openingLine p :: Report.sessionLog p.base.verbose run.events ++
      (Search.snapshots run.events).map progressLine)

/-- Lines as text. -/
def linesText (lines : List String) : String := String.join (lines.map (fun line => line ++ "\n"))

/-- A result as the options want it printed. -/
def resultText (o : Options) (s : Search.Solution Binary64) : String :=
  if o.json then (Search.Solution.schema.encode s).pretty ++ "\n"
  else linesText (Report.summaryLines s ++ (if o.tree then Report.treeLines s else []))

/-- What is printed when the search is over. -/
def conclude (p : Prepared) (run : Search.Run Binary64 (Search.Solution Binary64)) : Output :=
  let log := logOf p run
  match Session.result? run with
  | some (.ok solution) => ⟨0, p.heading ++ resultText p.options solution, "", log⟩
  | some (.error e) => failure p.heading log "Solve failed" (causesOf e)
  | none => failure p.heading log "Solver stopped without a result" []

/-- Run a command from its arguments, with the texts of files and the clock given. -/
def run (args : List String) (file : String → Except FileError String) (clock : Search.Clock) :
    Output :=
  match read args with
  | .misuse => ⟨misuseCode, "", helpText, []⟩
  | .showVersion => ⟨0, versionText, "", []⟩
  | .showHelp => ⟨0, helpText, "", []⟩
  | .run invocation =>
    let text := match invocation.command.path? with
      | some path => file path
      | none => .error .missing
    match prepare invocation text with
    | .error output => output
    | .ok prepared => conclude prepared (prepared.request.solve prepared.base clock)

end CommandLine

end BranchBound
