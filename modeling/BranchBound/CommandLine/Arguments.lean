import BranchBound.Decimal.Reading
import BranchBound.Search.Settings
import BranchBound.Word

/-!
# Arguments of the command line

A command comes first, then its options and its one operand in any order.  An option that takes a
value has it in the next argument or behind an equals sign; nothing may be given twice.  After a
lone `--` every argument is an operand.  Arguments are judged from left to right, and what is
missing is noticed at the end.
-/

namespace BranchBound

namespace CommandLine

/-- The built-in programs. -/
inductive Demo where
  | knapsack
  | assignment
  | facility
deriving DecidableEq, Repr

/-- What to solve. -/
inductive Command where
  /-- The request in a file. -/
  | solve (path : String)
  /-- A built-in program. -/
  | demo (demo : Demo)
deriving DecidableEq

/-- How to solve it and what to print. -/
structure Options where
  /-- Print the result as JSON. -/
  json : Bool
  /-- Print the search tree. -/
  tree : Bool
  /-- Seconds to run. -/
  timeLimit : Option Binary64
  /-- Choice of the branching variable, in place of the request's. -/
  strategy : Option BranchingRule
  /-- Most nodes to explore, in place of the request's. -/
  maxNodes : Option Nat
  /-- Most pivots for each relaxation. -/
  maxPivots : Option Nat
  /-- Log the course of the search. -/
  verbose : Bool

/-- A command with its options. -/
structure Invocation where
  /-- What to solve. -/
  command : Command
  /-- How. -/
  options : Options

/-- What the arguments ask for. -/
inductive Reading where
  | run (invocation : Invocation)
  | showVersion
  | showHelp
  /-- The arguments make no sense. -/
  | misuse

namespace Options

/-- No option given. -/
def none : Options := ⟨false, false, .none, .none, .none, .none, false⟩

end Options

/-- A command whose operand may still be missing. -/
inductive Pending where
  | solve (path : Option String)
  | demo (demo : Option Demo)

/-- What an argument does to what was read so far. -/
inductive Outcome (α : Type) where
  | going (state : α)
  | help
  | misuse

/-- What was read so far of a command. -/
structure Progress where
  /-- The command. -/
  pending : Pending
  /-- The options. -/
  options : Options

/-- A branching rule by its name in arguments. -/
def strategy? : String → Option BranchingRule
  | "most-fractional" => some .mostFractional
  | "first-fractional" => some .firstFractional
  | "max-coefficient" => some .maxCoefficient
  | _ => none

/-- A built-in program by its name in arguments. -/
def demo? : String → Option Demo
  | "knapsack" => some .knapsack
  | "assignment" => some .assignment
  | "facility" => some .facility
  | _ => none

/-- An argument read as an option starts with a hyphen and has something after it. -/
def isOption (arg : String) : Bool :=
  match arg.toList with
  | '-' :: _ :: _ => true
  | _ => false

/-- A name and what stands behind its first equals sign. -/
def splitEquals (arg : String) : String × Option String :=
  let cs := arg.toList
  match cs.dropWhile (fun c => !(c == '=')) with
  | [] => (arg, none)
  | _ :: value =>
    (String.ofList (cs.takeWhile (fun c => !(c == '='))), some (String.ofList value))

namespace Progress

/-- Take an operand: the only one the command has. -/
def operand (p : Progress) (arg : String) : Option Progress :=
  match p.pending with
  | .solve none =>
    if arg.isEmpty then none else some { p with pending := .solve (some arg) }
  | .demo none => (demo? arg).map (fun d => { p with pending := .demo (some d) })
  | .solve (some _) | .demo (some _) => none

/-- Set a flag that is not yet set. -/
def flag (p : Progress) (name : String) : Option Progress :=
  let o := p.options
  match name with
  | "--json" => if o.json then none else some { p with options := { o with json := true } }
  | "--tree" => if o.tree then none else some { p with options := { o with tree := true } }
  | "--verbose" =>
    if o.verbose then none else some { p with options := { o with verbose := true } }
  | _ => none

/-- The option takes a value. -/
def takesValue (name : String) : Bool :=
  ["--time-limit", "--strategy", "--max-nodes", "--max-lp-iter"].contains name

/-- Give an option its value, unless it has one. -/
def assign (p : Progress) (name value : String) : Option Progress :=
  let o := p.options
  match name with
  | "--time-limit" =>
    if o.timeLimit.isSome then none
    else (Decimal.float? value).map
      (fun v => { p with options := { o with timeLimit := some v } })
  | "--strategy" =>
    if o.strategy.isSome then none
    else (strategy? value).map (fun v => { p with options := { o with strategy := some v } })
  | "--max-nodes" =>
    if o.maxNodes.isSome then none
    else (Decimal.natural? (Word.bound 64) value).map
      (fun v => { p with options := { o with maxNodes := some v } })
  | "--max-lp-iter" =>
    if o.maxPivots.isSome then none
    else (Decimal.natural? (Word.bound 64) value).map
      (fun v => { p with options := { o with maxPivots := some v } })
  | _ => none

/-- Set the flags of a group of short options, from left to right. -/
def shortFlags (p : Progress) : List Char → Outcome Progress
  | [] => .going p
  | 'v' :: rest =>
    match p.flag "--verbose" with
    | some p => p.shortFlags rest
    | none => .misuse
  | 'h' :: _ => .help
  | _ => .misuse

/-- The command with its operand. -/
def command? (p : Progress) : Option Command :=
  match p.pending with
  | .solve path => path.map .solve
  | .demo demo => demo.map .demo

end Progress

/-- Operands only. -/
def readOperands (p : Progress) : List String → Outcome Progress
  | [] => .going p
  | arg :: rest =>
    match p.operand arg with
    | some p => readOperands p rest
    | none => .misuse

/-- Options and operands of a command. -/
def readOptions (p : Progress) : List String → Outcome Progress
  | [] => .going p
  | "--" :: rest => readOperands p rest
  | arg :: rest =>
    if !isOption arg then
      match p.operand arg with
      | some p => readOptions p rest
      | none => .misuse
    else if arg.startsWith "--" then
      match splitEquals arg, rest with
      | ("--help", none), _ => .help
      | (name, some value), rest =>
        match p.assign name value with
        | some p => readOptions p rest
        | none => .misuse
      | (name, none), rest =>
        if Progress.takesValue name then
          match rest with
          | value :: rest =>
            if isOption value then .misuse
            else
              match p.assign name value with
              | some p => readOptions p rest
              | none => .misuse
          | [] => .misuse
        else
          match p.flag name with
          | some p => readOptions p rest
          | none => .misuse
    else
      match p.shortFlags (arg.toList.drop 1) with
      | .going p => readOptions p rest
      | .help => .help
      | .misuse => .misuse

/-- What a command with its arguments asks for. -/
def readCommand (pending : Pending) (args : List String) : Reading :=
  match readOptions ⟨pending, .none⟩ args with
  | .going p =>
    match p.command? with
    | some command => .run ⟨command, p.options⟩
    | none => .misuse
  | .help => .showHelp
  | .misuse => .misuse

/-- The commands that help can be had for. -/
def readHelp : List String → Reading
  | [] => .showHelp
  | ["solve"] | ["demo"] | ["help"] => .showHelp
  | _ => .misuse

/-- What the arguments ask for. -/
def read : List String → Reading
  | "solve" :: args => readCommand (.solve none) args
  | "demo" :: args => readCommand (.demo none) args
  | "help" :: args => readHelp args
  | arg :: _ =>
    if arg == "--version" then .showVersion
    else if arg == "--help" then .showHelp
    else if arg.startsWith "-V" then .showVersion
    else if arg.startsWith "-h" then .showHelp
    else .misuse
  | [] => .misuse

end CommandLine

end BranchBound
