import BranchBound.CommandLine.Run

/-!
# The program

Reads the file that the arguments name, runs the search against the real clock, and prints what the
run leaves behind.
-/

namespace BranchBound

namespace CommandLine

/-- The text of a file. -/
def readText (path : String) : IO (Except FileError String) := do
  try
    return .ok (← IO.FS.readFile path)
  catch e =>
    match e with
    | .noFileOrDirectory .. => return .error .missing
    | .inappropriateType _ code _ =>
      return .error (if code = 20 then .notDirectory else .directory)
    | .userError _ => return .error .notText
    | other => return .error (.other (toString other))

/-- A search that is told the time before each node. -/
structure TimedSearch where
  /-- The search with a given clock. -/
  task : Search.Clock → Search.Task Binary64 Nat
  /-- Milliseconds since the start. -/
  elapsed : IO Nat

namespace TimedSearch

/-- The search as it sees the present time. -/
def now (t : TimedSearch) : IO (Search.Task Binary64 Nat) := do
  let time ← t.elapsed
  return t.task (fun _ => time)

/-- Explore one node after the other. -/
partial def grow (t : TimedSearch) (s : Search.State Binary64 Nat) :
    IO (Search.Run Binary64 (Search.State Binary64 Nat × Option Search.Limit)) := do
  let task ← t.now
  let allowed := task.settings.maxNodes
  let step := Search.grow task (min 1 (allowed - s.explored)) s
  match step.outcome with
  | .ok (next, some .nodes) =>
    if next.explored < allowed then
      let rest ← t.grow next
      return step >>= fun _ => rest
    else return step
  | _ => return step

/-- The whole search. -/
def solve (t : TimedSearch) : IO (Search.Run Binary64 (Search.Solution Binary64)) := do
  let root := Search.start (← t.now) 0
  let grown ← match root.outcome with
    | .ok (s, .growing) => t.grow s
    | .ok (s, .settled) => pure (pure (s, none))
    | .error reason => pure (Recorded.stop reason)
  let task ← t.now
  return root >>= fun _ => grown >>= fun (s, limit) => Search.conclude task s limit

end TimedSearch

/-- The search that is made ready, against the real clock. -/
def solveTimed (p : Prepared) : IO (Search.Run Binary64 (Search.Solution Binary64)) := do
  let settings := p.request.settings p.base
  match p.request.problem.check with
  | .error _ => return p.request.solve p.base (fun _ => 0)
  | .ok () =>
    let begun ← IO.monoMsNow
    TimedSearch.solve ⟨p.request.problem.task settings, return (← IO.monoMsNow) - begun⟩

/-- A log line as it is printed. -/
def logText (line : Report.LogLine) : String :=
  "[" ++ line.level.name ++ " " ++ line.target ++ "] " ++ line.text

/-- Print what a run leaves behind. -/
def emit (output : Output) : IO UInt32 := do
  for line in output.log do
    IO.eprintln (logText line)
  IO.print output.out
  IO.eprint output.err
  return output.exit.toUInt32

/-- Make a command ready, run its search, and say what to print. -/
def perform (invocation : Invocation) : IO Output := do
  let text ← match invocation.command.path? with
    | some path => readText path
    | none => pure (.error .missing)
  match prepare invocation text with
  | .error output => return output
  | .ok prepared => return conclude prepared (← solveTimed prepared)

end CommandLine

end BranchBound

open BranchBound.CommandLine in
/-- Run the program. -/
def main (args : List String) : IO UInt32 := do
  match read args with
  | .run invocation => emit (← perform invocation)
  | _ => emit (run args (fun _ => .error .missing) (fun _ => 0))
