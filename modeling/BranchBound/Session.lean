import BranchBound.Search.BranchAndBound

/-!
# Solving in the background

A request names a program and may change the branching rule and the node budget.  Solving it in the
background makes a `Session`: the solver sends a message for each snapshot and one with the result,
and the caller receives them in the order they were sent.  A solver that breaks down with a fault
sends no result.
-/

namespace BranchBound

/-- A program to be solved, and what to change in the settings. -/
structure Request (K : Type) where
  /-- The program. -/
  problem : IntegerProgram K
  /-- Choice of the branching variable. -/
  branching : BranchingRule
  /-- Most nodes to explore, if other than the settings say. -/
  maxNodes : Option Nat
deriving DecidableEq

namespace Request

variable {K : Type}

/-- A program with nothing changed. -/
def ofProgram (p : IntegerProgram K) : Request K := ⟨p, .mostFractional, none⟩

/-- The settings with the request's changes. -/
def settings (r : Request K) (base : Search.Settings K) : Search.Settings K :=
  { base with branching := r.branching, maxNodes := r.maxNodes.getD base.maxNodes }

variable [Scalar K] [PlainText K]

/-- The search that a request asks for. -/
def solve (r : Request K) (base : Search.Settings K) (clock : Search.Clock) :
    Search.Run K (Search.Solution K) :=
  r.problem.solve (r.settings base) clock

end Request

/-- How a search ended for the one who asked for it. -/
abbrev Result (K : Type) := Except SearchError (Search.Solution K)

/-- What a background solver sends. -/
inductive Message (K : Type) where
  /-- A snapshot. -/
  | progress (snapshot : Search.Progress K)
  /-- The result, always the last message. -/
  | finished (result : Result K)

/-- A background solve: messages still to be sent, and messages sent but not yet received. -/
structure Session (K : Type) where
  /-- What the solver will send, in order. -/
  unsent : List (Message K)
  /-- What waits for the caller, oldest first. -/
  inbox : List (Message K)
  /-- The solver breaks down before it has a result. -/
  crashed : Bool

namespace Session

variable {K : Type}

/-- The result in the last message, none if the search ends in a fault. -/
def result? (run : Search.Run K (Search.Solution K)) : Option (Result K) :=
  match run.outcome with
  | .ok solution => some (.ok solution)
  | .error (.failed error) => some (.error error)
  | .error (.fault _) => none

/-- All messages of a search, in order. -/
def messages (run : Search.Run K (Search.Solution K)) : List (Message K) :=
  (Search.snapshots run.events).map .progress ++ ((result? run).map .finished).toList

/-- Start to solve in the background. -/
def start (run : Search.Run K (Search.Solution K)) : Session K :=
  ⟨messages run, [], (result? run).isNone⟩

/-- The solver sends its next message. -/
def send (s : Session K) : Session K :=
  match s.unsent with
  | [] => s
  | m :: rest => { s with unsent := rest, inbox := s.inbox ++ [m] }

/-- Receive the next message, waiting for it if need be; none when the solver is done. -/
def receive (s : Session K) : Option (Message K) × Session K :=
  let s := if s.inbox.isEmpty then s.send else s
  match s.inbox with
  | [] => (none, s)
  | m :: rest => (some m, { s with inbox := rest })

/-- Receive `count` times. -/
def receiveMany : (count : Nat) → Session K → List (Option (Message K))
  | 0, _ => []
  | count + 1, s => let (m, s) := s.receive; m :: receiveMany count s

/-- All messages not yet received. -/
def pending (s : Session K) : List (Message K) := s.inbox ++ s.unsent

/-- Receiving takes the first of the messages not yet received and changes nothing else. -/
theorem receive_spec (s : Session K) :
    s.receive.1 = s.pending.head? ∧ s.receive.2.pending = s.pending.tail ∧
      s.receive.2.crashed = s.crashed := by
  obtain ⟨_ | ⟨m, rest⟩, _ | ⟨n, inbox⟩, crashed⟩ := s <;> simp [receive, send, pending]

/-- Receive all messages until the solver is done. -/
def receiveAll (s : Session K) : List (Message K) := s.pending

/-- Wait for the result among the messages not yet received. -/
def wait (s : Session K) : Result K :=
  let results := s.pending.filterMap (fun
    | .finished result => some result
    | .progress _ => none)
  match results.head? with
  | some result => result
  | none =>
    if s.crashed then .error (.worker "solver thread panicked")
    else .error (.worker "solver thread exited without a result")

end Session

end BranchBound
