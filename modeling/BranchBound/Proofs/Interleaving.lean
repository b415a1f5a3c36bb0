import BranchBound.Proofs.Search.Validity
import BranchBound.Session

/-!
# Solver and caller side by side

A background solve is a thread that works through its search and sends messages on the way, a queue
that keeps them in order, and a caller who receives them.  Thread and caller go on independently of
each other (`Background.Step`), so there are many interleavings (`Background.Trace`); a `Session`
is just one of them, in which the thread works only when the caller waits for it.

But the caller cannot tell them apart.  In each of them the queue and what the thread has still to
send are together what the session has pending (`Background.InStep`), so the caller receives what
the session gives (`Session.receiveMany`), and waiting for the result leads to that of
`Session.wait` however the thread is scheduled (`Background.awaits_wait`).  The thread takes no
notice of the caller at all: it ends with its result also if the caller hangs up
(`Background.exists_ended`).
-/

namespace BranchBound

variable {K : Type}

/-! ## Sessions by their pending messages -/

namespace Session

/-- **Receiving many times gives the pending messages in order**, and then none. -/
theorem receiveMany_eq (k : ℕ) (s : Session K) :
    receiveMany k s = (List.range k).map fun i => s.pending[i]? := by
  induction k generalizing s with
  | zero => rfl
  | succ k ih =>
      obtain ⟨hfirst, hrest, -⟩ := s.receive_spec
      show s.receive.1 :: receiveMany k s.receive.2 = _
      rw [ih, hfirst, hrest, List.range_succ_eq_map, List.map_cons, List.map_map,
        List.head?_eq_getElem?]
      congr 1
      refine List.map_congr_left fun i _ => ?_
      rw [List.getElem?_tail]
      rfl

/-- The session after receiving `k` times. -/
def afterReceiving (k : ℕ) (s : Session K) : Session K := (fun t => t.receive.2)^[k] s

theorem afterReceiving_spec (k : ℕ) (s : Session K) :
    (s.afterReceiving k).pending = s.pending.drop k ∧ (s.afterReceiving k).crashed = s.crashed := by
  induction k generalizing s with
  | zero => exact ⟨rfl, rfl⟩
  | succ k ih =>
      obtain ⟨-, hrest, hsame⟩ := s.receive_spec
      obtain ⟨hpending, hcrashed⟩ := ih s.receive.2
      rw [hrest, List.drop_tail] at hpending
      exact ⟨hpending, hcrashed.trans hsame⟩

variable {s t : Session K}

theorem wait_congr (hpending : s.pending = t.pending) (hcrashed : s.crashed = t.crashed) :
    s.wait = t.wait := by
  rw [wait, wait, hpending, hcrashed]

/-- Waiting passes over snapshots. -/
theorem wait_of_progress {p : Search.Progress K} (hpending : s.pending = .progress p :: t.pending)
    (hcrashed : s.crashed = t.crashed) : s.wait = t.wait := by
  rw [wait, wait, hpending, hcrashed]
  rfl

/-- Waiting ends with the first result. -/
theorem wait_of_finished {r : Result K} {rest : List (Message K)}
    (hpending : s.pending = .finished r :: rest) : s.wait = r := by
  rw [wait, hpending]
  rfl

/-- Waiting ends with an error if there is no result. -/
theorem wait_of_nil (hpending : s.pending = []) :
    s.wait = if s.crashed then .error (.worker "solver thread panicked")
      else .error (.worker "solver thread exited without a result") := by
  rw [wait, hpending]
  rfl

end Session

/-! ## The thread, the queue and the caller -/

/-- The thread of a solver. -/
inductive Worker (K : Type) where
  /-- The search goes on, and these events are still to come. -/
  | solving (todo : List (Search.Event K))
  /-- The search is over, and its result was sent. -/
  | leaving (result : Result K)
  /-- The thread has ended, with this result unless the search broke down. -/
  | ended (result : Option (Result K))

/-- A background solve in which thread and caller go on independently. -/
structure Background (K : Type) where
  /-- The thread. -/
  worker : Worker K
  /-- The messages that were sent but not yet received, oldest first. -/
  queue : List (Message K)
  /-- The caller has not hung up. -/
  listening : Bool

/-- What happens next in a background solve. -/
inductive Act (K : Type) where
  /-- The thread goes on. -/
  | solver
  /-- The caller receives this. -/
  | receive (m : Option (Message K))
  /-- The caller hangs up. -/
  | hangUp

namespace Background

/-- The thread goes on to `w` and sends these messages, which are lost if nobody listens. -/
def deliver (s : Background K) (w : Worker K) (ms : List (Message K)) : Background K :=
  { s with worker := w, queue := if s.listening then s.queue ++ ms else s.queue }

/-- The thread has just started. -/
def spawn (run : Search.Run K (Search.Solution K)) : Background K := ⟨.solving run.events, [], true⟩

/-- What thread and caller can do.  The thread sends each snapshot and then its result, and never
waits; the caller waits for a message as long as the thread may still send one. -/
inductive Step (run : Search.Run K (Search.Solution K)) :
    Background K → Act K → Background K → Prop where
  /-- The search reports an event, and a snapshot is sent. -/
  | reports {s : Background K} {e : Search.Event K} {todo : List (Search.Event K)}
      (hworker : s.worker = .solving (e :: todo)) :
      Step run s .solver (s.deliver (.solving todo) ((Search.snapshots [e]).map .progress))
  /-- The search has its result, which is sent. -/
  | concludes {s : Background K} {r : Result K} (hworker : s.worker = .solving [])
      (hresult : Session.result? run = some r) :
      Step run s .solver (s.deliver (.leaving r) [.finished r])
  /-- The search breaks down. -/
  | breaks {s : Background K} (hworker : s.worker = .solving [])
      (hresult : Session.result? run = none) : Step run s .solver (s.deliver (.ended none) [])
  /-- The thread ends. -/
  | leaves {s : Background K} {r : Result K} (hworker : s.worker = .leaving r) :
      Step run s .solver (s.deliver (.ended (some r)) [])
  /-- The caller receives the oldest message. -/
  | receives {s : Background K} {m : Message K} {rest : List (Message K)}
      (hlistening : s.listening = true) (hqueue : s.queue = m :: rest) :
      Step run s (.receive (some m)) { s with queue := rest }
  /-- The caller receives nothing, because there is nothing and the thread has ended. -/
  | disconnected {s : Background K} {result : Option (Result K)}
      (hlistening : s.listening = true) (hqueue : s.queue = [])
      (hworker : s.worker = .ended result) : Step run s (.receive none) s
  /-- The caller hangs up, and what is in the queue is lost. -/
  | hangsUp {s : Background K} (hlistening : s.listening = true) :
      Step run s .hangUp { s with queue := [], listening := false }

/-- An interleaving of what thread and caller do. -/
inductive Trace (run : Search.Run K (Search.Solution K)) (s : Background K) :
    List (Act K) → Background K → Prop where
  /-- Nothing happens. -/
  | nil : Trace run s [] s
  /-- One more thing happens. -/
  | snoc {acts : List (Act K)} {a : Act K} {t u : Background K} (h : Trace run s acts t)
      (hstep : Step run t a u) : Trace run s (acts ++ [a]) u

/-- What the caller gets each time it receives. -/
def Act.received? : Act K → Option (Option (Message K))
  | .receive m => some m
  | _ => none

/-- What the caller got, in order. -/
def received (acts : List (Act K)) : List (Option (Message K)) := acts.filterMap Act.received?

/-- The messages that the caller got, in order. -/
def taken (acts : List (Act K)) : List (Message K) := (received acts).reduceOption

/-- What `wait` returns after it received `m` with the thread at `w`, none if it goes on. -/
def waitResult? : Option (Message K) → Worker K → Option (Result K)
  | some (.finished r), _ => some r
  | some (.progress _), _ => none
  | none, .ended none => some (.error (.worker "solver thread panicked"))
  | none, _ => some (.error (.worker "solver thread exited without a result"))

/-- Waiting for the result returns `out`, however the thread is scheduled: something can always
happen, it does not go on forever, and in the end this is what is returned. -/
inductive Awaits (run : Search.Run K (Search.Solution K)) (out : Result K) :
    Background K → Prop where
  | intro {s : Background K} (enabled : ∃ a t, a ≠ .hangUp ∧ Step run s a t)
      (solver : ∀ t, Step run s .solver t → Awaits run out t)
      (returns : ∀ m t r, Step run s (.receive m) t → waitResult? m t.worker = some r → r = out)
      (skips : ∀ m t, Step run s (.receive m) t → waitResult? m t.worker = none →
        Awaits run out t) : Awaits run out s

/-! ## In step with a session -/

variable {run : Search.Run K (Search.Solution K)} {s t : Background K} {a : Act K}
  {acts : List (Act K)} {r : Result K}

/-- What the thread has still to send. -/
def unsent (run : Search.Run K (Search.Solution K)) : Worker K → List (Message K)
  | .solving todo =>
      (Search.snapshots todo).map .progress ++ ((Session.result? run).map .finished).toList
  | .leaving _ => []
  | .ended _ => []

/-- The session with the same messages. -/
def session (run : Search.Run K (Search.Solution K)) (s : Background K) : Session K :=
  ⟨unsent run s.worker, s.queue, (Session.result? run).isNone⟩

/-- A thread whose search is over has the result of the search. -/
def Concluded (run : Search.Run K (Search.Solution K)) : Worker K → Prop
  | .solving _ => True
  | .leaving r => Session.result? run = some r
  | .ended result => result = Session.result? run

/-- The steps that a thread can still make. -/
def stepsLeft : Worker K → ℕ
  | .solving todo => todo.length + 2
  | .leaving _ => 1
  | .ended _ => 0

/-- The thread keeps to its search. -/
theorem Step.concluded (h : Step run s a t) (hs : Concluded run s.worker) :
    Concluded run t.worker := by
  cases h with
  | reports _ => trivial
  | concludes _ hresult => exact hresult
  | breaks _ hresult => exact hresult.symm
  | leaves hworker =>
      rw [hworker] at hs
      exact hs.symm
  | receives _ _ => exact hs
  | disconnected _ _ _ => exact hs
  | hangsUp _ => exact hs

/-- **While the caller listens, the thread moves no message but towards the caller.** -/
theorem Step.pending_solver (h : Step run s .solver t) (hlistening : s.listening = true) :
    t.listening = true ∧ (t.session run).pending = (s.session run).pending := by
  cases h with
  | @reports e todo hworker =>
      refine ⟨hlistening, ?_⟩
      have hsnapshots : Search.snapshots (e :: todo) =
          Search.snapshots [e] ++ Search.snapshots todo := List.filterMap_append (l := [e])
      simp [session, Session.pending, deliver, hlistening, hworker, unsent, hsnapshots]
  | concludes hworker hresult =>
      refine ⟨hlistening, ?_⟩
      simp [session, Session.pending, deliver, hlistening, hworker, unsent, hresult,
        Search.snapshots]
  | breaks hworker hresult =>
      refine ⟨hlistening, ?_⟩
      simp [session, Session.pending, deliver, hlistening, hworker, unsent, hresult,
        Search.snapshots]
  | leaves hworker =>
      refine ⟨hlistening, ?_⟩
      simp [session, Session.pending, deliver, hlistening, hworker, unsent]

/-- **The caller receives the first of the pending messages**, or nothing if there is none. -/
theorem Step.pending_receive {m : Option (Message K)} (h : Step run s (.receive m) t) :
    s.listening = true ∧ t.listening = true ∧ t.worker = s.worker ∧
      m = (s.session run).pending.head? ∧
        (t.session run).pending = (s.session run).pending.tail := by
  cases h with
  | receives hlistening hqueue =>
      exact ⟨hlistening, hlistening, rfl, by simp [session, Session.pending, hqueue],
        by simp [session, Session.pending, hqueue]⟩
  | disconnected hlistening hqueue hworker =>
      exact ⟨hlistening, hlistening, rfl,
        by simp [session, Session.pending, hqueue, hworker, unsent],
        by simp [session, Session.pending, hqueue, hworker, unsent]⟩

/-- The caller got what the session gives, and what is pending is what the session has left. -/
structure InStep (run : Search.Run K (Search.Solution K)) (acts : List (Act K))
    (s : Background K) : Prop where
  concluded : Concluded run s.worker
  received_eq : received acts =
    (List.range (received acts).length).map fun i => (Session.messages run)[i]?
  pending_eq : s.listening = true →
    (s.session run).pending = (Session.messages run).drop (received acts).length

theorem received_append (acts : List (Act K)) (a : Act K) :
    received (acts ++ [a]) = received acts ++ (Act.received? a).toList := by
  rw [received, List.filterMap_append]
  cases h : Act.received? a <;> simp [received, h]

/-- **Whatever happens, thread and caller stay in step with the session.** -/
theorem Trace.inStep (h : Trace run (spawn run) acts s) : InStep run acts s := by
  induction h with
  | nil => exact ⟨trivial, rfl, fun _ => rfl⟩
  | @snoc acts a t u _ hstep ih =>
      have hconcluded := hstep.concluded ih.concluded
      cases a with
      | solver =>
          have hreceived : received (acts ++ [.solver]) = received acts := by
            rw [received_append]
            exact List.append_nil _
          refine ⟨hconcluded, hreceived.symm ▸ ih.received_eq, fun hlistening => ?_⟩
          have hbefore : t.listening = true := by
            cases hstep <;> exact hlistening
          rw [(hstep.pending_solver hbefore).2, hreceived]
          exact ih.pending_eq hbefore
      | receive m =>
          obtain ⟨hbefore, -, -, hm, htail⟩ := hstep.pending_receive
          have hpending := ih.pending_eq hbefore
          have hreceived : received (acts ++ [.receive m]) = received acts ++ [m] :=
            received_append _ _
          rw [hpending, List.head?_drop] at hm
          refine ⟨hconcluded, ?_, fun _ => ?_⟩
          · rw [hreceived, List.length_append, List.length_singleton, List.range_succ,
              List.map_append, ← ih.received_eq, hm]
            rfl
          · rw [htail, hpending, List.tail_drop, hreceived, List.length_append]
            rfl
      | hangUp =>
          have hreceived : received (acts ++ [.hangUp]) = received acts := by
            rw [received_append]
            exact List.append_nil _
          refine ⟨hconcluded, hreceived.symm ▸ ih.received_eq, fun hlistening => ?_⟩
          cases hstep
          cases hlistening

/-! ## The thread comes to its end -/

/-- The thread goes on until it has ended, whether anybody listens or not. -/
theorem exists_step_solver (run : Search.Run K (Search.Solution K)) (s : Background K) :
    (∃ result, s.worker = .ended result) ∨
      ∃ t, Step run s .solver t ∧ stepsLeft t.worker < stepsLeft s.worker ∧
        t.listening = s.listening := by
  cases hworker : s.worker with
  | solving todo =>
      cases todo with
      | nil =>
          cases hresult : Session.result? run with
          | none => exact .inr ⟨_, .breaks hworker hresult, by simp [deliver, stepsLeft], rfl⟩
          | some r => exact .inr ⟨_, .concludes hworker hresult, by simp [deliver, stepsLeft], rfl⟩
      | cons e todo => exact .inr ⟨_, .reports hworker, by simp [deliver, stepsLeft], rfl⟩
  | leaving r => exact .inr ⟨_, .leaves hworker, by simp [deliver, stepsLeft], rfl⟩
  | ended result => exact .inl ⟨result, rfl⟩

/-- Every step of the thread is one step less that it can make. -/
theorem Step.stepsLeft_lt (h : Step run s .solver t) :
    stepsLeft t.worker < stepsLeft s.worker := by
  cases h with
  | reports hworker => simp [deliver, hworker, stepsLeft]
  | concludes hworker _ => simp [deliver, hworker, stepsLeft]
  | breaks hworker _ => simp [deliver, hworker, stepsLeft]
  | leaves hworker => simp [deliver, hworker, stepsLeft]

theorem Trace.cons (hstep : Step run s a t) {u : Background K} (h : Trace run t acts u) :
    Trace run s (a :: acts) u := by
  induction h with
  | nil => exact .snoc .nil hstep
  | snoc _ hlast ih => exact .snoc ih hlast

/-- **The thread ends on its own**, and does not hang up on the caller. -/
theorem exists_ended (hs : Concluded run s.worker) : ∃ n t,
    Trace run s (List.replicate n .solver) t ∧ t.worker = .ended (Session.result? run) ∧
      t.listening = s.listening ∧
        (s.listening = true → (t.session run).pending = (s.session run).pending) := by
  induction hk : stepsLeft s.worker using Nat.strong_induction_on generalizing s with
  | h k ih =>
      rcases exists_step_solver run s with ⟨result, hworker⟩ | ⟨t, hstep, hlt, hlistening⟩
      · have hresult : result = Session.result? run := by
          rw [hworker] at hs
          exact hs
        exact ⟨0, s, .nil, hresult ▸ hworker, rfl, fun _ => rfl⟩
      · obtain ⟨n, u, htrace, hworker, hlistening', hpending⟩ :=
          ih _ (hk ▸ hlt) (hstep.concluded hs) rfl
        refine ⟨n + 1, u, ?_, hworker, hlistening'.trans hlistening, fun h => ?_⟩
        · rw [List.replicate_succ]
          exact htrace.cons hstep
        · rw [hpending (hlistening.trans h), (hstep.pending_solver h).2]

/-- With a thread that has ended the next receive is the head of the queue. -/
theorem exists_step_receive (run : Search.Run K (Search.Solution K))
    (hlistening : s.listening = true) {result : Option (Result K)}
    (hworker : s.worker = .ended result) :
    ∃ t, Step run s (.receive (s.session run).pending.head?) t := by
  have hpending : (s.session run).pending = s.queue := by
    simp [session, Session.pending, hworker, unsent]
  rw [hpending]
  cases hqueue : s.queue with
  | nil => exact ⟨s, .disconnected hlistening hqueue hworker⟩
  | cons m rest => exact ⟨_, .receives hlistening hqueue⟩

/-- **What `wait` returns after a receive is what it returns in the session.** -/
theorem Step.returns_wait {m : Option (Message K)} {out : Result K}
    (hstep : Step run s (.receive m) t) (hs : Concluded run s.worker)
    (hout : waitResult? m t.worker = some out) : out = (s.session run).wait := by
  obtain ⟨-, -, hworker, hm, -⟩ := hstep.pending_receive
  cases m with
  | none =>
      -- nothing is received, so the thread has ended and nothing is pending
      rw [Session.wait_of_nil (List.head?_eq_none_iff.1 hm.symm)]
      obtain ⟨result, hended⟩ : ∃ result, t.worker = .ended result := by
        cases hstep with
        | disconnected _ _ hended => exact ⟨_, hended⟩
      have hresult : result = Session.result? run := by
        rw [← hworker, hended] at hs
        exact hs
      rw [hended, hresult] at hout
      cases hrun : Session.result? run with
      | none =>
          rw [hrun] at hout
          obtain rfl := Option.some.inj hout
          simp [session, hrun]
      | some r =>
          rw [hrun] at hout
          obtain rfl := Option.some.inj hout
          simp [session, hrun]
  | some m =>
      cases m with
      | progress p => cases hout
      | finished r =>
          obtain rfl := Option.some.inj hout
          exact (Session.wait_of_finished (List.eq_cons_of_mem_head? hm.symm)).symm

/-- **If `wait` goes on after a receive, it passed over one pending snapshot.** -/
theorem Step.skips_wait {m : Option (Message K)} (hstep : Step run s (.receive m) t)
    (hm : waitResult? m t.worker = none) : (t.session run).wait = (s.session run).wait ∧
      (s.session run).pending.length = (t.session run).pending.length + 1 := by
  obtain ⟨-, -, -, hhead, htail⟩ := hstep.pending_receive
  cases m with
  | none =>
      cases hended : t.worker with
      | solving _ => rw [hended] at hm; cases hm
      | leaving _ => rw [hended] at hm; cases hm
      | ended result => rw [hended] at hm; cases result <;> cases hm
  | some m =>
      cases m with
      | progress p =>
          have hcons : (s.session run).pending = .progress p :: (t.session run).pending :=
            htail ▸ List.eq_cons_of_mem_head? hhead.symm
          exact ⟨(Session.wait_of_progress hcons rfl).symm, by rw [hcons, List.length_cons]⟩
      | finished r => cases hm

/-- **Waiting returns what it returns in the session**, however the thread is scheduled. -/
theorem awaits_wait (hs : Concluded run s.worker) (hlistening : s.listening = true) :
    Awaits run (s.session run).wait s := by
  -- the thread comes nearer to its end, or a snapshot is passed over
  induction hk : stepsLeft s.worker + (s.session run).pending.length
    using Nat.strong_induction_on generalizing s with
  | h k ih =>
      refine .intro ?_ (fun t hstep => ?_) (fun m t r hstep hr => hstep.returns_wait hs hr)
        fun m t hstep hm => ?_
      · rcases exists_step_solver run s with ⟨result, hworker⟩ | ⟨t, hstep, -, -⟩
        · obtain ⟨t, hstep⟩ := exists_step_receive run hlistening hworker
          exact ⟨_, t, by simp, hstep⟩
        · exact ⟨_, t, by simp, hstep⟩
      · obtain ⟨hlistening', hpending⟩ := hstep.pending_solver hlistening
        have hlt := hstep.stepsLeft_lt
        have hwait : (t.session run).wait = (s.session run).wait :=
          Session.wait_congr hpending rfl
        exact hwait ▸ ih _ (by rw [hpending]; omega) (hstep.concluded hs) hlistening' rfl
      · obtain ⟨-, hlistening', hworker, -, -⟩ := hstep.pending_receive
        obtain ⟨hwait, hlength⟩ := hstep.skips_wait hm
        exact hwait ▸ ih _ (by rw [hworker]; omega) (hworker ▸ hs) hlistening' rfl

/-! ## What the caller gets -/

/-- All messages of a search with the result `r`: its snapshots in order, and then the result. -/
def transcript (run : Search.Run K (Search.Solution K)) (r : Result K) : List (Message K) :=
  (Search.snapshots run.events).map .progress ++ [.finished r]

theorem messages_eq_transcript (hresult : Session.result? run = some r) :
    Session.messages run = transcript run r := by
  rw [Session.messages, hresult]
  rfl

/-- The first `k` places of a list, with none for those after its end, hold its first `k`
entries. -/
theorem reduceOption_map_getElem? {α : Type} (l : List α) (k : ℕ) :
    ((List.range k).map fun i => l[i]?).reduceOption = l.take k := by
  induction k with
  | zero => rfl
  | succ k ih =>
      rw [List.range_succ, List.map_append, List.reduceOption_append, ih, List.take_add_one]
      rfl

/-- **The messages that were received are the first ones**, up to the number of receives. -/
theorem InStep.taken_eq (h : InStep run acts s) :
    taken acts = (Session.messages run).take (received acts).length := by
  rw [taken, h.received_eq, reduceOption_map_getElem?, ← h.received_eq]

/-- **Once nothing is received everything was received**, and nothing is received from then on. -/
theorem InStep.of_receive_none {before after : List (Act K)}
    (h : InStep run (before ++ .receive none :: after) s) :
    taken before = Session.messages run ∧ ∀ m, .receive m ∈ after → m = none := by
  have hsplit : received (before ++ .receive none :: after) =
      received before ++ none :: received after := by
    rw [received, List.filterMap_append]
    rfl
  have heq := h.received_eq
  rw [hsplit, List.length_append, List.length_cons, List.range_add, List.map_append] at heq
  obtain ⟨hbefore, hafter⟩ := List.append_inj heq (by simp)
  rw [List.range_succ_eq_map, List.map_cons, List.map_cons, List.cons.injEq] at hafter
  obtain ⟨hnone, hafter⟩ := hafter
  have hlength : (Session.messages run).length ≤ (received before).length :=
    List.getElem?_eq_none_iff.1 hnone.symm
  refine ⟨?_, fun m hm => ?_⟩
  · rw [taken, hbefore, reduceOption_map_getElem?, List.take_of_length_le hlength]
  · have hmem : m ∈ received after := List.mem_filterMap.2 ⟨_, hm, rfl⟩
    rw [hafter] at hmem
    obtain ⟨i, hi, rfl⟩ := List.mem_map.1 hmem
    obtain ⟨j, -, rfl⟩ := List.mem_map.1 hi
    exact List.getElem?_eq_none_iff.2 (hlength.trans (Nat.le_add_right _ _))

/-- How a caller and the thread of a search with the result `r` deal with each other, in every
interleaving. -/
structure Protocol (run : Search.Run K (Search.Solution K)) (r : Result K) : Prop where
  /-- The messages received are a prefix of all. -/
  prefix_transcript : ∀ {acts s}, Trace run (spawn run) acts s → taken acts <+: transcript run r
  /-- Nothing is received only after everything was, and then forever. -/
  none_last : ∀ {before after s}, Trace run (spawn run) (before ++ .receive none :: after) s →
    taken before = transcript run r ∧ ∀ m, .receive m ∈ after → m = none
  /-- Receiving gives the next message, or nothing after the last; the caller may have to wait for
  the thread, but for nothing else. -/
  receives : ∀ {acts s}, Trace run (spawn run) acts s → s.listening = true →
    ∃ n t u, Trace run s (List.replicate n .solver) t ∧
      Step run t (.receive (transcript run r)[(received acts).length]?) u
  /-- What is received is what a session gives, and waiting then returns what it returns there. -/
  session : ∀ {acts s}, Trace run (spawn run) acts s →
    received acts = (Session.start run).receiveMany (received acts).length ∧
      (s.listening = true →
        Awaits run ((Session.start run).afterReceiving (received acts).length).wait s)
  /-- Waiting for the result returns it, unless it was received already. -/
  waits : ∀ {acts s}, Trace run (spawn run) acts s → s.listening = true →
    .finished r ∉ taken acts → Awaits run r s
  /-- The thread ends with the result, and comes to its end from everywhere, also if the caller has
  hung up. -/
  ends : ∀ {acts s}, Trace run (spawn run) acts s →
    (∀ result, s.worker = .ended result → result = some r) ∧
      ∃ n t, Trace run s (List.replicate n .solver) t ∧ t.worker = .ended (some r)

/-- Waiting passes over snapshots up to the result. -/
theorem wait_of_pending {s : Session K} {ps : List (Search.Progress K)}
    (hpending : s.pending = ps.map .progress ++ [.finished r]) : s.wait = r := by
  induction ps generalizing s with
  | nil => exact Session.wait_of_finished hpending
  | cons p ps ih =>
      have hskip : s.wait = Session.wait ⟨ps.map .progress ++ [.finished r], [], s.crashed⟩ :=
        Session.wait_of_progress hpending rfl
      exact hskip.trans (ih rfl)

/-- As long as the result was not received, waiting returns it. -/
theorem InStep.wait_eq (h : InStep run acts s) (hresult : Session.result? run = some r)
    (hlistening : s.listening = true) (hunread : .finished r ∉ taken acts) :
    (s.session run).wait = r := by
  have hpending := h.pending_eq hlistening
  have htaken := h.taken_eq
  rw [messages_eq_transcript hresult, transcript] at hpending htaken
  -- the result is the last message, and it was not among those received
  have hle : (received acts).length ≤ (Search.snapshots run.events).length := by
    by_contra hlt
    refine hunread ?_
    rw [htaken, List.take_of_length_le (by simpa using not_le.1 hlt)]
    simp
  rw [List.drop_append_of_le_length (by simpa using hle), ← List.map_drop] at hpending
  exact wait_of_pending hpending

/-- **The protocol of background solves.**  For every request and all settings that it changes, the
caller gets the snapshots that the search reports and then its result, however the thread that
searches and the caller are interleaved, and the thread ends with the result whether the caller
listens or not; if the search does not break down. -/
theorem background_protocol [Scalar K] [PlainText K] (request : Request K)
    (base : Search.Settings K) (clock : Search.Clock) {r : Result K}
    (hresult :
      Session.result? (request.problem.solve (request.settings base) clock) = some r) :
    Protocol (request.problem.solve (request.settings base) clock) r := by
  generalize request.problem.solve (request.settings base) clock = run at hresult
  have hmessages := messages_eq_transcript hresult
  constructor
  · intro acts s h
    rw [h.inStep.taken_eq, hmessages]
    exact List.take_prefix _ _
  · intro before after s h
    rw [← hmessages]
    exact h.inStep.of_receive_none
  · intro acts s h hlistening
    obtain ⟨n, t, htrace, hworker, hlistening', hpending⟩ := exists_ended h.inStep.concluded
    obtain ⟨u, hstep⟩ := exists_step_receive run (hlistening'.trans hlistening) hworker
    refine ⟨n, t, u, htrace, ?_⟩
    rwa [hpending hlistening, h.inStep.pending_eq hlistening, List.head?_drop, hmessages] at hstep
  · intro acts s h
    refine ⟨?_, fun hlistening => ?_⟩
    · rw [Session.receiveMany_eq]
      exact h.inStep.received_eq
    · obtain ⟨hpending, hcrashed⟩ :=
        (Session.start run).afterReceiving_spec (received acts).length
      have hwait : (s.session run).wait =
          ((Session.start run).afterReceiving (received acts).length).wait :=
        Session.wait_congr ((h.inStep.pending_eq hlistening).trans hpending.symm) hcrashed.symm
      exact hwait ▸ awaits_wait h.inStep.concluded hlistening
  · intro acts s h hlistening hunread
    have hwait := h.inStep.wait_eq hresult hlistening hunread
    exact hwait ▸ awaits_wait h.inStep.concluded hlistening
  · intro acts s h
    have hconcluded := h.inStep.concluded
    refine ⟨fun result hworker => ?_, ?_⟩
    · rw [hworker] at hconcluded
      exact hconcluded.trans hresult
    · obtain ⟨n, t, htrace, hworker, -, -⟩ := exists_ended hconcluded
      exact ⟨n, t, htrace, hworker.trans (congrArg Worker.ended hresult)⟩

/-- The settings of `halves` with a snapshot after every node. -/
def observedSettings : Search.Settings ℚ := { Search.halvesSettings with progressEvery := 1 }

/-- A caller who asks for `halves` to be solved gets two snapshots before the result. -/
theorem halves_background_protocol : ∃ r,
    Session.result? ((Request.ofProgram Search.halves).problem.solve
      ((Request.ofProgram Search.halves).settings observedSettings) fun _ => 0) = some r ∧
    (transcript ((Request.ofProgram Search.halves).problem.solve
      ((Request.ofProgram Search.halves).settings observedSettings) fun _ => 0) r).length = 3 ∧
    Protocol ((Request.ofProgram Search.halves).problem.solve
      ((Request.ofProgram Search.halves).settings observedSettings) fun _ => 0) r := by
  have hsome : (Session.result? ((Request.ofProgram Search.halves).problem.solve
      ((Request.ofProgram Search.halves).settings observedSettings) fun _ => 0)).isSome = true := by
    decide +kernel
  have hsnapshots : (Search.snapshots ((Request.ofProgram Search.halves).problem.solve
      ((Request.ofProgram Search.halves).settings observedSettings) fun _ => 0).events).length =
        2 := by
    decide +kernel
  obtain ⟨r, hr⟩ := Option.isSome_iff_exists.1 hsome
  refine ⟨r, hr, ?_, background_protocol _ _ _ hr⟩
  rw [transcript, List.length_append, List.length_map, hsnapshots]
  rfl

end Background

end BranchBound
