import BranchBound.Proofs.Search.Monotone

/-!
# Turn by turn

The loop of a search takes one node after the other from the frontier, as long as neither the budget
nor the time is used up (`Turn`).  The states at its head are those that such turns lead to from an
open root (`Passes`), and a search whose root does not settle it ends in one of them
(`run_passes`).  What the root has and turns keep holds at every head (`Passes.keeps`).
-/

namespace BranchBound

variable {K : Type} [Scalar K] [PlainText K] {σ : Type}

namespace Search

open Relaxation

/-- One turn of the loop: there is budget and time left, and the node `n` is taken from the frontier
and processed. -/
structure Turn (task : Task K σ) (s : State K σ) (n : Node K) (s' : State K σ) : Prop where
  budget : s.explored < task.settings.maxNodes
  inTime : task.isLate (.beforeNode s.explored) = false
  takes : ∃ id rest, s.frontier.pop? = some (id, rest) ∧ s.tree.node? id = some n ∧
    (visit task s id rest).outcome = .ok s'

/-- Any number of turns. -/
def Turns (task : Task K σ) : State K σ → State K σ → Prop :=
  Relation.ReflTransGen fun s s' => ∃ n, Turn task s n s'

/-- The search comes to the head of its loop in this state. -/
def Passes (task : Task K σ) (b : σ) (s : State K σ) : Prop :=
  ∃ s₀, (start task b).outcome = .ok (s₀, .growing) ∧ Turns task s₀ s

variable {task : Task K σ} {b : σ} {s s' t : State K σ} {n : Node K}

/-- A turn leads to the head of the loop again. -/
theorem Passes.turn (h : Passes task b s) (hturn : Turn task s n s') : Passes task b s' := by
  obtain ⟨s₀, hstart, hturns⟩ := h
  exact ⟨s₀, hstart, hturns.tail ⟨n, hturn⟩⟩

/-- So do any number of turns. -/
theorem Passes.turns (h : Passes task b s) (hturns : Turns task s t) : Passes task b t := by
  obtain ⟨s₀, hstart, hbefore⟩ := h
  exact ⟨s₀, hstart, hbefore.trans hturns⟩

/-- **What turns keep holds after any number of them.** -/
theorem Turns.keeps {motive : State K σ → Prop} (hs : Passes task b s) (h : Turns task s t)
    (step : ∀ {s n s'}, Passes task b s → motive s → Turn task s n s' → motive s')
    (hmotive : motive s) : motive t := by
  induction h with
  | refl => exact hmotive
  | tail hturns hturn ih =>
      obtain ⟨n, hturn⟩ := hturn
      exact step (hs.turns hturns) ih hturn

/-- **What the root has and turns keep holds whenever the search comes to the head of its loop.** -/
theorem Passes.keeps {motive : State K σ → Prop} (h : Passes task b s)
    (root : ∀ {s a c st}, (task.backend.solve b []).outcome = .ok (a, c) →
      Plants task c a s st → motive s)
    (step : ∀ {s n s'}, Passes task b s → motive s → Turn task s n s' → motive s') : motive s := by
  obtain ⟨s₀, hstart, hturns⟩ := h
  obtain ⟨a, c, hsolve, hplants⟩ := start_plants hstart
  exact Turns.keeps ⟨s₀, hstart, .refl⟩ hturns step (root hsolve hplants)

/-- The nodes of a state at the head of the loop are well-formed. -/
theorem Passes.wellFormed (h : Passes task b s) : WellFormed task s := by
  refine h.keeps (motive := WellFormed task) (fun hsolve hplants => ?_) fun _ hwell hturn => ?_
  · obtain ⟨n, hrooted⟩ := hplants.rooted hsolve
    exact hrooted.wellFormed
  · obtain ⟨id, rest, hpop, -, hvisit⟩ := hturn.takes
    exact (hwell.visits hpop hvisit).1

/-- A turn is a visit of the node that is taken. -/
theorem Turn.visits (hs : Passes task b s) (h : Turn task s n s') :
    ∃ e rest, s.frontier.pop? = some (e.id, rest) ∧ Visits task s e rest n s' := by
  obtain ⟨id, rest, hpop, hn, hvisit⟩ := h.takes
  obtain ⟨-, e, n', rfl, hvisits⟩ := hs.wellFormed.visits hpop hvisit
  obtain rfl := Option.some.inj (hn.symm.trans hvisits.node)
  exact ⟨e, rest, hpop, hvisits⟩

/-- Directions and values are as they should be. -/
theorem Passes.aligned (h : Passes task b s) : Aligned task s := by
  refine h.keeps (motive := Aligned task) (fun _ hplants => hplants.aligned)
    fun hs haligned hturn => ?_
  obtain ⟨e, rest, -, hvisits⟩ := hturn.visits hs
  exact hvisits.aligned haligned

/-- The values come from the backend. -/
theorem Passes.valued (hvalued : task.backend.IsValued) (h : Passes task b s) : Valued task s := by
  refine h.keeps (motive := Valued task) (fun hsolve hplants => .root hvalued hsolve hplants)
    fun hs hbefore hturn => ?_
  obtain ⟨e, rest, -, hvisits⟩ := hturn.visits hs
  exact hbefore.visit hvalued hvisits

/-- The tree is a faithful record of what was asked so far. -/
theorem Passes.faithful (h : Passes task b s) : ∃ events, Faithful task b events s := by
  obtain ⟨s₀, hstart, hturns⟩ := h
  refine Turns.keeps (motive := fun s => ∃ events, Faithful task b events s) ⟨s₀, hstart, .refl⟩
    hturns (fun _ hbefore hturn => ?_) ⟨_, Faithful.start task b _ hstart⟩
  obtain ⟨events, hbefore⟩ := hbefore
  obtain ⟨id, rest, -, -, hvisit⟩ := hturn.takes
  exact ⟨_, hbefore.visit id rest _ hvisit⟩

/-- Whenever the search comes to the head of its loop the nodes form a tree. -/
theorem Passes.isTree (h : Passes task b s) : IsTree task s.tree.nodes := by
  refine h.keeps (motive := fun s => IsTree task s.tree.nodes)
    (fun hsolve hplants => hplants.isTree hsolve) fun hs htree hturn => ?_
  obtain ⟨e, rest, -, hvisits⟩ := hturn.visits hs
  exact hvisits.isTree htree

/-! ## The whole run -/

/-- The loop goes turn by turn. -/
theorem Proceeds.turns {m : ℕ} {limit : Option Limit} (h : Proceeds task m s s' limit)
    (hwell : WellFormed task s) (hbudget : s.explored + m = task.settings.maxNodes) :
    Turns task s s' := by
  induction h with
  | exhausted _ => exact .refl
  | spent _ => exact .refl
  | late _ _ => exact .refl
  | next hpop hlate hvisit _ ih =>
      obtain ⟨hwell', e, n, rfl, hvisits⟩ := hwell.visits hpop hvisit
      have hexplored := explored_of_visit hvisit
      exact .head ⟨n, by omega, hlate, _, _, hpop, hvisits.node, hvisit⟩
        (ih hwell' (by omega))

/-- **A search ends with its root or at the head of its loop.** -/
theorem run_passes {limit : Option Limit} (h : (run task b).outcome = .ok (s, limit)) :
    (start task b).outcome = .ok (s, .settled) ∨ Passes task b s := by
  cases run_eq_ok_iff.1 h with
  | settled hstart => exact .inl hstart
  | grown hstart hproceeds =>
      obtain ⟨n, hrooted⟩ := start_cases hstart
      exact .inr ⟨_, hstart, hproceeds.turns hrooted.wellFormed
        (by rw [hrooted.explored_eq, Nat.zero_add])⟩

end Search

end BranchBound
