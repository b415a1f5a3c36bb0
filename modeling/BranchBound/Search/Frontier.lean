import BranchBound.Sense

/-!
# The frontier of open nodes

Open nodes wait with their relaxation values, and the best one is taken first: the largest value
when maximizing, the smallest when minimizing, and of equal values the lowest number.  Values are
compared by their total order (`Ranked.rank`), so every two entries have a winner unless they are
the same entry twice.
-/

namespace BranchBound

namespace Search

/-- An open node and its relaxation value. -/
structure Entry (V : Type) where
  /-- The node. -/
  id : Nat
  /-- Its value. -/
  value : V
deriving DecidableEq

/-- Open nodes, with counts of all that came and went. -/
structure Frontier (V : Type) where
  /-- Direction of optimization. -/
  sense : Sense
  /-- The open nodes in no particular order. -/
  entries : List (Entry V)
  /-- Number of nodes ever added. -/
  added : Nat
  /-- Number of nodes taken out. -/
  popped : Nat

namespace Frontier

variable {V : Type}

/-- No open nodes. -/
def empty (sense : Sense) : Frontier V := ⟨sense, [], 0, 0⟩

/-- Add an open node. -/
def push (f : Frontier V) (id : Nat) (value : V) : Frontier V :=
  { f with entries := ⟨id, value⟩ :: f.entries, added := f.added + 1 }

/-- There are no open nodes. -/
def isEmpty (f : Frontier V) : Bool := f.entries.isEmpty

/-- Number of open nodes. -/
def size (f : Frontier V) : Nat := f.entries.length

@[simp] theorem size_empty (sense : Sense) : (empty sense : Frontier V).size = 0 := rfl

@[simp] theorem size_push (f : Frontier V) (id : Nat) (value : V) :
    (f.push id value).size = f.size + 1 := rfl

variable [Ranked V]

/-- Priority of the first value relative to the second; greater is taken first. -/
def priority (sense : Sense) (a b : V) : Ordering :=
  match sense with
  | .maximize => Ranked.rank a b
  | .minimize => Ranked.rank b a

/-- `a` is taken before `b`. -/
def precedes (sense : Sense) (a b : Entry V) : Bool :=
  match priority sense a.value b.value with
  | .gt => true
  | .eq => decide (a.id < b.id)
  | .lt => false

/-- Split off the entry that is taken first. -/
def extract (sense : Sense) : List (Entry V) → Option (Entry V × List (Entry V))
  | [] => none
  | e :: rest =>
    match extract sense rest with
    | none => some (e, [])
    | some (best, others) =>
      if precedes sense best e then some (best, e :: others) else some (e, rest)

/-- Only an empty list has no first entry. -/
theorem extract_eq_none_iff {sense : Sense} {es : List (Entry V)} :
    extract sense es = none ↔ es = [] := by
  cases es with
  | nil => simp [extract]
  | cons e rest =>
    unfold extract
    split
    · simp
    · split <;> simp

/-- Splitting off an entry neither loses nor adds one. -/
theorem extract_perm {sense : Sense} {es others : List (Entry V)} {best : Entry V}
    (h : extract sense es = some (best, others)) : es.Perm (best :: others) := by
  induction es generalizing best others with
  | nil => simp [extract] at h
  | cons e rest ih =>
    unfold extract at h
    split at h
    · rename_i hnone
      obtain rfl := extract_eq_none_iff.1 hnone
      simp_all
    · rename_i hsome
      split at h
      · obtain ⟨rfl, rfl⟩ := by simpa using h
        exact ((ih hsome).cons e).trans (.swap _ _ _)
      · obtain ⟨rfl, rfl⟩ := by simpa using h
        exact .refl _

/-- **What is split off leads all entries**, for every preorder on them that says of two entries
which one is taken before the other. -/
theorem extract_leads {sense : Sense} {P : Entry V → Prop} {R : Entry V → Entry V → Prop}
    (hrefl : ∀ a, P a → R a a)
    (htrans : ∀ a b c, P a → P b → P c → R a b → R b c → R a c)
    (hprecedes : ∀ a b, P a → P b → precedes sense a b = true → R a b)
    (hnot : ∀ a b, P a → P b → ¬ precedes sense a b = true → R b a)
    {es others : List (Entry V)} {best : Entry V} (hes : ∀ e ∈ es, P e)
    (h : extract sense es = some (best, others)) : ∀ e ∈ es, R best e := by
  induction es generalizing best others with
  | nil => simp [extract] at h
  | cons e rest ih =>
      obtain ⟨he, hrest⟩ := List.forall_mem_cons.1 hes
      unfold extract at h
      split at h
      · rename_i hnone
        obtain ⟨rfl, -⟩ := by simpa using h
        obtain rfl := extract_eq_none_iff.1 hnone
        intro d hd
        obtain rfl := List.mem_singleton.1 hd
        exact hrefl d he
      · rename_i front others' hsome
        have hfront : P front := hrest front ((extract_perm hsome).mem_iff.2 List.mem_cons_self)
        have hleads := ih hrest hsome
        split at h
        · rename_i hbefore
          obtain ⟨rfl, -⟩ := by simpa using h
          exact List.forall_mem_cons.2 ⟨hprecedes front e hfront he hbefore, hleads⟩
        · rename_i hbefore
          obtain ⟨rfl, -⟩ := by simpa using h
          -- the new entry leads the old first one, and with it the rest
          exact List.forall_mem_cons.2 ⟨hrefl e he, fun d hd =>
            htrans e front d he hfront (hrest d hd) (hnot front e hfront he hbefore) (hleads d hd)⟩

/-- Take out the best open node. -/
def pop? (f : Frontier V) : Option (Nat × Frontier V) :=
  (extract f.sense f.entries).map
    (fun (best, others) => (best.id, { f with entries := others, popped := f.popped + 1 }))

/-- Value of the node that is taken next. -/
def bestBound? (f : Frontier V) : Option V :=
  (extract f.sense f.entries).map (fun (best, _) => best.value)

/-- Taking out a node removes its entry and nothing else. -/
theorem perm_of_pop?_eq_some {f rest : Frontier V} {id : Nat} (h : f.pop? = some (id, rest)) :
    ∃ e, e.id = id ∧ f.entries.Perm (e :: rest.entries) ∧ rest.sense = f.sense := by
  simp only [pop?, Option.map_eq_some_iff, Prod.mk.injEq] at h
  obtain ⟨⟨best, others⟩, hex, hid, rfl⟩ := h
  exact ⟨best, hid, extract_perm hex, rfl⟩

/-- Taking out a node makes the frontier smaller by one. -/
theorem size_of_pop?_eq_some {f rest : Frontier V} {id : Nat} (h : f.pop? = some (id, rest)) :
    f.size = rest.size + 1 := by
  obtain ⟨e, -, hperm, -⟩ := perm_of_pop?_eq_some h
  exact hperm.length_eq

/-- There is no node to take out exactly if the frontier is empty. -/
theorem pop?_eq_none_iff {f : Frontier V} : f.pop? = none ↔ f.entries = [] := by
  simp [pop?, extract_eq_none_iff]

/-- There is a bound exactly as long as there is a node. -/
theorem bestBound?_eq_none_iff {f : Frontier V} : f.bestBound? = none ↔ f.entries = [] := by
  simp [bestBound?, extract_eq_none_iff]

end Frontier

end Search

end BranchBound
