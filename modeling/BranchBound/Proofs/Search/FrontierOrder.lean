import BranchBound.Proofs.Search.Ranking

/-!
# The order of service

Double-precision values are ranked by their places on the line of all bit patterns, mirrored when
minimizing: changing the sign mirrors the line (`Binary64.position_neg`).  With the lower number
going first among equal values, no two different entries are level, undefined values and zeros of
either sign included (`Entry.Outranks.antisymm`).

A frontier is asked for pushes and pops in any order.  What may be answered is said without it, by a
bag of entries (`Allows`): a pop takes an entry that outranks all of the bag.  That leaves no choice
(`Allows.unique`), and the frontier answers so: one request keeps it together with the bag
(`Service.Served.request`).  Pops alone serve what it holds in the order of service
(`Service.exists_drain`).
-/

namespace BranchBound

/-- Changing the sign mirrors the line of all bit patterns. -/
theorem Binary64.position_neg (v : Binary64) : (-v).position = -1 - v.position := by
  have half : Word.bound 63 = 2 ^ 63 := rfl
  have hlt := v.bits.toNat_lt
  have hbits : (-v).bits.toNat = v.bits.toNat ^^^ 2 ^ 63 := UInt64.toNat_xor _ _
  have hlow : (-v).bits.toNat % 2 ^ 63 = v.bits.toNat % 2 ^ 63 := by
    rw [hbits, Nat.xor_mod_two_pow, Nat.mod_self, Nat.xor_zero]
  have hhigh : (-v).bits.toNat / 2 ^ 63 = 1 - v.bits.toNat / 2 ^ 63 := by
    have htop : v.bits.toNat / 2 ^ 63 = 0 ∨ v.bits.toNat / 2 ^ 63 = 1 := by omega
    rw [hbits, Nat.xor_div_two_pow, Nat.div_self (by decide)]
    rcases htop with h | h <;> rw [h] <;> rfl
  simp only [position, half]
  split <;> split <;> omega

namespace Search

variable {sense : Sense}

/-! ## Which entry goes first -/

/-- The value as it is ranked: negated when minimizing. -/
def ranked (sense : Sense) (v : Binary64) : Binary64 :=
  match sense with
  | .maximize => v
  | .minimize => -v

/-- Different values are ranked differently. -/
theorem ranked_position_injective {v w : Binary64}
    (h : (ranked sense v).position = (ranked sense w).position) : v = w := by
  cases sense with
  | maximize => exact Binary64.position_injective h
  | minimize =>
      have h : (-v).position = (-w).position := h
      rw [Binary64.position_neg, Binary64.position_neg] at h
      exact Binary64.position_injective (by omega)

/-- Priorities compare places on the line of all bit patterns. -/
theorem Frontier.priority_eq_compare_position (a b : Binary64) :
    priority sense a b = compare (ranked sense a).position (ranked sense b).position := by
  cases sense with
  | maximize => rfl
  | minimize =>
      show compare b.position a.position = compare (-a).position (-b).position
      rw [Binary64.position_neg, Binary64.position_neg]
      rcases lt_trichotomy b.position a.position with h | h | h
      · rw [compare_lt_iff_lt.2 h, compare_lt_iff_lt.2 (by omega)]
      · rw [compare_eq_iff_eq.2 h, compare_eq_iff_eq.2 (by omega)]
      · rw [compare_gt_iff_gt.2 h, compare_gt_iff_gt.2 (by omega)]

namespace Entry

/-- The first entry goes no later than the second: its value is ranked higher, or the values are
ranked the same and its number is not higher. -/
def Outranks (sense : Sense) (e d : Entry Binary64) : Prop :=
  (ranked sense d.value).position < (ranked sense e.value).position ∨
    (ranked sense e.value).position = (ranked sense d.value).position ∧ e.id ≤ d.id

variable {e d c : Entry Binary64}

namespace Outranks

theorem refl (e : Entry Binary64) : e.Outranks sense e := .inr ⟨rfl, le_rfl⟩

theorem trans (h : e.Outranks sense d) (h' : d.Outranks sense c) : e.Outranks sense c := by
  unfold Outranks at *
  omega

/-- **Entries that are level are the same.** -/
theorem antisymm (h : e.Outranks sense d) (h' : d.Outranks sense e) : e = d := by
  have hposition : (ranked sense e.value).position = (ranked sense d.value).position := by
    unfold Outranks at *
    omega
  have hid : e.id = d.id := by
    unfold Outranks at *
    omega
  have hvalue := ranked_position_injective hposition
  cases e
  cases d
  simp_all

end Outranks

/-- The entry is in the bag and goes first of all. -/
def IsFirst (sense : Sense) (M : Multiset (Entry Binary64)) (e : Entry Binary64) : Prop :=
  e ∈ M ∧ ∀ d ∈ M, e.Outranks sense d

/-- One entry is taken before another exactly if the other does not outrank it. -/
theorem precedes_iff : Frontier.precedes sense e d = true ↔ ¬ d.Outranks sense e := by
  unfold Frontier.precedes Outranks
  rw [Frontier.priority_eq_compare_position]
  rcases lt_trichotomy (ranked sense e.value).position (ranked sense d.value).position
    with h | h | h
  · rw [compare_lt_iff_lt.2 h]
    simp [h]
  · rw [compare_eq_iff_eq.2 h]
    simp [h]
  · rw [compare_gt_iff_gt.2 h]
    simp only [true_iff]
    omega

/-- What is taken before goes no later. -/
theorem outranks_of_precedes (h : Frontier.precedes sense e d = true) : e.Outranks sense d := by
  have := precedes_iff.1 h
  unfold Outranks at *
  omega

end Entry

/-! ## One pop -/

namespace Frontier

/-- **What is split off outranks every entry.** -/
theorem outranks_of_extract {es others : List (Entry Binary64)} {best : Entry Binary64}
    (h : extract sense es = some (best, others)) : ∀ e ∈ es, best.Outranks sense e :=
  extract_leads (P := fun _ => True) (fun e _ => .refl e)
    (fun _ _ _ _ _ _ hab hbc => hab.trans hbc)
    (fun _ _ _ _ => Entry.outranks_of_precedes)
    (fun _ _ _ _ h => not_not.1 (mt Entry.precedes_iff.2 h)) (fun _ _ => trivial) h

/-- The open entries, each as often as it is open. -/
def bag (f : Frontier Binary64) : Multiset (Entry Binary64) := f.entries

variable {f rest : Frontier Binary64}

@[simp] theorem bag_empty : (empty sense : Frontier Binary64).bag = 0 := rfl

@[simp] theorem bag_push (id : ℕ) (v : Binary64) : (f.push id v).bag = ⟨id, v⟩ ::ₘ f.bag := rfl

theorem bag_eq_zero_iff : f.bag = 0 ↔ f.entries = [] := Multiset.coe_eq_zero _

theorem card_bag : f.bag.card = f.size := rfl

/-- **A pop takes the entry that goes first**, its value was the bound, and it leaves the others. -/
theorem exists_first_of_pop? {id : ℕ} (h : f.pop? = some (id, rest)) :
    ∃ e, e.IsFirst f.sense f.bag ∧ e.id = id ∧ f.bestBound? = some e.value ∧
      f.bag = e ::ₘ rest.bag ∧ rest.sense = f.sense ∧ rest.added = f.added ∧
      rest.popped = f.popped + 1 := by
  simp only [pop?, Option.map_eq_some_iff, Prod.mk.injEq] at h
  obtain ⟨⟨best, others⟩, hextract, hid, rfl⟩ := h
  have hperm := extract_perm hextract
  refine ⟨best, ⟨?_, ?_⟩, hid, by simp [bestBound?, hextract], Multiset.coe_eq_coe.2 hperm, rfl,
    rfl, rfl⟩
  · exact Multiset.mem_coe.2 (hperm.mem_iff.2 List.mem_cons_self)
  · intro d hd
    exact outranks_of_extract hextract d (Multiset.mem_coe.1 hd)

/-- **As long as all values are defined, no open one is better than the bound.** -/
theorem not_improves_of_bestBound? (hdefined : ∀ e ∈ f.bag, e.value.toFloat.isNaN = false)
    {v : Binary64} (h : f.bestBound? = some v) :
    ∀ e ∈ f.bag, f.sense.improves e.value v = false := by
  have hranked := Binary64.rankedOn
    (S := {v : Binary64 | v.toFloat.isNaN = false}) fun _ hmem => hmem
  obtain ⟨-, -, -, hbest⟩ := exists_best_of_bestBound? hranked hdefined h
  exact hbest

end Frontier

/-! ## Requests -/

/-- What a frontier is asked for. -/
inductive Frontier.Op where
  /-- Add an entry. -/
  | push (id : ℕ) (value : Binary64)
  /-- Take out the entry that goes first. -/
  | pop

/-- The request adds an entry. -/
def Frontier.Op.isPush : Frontier.Op → Bool
  | .push _ _ => true
  | .pop => false

/-- **What a bag of entries may answer** to requests: a pop takes any entry that goes first, and an
empty bag has none. -/
inductive Allows (sense : Sense) :
    List Frontier.Op → List (Option ℕ) → Multiset (Entry Binary64) → Prop
  /-- In the beginning the bag is empty. -/
  | start : Allows sense [] [] 0
  /-- What is pushed goes into the bag. -/
  | push {rs answers M} (h : Allows sense rs answers M) (id : ℕ) (value : Binary64) :
      Allows sense (rs ++ [.push id value]) answers (⟨id, value⟩ ::ₘ M)
  /-- What is popped goes first, and the others stay. -/
  | pop {rs answers M e} (h : Allows sense rs answers (e ::ₘ M))
      (hfirst : e.IsFirst sense (e ::ₘ M)) :
      Allows sense (rs ++ [.pop]) (answers ++ [some e.id]) M
  /-- Nothing comes out of an empty bag. -/
  | idle {rs answers} (h : Allows sense rs answers 0) :
      Allows sense (rs ++ [.pop]) (answers ++ [none]) 0

namespace Allows

variable {rs : List Frontier.Op} {answers answers' : List (Option ℕ)}
  {M M' : Multiset (Entry Binary64)}

/-- Without requests nothing is answered and nothing is in the bag. -/
theorem of_nil (h : Allows sense [] answers M) : answers = [] ∧ M = 0 := by
  generalize hrs : ([] : List Frontier.Op) = rs at h
  cases h with
  | start => exact ⟨rfl, rfl⟩
  | push _ _ _ => simp at hrs
  | pop _ _ => simp at hrs
  | idle _ => simp at hrs

/-- After a push the entry is in the bag. -/
theorem of_push {id : ℕ} {value : Binary64}
    (h : Allows sense (rs ++ [.push id value]) answers M) :
    ∃ M₀, M = ⟨id, value⟩ ::ₘ M₀ ∧ Allows sense rs answers M₀ := by
  generalize hrs : rs ++ [.push id value] = rs' at h
  cases h with
  | start => simp at hrs
  | push h _ _ =>
      obtain ⟨rfl, hlast⟩ := List.append_inj' hrs rfl
      obtain ⟨rfl, rfl⟩ := by simpa using hlast
      exact ⟨_, rfl, h⟩
  | pop _ _ => simpa using (List.append_inj' hrs rfl).2
  | idle _ => simpa using (List.append_inj' hrs rfl).2

/-- After a pop the bag lacks an entry that went first, or it was empty. -/
theorem of_pop (h : Allows sense (rs ++ [.pop]) answers M) :
    (∃ e given, answers = given ++ [some e.id] ∧ e.IsFirst sense (e ::ₘ M) ∧
      Allows sense rs given (e ::ₘ M)) ∨
    ∃ given, answers = given ++ [none] ∧ M = 0 ∧ Allows sense rs given 0 := by
  generalize hrs : rs ++ [.pop] = rs' at h
  cases h with
  | start => simp at hrs
  | push _ _ _ => simpa using (List.append_inj' hrs rfl).2
  | pop h hfirst =>
      obtain ⟨rfl, -⟩ := List.append_inj' hrs rfl
      exact .inl ⟨_, _, rfl, hfirst, h⟩
  | idle h =>
      obtain ⟨rfl, -⟩ := List.append_inj' hrs rfl
      exact .inr ⟨_, rfl, rfl, h⟩

/-- **The requests leave no choice**, since no two different entries are level. -/
theorem unique (h : Allows sense rs answers M) (h' : Allows sense rs answers' M') :
    answers = answers' ∧ M = M' := by
  induction rs using List.reverseRecOn generalizing answers answers' M M' with
  | nil =>
      obtain ⟨rfl, rfl⟩ := h.of_nil
      obtain ⟨rfl, rfl⟩ := h'.of_nil
      exact ⟨rfl, rfl⟩
  | append_singleton rs r ih =>
      cases r with
      | push id value =>
          obtain ⟨M₀, rfl, hbefore⟩ := h.of_push
          obtain ⟨M₀', rfl, hbefore'⟩ := h'.of_push
          obtain ⟨rfl, rfl⟩ := ih hbefore hbefore'
          exact ⟨rfl, rfl⟩
      | pop =>
          obtain ⟨e, given, rfl, hfirst, hbefore⟩ | ⟨given, rfl, rfl, hbefore⟩ := h.of_pop <;>
            obtain ⟨d, given', rfl, hfirst', hbefore'⟩ | ⟨given', rfl, rfl, hbefore'⟩ := h'.of_pop
          · obtain ⟨rfl, hbag⟩ := ih hbefore hbefore'
            rw [← hbag] at hfirst'
            obtain rfl : e = d := (hfirst.2 d hfirst'.1).antisymm (hfirst'.2 e hfirst.1)
            exact ⟨rfl, (Multiset.cons_inj_right e).1 hbag⟩
          · exact absurd (ih hbefore hbefore').2 Multiset.cons_ne_zero
          · exact absurd (ih hbefore hbefore').2.symm Multiset.cons_ne_zero
          · obtain ⟨rfl, -⟩ := ih hbefore hbefore'
            exact ⟨rfl, rfl⟩

end Allows

/-- A frontier and what it answered to the pops so far. -/
structure Service where
  /-- The frontier. -/
  frontier : Frontier Binary64
  /-- The answers, the earliest first. -/
  answers : List (Option ℕ)

namespace Service

/-- Nothing was asked yet. -/
def start (sense : Sense) : Service := ⟨.empty sense, []⟩

/-- One request. -/
def request (s : Service) : Frontier.Op → Service
  | .push id value => { s with frontier := s.frontier.push id value }
  | .pop =>
    match s.frontier.pop? with
    | none => { s with answers := s.answers ++ [none] }
    | some (id, rest) => ⟨rest, s.answers ++ [some id]⟩

/-- Requests one after the other. -/
def replay (s : Service) (rs : List Frontier.Op) : Service := rs.foldl request s

variable {s : Service} {rs : List Frontier.Op}

@[simp] theorem replay_nil : s.replay [] = s := rfl

@[simp] theorem replay_cons (r : Frontier.Op) : s.replay (r :: rs) = (s.request r).replay rs := rfl

@[simp] theorem replay_append (rs' : List Frontier.Op) :
    s.replay (rs ++ rs') = (s.replay rs).replay rs' := List.foldl_append

/-- A pop of a frontier that holds something answers the entry that goes first. -/
theorem exists_first_of_request_pop (h : s.frontier.bag ≠ 0) :
    ∃ e, e.IsFirst s.frontier.sense s.frontier.bag ∧ s.frontier.bestBound? = some e.value ∧
      s.frontier.bag = e ::ₘ (s.request .pop).frontier.bag ∧
      (s.request .pop).answers = s.answers ++ [some e.id] ∧
      (s.request .pop).frontier.sense = s.frontier.sense ∧
      (s.request .pop).frontier.added = s.frontier.added ∧
      (s.request .pop).frontier.popped = s.frontier.popped + 1 := by
  obtain ⟨⟨id, rest⟩, hpop⟩ := Option.ne_none_iff_exists'.1 fun hnone =>
    h (Frontier.bag_eq_zero_iff.2 (Frontier.pop?_eq_none_iff.1 hnone))
  have hrequest : s.request .pop = ⟨rest, s.answers ++ [some id]⟩ := by
    simp only [request, hpop]
  obtain ⟨e, hfirst, rfl, hbound, hbag, hsense, hadded, hpopped⟩ :=
    Frontier.exists_first_of_pop? hpop
  rw [hrequest]
  exact ⟨e, hfirst, hbound, hbag, rfl, hsense, hadded, hpopped⟩

/-- A pop of an empty frontier changes nothing and answers so. -/
theorem request_pop_of_bag_eq_zero (h : s.frontier.bag = 0) :
    s.request .pop = { s with answers := s.answers ++ [none] } := by
  have hnone := Frontier.pop?_eq_none_iff.2 (Frontier.bag_eq_zero_iff.1 h)
  simp only [request, hnone]

/-- The requests led here: the answers are those of the bag, and all that came and went was
counted. -/
structure Served (sense : Sense) (rs : List Frontier.Op) (s : Service) : Prop where
  sense_eq : s.frontier.sense = sense
  allows : Allows sense rs s.answers s.frontier.bag
  added_eq : s.frontier.added = rs.countP Frontier.Op.isPush
  popped_eq : s.frontier.popped = s.answers.countP Option.isSome
  size_add_popped : s.frontier.size + s.frontier.popped = s.frontier.added

/-- In the beginning nothing was asked. -/
theorem served_start : Served sense [] (start sense) := ⟨rfl, .start, rfl, rfl, rfl⟩

/-- **One request keeps the frontier and the bag together.** -/
theorem Served.request (h : Served sense rs s) (r : Frontier.Op) :
    Served sense (rs ++ [r]) (s.request r) := by
  obtain ⟨rfl, hallows, hadded, hpopped, hsize⟩ := h
  cases r with
  | push id value =>
      refine ⟨rfl, hallows.push id value, ?_, hpopped, ?_⟩
      · simp [Service.request, Frontier.push, hadded, Frontier.Op.isPush]
      · simp only [Service.request, Frontier.size_push]
        simp only [Frontier.push]
        omega
  | pop =>
      by_cases hempty : s.frontier.bag = 0
      · rw [request_pop_of_bag_eq_zero hempty]
        rw [hempty] at hallows
        refine ⟨rfl, ?_, ?_, ?_, hsize⟩
        · rw [hempty]
          exact hallows.idle
        · simp [hadded, Frontier.Op.isPush]
        · simp [hpopped]
      · obtain ⟨e, hfirst, -, hbag, hanswers, hsense, hadded', hpopped'⟩ :=
          exists_first_of_request_pop hempty
        have hcard := congrArg Multiset.card hbag
        rw [Multiset.card_cons, Frontier.card_bag, Frontier.card_bag] at hcard
        refine ⟨hsense, ?_, ?_, ?_, ?_⟩
        · rw [hanswers]
          rw [hbag] at hallows hfirst
          exact hallows.pop hfirst
        · simp [hadded', hadded, Frontier.Op.isPush]
        · simp [hanswers, hpopped', hpopped]
        · omega

/-- **A frontier answers requests as the bag does.** -/
theorem served_replay (sense : Sense) (rs : List Frontier.Op) :
    Served sense rs ((start sense).replay rs) := by
  induction rs using List.reverseRecOn with
  | nil => exact served_start
  | append_singleton rs r ih =>
      rw [replay_append]
      exact ih.request r

/-! ## Pops alone -/

/-- **Pops alone serve the open entries in their order**, each once, and until then the bound is the
value of the next. -/
theorem exists_drain (s : Service) : ∃ order : List (Entry Binary64),
    (order : Multiset (Entry Binary64)) = s.frontier.bag ∧
    order.Pairwise (Entry.Outranks s.frontier.sense) ∧
    ∀ k ≤ order.length,
      (s.replay (.replicate k .pop)).answers =
        s.answers ++ (order.take k).map (fun e => some e.id) ∧
      (s.replay (.replicate k .pop)).frontier.bag = (order.drop k : Multiset (Entry Binary64)) ∧
      (s.replay (.replicate k .pop)).frontier.bestBound? = order[k]?.map Entry.value := by
  induction hn : s.frontier.size generalizing s with
  | zero =>
      have hentries : s.frontier.entries = [] := List.length_eq_zero_iff.1 hn
      refine ⟨[], (Frontier.bag_eq_zero_iff.2 hentries).symm, .nil, fun k hk => ?_⟩
      obtain rfl : k = 0 := Nat.le_zero.1 hk
      exact ⟨by simp, Frontier.bag_eq_zero_iff.2 hentries,
        Frontier.bestBound?_eq_none_iff.2 hentries⟩
  | succ n ih =>
      have hne : s.frontier.bag ≠ 0 := by
        rw [← Multiset.card_pos, Frontier.card_bag]
        omega
      obtain ⟨e, hfirst, hbound, hbag, hanswers, hsense, -, -⟩ := exists_first_of_request_pop hne
      have hcard := congrArg Multiset.card hbag
      rw [Multiset.card_cons, Frontier.card_bag, Frontier.card_bag] at hcard
      obtain ⟨order, horder, hsorted, hpops⟩ := ih (s.request .pop) (by omega)
      rw [hsense] at hsorted
      have hcons : ((e :: order : List _) : Multiset (Entry Binary64)) = s.frontier.bag := by
        rw [hbag, ← horder]
        rfl
      refine ⟨e :: order, hcons, List.pairwise_cons.2 ⟨fun d hd => ?_, hsorted⟩, fun k hk => ?_⟩
      · refine hfirst.2 d ?_
        rw [← hcons]
        exact Multiset.mem_coe.2 (List.mem_cons_of_mem _ hd)
      · cases k with
        | zero => exact ⟨by simp, hcons.symm, hbound⟩
        | succ k =>
            obtain ⟨hids, hleft, hnext⟩ := hpops k (Nat.le_of_succ_le_succ hk)
            rw [List.replicate_succ, replay_cons]
            refine ⟨?_, hleft, hnext⟩
            rw [hids, hanswers]
            simp

/-- **The frontier is a lossless priority queue.**  Whatever is pushed and popped, the answers are
those of the bag of entries pushed and not yet popped.  A pop takes the entry that goes first and
the bound is its value, the counts are those of the bag, pops alone serve what is left in its order,
and as long as all values are defined no open one is better than the bound. -/
theorem replay_lossless (sense : Sense) (rs : List Frontier.Op) :
    ∃ f answers, (start sense).replay rs = ⟨f, answers⟩ ∧
      (∀ given M, Allows sense rs given M ↔ given = answers ∧ M = f.bag) ∧
      (f.pop? = none ↔ f.bag = 0) ∧ (f.bestBound? = none ↔ f.bag = 0) ∧
      (∀ id rest, f.pop? = some (id, rest) → ∃ e, e.IsFirst sense f.bag ∧ e.id = id ∧
        f.bestBound? = some e.value ∧ f.bag = e ::ₘ rest.bag) ∧
      f.size = f.bag.card ∧ f.size + f.popped = f.added ∧
      f.added = rs.countP Frontier.Op.isPush ∧ f.popped = answers.countP Option.isSome ∧
      (∃ order : List (Entry Binary64), (order : Multiset (Entry Binary64)) = f.bag ∧
        order.Pairwise (Entry.Outranks sense) ∧
        ∀ k ≤ order.length, ∃ g,
          (start sense).replay (rs ++ .replicate k .pop) =
            ⟨g, answers ++ (order.take k).map (fun e => some e.id)⟩ ∧
          g.bag = (order.drop k : Multiset (Entry Binary64)) ∧
          g.bestBound? = order[k]?.map Entry.value) ∧
      ((∀ e ∈ f.bag, e.value.toFloat.isNaN = false) → ∀ v, f.bestBound? = some v →
        ∀ e ∈ f.bag, sense.improves e.value v = false) := by
  have hserved := served_replay sense rs
  obtain ⟨order, horder, hsorted, hpops⟩ := exists_drain ((start sense).replay rs)
  simp only [replay_append]
  generalize (start sense).replay rs = s at *
  obtain ⟨f, answers⟩ := s
  obtain ⟨rfl, hallows, hadded, hpopped, hsize⟩ := hserved
  refine ⟨f, answers, rfl, fun given M => ⟨fun h => h.unique hallows, ?_⟩, ?_, ?_, ?_, rfl, hsize,
    hadded, hpopped, ⟨order, horder, hsorted, fun k hk => ?_⟩,
    fun hdefined v => Frontier.not_improves_of_bestBound? hdefined⟩
  · rintro ⟨rfl, rfl⟩
    exact hallows
  · rw [Frontier.pop?_eq_none_iff, Frontier.bag_eq_zero_iff]
  · rw [Frontier.bestBound?_eq_none_iff, Frontier.bag_eq_zero_iff]
  · intro id rest hpop
    obtain ⟨e, hfirst, hid, hbound, hbag, -⟩ := Frontier.exists_first_of_pop? hpop
    exact ⟨e, hfirst, hid, hbound, hbag⟩
  · obtain ⟨hids, hleft, hnext⟩ := hpops k hk
    exact ⟨_, by rw [← hids], hleft, hnext⟩

/-- An undefined value goes first when maximizing, and then zero before negative zero, with the
lower number first. -/
theorem undefined_replay_lossless :
    ∃ f rest, (start .maximize).replay
        [.push 4 .nan, .push 7 0, .push 2 (-0), .push 2 0, .pop] = ⟨f, [some 4]⟩ ∧
      (∀ given M, Allows .maximize
        [.push 4 .nan, .push 7 0, .push 2 (-0), .push 2 0, .pop] given M ↔
          given = [some 4] ∧ M = f.bag) ∧
      f.pop? = some (2, rest) ∧ f.bag = ⟨2, 0⟩ ::ₘ rest.bag ∧
      (∀ e ∈ f.bag, e.value.toFloat.isNaN = false) ∧ f.bestBound? = some 0 ∧
      ∀ e ∈ f.bag, Sense.maximize.improves e.value 0 = false := by
  obtain ⟨f, answers, hreplay, hallows, -, -, hpop, -, -, -, -, -, hbest⟩ :=
    replay_lossless .maximize [.push 4 .nan, .push 7 0, .push 2 (-0), .push 2 0, .pop]
  have hf : f = ⟨.maximize, [⟨2, 0⟩, ⟨2, -0⟩, ⟨7, 0⟩], 4, 1⟩ :=
    (congrArg Service.frontier hreplay).symm
  obtain rfl : answers = [some 4] := (congrArg Service.answers hreplay).symm
  have hnext : f.pop? = some (2, ⟨.maximize, [⟨2, -0⟩, ⟨7, 0⟩], 4, 2⟩) := by
    rw [hf]
    rfl
  have hbound : f.bestBound? = some 0 := by
    rw [hf]
    rfl
  have hdefined : ∀ e ∈ f.bag, e.value.toFloat.isNaN = false := by
    intro e he
    rw [hf] at he
    simp only [Frontier.bag, Multiset.mem_coe, List.mem_cons, List.not_mem_nil, or_false] at he
    rcases he with rfl | rfl | rfl <;> rfl
  obtain ⟨e, -, hid, hvalue, hbag⟩ := hpop _ _ hnext
  obtain rfl : e = ⟨2, 0⟩ := by
    rw [hbound] at hvalue
    cases e
    simp_all
  exact ⟨f, _, hreplay, hallows, hnext, hbag, hdefined, hbound, hbest hdefined _ hbound⟩

end Service

end Search

end BranchBound
