/-!
# Computations that leave a record

A solver reports what it does while it does it, and some of its runs do not reach their end.
`Recorded ε σ α` is such a run as a value: the events it reported, in order, and either its result
or the reason it stopped.  A run that stops keeps the events reported before (`stop`), and two runs
in sequence report the events of the first and then those of the second (`events_bind_ok`).
-/

namespace BranchBound

/-- A finished run: its events in order, and its result or the reason it stopped early. -/
structure Recorded (ε σ α : Type) where
  /-- What was reported, oldest first. -/
  events : List ε
  /-- The result, or why there is none. -/
  outcome : Except σ α

namespace Recorded

variable {ε ε' σ σ' α β : Type}

/-- The run that reports nothing and has the result `a`. -/
protected def pure (a : α) : Recorded ε σ α := ⟨[], .ok a⟩

/-- The run that reports nothing and stops. -/
def stop (reason : σ) : Recorded ε σ α := ⟨[], .error reason⟩

/-- Run `r`, and go on with its result if it has one. -/
protected def bind (r : Recorded ε σ α) (f : α → Recorded ε σ β) : Recorded ε σ β :=
  match r.outcome with
  | .error reason => ⟨r.events, .error reason⟩
  | .ok a => let next := f a; ⟨r.events ++ next.events, next.outcome⟩

instance : Monad (Recorded ε σ) where
  pure := Recorded.pure
  bind := Recorded.bind

/-- Report one event. -/
def report (e : ε) : Recorded ε σ Unit := ⟨[e], .ok ()⟩

/-- A silent run with the given outcome. -/
def ofExcept : Except σ α → Recorded ε σ α
  | .error reason => stop reason
  | .ok a => Recorded.pure a

/-- Rename the events. -/
def mapEvents (f : ε → ε') (r : Recorded ε σ α) : Recorded ε' σ α :=
  ⟨r.events.map f, r.outcome⟩

/-- Rename the reasons for stopping. -/
def mapStop (f : σ → σ') (r : Recorded ε σ α) : Recorded ε σ' α :=
  ⟨r.events, r.outcome.mapError f⟩

@[simp] theorem pure_eq (a : α) : (pure a : Recorded ε σ α) = ⟨[], .ok a⟩ := rfl

@[simp] theorem bind_ok (es : List ε) (a : α) (f : α → Recorded ε σ β) :
    (Recorded.mk es (.ok a) >>= f) = ⟨es ++ (f a).events, (f a).outcome⟩ := rfl

@[simp] theorem bind_error (es : List ε) (reason : σ) (f : α → Recorded ε σ β) :
    ((⟨es, .error reason⟩ : Recorded ε σ α) >>= f) = ⟨es, .error reason⟩ := rfl

theorem events_bind_ok {r : Recorded ε σ α} {a : α} (h : r.outcome = .ok a)
    (f : α → Recorded ε σ β) : (r >>= f).events = r.events ++ (f a).events := by
  obtain ⟨es, out⟩ := r
  subst h
  rfl

theorem events_bind_error {r : Recorded ε σ α} {reason : σ} (h : r.outcome = .error reason)
    (f : α → Recorded ε σ β) : (r >>= f).events = r.events := by
  obtain ⟨es, out⟩ := r
  subst h
  rfl

@[simp] theorem report_eq (e : ε) : (report e : Recorded ε σ Unit) = ⟨[e], .ok ()⟩ := rfl

@[simp] theorem ofExcept_ok (a : α) : (ofExcept (.ok a) : Recorded ε σ α) = ⟨[], .ok a⟩ := rfl

@[simp] theorem ofExcept_error (reason : σ) :
    (ofExcept (.error reason) : Recorded ε σ α) = ⟨[], .error reason⟩ := rfl

@[simp] theorem events_mapEvents (f : ε → ε') (r : Recorded ε σ α) :
    (r.mapEvents f).events = r.events.map f := rfl

@[simp] theorem outcome_mapEvents (f : ε → ε') (r : Recorded ε σ α) :
    (r.mapEvents f).outcome = r.outcome := rfl

@[simp] theorem events_mapStop (f : σ → σ') (r : Recorded ε σ α) :
    (r.mapStop f).events = r.events := rfl

/-- What holds of the events of both runs in sequence holds of all. -/
theorem forall_events_bind {P : ε → Prop} {r : Recorded ε σ α} {f : α → Recorded ε σ β}
    (hr : ∀ e ∈ r.events, P e) (hf : ∀ a, r.outcome = .ok a → ∀ e ∈ (f a).events, P e) :
    ∀ e ∈ (r >>= f).events, P e := by
  obtain ⟨es, _ | a⟩ := r
  · exact hr
  · exact List.forall_mem_append.2 ⟨hr, hf a rfl⟩

@[simp] theorem events_ofExcept (e : Except σ α) :
    (ofExcept e : Recorded ε σ α).events = [] := by
  cases e <;> rfl

/-- Renaming events does not care whether it is done before or after sequencing. -/
theorem mapEvents_bind (f : ε → ε') (r : Recorded ε σ α) (g : α → Recorded ε σ β) :
    (r >>= g).mapEvents f = r.mapEvents f >>= fun a => (g a).mapEvents f := by
  obtain ⟨es, out⟩ := r
  cases out <;> simp [mapEvents]

/-- Runs in sequence may be grouped at will, and a silent result adds nothing. -/
instance : LawfulMonad (Recorded ε σ) :=
  LawfulMonad.mk' _
    (by rintro _ ⟨es, _ | _⟩ <;> simp [Functor.map, Recorded.bind, Recorded.pure])
    (by intros; simp)
    (by
      rintro _ _ _ ⟨es, _ | a⟩ f g
      · rfl
      · rcases h : f a with ⟨fs, _ | b⟩ <;> simp [h])

@[simp] theorem outcome_bind (r : Recorded ε σ α) (f : α → Recorded ε σ β) :
    (r >>= f).outcome = r.outcome >>= fun a => (f a).outcome := by
  obtain ⟨es, _ | a⟩ := r <;> rfl

@[simp] theorem outcome_pure (a : α) : (pure a : Recorded ε σ α).outcome = .ok a := rfl

@[simp] theorem outcome_ofExcept (e : Except σ α) :
    (ofExcept e : Recorded ε σ α).outcome = e := by
  cases e <;> rfl

@[simp] theorem outcome_mapStop (f : σ → σ') (r : Recorded ε σ α) :
    (r.mapStop f).outcome = r.outcome.mapError f := rfl

theorem outcome_bind_eq_ok {r : Recorded ε σ α} {f : α → Recorded ε σ β} {b : β} :
    (r >>= f).outcome = .ok b ↔ ∃ a, r.outcome = .ok a ∧ (f a).outcome = .ok b := by
  obtain ⟨es, out⟩ := r
  cases out <;> simp

end Recorded

/-- What a mapped result is the image of. -/
theorem exists_of_map_eq_ok {ε α β : Type} {e : Except ε α} {f : α → β} {b : β}
    (h : e.map f = .ok b) : ∃ a, e = .ok a ∧ f a = b := by
  cases e with
  | error _ => cases h
  | ok a => exact ⟨a, rfl, Except.ok.inj h⟩

end BranchBound
