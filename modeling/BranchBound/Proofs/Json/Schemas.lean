import BranchBound.Proofs.Json.Strings
import BranchBound.Json.Schema

/-!
# What a schema looks at

Of a record a schema only looks at the fields that it knows, one by one (`fill_cons_eq_ok_iff`), and
at whether the others can be skipped.  What is left of a document when its records are cut down to
that is its `core`, and nothing else matters for what is decoded (`Schema.decode_core_eq_ok_iff`).

The schema must be unambiguous for that (`Schema.Regular`): no field twice, and no `null` inside an
optional value.
-/

namespace BranchBound

namespace Json

/-! ## Schemas by their parts -/

/-- Schemas and their fields are made up of scalars by lists, options and records. -/
theorem Schema.induction {P : (α : Type) → Schema α → Prop} {Q : (ρ δ : Type) → Fields ρ δ → Prop}
    (real : P _ .real) (natural : ∀ name bound, P _ (.natural name bound)) (flag : P _ .flag)
    (text : P _ .text) (list : ∀ {α : Type} (item : Schema α), P _ item → P _ (.list item))
    (optional : ∀ {α : Type} (item : Schema α), P _ item → P _ (.optional item))
    (choice : ∀ {α : Type} (choices : List (String × α)) (name : α → String)
      (h : ∀ value, choices.lookup (name value) = some value), P _ (.choice choices name h))
    (record : ∀ {α ρ δ : Type} (name : String) (fields : Fields ρ δ) (make : ρ → α) (view : α → ρ)
      (h : ∀ value, make (view value) = value), Q _ _ fields →
        P _ (.record name fields make view h))
    (nil : Q _ _ .nil)
    (cons : ∀ {α ρ δ : Type} (name : String) (absence : Absence α) (item : Schema α)
      (rest : Fields ρ δ), P _ item → Q _ _ rest → Q _ _ (.cons name absence item rest))
    {α : Type} (schema : Schema α) : P α schema :=
  @Schema.rec P Q real natural flag text list optional choice record nil cons α schema

/-- What holds without fields, and with one more before others, holds of all fields. -/
theorem Fields.induction {Q : (ρ δ : Type) → Fields ρ δ → Prop} (nil : Q _ _ .nil)
    (cons : ∀ {α ρ δ : Type} (name : String) (absence : Absence α) (item : Schema α)
      (rest : Fields ρ δ), Q _ _ rest → Q _ _ (.cons name absence item rest))
    {ρ δ : Type} (fields : Fields ρ δ) : Q ρ δ fields :=
  @Fields.rec (fun _ _ => True) Q trivial (fun _ _ => trivial) trivial trivial (fun _ _ => trivial)
    (fun _ _ => trivial) (fun _ _ _ => trivial) (fun _ _ _ _ _ _ => trivial) nil
    (fun name absence item rest _ hrest => cons name absence item rest hrest) ρ δ fields

namespace Fields

/-- The names of the fields. -/
def names {ρ δ : Type} : Fields ρ δ → List String
  | .nil => []
  | .cons name _ _ rest => name :: rest.names

end Fields

/-- The schema has a `null` of its own. -/
def Schema.isOptional {α : Type} : Schema α → Bool
  | .optional _ => true
  | _ => false

mutual

/-- A schema in which what is written tells what was meant: naturals fit 64 bits, no optional value
is optional once more, and the fields of a record have different names. -/
def Schema.Regular {α : Type} : Schema α → Prop
  | .natural _ bound => bound ≤ Word.bound 64
  | .list item => item.Regular
  | .optional item => item.isOptional = false ∧ item.Regular
  | .record _ fields _ _ _ => fields.names.Nodup ∧ fields.Regular
  | .real | .flag | .text | .choice _ _ _ => True

/-- Fields with such schemas. -/
def Fields.Regular {ρ δ : Type} : Fields ρ δ → Prop
  | .nil => True
  | .cons _ _ item rest => item.Regular ∧ rest.Regular

end

/-! ## What a schema looks at -/

/-- The name of a field, if it can be read. -/
def nameOf (e : Quoted × Document) : Option String := e.1.decode.toOption

/-- The documents of the fields with a name, in order. -/
def valuesAt (name : String) (entries : List (Quoted × Document)) : List Document :=
  (entries.filter fun e => nameOf e = some name).map Prod.snd

/-- The fields with other names, or names that cannot be read. -/
def without (name : String) (entries : List (Quoted × Document)) : List (Quoted × Document) :=
  entries.filter fun e => nameOf e ≠ some name

/-- The field can be skipped: its name can be read, and its value is a whole document. -/
def isSkippable (e : Quoted × Document) : Bool := (nameOf e).isSome && e.2.skip.isNone

mutual

/-- What a schema looks at in a document: of its records the fields that the schema knows, in its
order, and after them those that cannot be skipped. -/
def Schema.core {α : Type} : Schema α → Document → Document
  | .list item, d =>
    match d with
    | .list items fault => .list (items.map item.core) fault
    | d => d
  | .optional item, d => item.core d
  | .record _ fields _ _ _, d =>
    match d with
    | .record entries stray fault => .record (fields.core entries) stray fault
    | d => d
  | .real, d | .natural _ _, d | .flag, d | .text, d | .choice _ _ _, d => d

/-- The known fields of a record in order, and those of the others that cannot be skipped. -/
def Fields.core {ρ δ : Type} :
    Fields ρ δ → List (Quoted × Document) → List (Quoted × Document)
  | .nil, entries => entries.filter fun e => !isSkippable e
  | .cons name _ item rest, entries =>
    (valuesAt name entries).map (fun d => (quoted name, item.core d)) ++
      rest.core (without name entries)

end

/-! ## Fields by name -/

theorem nameOf_quoted (name : String) (d : Document) : nameOf (quoted name, d) = some name := by
  rw [nameOf, decode_quoted]
  rfl

section Names

variable {name : String} {e : Quoted × Document} {entries : List (Quoted × Document)}

theorem valuesAt_cons_of_eq (h : nameOf e = some name) :
    valuesAt name (e :: entries) = e.2 :: valuesAt name entries := by
  simp [valuesAt, h]

theorem valuesAt_cons_of_ne (h : nameOf e ≠ some name) :
    valuesAt name (e :: entries) = valuesAt name entries := by
  simp [valuesAt, h]

theorem without_cons_of_eq (h : nameOf e = some name) :
    without name (e :: entries) = without name entries := by
  simp [without, h]

theorem without_cons_of_ne (h : nameOf e ≠ some name) :
    without name (e :: entries) = e :: without name entries := by
  simp [without, h]

theorem valuesAt_eq_nil (h : ∀ e ∈ entries, nameOf e ≠ some name) :
    valuesAt name entries = [] := by
  simpa [valuesAt] using h

theorem without_eq_self (h : ∀ e ∈ entries, nameOf e ≠ some name) :
    without name entries = entries := by
  simpa [without] using h

/-- Leaving out one name does not touch the others. -/
theorem valuesAt_without {key : String} (h : key ≠ name) (entries : List (Quoted × Document)) :
    valuesAt key (without name entries) = valuesAt key entries := by
  rw [valuesAt, without, List.filter_filter, valuesAt]
  congr 1
  refine List.filter_congr fun e _ => ?_
  by_cases he : nameOf e = some key
  · simp [he, h]
  · simp [he]

theorem valuesAt_without_self (entries : List (Quoted × Document)) :
    valuesAt name (without name entries) = [] :=
  valuesAt_eq_nil fun e he => by simpa using (List.mem_filter.1 he).2

theorem valuesAt_append (entries entries' : List (Quoted × Document)) :
    valuesAt name (entries ++ entries') = valuesAt name entries ++ valuesAt name entries' := by
  rw [valuesAt, List.filter_append, List.map_append, valuesAt, valuesAt]

theorem without_append (entries entries' : List (Quoted × Document)) :
    without name (entries ++ entries') = without name entries ++ without name entries' :=
  List.filter_append _ _

theorem valuesAt_map_quoted (f : Document → Document) (values : List Document) :
    valuesAt name (values.map fun d => (quoted name, f d)) = values.map f := by
  induction values with
  | nil => rfl
  | cons d values ih =>
      rw [List.map_cons, valuesAt_cons_of_eq (nameOf_quoted name _), ih, List.map_cons]

theorem without_map_quoted (f : Document → Document) (values : List Document) :
    without name (values.map fun d => (quoted name, f d)) = [] := by
  simp [without, nameOf_quoted]

end Names

/-! ## Results -/

section Results

variable {ε α β : Type}

theorem bind_eq_ok_iff {e : Except ε α} {f : α → Except ε β} {b : β} :
    (e >>= f) = .ok b ↔ ∃ a, e = .ok a ∧ f a = .ok b := by
  cases e <;> simp [bind, Except.bind]

theorem map_eq_ok_iff {e : Except ε α} {f : α → β} {b : β} :
    e.map f = .ok b ↔ ∃ a, e = .ok a ∧ f a = b := by
  cases e <;> simp [Except.map]

/-- Two functions with the same results have the same results over a list. -/
theorem mapM_eq_ok_iff {f g : α → Except ε β} {l : List α}
    (h : ∀ a ∈ l, ∀ b, f a = .ok b ↔ g a = .ok b) {bs : List β} :
    l.mapM f = .ok bs ↔ l.mapM g = .ok bs := by
  induction l generalizing bs with
  | nil => rfl
  | cons a l ih =>
      obtain ⟨ha, hl⟩ := List.forall_mem_cons.1 h
      simp only [List.mapM_cons, bind_eq_ok_iff, ha, ih hl]

theorem mapM_eq_ok_of_forall {f : α → Except ε α} {l : List α} (h : ∀ a ∈ l, f a = .ok a) :
    l.mapM f = .ok l := by
  induction l with
  | nil => rfl
  | cons a l ih =>
      obtain ⟨ha, hl⟩ := List.forall_mem_cons.1 h
      rw [List.mapM_cons, ha, ih hl]
      rfl

end Results

/-! ## Filling the fields of a record -/

namespace Fields

/-- Read the name of a field and put its value into the slot of that name. -/
def enter {ρ δ : Type} (fields : Fields ρ δ) (slots : δ) (e : Quoted × Document) :
    Except ReadError δ := do
  let key ← readText e.1
  fields.put key e.2 slots

/-- Enter the fields of a record one after the other. -/
def fill {ρ δ : Type} (fields : Fields ρ δ) (entries : List (Quoted × Document)) (slots : δ) :
    Except ReadError δ :=
  entries.foldlM fields.enter slots

theorem fill_cons {ρ δ : Type} (fields : Fields ρ δ) (e : Quoted × Document)
    (entries : List (Quoted × Document)) (slots : δ) :
    fields.fill (e :: entries) slots = fields.enter slots e >>= fields.fill entries := rfl

section Enter

variable {ρ δ : Type} {fields : Fields ρ δ} {e : Quoted × Document} {slots : δ}

theorem enter_of_nameOf {key : String} (h : nameOf e = some key) :
    fields.enter slots e = fields.put key e.2 slots := by
  rw [enter, readText]
  cases hkey : e.1.decode with
  | error fault => simp [nameOf, hkey, Except.toOption] at h
  | ok key' =>
      obtain rfl : key' = key := by simpa [nameOf, hkey, Except.toOption] using h
      rfl

theorem enter_ne_ok (h : nameOf e = none) (slots' : δ) : fields.enter slots e ≠ .ok slots' := by
  rw [enter, readText]
  cases hkey : e.1.decode with
  | error fault => exact fun h => by cases h
  | ok key' => simp [nameOf, hkey, Except.toOption] at h

end Enter

/-- Without fields everything must be skipped. -/
theorem fill_nil_eq_ok_iff {entries : List (Quoted × Document)} :
    Fields.nil.fill entries () = .ok () ↔ ∀ e ∈ entries, isSkippable e = true := by
  induction entries with
  | nil => simp [fill, pure, Except.pure]
  | cons e entries ih =>
      rw [fill_cons, bind_eq_ok_iff, List.forall_mem_cons, ← ih]
      cases hkey : nameOf e with
      | none => simp [enter_ne_ok hkey, isSkippable, hkey]
      | some key =>
          have hput : Fields.nil.put key e.2 () = checkEnd e.2.skip := rfl
          rw [isSkippable, hkey, enter_of_nameOf hkey, hput]
          cases e.2.skip with
          | none =>
              constructor
              · rintro ⟨_, _, h⟩
                exact ⟨rfl, h⟩
              · rintro ⟨_, h⟩
                exact ⟨(), rfl, h⟩
          | some fault => simp [checkEnd]

section Cons

variable {α ρ δ : Type} {name : String} {absence : Absence α} {item : Schema α}
  {rest : Fields ρ δ} {e : Quoted × Document} {entries : List (Quoted × Document)}
  {slot slot' : Option α} {slots slots' : δ}

/-- A value under the name of the first field is read into its slot if that is free. -/
theorem enter_eq_ok_iff_of_eq (he : nameOf e = some name) :
    (Fields.cons name absence item rest).enter (slot, slots) e = .ok (slot', slots') ↔
      slot = none ∧ slots' = slots ∧ ∃ a, item.decode e.2 = .ok a ∧ slot' = some a := by
  rw [enter_of_nameOf he]
  cases slot with
  | some _ => simp [put]
  | none =>
      simp only [put, if_true, map_eq_ok_iff, Prod.mk.injEq, true_and]
      constructor
      · rintro ⟨a, ha, hslot, hslots⟩
        exact ⟨hslots.symm, a, ha, hslot.symm⟩
      · rintro ⟨hslots, a, ha, hslot⟩
        exact ⟨a, ha, hslot.symm, hslots.symm⟩

/-- A value under another name is left to the other fields. -/
theorem enter_of_ne {key : String} (hkey : nameOf e = some key) (hne : key ≠ name) :
    (Fields.cons name absence item rest).enter (slot, slots) e =
      (rest.enter slots e).map fun slots => (slot, slots) := by
  rw [enter_of_nameOf hkey, enter_of_nameOf hkey]
  cases slot <;> rw [put, if_neg hne]

/-- Values under other names are left to the other fields. -/
theorem fill_of_ne (h : ∀ e ∈ entries, ∃ key, nameOf e = some key ∧ key ≠ name) :
    (Fields.cons name absence item rest).fill entries (slot, slots) =
      (rest.fill entries slots).map fun slots => (slot, slots) := by
  induction entries generalizing slots with
  | nil => rfl
  | cons e entries ih =>
      obtain ⟨⟨key, hkey, hne⟩, hrest⟩ := List.forall_mem_cons.1 h
      rw [fill_cons, fill_cons, enter_of_ne hkey hne]
      cases rest.enter slots e with
      | error fault => rfl
      | ok slots' => exact ih hrest

/-- A value with another name, or none that can be read, does nothing to the first slot. -/
theorem enter_eq_ok_iff_of_ne (he : nameOf e ≠ some name) :
    (Fields.cons name absence item rest).enter (slot, slots) e = .ok (slot', slots') ↔
      slot' = slot ∧ rest.enter slots e = .ok slots' := by
  cases hkey : nameOf e with
  | none => simp [enter_ne_ok hkey]
  | some key =>
      rw [enter_of_ne hkey fun h => he (by rw [hkey, h]), map_eq_ok_iff]
      simp [and_comm, eq_comm]

/-- What documents of the same name do to a slot: none leaves it as it is, and one is read into it
if nothing has been before. -/
def FillsSlot {α : Type} (item : Schema α) (values : List Document) (slot slot' : Option α) :
    Prop :=
  (values = [] ∧ slot' = slot) ∨
    ∃ d a, values = [d] ∧ slot = none ∧ item.decode d = .ok a ∧ slot' = some a

/-- **Every slot is filled by the values of its name alone.** -/
theorem fill_cons_eq_ok_iff :
    (Fields.cons name absence item rest).fill entries (slot, slots) = .ok (slot', slots') ↔
      FillsSlot item (valuesAt name entries) slot slot' ∧
        rest.fill (without name entries) slots = .ok slots' := by
  induction entries generalizing slot slots with
  | nil => simp [fill, FillsSlot, valuesAt, without, pure, Except.pure, eq_comm]
  | cons e entries ih =>
      rw [fill_cons, bind_eq_ok_iff, Prod.exists]
      by_cases he : nameOf e = some name
      · simp only [enter_eq_ok_iff_of_eq he, ih, valuesAt_cons_of_eq he, without_cons_of_eq he,
          FillsSlot]
        constructor
        · rintro ⟨_, _, ⟨rfl, rfl, a, ha, rfl⟩, ⟨hnil, rfl⟩ | ⟨-, -, -, hslot, -⟩, hrest⟩
          · exact ⟨.inr ⟨e.2, a, by rw [hnil], rfl, ha, rfl⟩, hrest⟩
          · cases hslot
        · rintro ⟨⟨hnil, -⟩ | ⟨d, a, hd, rfl, ha, rfl⟩, hrest⟩
          · cases hnil
          · obtain ⟨rfl, hnil⟩ := List.cons.inj hd
            exact ⟨_, _, ⟨rfl, rfl, a, ha, rfl⟩, .inl ⟨hnil, rfl⟩, hrest⟩
      · simp only [enter_eq_ok_iff_of_ne he, ih]
        rw [valuesAt_cons_of_ne he, without_cons_of_ne he, fill_cons, bind_eq_ok_iff]
        constructor
        · rintro ⟨_, slots₁, ⟨rfl, henter⟩, hslot, hrest⟩
          exact ⟨hslot, slots₁, henter, hrest⟩
        · rintro ⟨hslot, slots₁, henter, hrest⟩
          exact ⟨slot, slots₁, ⟨rfl, henter⟩, hslot, hrest⟩

/-- Documents that are decoded alike fill a slot alike. -/
theorem FillsSlot.congr {f : Document → Document} {values : List Document}
    (h : ∀ d a, item.decode (f d) = .ok a ↔ item.decode d = .ok a) :
    FillsSlot item (values.map f) slot slot' ↔ FillsSlot item values slot slot' := by
  refine or_congr (by rw [List.map_eq_nil_iff]) ⟨?_, ?_⟩
  · rintro ⟨_, a, hvalues, hslot, ha, hslot'⟩
    obtain ⟨d, rfl, rfl⟩ := List.map_eq_singleton_iff.1 hvalues
    exact ⟨d, a, rfl, hslot, (h d a).1 ha, hslot'⟩
  · rintro ⟨d, a, rfl, hslot, ha, hslot'⟩
    exact ⟨f d, a, rfl, hslot, (h d a).2 ha, hslot'⟩

end Cons

end Fields

/-! ## What is not looked at does not matter -/

namespace Fields

variable {ρ δ : Type} {name : String}

/-- What is looked at in a record has a known name or is there itself. -/
theorem mem_core (fields : Fields ρ δ) (entries : List (Quoted × Document)) :
    ∀ e ∈ fields.core entries, (∃ key ∈ fields.names, nameOf e = some key) ∨ e ∈ entries := by
  induction fields using Fields.induction generalizing entries with
  | nil => exact fun e he => .inr (List.mem_of_mem_filter he)
  | cons key absence item rest ih =>
      refine List.forall_mem_append.2 ⟨?_, fun e he => ?_⟩
      · simp [names, nameOf_quoted]
      · obtain ⟨key', hkey', he⟩ | he := ih _ e he
        · exact .inl ⟨key', List.mem_cons_of_mem _ hkey', he⟩
        · exact .inr (List.mem_of_mem_filter he)

section Cons

variable {α : Type} {absence : Absence α} {item : Schema α} {rest : Fields ρ δ}
  (hname : name ∉ rest.names) (entries : List (Quoted × Document))
include hname

theorem nameOf_ne_of_mem_core : ∀ e ∈ rest.core (without name entries), nameOf e ≠ some name := by
  intro e he heq
  obtain ⟨key, hkey, he⟩ | he := rest.mem_core _ e he
  · exact hname (Option.some.inj (heq.symm.trans he) ▸ hkey)
  · simp [without, heq] at he

theorem valuesAt_core : valuesAt name ((Fields.cons name absence item rest).core entries) =
    (valuesAt name entries).map item.core := by
  rw [core, valuesAt_append, valuesAt_map_quoted,
    valuesAt_eq_nil (nameOf_ne_of_mem_core hname entries), List.append_nil]

theorem without_core : without name ((Fields.cons name absence item rest).core entries) =
    rest.core (without name entries) := by
  rw [core, without_append, without_map_quoted,
    without_eq_self (nameOf_ne_of_mem_core hname entries), List.nil_append]

end Cons

/-- Fields that have the same values, and beyond these only what can be skipped, look the same. -/
theorem core_congr (fields : Fields ρ δ) {entries entries' : List (Quoted × Document)}
    (hvalues : ∀ key ∈ fields.names, valuesAt key entries = valuesAt key entries')
    (h : ∀ e ∈ entries, isSkippable e = true ∨ ∃ key ∈ fields.names, nameOf e = some key)
    (h' : ∀ e ∈ entries', isSkippable e = true ∨ ∃ key ∈ fields.names, nameOf e = some key) :
    fields.core entries = fields.core entries' := by
  induction fields using Fields.induction generalizing entries entries' with
  | nil =>
      have hall : ∀ {l : List (Quoted × Document)},
          (∀ e ∈ l, isSkippable e = true ∨ ∃ key ∈ Fields.nil.names, nameOf e = some key) →
            Fields.nil.core l = [] := by
        intro l hl
        refine List.filter_eq_nil_iff.2 fun e he => ?_
        obtain hskip | ⟨key, hkey, -⟩ := hl e he
        · simp [hskip]
        · cases hkey
      rw [hall h, hall h']
  | cons name absence item rest ih =>
      have hrest : ∀ {l : List (Quoted × Document)},
          (∀ e ∈ l, isSkippable e = true ∨
            ∃ key ∈ (Fields.cons name absence item rest).names, nameOf e = some key) →
            ∀ e ∈ without name l,
              isSkippable e = true ∨ ∃ key ∈ rest.names, nameOf e = some key := by
        intro l hl e he
        obtain ⟨he, hne⟩ := List.mem_filter.1 he
        refine (hl e he).imp_right ?_
        rintro ⟨key, hkey, heq⟩
        obtain rfl | hkey := List.mem_cons.1 hkey
        · simp [heq] at hne
        · exact ⟨key, hkey, heq⟩
      rw [core, core, hvalues name List.mem_cons_self]
      congr 1
      refine ih (fun key hkey => ?_) (hrest h) (hrest h')
      by_cases hname : key = name
      · rw [hname, valuesAt_without_self, valuesAt_without_self]
      · rw [valuesAt_without hname, valuesAt_without hname,
          hvalues key (List.mem_cons_of_mem _ hkey)]

end Fields

/-- The document is of a list or record. -/
def Document.isCompound : Document → Bool
  | .list _ _ | .record _ _ _ => true
  | _ => false

namespace Schema

variable {α : Type}

/-- A list or record is not `null`. -/
theorem decode_optional_of_isCompound {item : Schema α} {d : Document} (hd : d.isCompound = true) :
    (Schema.optional item).decode d = (item.decode d).map some := by
  cases d with
  | list items fault => rfl
  | record entries stray fault => rfl
  | _ => cases hd

theorem decode_list_eq_ok_iff {item : Schema α} {items : List Document} {fault : Option Break}
    {ys : List α} : (Schema.list item).decode (.list items fault) = .ok ys ↔
      items.mapM item.decode = .ok ys ∧ checkEnd fault = .ok () := by
  rw [decode, bind_eq_ok_iff]
  cases fault <;> simp [checkEnd, bind, Except.bind, pure, Except.pure]

theorem decode_record_eq_ok_iff {ρ δ : Type} {name : String} {fields : Fields ρ δ} {make : ρ → α}
    {view : α → ρ} {h : ∀ value, make (view value) = value} {entries : List (Quoted × Document)}
    {stray : Option Document} {fault : Option Break} {y : α} :
    (Schema.record name fields make view h).decode (.record entries stray fault) = .ok y ↔
      ∃ slots, fields.fill entries fields.blank = .ok slots ∧ checkStray stray = .ok () ∧
        checkEnd fault = .ok () ∧ (fields.complete slots).map make = .ok y := by
  show (fields.fill entries fields.blank >>= fun slots => checkStray stray >>= fun _ =>
    checkEnd fault >>= fun _ => fields.complete slots >>= fun values => .ok (make values)) =
      .ok y ↔ _
  simp only [bind_eq_ok_iff, map_eq_ok_iff, Except.ok.injEq]
  constructor
  · rintro ⟨slots, hfill, _, hstray, _, hend, hvalues⟩
    exact ⟨slots, hfill, hstray, hend, hvalues⟩
  · rintro ⟨slots, hfill, hstray, hend, hvalues⟩
    exact ⟨slots, hfill, (), hstray, (), hend, hvalues⟩

/-- What is neither a list nor a record is looked at as it is. -/
theorem core_of_not_isCompound (schema : Schema α) {d : Document} (hd : d.isCompound = false) :
    schema.core d = d := by
  refine Schema.induction (P := fun α schema => schema.core d = d) (Q := fun _ _ _ => True)
    ?real ?natural ?flag ?text ?list ?optional ?choice ?record ?nil ?cons schema
  case list =>
    intro α item _
    cases d with
    | list items fault => cases hd
    | _ => rfl
  case record =>
    intro α ρ δ name fields make view h _
    cases d with
    | record entries stray fault => cases hd
    | _ => rfl
  case optional => exact fun item ih => ih
  case nil => trivial
  case cons => exact fun _ _ _ _ _ _ => trivial
  all_goals intros; rfl

/-- What is looked at in a list or record is one. -/
theorem isCompound_core (schema : Schema α) (d : Document) :
    (schema.core d).isCompound = d.isCompound := by
  refine Schema.induction (P := fun α schema => (schema.core d).isCompound = d.isCompound)
    (Q := fun _ _ _ => True)
    ?real ?natural ?flag ?text ?list ?optional ?choice ?record ?nil ?cons schema
  case list => exact fun item _ => by cases d <;> rfl
  case record => exact fun name fields make view h _ => by cases d <;> rfl
  case optional => exact fun item ih => ih
  case nil => trivial
  case cons => exact fun _ _ _ _ _ _ => trivial
  all_goals intros; rfl

/-- **What a schema does not look at does not matter.** -/
theorem decode_core_eq_ok_iff (schema : Schema α) (hs : schema.Regular) (d : Document) (y : α) :
    schema.decode (schema.core d) = .ok y ↔ schema.decode d = .ok y := by
  refine Schema.induction
    (P := fun α schema => schema.Regular → ∀ d y,
      schema.decode (schema.core d) = .ok y ↔ schema.decode d = .ok y)
    (Q := fun ρ δ fields => fields.Regular → fields.names.Nodup → ∀ entries slots slots',
      fields.fill (fields.core entries) slots = .ok slots' ↔
        fields.fill entries slots = .ok slots')
    ?real ?natural ?flag ?text ?list ?optional ?choice ?record ?nil ?cons schema hs d y
  case list =>
    intro α item ih hs d y
    cases d with
    | list items fault =>
        show (Schema.list item).decode (.list (items.map item.core) fault) = _ ↔ _
        rw [decode_list_eq_ok_iff, decode_list_eq_ok_iff, List.mapM_map]
        exact and_congr_left fun _ => mapM_eq_ok_iff fun d _ => ih hs d
    | _ => rfl
  case optional =>
    intro α item ih hs d y
    cases hd : d.isCompound with
    | false => rw [core_of_not_isCompound _ hd]
    | true =>
        have hcore : (item.core d).isCompound = true := (item.isCompound_core d).trans hd
        show (Schema.optional item).decode (item.core d) = _ ↔ _
        rw [decode_optional_of_isCompound hd, decode_optional_of_isCompound hcore,
          map_eq_ok_iff, map_eq_ok_iff]
        simp only [ih hs.2]
  case record =>
    intro α ρ δ name fields make view h ih hs d y
    obtain ⟨hnodup, hfields⟩ := hs
    cases d with
    | record entries stray fault =>
        show (Schema.record name fields make view h).decode
          (.record (fields.core entries) stray fault) = _ ↔ _
        rw [decode_record_eq_ok_iff, decode_record_eq_ok_iff]
        simp only [ih hfields hnodup]
    | _ => rfl
  case nil =>
    intro _ _ entries slots slots'
    show Fields.nil.fill (entries.filter fun e => !isSkippable e) () = .ok () ↔
      Fields.nil.fill entries () = .ok ()
    rw [Fields.fill_nil_eq_ok_iff, Fields.fill_nil_eq_ok_iff]
    refine ⟨fun h e he => ?_, fun h e he => h e (List.mem_of_mem_filter he)⟩
    by_contra hnot
    exact hnot (h e (List.mem_filter.2 ⟨he, by simpa using hnot⟩))
  case cons =>
    intro α ρ δ name absence item rest ih ih' hregular hnodup entries slots slots'
    obtain ⟨hname, hrest⟩ := List.nodup_cons.1 hnodup
    obtain ⟨slot, slots⟩ := slots
    obtain ⟨slot', slots'⟩ := slots'
    rw [Fields.fill_cons_eq_ok_iff, Fields.fill_cons_eq_ok_iff, Fields.valuesAt_core hname,
      Fields.without_core hname, Fields.FillsSlot.congr (ih hregular.1), ih' hregular.2 hrest]
  all_goals intros; rfl

end Schema

end Json

end BranchBound
