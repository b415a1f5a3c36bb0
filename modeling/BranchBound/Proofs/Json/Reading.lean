import BranchBound.Proofs.Json.Schemas
import BranchBound.Proofs.Json.Texts

/-!
# Reading what a schema has written

A schema gives back every value that it has written, from any text of it
(`Schema.read_of_writes_encode`), and two texts are read alike if it looks at the same in their
documents (`Schema.read_eq_ok_iff_of_core_eq`).  So a record is read whatever the order of its
fields is and whatever other fields there are (`Schema.read_of_writes_reordered`).

What a schema writes is described by `Schema.Fits`: naturals below their bounds, and numbers in
double precision that are finite and read back.
-/

namespace BranchBound

namespace Json

/-- The number is read back from the numeral that is written for it. -/
def ReadsBack (v : Binary64) : Prop := Schema.real.read (realText v) = .ok v

mutual

/-- Values that the schema gives back: naturals are below their bounds, and numbers in double
precision are finite and read back. -/
def Schema.Fits {α : Type} : Schema α → α → Prop
  | .real, v => v.isFinite = true ∧ ReadsBack v
  | .natural _ bound, n => n < bound
  | .list item, values => ∀ value ∈ values, item.Fits value
  | .optional item, value? => ∀ value ∈ value?, item.Fits value
  | .record _ fields _ view _, value => fields.Fits (view value)
  | .flag, _ | .text, _ | .choice _ _ _, _ => True

/-- Values of fields that are given back. -/
def Fields.Fits {ρ δ : Type} : Fields ρ δ → ρ → Prop
  | .nil, () => True
  | .cons _ _ item rest, (value, values) => item.Fits value ∧ rest.Fits values

end

/-! ## Giving a value back -/

namespace Fields

/-- Every field is written, under its name. -/
theorem map_fst_encode {ρ δ : Type} (fields : Fields ρ δ) (values : ρ) :
    (fields.encode values).map Prod.fst = fields.names := by
  induction fields using Fields.induction with
  | nil => rfl
  | cons name absence item rest ih =>
      obtain ⟨value, values⟩ := values
      exact congrArg (name :: ·) (ih values)

/-- A field that is written has one of the names. -/
theorem exists_nameOf_of_mem_encode {ρ δ : Type} (fields : Fields ρ δ) (values : ρ) :
    ∀ e ∈ (fields.encode values).map (fun f => (quoted f.1, f.2.document)),
      ∃ key ∈ fields.names, nameOf e = some key := by
  intro e he
  obtain ⟨f, hf, rfl⟩ := List.mem_map.1 he
  exact ⟨f.1, fields.map_fst_encode values ▸ List.mem_map_of_mem hf, nameOf_quoted _ _⟩

theorem nameOf_ne_of_mem_encode {ρ δ : Type} (fields : Fields ρ δ) {name : String}
    (hname : name ∉ fields.names) (values : ρ) :
    ∀ e ∈ (fields.encode values).map (fun f => (quoted f.1, f.2.document)),
      nameOf e ≠ some name := by
  intro e he heq
  obtain ⟨key, hkey, he⟩ := fields.exists_nameOf_of_mem_encode values e he
  exact hname (Option.some.inj (heq.symm.trans he) ▸ hkey)

/-- **Fields that are written are read one after the other**, as from a list of their values. -/
theorem fill_encode {ρ δ : Type} (fields : Fields ρ δ) (hnodup : fields.names.Nodup) (values : ρ)
    (expected : String) (index : ℕ) :
    fields.fill ((fields.encode values).map fun f => (quoted f.1, f.2.document)) fields.blank >>=
        fields.complete =
      fields.ofItems expected index ((fields.encode values).map fun f => f.2.document) none := by
  induction fields using Fields.induction generalizing index with
  | nil => rfl
  | cons name absence item rest ih =>
      obtain ⟨hname, hrest⟩ := List.nodup_cons.1 hnodup
      obtain ⟨value, values⟩ := values
      have hothers : ∀ e ∈ (rest.encode values).map fun f => (quoted f.1, f.2.document),
          ∃ key, nameOf e = some key ∧ key ≠ name := by
        intro e he
        obtain ⟨key, hkey, he⟩ := rest.exists_nameOf_of_mem_encode values e he
        exact ⟨key, he, fun h => hname (h ▸ hkey)⟩
      have hfirst : (Fields.cons name absence item rest).enter (none, rest.blank)
          (quoted name, (item.encode value).document) =
            (item.decode (item.encode value).document).map fun v => (some v, rest.blank) := by
        rw [enter_of_nameOf (nameOf_quoted name _), put, if_pos rfl]
      have hih := ih hrest values (index + 1)
      show (Fields.cons name absence item rest).fill ((quoted name, (item.encode value).document) ::
        (rest.encode values).map fun f => (quoted f.1, f.2.document)) (none, rest.blank) >>= _ =
          (item.decode (item.encode value).document >>= fun v => rest.ofItems expected (index + 1)
            ((rest.encode values).map fun f => f.2.document) none >>= fun vs => .ok (v, vs))
      rw [fill_cons, hfirst, ← hih]
      cases item.decode (item.encode value).document with
      | error fault => rfl
      | ok v =>
          show (Fields.cons name absence item rest).fill _ (some v, rest.blank) >>= _ = _
          rw [fill_of_ne hothers]
          cases rest.fill ((rest.encode values).map fun f => (quoted f.1, f.2.document))
            rest.blank <;> rfl

end Fields

/-- A document of a value can be skipped. -/
theorem skip_document (v : Value) : v.document.skip = none := by
  induction v using Value.induction with
  | null | flag | natural | text => rfl
  | real v =>
      obtain ⟨-, hdoc⟩ | ⟨n, -, -, hdoc⟩ := document_real v
      · rw [hdoc]
        rfl
      · rw [hdoc]
        rfl
  | list items ih =>
      have hitems : Document.skip.skipItems (items.map Value.document) = none := by
        induction items with
        | nil => rfl
        | cons v items ihitems =>
            obtain ⟨hv, hrest⟩ := List.forall_mem_cons.1 ih
            rw [List.map_cons, Document.skip.skipItems, hv]
            exact ihitems hrest
      rw [Value.document_list, Document.skip, hitems]
      rfl
  | record fields ih =>
      have hfields : Document.skip.skipFields
          (fields.map fun f => (quoted f.1, f.2.document)) = none := by
        induction fields with
        | nil => rfl
        | cons f fields ihfields =>
            obtain ⟨hf, hrest⟩ := List.forall_mem_cons.1 ih
            rw [List.map_cons, Document.skip.skipFields, hf]
            exact ihfields hrest
      rw [Value.document_record, Document.skip, hfields]
      rfl

/-- A field that is written can be skipped by whoever does not know it. -/
theorem isSkippable_document (name : String) (v : Value) :
    isSkippable (quoted name, v.document) = true := by
  rw [isSkippable, nameOf_quoted, skip_document]
  rfl

namespace Schema

variable {α : Type}

/-- Only an optional value may be `null`. -/
theorem decode_null_ne_ok {schema : Schema α} (hs : schema.isOptional = false) (a : α) :
    schema.decode .null ≠ .ok a := by
  intro h
  cases schema with
  | optional item => cases hs
  | _ => cases h

/-- A word that is cut off is no value. -/
theorem decode_cutWord_ne_ok {schema : Schema α} (hs : schema.isOptional = false) (isNull : Bool)
    (a : α) : schema.decode (.cutWord isNull) ≠ .ok a := by
  intro h
  cases schema with
  | optional item => cases hs
  | _ => cases h

/-- A value that is there is read as one. -/
theorem decode_optional_of_decode {item : Schema α} (hitem : item.isOptional = false)
    {d : Document} {a : α} (h : item.decode d = .ok a) :
    (Schema.optional item).decode d = .ok (some a) := by
  cases d with
  | null => exact absurd h (decode_null_ne_ok hitem a)
  | cutWord isNull => exact absurd h (decode_cutWord_ne_ok hitem isNull a)
  | _ => exact congrArg (Except.map some) h

theorem read_eq_ok_iff {schema : Schema α} {text : String} {y : α} :
    schema.read text = .ok y ↔
      schema.decode (scan text).document = .ok y ∧ (scan text).trailing = false := by
  rw [read]
  cases schema.decode (scan text).document <;> cases (scan text).trailing <;>
    simp [bind, Except.bind, pure, Except.pure]

theorem readText_quoted (s : String) : readText (quoted s) = .ok s := by
  rw [readText, decode_quoted]
  rfl

/-- **What a schema writes it reads back.** -/
theorem decode_encode (schema : Schema α) (hs : schema.Regular) {x : α} (hx : schema.Fits x) :
    schema.decode (schema.encode x).document = .ok x := by
  refine Schema.induction
    (P := fun α schema => schema.Regular → ∀ x, schema.Fits x →
      schema.decode (schema.encode x).document = .ok x)
    (Q := fun ρ δ fields => fields.Regular → fields.names.Nodup → ∀ values, fields.Fits values →
      ∃ slots, fields.fill ((fields.encode values).map fun f => (quoted f.1, f.2.document))
          fields.blank = .ok slots ∧ fields.complete slots = .ok values)
    ?real ?natural ?flag ?text ?list ?optional ?choice ?record ?nil ?cons schema hs x hx
  case real => exact fun _ v hv => (read_eq_ok_iff.1 hv.2).1
  case natural =>
    intro name bound hbound n hn
    have hvalue := value?_naturalNumeral (lt_of_lt_of_le hn hbound)
    show decodeNatural name bound (.number (naturalNumeral n)) = .ok n
    rw [decodeNatural, readNumber, hvalue]
    exact if_pos hn
  case flag => exact fun _ _ _ => rfl
  case text => exact fun _ s _ => readText_quoted s
  case list =>
    intro α item ih hs values hvalues
    show (Schema.list item).decode (Value.list (values.map item.encode)).document = .ok values
    rw [Value.document_list, decode_list_eq_ok_iff, List.map_map, List.mapM_map]
    exact ⟨mapM_eq_ok_of_forall fun value hvalue => ih hs value (hvalues value hvalue), rfl⟩
  case optional =>
    intro α item ih hs value? hvalue
    cases value? with
    | none => rfl
    | some value => exact decode_optional_of_decode hs.1 (ih hs.2 value (hvalue value rfl))
  case choice =>
    intro α choices name hlookup _ value _
    show decodeChoice choices (.text (quoted (name value))) = .ok value
    rw [decodeChoice, readText_quoted]
    show chosen choices (name value) = .ok value
    rw [chosen, hlookup]
  case record =>
    intro α ρ δ name fields make view hview ih hs value hvalue
    obtain ⟨slots, hfill, hcomplete⟩ := ih hs.2 hs.1 (view value) hvalue
    show (Schema.record name fields make view hview).decode
      (Value.record (fields.encode (view value))).document = .ok value
    rw [Value.document_record, decode_record_eq_ok_iff]
    exact ⟨slots, hfill, rfl, rfl, by rw [hcomplete]; exact congrArg Except.ok (hview value)⟩
  case nil => exact fun _ _ _ _ => ⟨(), rfl, rfl⟩
  case cons =>
    intro α ρ δ name absence item rest ih ih' hregular hnodup values hvalues
    obtain ⟨hname, hrest⟩ := List.nodup_cons.1 hnodup
    obtain ⟨value, values⟩ := values
    obtain ⟨slots, hfill, hcomplete⟩ := ih' hregular.2 hrest values hvalues.2
    have hne := rest.nameOf_ne_of_mem_encode hname values
    have hself := nameOf_quoted name (item.encode value).document
    refine ⟨(some value, slots), ?_, ?_⟩
    · show (Fields.cons name absence item rest).fill ((quoted name, (item.encode value).document) ::
        (rest.encode values).map fun f => (quoted f.1, f.2.document)) (none, rest.blank) = _
      rw [Fields.fill_cons_eq_ok_iff, valuesAt_cons_of_eq hself, without_cons_of_eq hself,
        valuesAt_eq_nil hne, without_eq_self hne]
      exact ⟨.inr ⟨_, value, rfl, rfl, ih hregular.1 value hvalues.1, rfl⟩, hfill⟩
    · rw [Fields.complete, hcomplete]
      rfl

/-- **A record that is written is read as the list of its values.** -/
theorem decode_record_encode {ρ δ : Type} {name : String} {fields : Fields ρ δ}
    {make : ρ → α} {view : α → ρ} {h : ∀ value, make (view value) = value}
    (hnodup : fields.names.Nodup) (x : α) :
    (Schema.record name fields make view h).decode
        ((Schema.record name fields make view h).encode x).document =
      (Schema.record name fields make view h).decode
        (.list ((fields.encode (view x)).map fun f => f.2.document) none) := by
  have hfill := fields.fill_encode hnodup (view x) (listedRecord name fields.size) 0
  show (Schema.record name fields make view h).decode
      (Value.record (fields.encode (view x))).document = (fields.ofItems _ 0 _ none).map make
  rw [Value.document_record, ← hfill]
  show (fields.fill _ fields.blank >>= fun slots => checkStray none >>= fun _ =>
    checkEnd none >>= fun _ => fields.complete slots >>= fun values => .ok (make values)) = _
  cases fields.fill ((fields.encode (view x)).map fun f => (quoted f.1, f.2.document))
    fields.blank <;> rfl

/-! ## Texts -/

/-- **A schema reads every text of what it writes.** -/
theorem read_of_writes_encode {schema : Schema α} (hs : schema.Regular) {x : α}
    (hx : schema.Fits x) {text : String} (h : Writes text (schema.encode x)) :
    schema.read text = .ok x := by
  rw [read_eq_ok_iff, scan_of_writes h]
  exact ⟨decode_encode schema hs hx, rfl⟩

/-- **Two texts are read alike if the schema looks at the same in their documents.** -/
theorem read_eq_ok_iff_of_core_eq {schema : Schema α} (hs : schema.Regular) {text text' : String}
    (hcore : schema.core (scan text).document = schema.core (scan text').document)
    (htrailing : (scan text).trailing = (scan text').trailing) (y : α) :
    schema.read text = .ok y ↔ schema.read text' = .ok y := by
  rw [read_eq_ok_iff, read_eq_ok_iff, htrailing, ← decode_core_eq_ok_iff schema hs, hcore,
    decode_core_eq_ok_iff schema hs]

/-- A field that is written is there once. -/
theorem exists_valuesAt_encode {ρ δ : Type} (fields : Fields ρ δ) (hnodup : fields.names.Nodup)
    (values : ρ) {key : String} (hkey : key ∈ fields.names) :
    ∃ d, valuesAt key ((fields.encode values).map fun f => (quoted f.1, f.2.document)) = [d] := by
  induction fields using Fields.induction with
  | nil => cases hkey
  | cons name absence item rest ih =>
      obtain ⟨hname, hrest⟩ := List.nodup_cons.1 hnodup
      obtain ⟨value, values⟩ := values
      show ∃ d, valuesAt key ((quoted name, (item.encode value).document) ::
        (rest.encode values).map fun f => (quoted f.1, f.2.document)) = [d]
      obtain rfl | hkey' := List.mem_cons.1 hkey
      · rw [valuesAt_cons_of_eq (nameOf_quoted key _),
          valuesAt_eq_nil (rest.nameOf_ne_of_mem_encode hname values)]
        exact ⟨_, rfl⟩
      · have hne : name ≠ key := fun h => hname (h ▸ hkey')
        rw [valuesAt_cons_of_ne (by simpa [nameOf_quoted] using hne)]
        exact ih hrest values hkey'

/-- **A record is read whatever the order of its fields is and whatever else it has.**  A text with
the fields that are written for a value, in any order and with others among them that are unknown
and can be skipped, is read as that value. -/
theorem read_reordered {ρ δ : Type} {name : String} {fields : Fields ρ δ} {make : ρ → α}
    {view : α → ρ} {h : ∀ value, make (view value) = value}
    (hs : (Schema.record name fields make view h).Regular) {x : α}
    (hx : (Schema.record name fields make view h).Fits x)
    {entries unknown : List (Quoted × Document)} {text : String}
    (hperm : entries.Perm
      ((fields.encode (view x)).map (fun f => (quoted f.1, f.2.document)) ++ unknown))
    (hunknown : ∀ e ∈ unknown, isSkippable e = true ∧ ∀ key ∈ fields.names, nameOf e ≠ some key)
    (hscan : scan text = ⟨.record entries none none, false⟩) :
    (Schema.record name fields make view h).read text = .ok x := by
  have hcore : fields.core entries =
      fields.core ((fields.encode (view x)).map fun f => (quoted f.1, f.2.document)) := by
    refine fields.core_congr (fun key hkey => ?_) (fun e he => ?_)
      fun e he => .inr (fields.exists_nameOf_of_mem_encode _ e he)
    · obtain ⟨d, hd⟩ := exists_valuesAt_encode fields hs.1 (view x) hkey
      have hvalues : (valuesAt key entries).Perm [d] := by
        have h := (hperm.filter fun e => nameOf e = some key).map Prod.snd
        have hnone := valuesAt_eq_nil fun e he => (hunknown e he).2 key hkey
        rwa [← valuesAt, ← valuesAt, valuesAt_append, hd, hnone] at h
      rw [hd, List.perm_singleton.1 hvalues]
    · obtain he | he := List.mem_append.1 (hperm.mem_iff.1 he)
      · exact .inr (fields.exists_nameOf_of_mem_encode _ e he)
      · exact .inl (hunknown e he).1
  rw [read_eq_ok_iff, hscan]
  refine ⟨?_, rfl⟩
  rw [← decode_core_eq_ok_iff _ hs]
  have hencode := (decode_core_eq_ok_iff _ hs _ _).2 (decode_encode _ hs hx)
  show (Schema.record name fields make view h).decode (.record (fields.core entries) none none) = _
  rw [hcore]
  rw [encode, Value.document_record] at hencode
  exact hencode

/-- **Fields in another order and unknown fields make no difference.**  Every text of a record with
the fields that are written for a value, in any order and with any values under other names among
them, is read as that value. -/
theorem read_of_writes_reordered {ρ δ : Type} {name : String} {fields : Fields ρ δ}
    {make : ρ → α} {view : α → ρ} {h : ∀ value, make (view value) = value}
    (hs : (Schema.record name fields make view h).Regular) {x : α}
    (hx : (Schema.record name fields make view h).Fits x) {listed unknown : List (String × Value)}
    (hperm : listed.Perm (fields.encode (view x) ++ unknown))
    (hunknown : ∀ f ∈ unknown, f.1 ∉ fields.names) {text : String}
    (htext : Writes text (.record listed)) :
    (Schema.record name fields make view h).read text = .ok x := by
  have hscan := scan_of_writes htext
  rw [Value.document_record] at hscan
  have hentries := hperm.map fun f => (quoted f.1, f.2.document)
  rw [List.map_append] at hentries
  refine read_reordered hs hx hentries (fun e he => ?_) hscan
  obtain ⟨f, hf, rfl⟩ := List.mem_map.1 he
  refine ⟨isSkippable_document f.1 f.2, fun key hkey heq => hunknown f hf ?_⟩
  rw [nameOf_quoted] at heq
  exact Option.some.inj heq ▸ hkey

end Schema

end Json

end BranchBound
