import BranchBound.Proofs.Json.Reading
import BranchBound.Wire.Search

/-!
# The wire formats give back what they are given

Each of the nine formats is a record (`WireFormat.exists_record`) and unambiguous
(`WireFormat.regular`).  So it reads every value that it has written, also with its fields in
another order and with unknown fields among them, and reads two texts alike that differ only in the
order of fields, in unknown fields and in blanks at any depth (`WireFormat.roundTrip`).
-/

namespace BranchBound

open Json

/-- The formats in which programs, settings, bounds, nodes, snapshots, requests and results are
exchanged. -/
inductive WireFormat : {α : Type} → Schema α → Prop where
  | linearProgram : WireFormat LinearProgram.schema
  | linearSettings : WireFormat LinearProgram.Settings.schema
  | integerProgram : WireFormat IntegerProgram.schema
  | searchSettings : WireFormat Search.Settings.schema
  | bound : WireFormat Bound.schema
  | node : WireFormat Search.Node.schema
  | progress : WireFormat Search.Progress.schema
  | request : WireFormat Request.schema
  | solution : WireFormat Search.Solution.schema

/-! ## The formats are unambiguous -/

theorem LinearProgram.regular_schema : LinearProgram.schema.Regular :=
  ⟨by decide, trivial, trivial, trivial, trivial, trivial⟩

theorem LinearProgram.Settings.regular_schema : LinearProgram.Settings.schema.Regular :=
  ⟨by decide, le_rfl, trivial, trivial, trivial, trivial, trivial⟩

theorem IntegerProgram.regular_schema : IntegerProgram.schema.Regular :=
  ⟨by decide, trivial, trivial, trivial, trivial, trivial⟩

theorem Bound.regular_schema : Bound.schema.Regular :=
  ⟨by decide, le_rfl, trivial, trivial, trivial⟩

namespace Search

theorem Settings.regular_schema : Settings.schema.Regular :=
  ⟨by decide, le_rfl, ⟨rfl, le_rfl⟩, trivial, trivial, LinearProgram.Settings.regular_schema,
    trivial, le_rfl, trivial⟩

theorem Node.regular_schema : Node.schema.Regular :=
  ⟨by decide, le_rfl, ⟨rfl, le_rfl⟩, Bound.regular_schema, trivial, ⟨rfl, trivial⟩, trivial,
    trivial, le_rfl, ⟨rfl, le_rfl⟩, ⟨rfl, trivial⟩, trivial⟩

theorem Progress.regular_schema : Progress.schema.Regular :=
  ⟨by decide, le_rfl, ⟨rfl, trivial⟩, show Word.bound 8 ≤ Word.bound 64 by decide, trivial⟩

theorem Solution.regular_schema : Solution.schema.Regular :=
  ⟨by decide, trivial, ⟨rfl, trivial⟩, ⟨rfl, trivial⟩, ⟨rfl, trivial⟩, trivial, trivial, le_rfl,
    le_rfl, le_rfl, ⟨rfl, trivial⟩, Node.regular_schema, le_rfl, le_rfl, trivial⟩

end Search

theorem Request.regular_schema : Request.schema.Regular :=
  ⟨by decide, IntegerProgram.regular_schema, trivial, ⟨rfl, le_rfl⟩, trivial⟩

namespace WireFormat

variable {α : Type} {schema : Schema α}

theorem regular (h : WireFormat schema) : schema.Regular := by
  cases h with
  | linearProgram => exact LinearProgram.regular_schema
  | linearSettings => exact LinearProgram.Settings.regular_schema
  | integerProgram => exact IntegerProgram.regular_schema
  | searchSettings => exact Search.Settings.regular_schema
  | bound => exact Bound.regular_schema
  | node => exact Search.Node.regular_schema
  | progress => exact Search.Progress.regular_schema
  | request => exact Request.regular_schema
  | solution => exact Search.Solution.regular_schema

/-- Every format is that of a record. -/
theorem exists_record (h : WireFormat schema) :
    ∃ (ρ δ : Type) (name : String) (fields : Fields ρ δ) (make : ρ → α) (view : α → ρ)
      (hview : ∀ value, make (view value) = value),
      schema = .record name fields make view hview := by
  cases h <;> exact ⟨_, _, _, _, _, _, _, rfl⟩

/-- **The wire formats give back what they are given.**  A value whose naturals fit their words
and whose numbers in double precision are finite and read back from their numerals is read back,
whatever its strings are and whatever is there or not, from its text without blanks and from its
text on lines of its own.  It is also read back from every text of its fields in another order, with
any values under other names among them.  And two texts are read alike if the same is left of their
documents when unknown fields that can be skipped are taken out of the records and the others are
put in order. -/
theorem roundTrip (h : WireFormat schema) :
    (∀ x, schema.Fits x → schema.read (schema.encode x).compact = .ok x ∧
      schema.read (schema.encode x).pretty = .ok x) ∧
    (∀ text text', (scan text).trailing = (scan text').trailing →
      schema.core (scan text).document = schema.core (scan text').document →
        ∀ y, schema.read text = .ok y ↔ schema.read text' = .ok y) ∧
    ∀ x, schema.Fits x → ∃ fields, schema.encode x = .record fields ∧
      ∀ listed unknown text, listed.Perm (fields ++ unknown) →
        (∀ f ∈ unknown, f.1 ∉ fields.map Prod.fst) → Writes text (.record listed) →
          schema.read text = .ok x := by
  have hregular := h.regular
  refine ⟨fun x hx => ⟨?_, ?_⟩, fun text text' htrailing hcore y => ?_, fun x hx => ?_⟩
  · exact Schema.read_of_writes_encode hregular hx (writes_compact _)
  · exact Schema.read_of_writes_encode hregular hx (writes_pretty _)
  · exact Schema.read_eq_ok_iff_of_core_eq hregular hcore htrailing y
  · obtain ⟨ρ, δ, name, fields, make, view, hview, rfl⟩ := h.exists_record
    refine ⟨_, rfl, fun listed unknown text hperm hunknown htext => ?_⟩
    rw [fields.map_fst_encode] at hunknown
    exact Schema.read_of_writes_reordered hregular hx hperm hunknown htext

end WireFormat

/-- A number is read back if evaluation says so. -/
theorem readsBack_of_toOption {v : Binary64}
    (h : (Schema.real.read (realText v)).toOption = some v) : ReadsBack v := by
  rw [ReadsBack]
  cases hread : Schema.real.read (realText v) with
  | error e => simp [hread, Except.toOption] at h
  | ok w => exact congrArg Except.ok (by simpa [hread, Except.toOption] using h)

namespace Search.Node

/-- A node below the root with a description that needs escapes. -/
def described : Node Binary64 where
  id := 1
  parent := some 0
  bounds := [⟨0, .upper, 0.5⟩]
  x := [0.5]
  value := none
  status := .optimal
  kind := .branch
  depth := 1
  branchVar := some 0
  branchText := some "\"x0\"\n\u0001"

/-- The bound of that node with its fields in another order and one that is not known. -/
def rearranged : Value := .record [("value", .real 0.5), ("note", .list [.null, .record []]),
  ("direction", .text "upper"), ("var", .natural 0)]

/-- The node with its bound in that order. -/
def rearrangedWithin : Value := .record [("id", .natural 1), ("parent_id", .natural 0),
  ("constraints", .list [rearranged]), ("lp_solution", .list [.real 0.5]), ("lp_value", .null),
  ("lp_status", .text "optimal"), ("node_type", .text "branch"), ("depth", .natural 1),
  ("branch_var", .natural 0), ("branch_desc", .text "\"x0\"\n\u0001")]

/-- The node is read back from the text on lines of its own, its bound from the other order, and
the node also with its bound in that order. -/
theorem described_roundTrip :
    WireFormat schema ∧ WireFormat Bound.schema ∧ schema.Fits described ∧
    Bound.schema.Fits ⟨0, .upper, 0.5⟩ ∧
    schema.read (schema.encode described).pretty = .ok described ∧
    Bound.schema.read rearranged.pretty = .ok ⟨0, .upper, 0.5⟩ ∧
    schema.read rearrangedWithin.compact = .ok described := by
  have hread : ReadsBack 0.5 := readsBack_of_toOption (by decide +kernel)
  have hhalf : (0.5 : Binary64).isFinite = true ∧ ReadsBack 0.5 := ⟨by decide +kernel, hread⟩
  have hzero : 0 < Word.bound 64 := by decide
  have hone : 1 < Word.bound 64 := by decide
  have hbound : Bound.schema.Fits ⟨0, .upper, 0.5⟩ := ⟨hzero, trivial, hhalf, trivial⟩
  have hnode : schema.Fits described := by
    refine ⟨hone, ?_, ?_, ?_, ?_, trivial, trivial, hone, ?_, ?_, trivial⟩
    · rintro _ ⟨⟩
      exact hzero
    · exact List.forall_mem_singleton.2 hbound
    · exact List.forall_mem_singleton.2 hhalf
    · rintro _ ⟨⟩
    · rintro _ ⟨⟩
      exact hzero
    · exact fun _ _ => trivial
  have hcore : schema.core rearrangedWithin.document =
      schema.core (schema.encode described).document := rfl
  obtain ⟨hsame, hlike, -⟩ := WireFormat.node.roundTrip
  obtain ⟨-, -, hlisted⟩ := WireFormat.bound.roundTrip
  refine ⟨.node, .bound, hnode, hbound, (hsame described hnode).2, ?_, ?_⟩
  · obtain ⟨fields, hfields, hread⟩ := hlisted ⟨0, .upper, 0.5⟩ hbound
    obtain rfl : [("var", .natural 0), ("direction", .text "upper"), ("value", .real 0.5)] =
      fields := Value.record.inj hfields
    refine hread _ [("note", .list [.null, .record []])] _ ?_ (by decide) (writes_pretty _)
    exact (@List.perm_append_comm _ [_, _] [_, _]).trans (.swap _ _ _)
  · have hscan := scan_of_writes (writes_compact rearrangedWithin)
    have hscan' := scan_of_writes (writes_compact (schema.encode described))
    refine (hlike _ _ ?_ ?_ _).2 (hsame described hnode).1
    · rw [hscan, hscan']
    · rw [hscan, hscan']
      exact hcore

end Search.Node

end BranchBound
