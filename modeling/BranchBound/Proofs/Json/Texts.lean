import BranchBound.Proofs.Json.Numerals
import BranchBound.Proofs.Json.Strings
import BranchBound.Json.Value
import Mathlib.Data.List.DropRight

/-!
# Texts of JSON values

`Written` says that a text begins with a given value: a scalar in its one form, or brackets around
items or fields, with blanks wherever JSON allows them.  A text that consists of a value is taken
apart into the document of that value and nothing else (`scan_of_writes`), and both layouts are
such texts (`writes_compact`, `writes_pretty`).
-/

namespace BranchBound

namespace Json

/-! ## Values by their parts -/

/-- What holds of scalars, and of lists and records if it holds of their parts, holds of every
value. -/
theorem Value.induction {P : Value → Prop} (null : P .null) (flag : ∀ b, P (.flag b))
    (natural : ∀ n, P (.natural n)) (real : ∀ v, P (.real v)) (text : ∀ s, P (.text s))
    (list : ∀ items : List Value, (∀ v ∈ items, P v) → P (.list items))
    (record : ∀ fields : List (String × Value), (∀ f ∈ fields, P f.2) → P (.record fields))
    (v : Value) : P v := by
  refine @Value.rec P (fun items => ∀ v ∈ items, P v) (fun fields => ∀ f ∈ fields, P f.2)
    (fun f => P f.2) null flag natural real text list record ?_ ?_ ?_ ?_ ?_ v
  · exact fun v hv => absurd hv List.not_mem_nil
  · exact fun v items hv hitems => List.forall_mem_cons.2 ⟨hv, hitems⟩
  · exact fun f hf => absurd hf List.not_mem_nil
  · exact fun f fields hf hfields => List.forall_mem_cons.2 ⟨hf, hfields⟩
  · exact fun name v hv => hv

namespace Value

/-- The value is neither a list nor a record. -/
def isScalar : Value → Bool
  | .list _ | .record _ => false
  | _ => true

/-- A value taken apart. -/
def document : Value → Document
  | .null => .null
  | .flag value => .flag value
  | .natural value => .number (naturalNumeral value)
  | .real value => (scan (realText value)).document
  | .text value => .text (quoted value)
  | .list items => .list (documentItems items) none
  | .record fields => .record (documentFields fields) none none
where
  /-- The items taken apart. -/
  documentItems : List Value → List Document
    | [] => []
    | v :: rest => v.document :: documentItems rest
  /-- The fields taken apart. -/
  documentFields : List (String × Value) → List (Quoted × Document)
    | [] => []
    | (name, v) :: rest => (quoted name, v.document) :: documentFields rest

theorem documentItems_eq_map (items : List Value) :
    document.documentItems items = items.map document := by
  induction items with
  | nil => rfl
  | cons v items ih => rw [document.documentItems, ih, List.map_cons]

theorem documentFields_eq_map (fields : List (String × Value)) :
    document.documentFields fields = fields.map fun f => (quoted f.1, f.2.document) := by
  induction fields with
  | nil => rfl
  | cons f fields ih =>
      obtain ⟨name, v⟩ := f
      rw [document.documentFields, ih, List.map_cons]

theorem document_list (items : List Value) :
    (Value.list items).document = .list (items.map document) none := by
  rw [document, documentItems_eq_map]

theorem document_record (fields : List (String × Value)) :
    (Value.record fields).document =
      .record (fields.map fun f => (quoted f.1, f.2.document)) none none := by
  rw [document, documentFields_eq_map]

end Value

/-! ## Blanks -/

theorem skipBlanks_skipBlanks (cs : List Char) : skipBlanks (skipBlanks cs) = skipBlanks cs :=
  List.dropWhile_idempotent _ _

theorem skipBlanks_append {bs : List Char} (hbs : ∀ c ∈ bs, isBlank c = true) (cs : List Char) :
    skipBlanks (bs ++ cs) = skipBlanks cs :=
  List.dropWhile_append_of_pos hbs

theorem skipBlanks_cons {c : Char} (hc : isBlank c = false) (cs : List Char) :
    skipBlanks (c :: cs) = c :: cs := by
  rw [skipBlanks, List.dropWhile_cons_of_neg (by simp [hc])]

theorem length_lt_of_skipBlanks {cs rest : List Char} {c : Char}
    (h : skipBlanks cs = c :: rest) : rest.length < cs.length := by
  have hle := List.length_dropWhile_le isBlank cs
  rw [← skipBlanks, h, List.length_cons] at hle
  exact hle

/-- Blanks and separators do not go on with a numeral. -/
theorem endsNumeral_of_skipBlanks {cs rest : List Char} {c : Char}
    (hc : c = ',' ∨ c = ']' ∨ c = '\x7d') (h : skipBlanks cs = c :: rest) : EndsNumeral cs := by
  cases cs with
  | nil => cases h
  | cons d cs =>
      rintro _ ⟨⟩
      by_cases hd : isBlank d = true
      · simp only [isBlank, Bool.or_eq_true, beq_iff_eq] at hd
        obtain ((rfl | rfl) | rfl) | rfl := hd <;> decide
      · rw [skipBlanks_cons (by simpa using hd)] at h
        obtain ⟨rfl, -⟩ := List.cons.inj h
        obtain rfl | rfl | rfl := hc <;> decide

/-- A text with nothing but blanks does not go on with a numeral. -/
theorem endsNumeral_of_skipBlanks_eq_nil {cs : List Char} (h : skipBlanks cs = []) :
    EndsNumeral cs := by
  cases cs with
  | nil => simp [EndsNumeral]
  | cons d cs =>
      rintro _ ⟨⟩
      have hd : isBlank d = true := by
        by_contra hd
        rw [skipBlanks_cons (by simpa using hd)] at h
        cases h
      simp only [isBlank, Bool.or_eq_true, beq_iff_eq] at hd
      obtain ((rfl | rfl) | rfl) | rfl := hd <;> decide

theorem scanValue_skipBlanks (budget : ℕ) (cs : List Char) :
    scanValue budget (skipBlanks cs) = scanValue budget cs := by
  cases budget with
  | zero => rw [scanValue, scanValue]
  | succ budget => rw [scanValue, scanValue, skipBlanks_skipBlanks]

theorem scanItems_skipBlanks (budget : ℕ) (cs : List Char) :
    scanItems budget (skipBlanks cs) = scanItems budget cs := by
  cases budget with
  | zero => rw [scanItems, scanItems]
  | succ budget => rw [scanItems, scanItems, scanValue_skipBlanks]

theorem scanFields_skipBlanks (budget : ℕ) (cs : List Char) :
    scanFields budget (skipBlanks cs) = scanFields budget cs := by
  cases budget with
  | zero => rw [scanFields, scanFields]
  | succ budget => rw [scanFields, scanFields, skipBlanks_skipBlanks]

/-! ## Scalars -/

/-- A double-precision number is written as a numeral, or as `null` if it is not finite. -/
theorem realText_cases (v : Binary64) :
    realText v = "null" ∨ ∃ n : Numeral, n.WellFormed ∧ (realText v).toList = n.text := by
  rw [realText]
  cases h : Decimal.compact? v with
  | none => exact .inl rfl
  | some text => exact .inr (Decimal.exists_numeral_compact? h)

/-- The text of a scalar starts with something other than a blank or a closing bracket. -/
theorem exists_scalarText_eq_cons {v : Value} (hv : v.isScalar = true) :
    ∃ c cs, v.scalarText.toList = c :: cs ∧ isBlank c = false ∧ c ≠ ']' := by
  have hnumeral : ∀ {n : Numeral}, n.WellFormed → ∃ c cs, n.text = c :: cs ∧
      isBlank c = false ∧ c ≠ ']' := by
    intro n hn
    obtain ⟨c, cs, htext, rfl | hc⟩ := hn.exists_text_eq_cons
    · exact ⟨'-', cs, htext, by decide, by decide⟩
    · refine ⟨c, cs, htext, ?_, ?_⟩
      · rw [← Bool.not_eq_true]
        simp only [isBlank, Bool.or_eq_true, beq_iff_eq]
        rintro (((rfl | rfl) | rfl) | rfl) <;> exact absurd hc (by decide)
      · rintro rfl
        exact absurd hc (by decide)
  cases v with
  | null => exact ⟨'n', _, rfl, by decide, by decide⟩
  | flag b =>
      cases b
      · exact ⟨'f', _, rfl, by decide, by decide⟩
      · exact ⟨'t', _, rfl, by decide, by decide⟩
  | natural n =>
      obtain ⟨c, cs, htext, hc⟩ := hnumeral (naturalNumeral_wellFormed n)
      exact ⟨c, cs, (text_naturalNumeral n).symm.trans htext, hc⟩
  | real v =>
      obtain hnull | ⟨n, hn, htext⟩ := realText_cases v
      · exact ⟨'n', _, congrArg String.toList hnull, by decide, by decide⟩
      · obtain ⟨c, cs, htext', hc⟩ := hnumeral hn
        exact ⟨c, cs, htext.trans htext', hc⟩
  | text s => exact ⟨'"', _, String.toList_ofList, by decide, by decide⟩
  | list items => cases hv
  | record fields => cases hv

theorem skipBlanks_scalarText {v : Value} (hv : v.isScalar = true) (rest : List Char) :
    skipBlanks (v.scalarText.toList ++ rest) = v.scalarText.toList ++ rest := by
  obtain ⟨c, cs, htext, hc, -⟩ := exists_scalarText_eq_cons hv
  rw [htext, List.cons_append, skipBlanks_cons hc]

theorem scanValue_null {cs rest : List Char} (budget : ℕ)
    (hcs : skipBlanks cs = "null".toList ++ rest) :
    scanValue (budget + 1) cs = (.null, rest) := by
  rw [scanValue, hcs]
  rfl

/-- The document of a double-precision number is what its text is taken apart into. -/
theorem document_real (v : Binary64) :
    (realText v = "null" ∧ (Value.real v).document = .null) ∨
    ∃ n : Numeral, n.WellFormed ∧ (realText v).toList = n.text ∧
      (Value.real v).document = .number n := by
  have halone := skipBlanks_scalarText (v := .real v) rfl []
  rw [List.append_nil, Value.scalarText] at halone
  rw [Value.document, scan]
  obtain hnull | ⟨n, hn, htext⟩ := realText_cases v
  · refine .inl ⟨hnull, ?_⟩
    rw [hnull]
    rfl
  · have hscan : scanValue (2 * n.text.length + 2) n.text = (.number n, []) :=
      scanValue_text hn _ (by rw [← htext, List.append_nil, halone]) (by simp [EndsNumeral])
    exact .inr ⟨n, hn, htext, by simp only [htext, hscan]⟩

/-- **A scalar in a text is taken apart into its document.** -/
theorem scanValue_scalarText {v : Value} (hv : v.isScalar = true) {cs rest : List Char}
    (budget : ℕ) (hcs : skipBlanks cs = v.scalarText.toList ++ rest) (hrest : EndsNumeral rest) :
    scanValue (budget + 1) cs = (v.document, rest) := by
  cases v with
  | null => exact scanValue_null budget hcs
  | flag b =>
      rw [scanValue, hcs]
      cases b <;> rfl
  | natural n =>
      rw [Value.scalarText, ← text_naturalNumeral] at hcs
      exact scanValue_text (naturalNumeral_wellFormed n) budget hcs hrest
  | real v =>
      obtain ⟨htext, hdoc⟩ | ⟨n, hn, htext, hdoc⟩ := document_real v
      · rw [Value.scalarText, htext] at hcs
        rw [scanValue_null budget hcs, hdoc]
      · rw [Value.scalarText, htext] at hcs
        rw [scanValue_text hn budget hcs hrest, hdoc]
  | text s =>
      simp only [Value.scalarText, quote, String.toList_ofList, List.cons_append, List.append_assoc,
        List.nil_append] at hcs
      rw [scanValue, hcs]
      exact congrArg (fun r : Quoted × List Char => (Document.text r.1, r.2))
        (scanQuoted_flatMap_escape s.toList rest)
  | list items => cases hv
  | record fields => cases hv

/-! ## Texts -/

mutual

/-- A text that is the value and then `rest`, with blanks wherever they may be. -/
inductive Written : Value → List Char → List Char → Prop where
  | scalar {v : Value} {cs rest : List Char} (hv : v.isScalar = true)
      (hcs : skipBlanks cs = v.scalarText.toList ++ rest) : Written v cs rest
  | emptyList {cs cs' rest : List Char} (hcs : skipBlanks cs = '[' :: cs')
      (hend : skipBlanks cs' = ']' :: rest) : Written (.list []) cs rest
  | list {items : List Value} {cs cs' rest : List Char} (hcs : skipBlanks cs = '[' :: cs')
      (hitems : WrittenItems items cs' rest) : Written (.list items) cs rest
  | emptyRecord {cs cs' rest : List Char} (hcs : skipBlanks cs = '\x7b' :: cs')
      (hend : skipBlanks cs' = '\x7d' :: rest) : Written (.record []) cs rest
  | record {fields : List (String × Value)} {cs cs' rest : List Char}
      (hcs : skipBlanks cs = '\x7b' :: cs') (hfields : WrittenFields fields cs' rest) :
      Written (.record fields) cs rest

/-- A text that is the items of a list, at least one, its closing bracket and then `rest`. -/
inductive WrittenItems : List Value → List Char → List Char → Prop where
  | last {v : Value} {cs cs' rest : List Char} (hv : Written v cs cs')
      (hend : skipBlanks cs' = ']' :: rest) : WrittenItems [v] cs rest
  | more {v : Value} {items : List Value} {cs cs' cs'' rest : List Char} (hv : Written v cs cs')
      (hcomma : skipBlanks cs' = ',' :: cs'') (hitems : WrittenItems items cs'' rest) :
      WrittenItems (v :: items) cs rest

/-- A text that is the fields of a record, at least one, its closing brace and then `rest`. -/
inductive WrittenFields : List (String × Value) → List Char → List Char → Prop where
  | last {name : String} {v : Value} {cs cs₁ cs₂ cs₃ rest : List Char}
      (hname : skipBlanks cs = (quote name).toList ++ cs₁) (hcolon : skipBlanks cs₁ = ':' :: cs₂)
      (hv : Written v cs₂ cs₃) (hend : skipBlanks cs₃ = '\x7d' :: rest) :
      WrittenFields [(name, v)] cs rest
  | more {name : String} {v : Value} {fields : List (String × Value)}
      {cs cs₁ cs₂ cs₃ cs₄ rest : List Char}
      (hname : skipBlanks cs = (quote name).toList ++ cs₁) (hcolon : skipBlanks cs₁ = ':' :: cs₂)
      (hv : Written v cs₂ cs₃) (hcomma : skipBlanks cs₃ = ',' :: cs₄)
      (hfields : WrittenFields fields cs₄ rest) : WrittenFields ((name, v) :: fields) cs rest

end

/-- The text consists of the value, with blanks wherever they may be. -/
def Writes (text : String) (v : Value) : Prop :=
  ∃ rest, Written v text.toList rest ∧ skipBlanks rest = []

theorem Written.exists_cons {v : Value} {cs rest : List Char} (h : Written v cs rest) :
    ∃ c tail, skipBlanks cs = c :: tail ∧ c ≠ ']' := by
  cases h with
  | scalar hv hcs =>
      obtain ⟨c, tail, htext, -, hc⟩ := exists_scalarText_eq_cons hv
      exact ⟨c, tail ++ rest, by rw [hcs, htext, List.cons_append], hc⟩
  | emptyList hcs _ => exact ⟨_, _, hcs, by decide⟩
  | list hcs _ => exact ⟨_, _, hcs, by decide⟩
  | emptyRecord hcs _ => exact ⟨_, _, hcs, by decide⟩
  | record hcs _ => exact ⟨_, _, hcs, by decide⟩

theorem WrittenItems.exists_cons {items : List Value} {cs rest : List Char}
    (h : WrittenItems items cs rest) : ∃ c tail, skipBlanks cs = c :: tail ∧ c ≠ ']' := by
  cases h with
  | last hv _ => exact hv.exists_cons
  | more hv _ _ => exact hv.exists_cons

theorem toList_quote_append (s : String) (rest : List Char) :
    (quote s).toList ++ rest = '"' :: (s.toList.flatMap escape ++ '"' :: rest) := by
  simp [quote]

theorem WrittenFields.exists_cons {fields : List (String × Value)} {cs rest : List Char}
    (h : WrittenFields fields cs rest) : ∃ tail, skipBlanks cs = '"' :: tail := by
  cases h with
  | last hname _ _ _ => exact ⟨_, hname.trans (toList_quote_append _ _)⟩
  | more hname _ _ _ _ => exact ⟨_, hname.trans (toList_quote_append _ _)⟩

/-! ## Taking a text apart -/

theorem isWhole_document (v : Value) : v.document.isWhole = true := by
  cases v with
  | real v =>
      obtain ⟨-, hdoc⟩ | ⟨n, -, -, hdoc⟩ := document_real v
      · rw [hdoc]
        rfl
      · rw [hdoc]
        rfl
  | _ => rfl

/-- Taking the value apart gives its document and leaves the rest, which is not longer. -/
def Scans (v : Value) (cs rest : List Char) : Prop :=
  rest.length ≤ cs.length ∧ ∀ budget, 2 * cs.length < budget → EndsNumeral rest →
    scanValue budget cs = (v.document, rest)

/-- Taking the items apart gives their documents and leaves the rest, which is not longer. -/
def ScansItems (items : List Value) (cs rest : List Char) : Prop :=
  rest.length ≤ cs.length ∧ ∀ budget, 2 * cs.length + 1 < budget →
    scanItems budget cs = (items.map Value.document, none, rest)

/-- Taking the fields apart gives their names and documents and leaves the rest, which is not
longer. -/
def ScansFields (fields : List (String × Value)) (cs rest : List Char) : Prop :=
  rest.length ≤ cs.length ∧ ∀ budget, 2 * cs.length + 1 < budget →
    scanFields budget cs = (fields.map (fun f => (quoted f.1, f.2.document)), none, none, rest)

section Steps

variable {v : Value} {items : List Value} {fields : List (String × Value)} {name : String}
  {cs cs₁ cs₂ cs₃ cs₄ rest : List Char}

theorem Scans.scalar (hv : v.isScalar = true)
    (hcs : skipBlanks cs = v.scalarText.toList ++ rest) : Scans v cs rest := by
  constructor
  · have hle := List.length_dropWhile_le isBlank cs
    rw [← skipBlanks, hcs, List.length_append] at hle
    omega
  · intro budget hbudget hrest
    obtain ⟨budget, rfl⟩ : ∃ b, budget = b + 1 := ⟨budget - 1, by omega⟩
    exact scanValue_scalarText hv budget hcs hrest

theorem Scans.emptyList (hcs : skipBlanks cs = '[' :: cs₁) (hend : skipBlanks cs₁ = ']' :: rest) :
    Scans (.list []) cs rest := by
  have hlt := length_lt_of_skipBlanks hcs
  have hlt' := length_lt_of_skipBlanks hend
  refine ⟨by omega, fun budget hbudget _ => ?_⟩
  obtain ⟨budget, rfl⟩ : ∃ b, budget = b + 1 := ⟨budget - 1, by omega⟩
  rw [scanValue, hcs]
  simp only [hend]
  rfl

theorem Scans.list (hcs : skipBlanks cs = '[' :: cs₁)
    (hhead : ∃ c tail, skipBlanks cs₁ = c :: tail ∧ c ≠ ']') (hitems : ScansItems items cs₁ rest) :
    Scans (.list items) cs rest := by
  have hlt := length_lt_of_skipBlanks hcs
  have hle := hitems.1
  refine ⟨by omega, fun budget hbudget _ => ?_⟩
  obtain ⟨budget, rfl⟩ : ∃ b, budget = b + 1 := ⟨budget - 1, by omega⟩
  obtain ⟨c, tail, hc, hne⟩ := hhead
  have hscan := hitems.2 budget (by omega)
  rw [← scanItems_skipBlanks, hc] at hscan
  rw [scanValue, hcs]
  simp only [hc]
  split
  · cases ‹c :: tail = []›
  · exact absurd (List.cons.inj ‹c :: tail = ']' :: _›).1 hne
  · rw [hscan, Value.document_list]

theorem ScansItems.last (hv : Scans v cs cs₁) (hend : skipBlanks cs₁ = ']' :: rest) :
    ScansItems [v] cs rest := by
  have hle := hv.1
  have hlt := length_lt_of_skipBlanks hend
  refine ⟨by omega, fun budget hbudget => ?_⟩
  obtain ⟨budget, rfl⟩ : ∃ b, budget = b + 1 := ⟨budget - 1, by omega⟩
  have hscan := hv.2 budget (by omega) (endsNumeral_of_skipBlanks (by simp) hend)
  rw [scanItems, hscan]
  simp only [isWhole_document, hend]
  rfl

theorem ScansItems.more (hv : Scans v cs cs₁) (hcomma : skipBlanks cs₁ = ',' :: cs₂)
    (hitems : ScansItems items cs₂ rest) : ScansItems (v :: items) cs rest := by
  have hle := hv.1
  have hlt := length_lt_of_skipBlanks hcomma
  have hle' := hitems.1
  refine ⟨by omega, fun budget hbudget => ?_⟩
  obtain ⟨budget, rfl⟩ : ∃ b, budget = b + 1 := ⟨budget - 1, by omega⟩
  have hscan := hv.2 budget (by omega) (endsNumeral_of_skipBlanks (by simp) hcomma)
  rw [scanItems, hscan]
  simp only [isWhole_document, hcomma, hitems.2 budget (by omega)]
  rfl

theorem Scans.emptyRecord (hcs : skipBlanks cs = '\x7b' :: cs₁)
    (hend : skipBlanks cs₁ = '\x7d' :: rest) : Scans (.record []) cs rest := by
  have hlt := length_lt_of_skipBlanks hcs
  have hlt' := length_lt_of_skipBlanks hend
  refine ⟨by omega, fun budget hbudget _ => ?_⟩
  obtain ⟨budget, rfl⟩ : ∃ b, budget = b + 1 := ⟨budget - 1, by omega⟩
  rw [scanValue, hcs]
  simp only [hend]
  rfl

theorem Scans.record (hcs : skipBlanks cs = '\x7b' :: cs₁)
    (hhead : ∃ tail, skipBlanks cs₁ = '"' :: tail) (hfields : ScansFields fields cs₁ rest) :
    Scans (.record fields) cs rest := by
  have hlt := length_lt_of_skipBlanks hcs
  have hle := hfields.1
  refine ⟨by omega, fun budget hbudget _ => ?_⟩
  obtain ⟨budget, rfl⟩ : ∃ b, budget = b + 1 := ⟨budget - 1, by omega⟩
  obtain ⟨tail, hquote⟩ := hhead
  have hscan := hfields.2 budget (by omega)
  rw [← scanFields_skipBlanks, hquote] at hscan
  rw [scanValue, hcs, Value.document_record]
  simp only [hquote]
  exact congrArg (fun r : List (Quoted × Document) × Option Document × Option Break × List Char =>
    (Document.record r.1 r.2.1 r.2.2.1, r.2.2.2)) hscan

theorem length_lt_of_quote (hname : skipBlanks cs = (quote name).toList ++ cs₁) :
    cs₁.length < cs.length := by
  have hlt := length_lt_of_skipBlanks (hname.trans (toList_quote_append name cs₁))
  rw [List.length_append, List.length_cons] at hlt
  omega

theorem ScansFields.last (hname : skipBlanks cs = (quote name).toList ++ cs₁)
    (hcolon : skipBlanks cs₁ = ':' :: cs₂) (hv : Scans v cs₂ cs₃)
    (hend : skipBlanks cs₃ = '\x7d' :: rest) : ScansFields [(name, v)] cs rest := by
  have hlt := length_lt_of_quote hname
  have hlt' := length_lt_of_skipBlanks hcolon
  have hle := hv.1
  have hlt'' := length_lt_of_skipBlanks hend
  refine ⟨by omega, fun budget hbudget => ?_⟩
  obtain ⟨budget, rfl⟩ : ∃ b, budget = b + 1 := ⟨budget - 1, by omega⟩
  have hscan := hv.2 budget (by omega) (endsNumeral_of_skipBlanks (by simp) hend)
  rw [scanFields, hname.trans (toList_quote_append name cs₁)]
  simp only [scanQuoted_flatMap_escape, hcolon, hscan, isWhole_document, hend]
  rfl

theorem ScansFields.more (hname : skipBlanks cs = (quote name).toList ++ cs₁)
    (hcolon : skipBlanks cs₁ = ':' :: cs₂) (hv : Scans v cs₂ cs₃)
    (hcomma : skipBlanks cs₃ = ',' :: cs₄) (hfields : ScansFields fields cs₄ rest) :
    ScansFields ((name, v) :: fields) cs rest := by
  have hlt := length_lt_of_quote hname
  have hlt' := length_lt_of_skipBlanks hcolon
  have hle := hv.1
  have hlt'' := length_lt_of_skipBlanks hcomma
  have hle' := hfields.1
  refine ⟨by omega, fun budget hbudget => ?_⟩
  obtain ⟨budget, rfl⟩ : ∃ b, budget = b + 1 := ⟨budget - 1, by omega⟩
  have hscan := hv.2 budget (by omega) (endsNumeral_of_skipBlanks (by simp) hcomma)
  rw [scanFields, hname.trans (toList_quote_append name cs₁)]
  simp only [scanQuoted_flatMap_escape, hcolon, hscan, isWhole_document, hcomma,
    hfields.2 budget (by omega)]
  rfl

end Steps

/-- **A value in a text is taken apart into its document.** -/
theorem Written.scans {v : Value} {cs rest : List Char} (h : Written v cs rest) :
    Scans v cs rest := by
  refine @Written.rec (fun v cs rest _ => Scans v cs rest)
    (fun items cs rest _ => ScansItems items cs rest)
    (fun fields cs rest _ => ScansFields fields cs rest)
    ?_ ?_ ?_ ?_ ?_ ?_ ?_ ?_ ?_ _ _ _ h
  case refine_1 => exact fun hv hcs => .scalar hv hcs
  case refine_2 => exact fun hcs hend => .emptyList hcs hend
  case refine_3 => exact fun hcs hitems ih => .list hcs hitems.exists_cons ih
  case refine_4 => exact fun hcs hend => .emptyRecord hcs hend
  case refine_5 => exact fun hcs hfields ih => .record hcs hfields.exists_cons ih
  case refine_6 => exact fun _ hend ih => .last ih hend
  case refine_7 => exact fun _ hcomma _ ih ih' => .more ih hcomma ih'
  case refine_8 => exact fun hname hcolon _ hend ih => .last hname hcolon ih hend
  case refine_9 => exact fun hname hcolon _ hcomma _ ih ih' => .more hname hcolon ih hcomma ih'

/-- **A text that consists of a value is taken apart into the document of the value.** -/
theorem scan_of_writes {text : String} {v : Value} (h : Writes text v) :
    scan text = ⟨v.document, false⟩ := by
  obtain ⟨rest, hv, hrest⟩ := h
  have hscan := hv.scans.2 (2 * text.toList.length + 2) (by omega)
    (endsNumeral_of_skipBlanks_eq_nil hrest)
  simp only [scan, hscan, hrest]
  rfl

/-! ## The two layouts -/

/-- The text stands for the value wherever it is put, also behind blanks. -/
def StandsFor (text : String) (v : Value) : Prop :=
  ∀ ⦃cs rest : List Char⦄, skipBlanks cs = skipBlanks (text.toList ++ rest) → Written v cs rest

theorem StandsFor.writes {text : String} {v : Value} (h : StandsFor text v) : Writes text v :=
  ⟨[], h (by rw [List.append_nil]), rfl⟩

/-- The text has nothing but blanks. -/
def IsGap (text : String) : Prop := ∀ c ∈ text.toList, isBlank c = true

theorem isGap_empty : IsGap "" := fun _ hc => absurd hc List.not_mem_nil

theorem isGap_blank : IsGap " " := by
  intro c hc
  obtain rfl := List.mem_singleton.1 hc
  rfl

theorem isGap_newLine (level : ℕ) : IsGap (Value.newLine level) := by
  intro c hc
  rw [Value.newLine, String.toList_append, List.mem_append] at hc
  obtain hc | hc := hc
  · obtain rfl := List.mem_singleton.1 hc
    rfl
  · rw [String.toList_ofList] at hc
    obtain rfl := List.eq_of_mem_replicate hc
    rfl

theorem standsFor_scalarText {v : Value} (hv : v.isScalar = true) : StandsFor v.scalarText v :=
  fun _ _ hcs => .scalar hv (hcs.trans (skipBlanks_scalarText hv _))

section Layout

variable {opening gap closing : String} (hopening : IsGap opening) (hgap : IsGap gap)
  (hclosing : IsGap closing)

section Items

variable {items : List Value} {write : Value → String}

include hgap hclosing in
/-- Texts of items with commas between them are a text of the list behind its bracket. -/
theorem writtenItems_separated (hne : items ≠ []) (h : ∀ v ∈ items, StandsFor (write v) v)
    {cs rest : List Char} (hcs : skipBlanks cs =
      skipBlanks ((Value.separated ("," ++ gap) (items.map write)).toList ++
        (closing.toList ++ ']' :: rest))) : WrittenItems items cs rest := by
  induction items generalizing cs with
  | nil => exact absurd rfl hne
  | cons v items ih =>
      obtain ⟨hv, hitems⟩ := List.forall_mem_cons.1 h
      cases items with
      | nil =>
          exact .last (hv hcs) (skipBlanks_append hclosing _)
      | cons w items =>
          simp only [List.map_cons, Value.separated, String.toList_append, List.append_assoc] at hcs
          exact .more (hv hcs) rfl (ih (by simp) hitems (skipBlanks_append hgap _))

include hopening hgap hclosing in
/-- Brackets around texts of items are a text of the list. -/
theorem standsFor_list (h : ∀ v ∈ items, StandsFor (write v) v) :
    StandsFor ("[" ++ opening ++ Value.separated ("," ++ gap) (items.map write) ++ closing ++ "]")
      (.list items) := by
  intro cs rest hcs
  simp only [String.toList_append, List.append_assoc] at hcs
  by_cases hne : items = []
  · subst hne
    exact .emptyList hcs ((skipBlanks_append hopening _).trans (skipBlanks_append hclosing _))
  · exact .list hcs (writtenItems_separated hgap hclosing hne h (skipBlanks_append hopening _))

end Items

section Fields

variable {fields : List (String × Value)} {write : Value → String} {behind : String}
  (hbehind : IsGap behind)

include hgap hclosing hbehind in
/-- Texts of fields with commas between them are a text of the record behind its brace. -/
theorem writtenFields_separated (hne : fields ≠ [])
    (h : ∀ f ∈ fields, StandsFor (write f.2) f.2) {cs rest : List Char}
    (hcs : skipBlanks cs = skipBlanks ((Value.separated ("," ++ gap)
      (fields.map fun f => quote f.1 ++ (":" ++ behind) ++ write f.2)).toList ++
        (closing.toList ++ '\x7d' :: rest))) : WrittenFields fields cs rest := by
  induction fields generalizing cs with
  | nil => exact absurd rfl hne
  | cons f fields ih =>
      obtain ⟨name, v⟩ := f
      obtain ⟨hv, hfields⟩ := List.forall_mem_cons.1 h
      have hname : ∀ {cs' : List Char}, skipBlanks ((quote name).toList ++ cs') =
          (quote name).toList ++ cs' :=
        fun {cs'} => skipBlanks_scalarText (v := .text name) rfl cs'
      cases fields with
      | nil =>
          simp only [List.map_cons, List.map_nil, Value.separated, String.toList_append,
            List.append_assoc] at hcs
          exact .last (hcs.trans hname) rfl (hv (skipBlanks_append hbehind _))
            (skipBlanks_append hclosing _)
      | cons g fields =>
          simp only [List.map_cons, Value.separated, String.toList_append, List.append_assoc] at hcs
          refine .more (hcs.trans hname) rfl (hv (skipBlanks_append hbehind _)) rfl
            (ih (by simp) hfields ?_)
          rw [List.map_cons]
          exact skipBlanks_append hgap _

include hopening hgap hclosing hbehind in
/-- Braces around texts of fields are a text of the record. -/
theorem standsFor_record (h : ∀ f ∈ fields, StandsFor (write f.2) f.2) :
    StandsFor ("\x7b" ++ opening ++ Value.separated ("," ++ gap)
      (fields.map fun f => quote f.1 ++ (":" ++ behind) ++ write f.2) ++ closing ++ "\x7d")
      (.record fields) := by
  intro cs rest hcs
  simp only [String.toList_append, List.append_assoc] at hcs
  by_cases hne : fields = []
  · subst hne
    exact .emptyRecord hcs ((skipBlanks_append hopening _).trans (skipBlanks_append hclosing _))
  · exact .record hcs
      (writtenFields_separated hgap hclosing hbehind hne h (skipBlanks_append hopening _))

end Fields

end Layout

namespace Value

theorem compactItems_eq_map (items : List Value) :
    compact.compactItems items = items.map compact := by
  induction items with
  | nil => rfl
  | cons v items ih => rw [compact.compactItems, ih, List.map_cons]

theorem compactFields_eq_map (fields : List (String × Value)) :
    compact.compactFields fields = fields.map fun f => quote f.1 ++ (":" ++ "") ++ f.2.compact := by
  induction fields with
  | nil => rfl
  | cons f fields ih =>
      obtain ⟨name, v⟩ := f
      rw [compact.compactFields, ih, List.map_cons]
      rfl

theorem prettyItems_eq_map (level : ℕ) (items : List Value) :
    prettyAt.prettyItems level items = items.map (prettyAt level) := by
  induction items with
  | nil => rfl
  | cons v items ih => rw [prettyAt.prettyItems, ih, List.map_cons]

theorem prettyFields_eq_map (level : ℕ) (fields : List (String × Value)) :
    prettyAt.prettyFields level fields =
      fields.map fun f => quote f.1 ++ (":" ++ " ") ++ f.2.prettyAt level := by
  induction fields with
  | nil => rfl
  | cons f fields ih =>
      obtain ⟨name, v⟩ := f
      rw [prettyAt.prettyFields, ih, List.map_cons]
      rfl

end Value

/-- **The compact text is a text of the value.** -/
theorem writes_compact (v : Value) : Writes v.compact v := by
  refine StandsFor.writes (Value.induction (P := fun v => StandsFor v.compact v)
    ?_ ?_ ?_ ?_ ?_ ?_ ?_ v)
  · exact standsFor_scalarText rfl
  · exact fun b => standsFor_scalarText rfl
  · exact fun n => standsFor_scalarText rfl
  · exact fun x => standsFor_scalarText rfl
  · exact fun s => standsFor_scalarText rfl
  · intro items h
    have hlist := standsFor_list isGap_empty isGap_empty isGap_empty h
    rw [Value.compact, Value.compactItems_eq_map]
    rwa [String.append_empty, String.append_empty, String.append_empty] at hlist
  · intro fields h
    have hrecord := standsFor_record isGap_empty isGap_empty isGap_empty isGap_empty h
    rw [Value.compact, Value.compactFields_eq_map]
    rwa [String.append_empty, String.append_empty] at hrecord

/-- **The text on lines of its own is a text of the value.** -/
theorem writes_pretty (v : Value) : Writes v.pretty v := by
  refine StandsFor.writes (Value.induction (P := fun v => ∀ level, StandsFor (v.prettyAt level) v)
    ?_ ?_ ?_ ?_ ?_ ?_ ?_ v 0)
  · exact fun level => standsFor_scalarText rfl
  · exact fun b level => standsFor_scalarText rfl
  · exact fun n level => standsFor_scalarText rfl
  · exact fun x level => standsFor_scalarText rfl
  · exact fun s level => standsFor_scalarText rfl
  · intro items h level
    have hgap := isGap_newLine (level + 1)
    have hlist := standsFor_list hgap hgap (isGap_newLine level) fun v hv => h v hv (level + 1)
    rw [Value.prettyAt, Value.prettyItems_eq_map]
    split
    case isTrue hempty =>
      rw [List.isEmpty_iff.1 hempty]
      exact fun _ _ hcs => .emptyList hcs rfl
    case isFalse => exact hlist
  · intro fields h level
    have hgap := isGap_newLine (level + 1)
    have hrecord := standsFor_record hgap hgap (isGap_newLine level) isGap_blank
      fun f hf => h f hf (level + 1)
    rw [Value.prettyAt, Value.prettyFields_eq_map]
    split
    case isTrue hempty =>
      rw [List.isEmpty_iff.1 hempty]
      exact fun _ _ hcs => .emptyRecord hcs rfl
    case isFalse => exact hrecord

end Json

end BranchBound
