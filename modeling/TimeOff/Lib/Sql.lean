import TimeOff.Lib.Decimal
import TimeOff.Lib.Gregorian

/-!
# Schemas and inserts

A schema is what a list of changes has built: tables with typed columns and
CHECK constraints. An insert gives every column its written value or its
default, stores it as the type of the column does (`ColumnType.store`), and
fails on a value the type cannot hold, a missing value and a violated
constraint. Keys are not part of this: an insert is judged by its own row.

Three points of SQL matter for what is kept and what is refused:

- a `Numeric(p, s)` rounds to `s` digits after the point and then refuses what
  needs more than `p - s` before it;
- an `Integer` has 32 bits, and a `String(n)` at most `n` characters; neither is
  cut to fit;
- a CHECK is evaluated in three values, and only a definite `false` refuses the
  row (`Table.Admits`), so that `null` passes the checks on its column.

The lemmas go from columns to rows to tables: `store_text`, `store_integer` and
`store_numeric` say what one column keeps, `Table.insert_eq_some` what an
accepted insert is, `Table.insertMany_map` that rows which are kept one by one
are kept together. A reader function on the other side (`Value.member?`,
`Value.nullable?`) gives back what was stored.
-/

namespace Sql

open Gregorian

/-- The types of columns that migrations use. -/
inductive ColumnType
  | string (length : Nat)
  | text
  | integer
  | boolean
  | date
  | numeric (precision scale : Nat)
deriving DecidableEq, Repr

/-- What a column can hold. A decimal is the exact number that its digits denote. -/
inductive Value
  | null
  | text (s : String)
  | integer (n : Int)
  | boolean (b : Bool)
  | date (d : Date)
  | decimal (q : ℚ)
deriving DecidableEq, Repr

namespace Value

/-- A missing value is `null`. -/
def ofOption {α : Type} (f : α → Value) (o : Option α) : Value := o.elim .null f

/-- Readers of a column: nothing else has the form of its values. -/
def text? : Value → Option String
  | .text s => some s
  | _ => none

def integer? : Value → Option Int
  | .integer n => some n
  | _ => none

def boolean? : Value → Option Bool
  | .boolean b => some b
  | _ => none

def date? : Value → Option Date
  | .date d => some d
  | _ => none

def decimal? : Value → Option ℚ
  | .decimal q => some q
  | _ => none

/-- An enumeration kept by the spellings of its members. -/
def member? {α : Type} (members : List α) (spelling : α → String) (v : Value) : Option α :=
  v.text?.bind fun s => members.find? fun m => spelling m = s

/-- A column that may be `null`, read by a reader of its other values. -/
def nullable? {α : Type} (read : Value → Option α) : Value → Option (Option α)
  | .null => some none
  | v => (read v).map some

end Value

/-- The range of a signed integer of 32 bits. -/
def InInteger (n : Int) : Prop := -2 ^ 31 ≤ n ∧ n < 2 ^ 31

instance (n : Int) : Decidable (InInteger n) := inferInstanceAs (Decidable (_ ∧ _))

/-- The value a column keeps: out-of-range values are refused, decimals rounded
to the scale of the column. -/
def ColumnType.store : ColumnType → Value → Option Value
  | .string length, .text s => if s.length ≤ length then some (.text s) else none
  | .text, .text s => some (.text s)
  | .integer, .integer n => if InInteger n then some (.integer n) else none
  | .boolean, .boolean b => some (.boolean b)
  | .date, .date d => some (.date d)
  | .numeric precision scale, .decimal q =>
    let r := Decimal.quantize scale q
    if |r| < 10 ^ (precision - scale) then some (.decimal r) else none
  | _, _ => none

/-- A column with the default that an insert uses when it does not name it. -/
structure Column where
  name : String
  type : ColumnType
  nullable : Bool := true
  default : Value := .null
deriving DecidableEq, Repr

def Column.store (c : Column) (v : Value) : Option Value :=
  match v with
  | .null => if c.nullable then some .null else none
  | v => c.type.store v

/-- A row by the names of its columns. -/
abbrev Row := List (String × Value)

/-- A column that the row does not have reads as `null`. -/
def Row.get (row : Row) (name : String) : Value := (row.lookup name).getD .null

/-- The conditions of CHECK constraints. -/
inductive Condition
  | isNull (column : String)
  | isIn (column : String) (values : List String)
  | or (a b : Condition)
deriving DecidableEq, Repr

/-- Truth in three values, `none` for unknown. -/
def Condition.eval (row : Row) : Condition → Option Bool
  | .isNull column => some (row.get column = .null)
  | .isIn column values =>
    match row.get column with
    | .null => none
    | .text s => some (values.contains s)
    | _ => some false
  | .or a b =>
    match a.eval row, b.eval row with
    | some true, _ => some true
    | _, some true => some true
    | some false, some false => some false
    | _, _ => none

/-- A table: its columns in order and its named constraints. -/
structure Table where
  columns : List Column
  checks : List (String × Condition) := []
deriving DecidableEq, Repr

/-- The tables by name. -/
abbrev Schema := List (String × Table)

/-- One operation of a migration. -/
inductive Change
  | createTable (table : String) (columns : List Column) (checks : List (String × Condition))
  | addColumn (table : String) (column : Column)
  | createCheck (name table : String) (condition : Condition)
  | dropConstraint (name table : String)
deriving Repr

/-- Change the tables of that name. -/
def Schema.alter (schema : Schema) (table : String) (f : Table → Table) : Schema :=
  schema.map fun entry => if entry.1 = table then (entry.1, f entry.2) else entry

/-- What one operation of a migration does to the schema. -/
def Change.apply (schema : Schema) : Change → Schema
  | .createTable table columns checks => schema ++ [(table, { columns, checks })]
  | .addColumn table column =>
    schema.alter table fun t => { t with columns := t.columns ++ [column] }
  | .createCheck name table condition =>
    schema.alter table fun t => { t with checks := t.checks ++ [(name, condition)] }
  | .dropConstraint name table =>
    schema.alter table fun t => { t with checks := t.checks.filter fun check => check.1 ≠ name }

/-- The schema that migrations build, each a list of changes. -/
def upgrade (migrations : List (List Change)) : Schema :=
  migrations.flatten.foldl Change.apply []

/-- A constraint refuses only what is false. -/
def Table.Admits (t : Table) (row : Row) : Prop :=
  ∀ check ∈ t.checks, check.2.eval row ≠ some false

instance (t : Table) (row : Row) : Decidable (t.Admits row) :=
  inferInstanceAs (Decidable (∀ check ∈ t.checks, check.2.eval row ≠ some false))

/-- What a column keeps of a written row, its default where the row is silent. -/
def Column.keep (c : Column) (written : Row) : Option (String × Value) :=
  (c.store ((written.lookup c.name).getD c.default)).map fun value => (c.name, value)

/-- The row an insert leaves behind. -/
def Table.insert (t : Table) (written : Row) : Option Row := do
  guard (written.all fun field => t.columns.any fun c => c.name = field.1)
  let row ← t.columns.mapM fun c => c.keep written
  guard (t.Admits row)
  return row

/-- Several rows in one statement: all or none. -/
def Table.insertMany (t : Table) (written : List Row) : Option (List Row) :=
  written.mapM t.insert

/-! ## What columns keep

A column keeps a value it has room for: a text of its length, an integer of 32
bits, a numeral rounded to its scale. -/

section Store

variable {n : Int} {s : String} {q : ℚ} {length precision scale : Nat}

/-- What fits a column is kept as it is, up to the rounding of decimals. -/
theorem store_text (h : s.length ≤ length) :
    (ColumnType.string length).store (.text s) = some (.text s) := if_pos h

theorem store_integer (h : InInteger n) :
    ColumnType.integer.store (.integer n) = some (.integer n) := if_pos h

theorem store_numeric (h : |Decimal.quantize scale q| < 10 ^ (precision - scale)) :
    (ColumnType.numeric precision scale).store (.decimal q) =
      some (.decimal (Decimal.quantize scale q)) := if_pos h

/-- A column refuses what is out of its range. -/
theorem inInteger_of_store {v : Value} (h : ColumnType.integer.store (.integer n) = some v) :
    InInteger n := by
  by_contra hn
  rw [show ColumnType.integer.store (.integer n) = none from if_neg hn] at h
  cases h

theorem numeric_of_store {v : Value}
    (h : (ColumnType.numeric precision scale).store (.decimal q) = some v) :
    |Decimal.quantize scale q| < 10 ^ (precision - scale) := by
  by_contra hn
  rw [show (ColumnType.numeric precision scale).store (.decimal q) = none from if_neg hn] at h
  cases h

end Store

/-- The type of the column decides on any value but `null`. -/
theorem Column.store_value {c : Column} {v : Value} (h : v ≠ .null) :
    c.store v = c.type.store v := by
  cases v with
  | null => exact absurd rfl h
  | _ => rfl

/-- A nullable column keeps `null` and whatever its type keeps. -/
theorem Column.store_ofOption {α : Type} {c : Column} {f : α → Value} {o : Option α}
    (hnull : c.nullable = true) (hf : ∀ x, f x ≠ .null)
    (h : ∀ x ∈ o, c.type.store (f x) = some (f x)) :
    c.store (.ofOption f o) = some (.ofOption f o) := by
  cases o with
  | none => exact if_pos hnull
  | some x => exact (store_value (hf x)).trans (h x rfl)

theorem inInteger_of_store_ofOption {c : Column} {o : Option Int} {v : Value}
    (hc : c.type = .integer) (h : c.store (.ofOption .integer o) = some v) {n : Int}
    (hn : n ∈ o) : InInteger n := by
  have hstore : c.type.store (.integer n) = some v := by
    rw [Option.mem_def.mp hn] at h
    exact h
  rw [hc] at hstore
  exact inInteger_of_store hstore

/-- Reading a nullable column gives back what was written. -/
theorem nullable?_ofOption {α : Type} (f : α → Value) (read : Value → Option α)
    (hf : ∀ x, f x ≠ .null) (h : ∀ x, read (f x) = some x) (o : Option α) :
    Value.nullable? read (.ofOption f o) = some o := by
  cases o with
  | none => rfl
  | some x =>
    show Value.nullable? read (f x) = some (some x)
    have hread := h x
    have hvalue := hf x
    cases hfx : f x with
    | null => exact absurd hfx hvalue
    | _ =>
      rw [hfx] at hread
      exact congrArg (Option.map some) hread

/-! ## What constraints allow -/

theorem eval_isIn {row : Row} {column s : String} {values : List String}
    (h : row.get column = .text s) :
    (Condition.isIn column values).eval row = some (values.contains s) := by
  simp only [Condition.eval]
  rw [h]

theorem eval_optional {α : Type} {row : Row} {column : String} {values : List String}
    (spelling : α → String) {o : Option α}
    (h : row.get column = .ofOption (fun x => .text (spelling x)) o) :
    (Condition.or (.isNull column) (.isIn column values)).eval row =
      some (o.all fun x => values.contains (spelling x)) := by
  simp only [Condition.eval]
  rw [h]
  cases o with
  | none => rfl
  | some x =>
    simp only [Value.ofOption, Option.elim_some, Option.all_some]
    cases values.contains (spelling x) <;> rfl

/-! ## Inserts -/

/-- All results of a list that is computed element by element. -/
theorem mapM_eq_some {α β : Type} {f : α → Option β} {xs : List α} {ys : List β} :
    xs.mapM f = some ys ↔ List.Forall₂ (fun x y => f x = some y) xs ys := by
  induction xs generalizing ys with
  | nil =>
    rw [List.forall₂_nil_left_iff]
    exact ⟨fun h => (Option.some.inj h).symm, fun h => h ▸ rfl⟩
  | cons x xs ih =>
    rw [List.mapM_cons, List.forall₂_cons_left_iff]
    constructor
    · intro h
      obtain ⟨y, hy, h⟩ := Option.bind_eq_some_iff.mp h
      obtain ⟨rest, hrest, h⟩ := Option.bind_eq_some_iff.mp h
      cases h
      exact ⟨y, rest, hy, ih.mp hrest, rfl⟩
    · rintro ⟨y, rest, hy, hrest, rfl⟩
      exact Option.bind_eq_some_iff.mpr
        ⟨y, hy, Option.bind_eq_some_iff.mpr ⟨rest, ih.mpr hrest, rfl⟩⟩

/-- A kept field has the name of its column and the stored value. -/
theorem keep_eq_some {c : Column} {written : Row} {field : String × Value} :
    c.keep written = some field ↔
      field.1 = c.name ∧ c.store ((written.lookup c.name).getD c.default) = some field.2 := by
  unfold Column.keep
  rw [Option.map_eq_some_iff]
  constructor
  · rintro ⟨v, hv, rfl⟩
    exact ⟨rfl, hv⟩
  · rintro ⟨hname, hv⟩
    exact ⟨field.2, hv, by rw [← hname]⟩

/-- What a row keeps is determined by what was written. -/
theorem kept_unique {columns : List Column} {written row row' : Row}
    (h : List.Forall₂ (fun c field => c.keep written = some field) columns row)
    (h' : List.Forall₂ (fun c field => c.keep written = some field) columns row') : row = row' :=
  Option.some.inj ((mapM_eq_some.mpr h).symm.trans (mapM_eq_some.mpr h'))

/-- An insert goes through exactly when it names columns of the table only,
every column keeps its value and no constraint is false. -/
theorem Table.insert_eq_some {t : Table} {written row : Row} :
    t.insert written = some row ↔
      (written.all fun field => t.columns.any fun c => c.name = field.1) = true ∧
        List.Forall₂ (fun c field => c.keep written = some field) t.columns row ∧
        t.Admits row := by
  unfold Table.insert
  rw [← mapM_eq_some]
  constructor
  · intro h
    obtain ⟨_, hnames, h⟩ := Option.bind_eq_some_iff.mp h
    obtain ⟨kept, hkept, h⟩ := Option.bind_eq_some_iff.mp h
    obtain ⟨_, hadmits, h⟩ := Option.bind_eq_some_iff.mp h
    cases h
    exact ⟨(Option.guard_eq_some' _).mp hnames, hkept, (Option.guard_eq_some' _).mp hadmits⟩
  · rintro ⟨hnames, hkept, hadmits⟩
    refine Option.bind_eq_some_iff.mpr ⟨(), (Option.guard_eq_some' _).mpr hnames, ?_⟩
    refine Option.bind_eq_some_iff.mpr ⟨row, hkept, ?_⟩
    exact Option.bind_eq_some_iff.mpr ⟨(), (Option.guard_eq_some' _).mpr hadmits, rfl⟩

/-- Every column of an inserted row could keep its value. -/
theorem Table.store_of_insert {t : Table} {written row : Row} (h : t.insert written = some row)
    {c : Column} (hc : c ∈ t.columns) :
    ∃ v, c.store ((written.lookup c.name).getD c.default) = some v := by
  obtain ⟨-, hkept, -⟩ := insert_eq_some.mp h
  clear h
  generalize t.columns = columns at hkept hc
  induction hkept with
  | nil => cases hc
  | cons hfield _ ih =>
    rcases List.mem_cons.mp hc with rfl | hc
    · exact ⟨_, (keep_eq_some.mp hfield).2⟩
    · exact ih hc

/-- Rows that are each stored in one way are stored together in that way. -/
theorem Table.insertMany_map {α : Type} {t : Table} {written kept : α → Row} {P : α → Prop}
    (h : ∀ x row, t.insert (written x) = some row ↔ P x ∧ row = kept x) {xs : List α}
    {rows : List Row} :
    t.insertMany (xs.map written) = some rows ↔ (∀ x ∈ xs, P x) ∧ rows = xs.map kept := by
  unfold insertMany
  rw [mapM_eq_some, List.forall₂_map_left_iff]
  constructor
  · intro hall
    induction hall with
    | nil => exact ⟨fun x hx => absurd hx List.not_mem_nil, rfl⟩
    | cons hrow _ ih =>
      obtain ⟨hx, rfl⟩ := (h _ _).mp hrow
      obtain ⟨hxs, rfl⟩ := ih
      exact ⟨List.forall_mem_cons.mpr ⟨hx, hxs⟩, rfl⟩
  · rintro ⟨hxs, rfl⟩
    rw [List.forall₂_map_right_iff, List.forall₂_same]
    exact fun x hx => (h _ _).mpr ⟨hxs x hx, rfl⟩

end Sql
