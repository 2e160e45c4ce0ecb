import QuantyDb.SqliteScan
import QuantyDb.SqliteDdl
import QuantyDb.WalModel

/-! # The schema of a SQLite file, and what its tables hold

    The schema is a table on page 1: the kind of an object, its name, the
    table it belongs to, the page it starts on and the statement that made it.
    From the statement of a table follows which value of a record is which of
    its columns, and a survey counts what the columns hold. -/

namespace QuantySqlite

open QuantyPage Outcome PageWalk
open QuantyTokens (isWhitespace trim)

/-- How a text and a float are shown in an error. -/
structure Shows where
  text : String → String
  real : UInt64 → String

/-- `{:?}`. -/
def SqliteValue.debug (shows : Shows) : SqliteValue → String
  | .null => "Null"
  | .integer i => "Integer(" ++ toString i ++ ")"
  | .real bits => "Real(" ++ shows.real bits ++ ")"
  | .text s => "Text(" ++ shows.text s ++ ")"
  | .blob b => "Blob(" ++ debugBytes b ++ ")"

/-! ## The schema table -/

inductive ObjectKind
  | table | index | view | trigger
  deriving DecidableEq, Repr

namespace ObjectKind

def parse (shows : Shows) (text : String) : Result ObjectKind :=
  if text = "table" then .ok .table
  else if text = "index" then .ok .index
  else if text = "view" then .ok .view
  else if text = "trigger" then .ok .trigger
  else .error (.malformed (some 1)
    ("the schema holds an object of unknown kind " ++ shows.text text))

def asStr : ObjectKind → String
  | .table => "table"
  | .index => "index"
  | .view => "view"
  | .trigger => "trigger"

end ObjectKind

/-- One row of the schema table. -/
structure SchemaObject where
  kind : ObjectKind
  name : String
  tableName : String
  rootPage : Option Nat
  sql : Option String
  deriving DecidableEq, Repr

structure Schema where
  objects : List SchemaObject
  deriving DecidableEq, Repr

def textColumn (value : SqliteValue) (column : String) : Result String :=
  match value with
  | .text t => .ok t
  | other => .error (.malformed (some 1)
      ("a schema row's " ++ column ++ " is " ++ other.typeName ++ ", not text"))

namespace Schema

def kindOf (shows : Shows) (value : SqliteValue) : Result ObjectKind :=
  match value with
  | .text t => ObjectKind.parse shows t
  | other => .error (.malformed (some 1)
      ("a schema row's kind is " ++ other.typeName ++ ", not text"))

/-- The page of a row: nothing and 0 both say that there is none. -/
def rootPageOf (shows : Shows) (name : String) (pageCount : Nat) (value : SqliteValue) :
    Result (Option Nat) :=
  let outside : Error := .malformed (some 1) (name ++ " has root page " ++ value.debug shows
    ++ ", outside the file's 1..=" ++ toString pageCount)
  match value with
  | .null => .ok none
  | .integer n =>
      if n = 0 then .ok none
      else if 0 < n ∧ n ≤ pageCount then .ok (some n.toNat)
      else .error outside
  | _ => .error outside

def sqlOf (name : String) (value : SqliteValue) : Result (Option String) :=
  match value with
  | .null => .ok none
  | .text t => .ok (some t)
  | other => .error (.malformed (some 1)
      (name ++ " has a " ++ other.typeName ++ " statement, not text"))

/-- One row of the loop of `from_rows`. -/
def fromRow (shows : Shows) (pageCount : Nat) (values : List SqliteValue) :
    Result SchemaObject := do
  let _ ← refuse (values.length ≠ 5) (Error.malformed (some 1) ("a schema row has "
    ++ toString values.length ++ " columns, the schema table has five"))
  let kind ← kindOf shows (← nth values 0)
  let name ← textColumn (← nth values 1) "name"
  let tableName ← textColumn (← nth values 2) "tbl_name"
  let rootPage ← rootPageOf shows name pageCount (← nth values 3)
  let _ ← refuse (rootPage = none ∧ (kind = .table ∨ kind = .index)) (Error.malformed (some 1)
    ("the " ++ kind.asStr ++ " " ++ name ++ " has no root page"))
  let sql ← sqlOf name (← nth values 4)
  return ⟨kind, name, tableName, rootPage, sql⟩

def fromRows (shows : Shows) (pageCount : Nat) :
    List (List SqliteValue) → Result (List SchemaObject)
  | [] => .ok []
  | values :: rows => do
      let object ← fromRow shows pageCount values
      let objects ← fromRows shows pageCount rows
      return object :: objects

end Schema

/-- `table_def`. -/
def SchemaObject.tableDef (shows : Shows) (o : SchemaObject) : Result TableDef :=
  if o.kind ≠ .table then
    .error (.unsupported (o.name ++ " is a " ++ o.kind.asStr ++ ", not a table"))
  else
    match o.sql with
    | some sql => Ddl.parseCreateTable shows.text sql
    | none => .error (.malformed (some 1) ("the table " ++ o.name ++ " has no create statement"))

/-- `schema`. -/
def Reader.schema (shows : Shows) (r : Reader) : Result Schema := do
  let scan ← TableScan.new r 1
  let rows ← forEach .outOfFuel ((TableScan.iter r).next .outOfFuel r.rounds)
    (fun rows row => .ok (rows ++ [row.values])) (r.rounds + 1) scan []
  let objects ← Schema.fromRows shows r.pageCount rows
  return ⟨objects⟩

/-! ## Types -/

inductive StorageClass
  | null | integer | real | text | blob
  deriving DecidableEq, Repr

def StorageClass.of : SqliteValue → StorageClass
  | .null => .null
  | .integer _ => .integer
  | .real _ => .real
  | .text _ => .text
  | .blob _ => .blob

inductive Affinity
  | integer | text | blob | real | numeric
  deriving DecidableEq, Repr

namespace Affinity

/-- `contains`. -/
def has (text : List Char) (word : String) : Bool := text.tails.any word.toList.isPrefixOf

/-- The five rules, in their order. -/
def of (declaredType : Option String) : Affinity :=
  match declaredType with
  | none => .blob
  | some declared =>
      let upper := declared.toList.map Char.toUpper
      if has upper "INT" then .integer
      else if has upper "CHAR" || has upper "CLOB" || has upper "TEXT" then .text
      else if has upper "BLOB" || (trim upper).isEmpty then .blob
      else if has upper "REAL" || has upper "FLOA" || has upper "DOUB" then .real
      else .numeric

/-- A whole number in a real column is a float that is written shorter. -/
def logicalClass (a : Affinity) (value : SqliteValue) : StorageClass :=
  match a, StorageClass.of value with
  | .real, .integer => .real
  | _, stored => stored

end Affinity

/-! ## Which value is which column -/

/-- A column's value in a row. -/
inductive MappedCell
  | value (v : SqliteValue)
  | rowid (i : Int)
  | missing
  | virtual
  deriving DecidableEq, Repr

/-- `l[i] = a`. -/
def setNth {α : Type} (l : List α) (i : Nat) (a : α) : Result (List α) :=
  if i < l.length then .ok (l.set i a) else .error (.panic "index out of bounds")

namespace RowLayout

/-- Where the value of a column is. -/
inductive Slot
  | stored (position : Nat)
  | rowidAlias (position : Nat)
  | virtual
  deriving DecidableEq, Repr

/-- The positions of the columns of a table with rowids. -/
def positions (aliased : Option String) : List ColumnDef → Nat → Result (List Slot)
  | [], _ => .ok []
  | c :: columns, position =>
      if c.generated.isVirtual then do
        let slots ← positions aliased columns position
        return .virtual :: slots
      else do
        let isAlias := aliased.any fun a => eqIgnoreAsciiCase a c.name
        let following ← plus position 1
        let slots ← positions aliased columns following
        return (if isAlias then .rowidAlias position else .stored position) :: slots

/-- An index behind others, once. -/
def pushNew (order : List Nat) (i : Nat) : List Nat := if i ∈ order then order else order ++ [i]

/-- The columns in the order of a record of a table without rowids: the key
    first. -/
def recordOrder (d : TableDef) : List Nat :=
  let key := d.primaryKey.filterMap fun k => d.columnIndex k.name
  (List.range d.columns.length).foldl pushNew (key.foldl pushNew [])

/-- Hand out positions in the order of the record. -/
def handOut (d : TableDef) : List Nat → Nat → List Slot → Result (List Slot)
  | [], _, slots => .ok slots
  | i :: order, position, slots => do
      let c ← nth d.columns i
      if c.generated.isVirtual then handOut d order position slots
      else
        let slots ← setNth slots i (.stored position)
        let following ← plus position 1
        handOut d order following slots

end RowLayout

structure RowLayout where
  slots : List RowLayout.Slot
  deriving DecidableEq, Repr

namespace RowLayout

/-- `keyed`. -/
def keyed (d : TableDef) : Result RowLayout := do
  let slots ← handOut d (recordOrder d) 0 (List.replicate d.columns.length .virtual)
  return ⟨slots⟩

def new (d : TableDef) : Result RowLayout :=
  if d.withoutRowid then keyed d
  else do
    let aliased ← d.rowidAlias
    let slots ← positions (aliased.map ColumnDef.name) d.columns 0
    return ⟨slots⟩

/-- The value at a position of a record. -/
def stored (row : Row) (position : Nat) : MappedCell :=
  match row.values[position]? with
  | some value => .value value
  | none => .missing

/-- `cell`. -/
def cell (layout : RowLayout) (row : Row) (i : Nat) : MappedCell :=
  match layout.slots[i]? with
  | none => .missing
  | some .virtual => .virtual
  | some (.rowidAlias position) =>
      match row.rowid with
      | some rowid => .rowid rowid
      | none => stored row position
  | some (.stored position) => stored row position

end RowLayout

/-! ## Surveys -/

structure ColumnSurvey where
  name : String
  declaredType : Option String
  affinity : Affinity
  nulls : Nat
  integers : Nat
  reals : Nat
  texts : Nat
  blobs : Nat
  missing : Nat
  largestInteger : Nat
  longestValue : Nat
  isRowidAlias : Bool
  isVirtual : Bool
  deriving DecidableEq, Repr

structure TableSurvey where
  name : String
  rows : Nat
  columns : List ColumnSurvey
  primaryKey : List String
  withoutRowid : Bool
  largestRowid : Int
  deriving DecidableEq, Repr

namespace ColumnSurvey

def of (aliased : Option ColumnDef) (c : ColumnDef) : ColumnSurvey where
  name := c.name
  declaredType := c.declaredType
  affinity := Affinity.of c.declaredType
  nulls := 0
  integers := 0
  reals := 0
  texts := 0
  blobs := 0
  missing := 0
  largestInteger := 0
  longestValue := 0
  isRowidAlias := aliased.any fun a => eqIgnoreAsciiCase a.name c.name
  isVirtual := c.generated.isVirtual

/-- One value more of a class. -/
def count (s : ColumnSurvey) : StorageClass → Result ColumnSurvey
  | .null => do return { s with nulls := ← plus s.nulls 1 }
  | .integer => do return { s with integers := ← plus s.integers 1 }
  | .real => do return { s with reals := ← plus s.reals 1 }
  | .text => do return { s with texts := ← plus s.texts 1 }
  | .blob => do return { s with blobs := ← plus s.blobs 1 }

def magnitude : SqliteValue → Nat
  | .integer n => n.natAbs
  | _ => 0

/-- The bytes of a text or blob. -/
def lengthOf : SqliteValue → Nat
  | .text t => t.utf8ByteSize
  | .blob b => b.length
  | _ => 0

/-- A column's cell of one row. -/
def add (s : ColumnSurvey) : MappedCell → Result ColumnSurvey
  | .virtual => .ok s
  | .missing => do return { s with missing := ← plus s.missing 1 }
  | .rowid rowid => do
      return { s with
        integers := ← plus s.integers 1
        largestInteger := max s.largestInteger rowid.natAbs }
  | .value v =>
      { s with
        largestInteger := max s.largestInteger (magnitude v)
        longestValue := max s.longestValue (lengthOf v) }.count (s.affinity.logicalClass v)

/-- The cells of one row. -/
def addRow (layout : RowLayout) (row : Row) : List ColumnSurvey → Nat → Result (List ColumnSurvey)
  | [], _ => .ok []
  | s :: columns, i => do
      let s ← s.add (layout.cell row i)
      let columns ← addRow layout row columns (i + 1)
      return s :: columns

end ColumnSurvey

/-- What a survey keeps of the rows so far. -/
structure Tally where
  rows : Nat
  largestRowid : Int
  columns : List ColumnSurvey

/-- One row of the loop of `survey_table`. -/
def Tally.row (layout : RowLayout) (t : Tally) (row : Row) : Result Tally := do
  let rows ← plus t.rows 1
  let columns ← ColumnSurvey.addRow layout row t.columns 0
  return ⟨rows, max t.largestRowid (row.rowid.getD 0), columns⟩

/-- `survey_table`. -/
def Reader.surveyTable (shows : Shows) (r : Reader) (o : SchemaObject) : Result TableSurvey := do
  let d ← o.tableDef shows
  let layout ← RowLayout.new d
  let aliased ← d.rowidAlias
  match o.rootPage with
  | none => throw (.malformed (some 1) ("the table " ++ o.name ++ " has no root page"))
  | some root => do
      let rows ← r.rows root
      let t ← forEach .outOfFuel (Rows.next r r.rounds) (Tally.row layout) (r.rounds + 1) rows
        ⟨0, 0, d.columns.map (ColumnSurvey.of aliased)⟩
      return ⟨d.name, t.rows, t.columns, d.primaryKey.map KeyColumn.name, d.withoutRowid,
        t.largestRowid⟩

end QuantySqlite
