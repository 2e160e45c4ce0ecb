import QuantyDb.AstModel
import QuantyDb.BlobModel

/-! # Table definitions and the catalog

    A table definition is checked once, when the table is made, and kept in the
    catalog as bytes: a version, the table's id and name, and one record per
    column.  A definition is written at the lowest version that can express it.
    Lengths and counts are written with casts, two bytes for a name and for the
    number of columns, four for a default.

    The statements that store a definition are modelled on the catalog.  What
    they do to the data tree, filling an index or clearing it, is a parameter
    that may fail (`DataTree`), since nothing of it reaches the definition. -/

namespace QuantyCatalog

open QuantyKey QuantyPage QuantyEncoding QuantyAst QuantyBlob LittleEndian

/-! ## What a column accepts -/

/-- `i64 as f64`, with a float as its bits. -/
structure Floats where
  ofInt : Int64 → UInt64

/-- The doubles of the host, for what is run on fixed inputs. -/
def hostFloats : Floats := ⟨fun i => (Float.ofInt i.toInt).toBits⟩

def typeOf : Value → String
  | .null => "null"
  | .bool _ => "bool"
  | .int _ => "int"
  | .float _ => "float"
  | .text _ => "text"
  | .bytes _ => "bytes"

/-- Fit a value into a column. -/
def coerce (F : Floats) (v : Value) (ty : TypeName) (nullable : Bool) : Except ExecError Value :=
  match v, ty with
  | .null, _ =>
      if nullable then .ok .null else .error (.exec "null in a column that is not @null")
  | .int _, .int => .ok v
  | .int i, .float => .ok (.float (F.ofInt i))
  | .float _, .float => .ok v
  | .text _, .text => .ok v
  | .bytes _, .bytes => .ok v
  | .bytes d, .asset =>
      match BlobRef.decode d with
      | .ok _ => .ok v
      | .error _ =>
          .error (.exec "an asset column takes a blob descriptor, and this is not one")
  | .bool _, .bool => .ok v
  | _, _ =>
      .error (.exec ("a " ++ typeOf v ++ " value does not fit into a column of type " ++ ty.asStr))

/-! ## Tables -/

structure Column where
  name : String
  ty : TypeName
  nullable : Bool
  key : Bool
  indexId : Option UInt64
  textIndexId : Option UInt64
  default : Option Value
  deriving DecidableEq, Repr

structure Table where
  id : UInt64
  name : String
  columns : List Column
  deriving DecidableEq, Repr

namespace Table

/-- Positions of the primary key columns, in declaration order. -/
def keyPositions (t : Table) : List Nat :=
  (List.range t.columns.length).filter (fun i => (t.columns[i]?).any Column.key)

def columnPosition (t : Table) (name : String) : Option Nat :=
  t.columns.findIdx? (fun c => c.name == name)

end Table

/-! ## Definitions -/

section
variable (F : Floats)

/-- `Display` of an error of `coerce`, which is never a storage error. -/
def reason (e : ExecError) : String := e.show ""

/-- The column a definition describes. -/
def columnFromAst (col : ColumnDef) (default : Option Value) : Column :=
  ⟨col.name, col.ty, col.nullable, col.key, none, none, default⟩

/-- The loop of `from_ast`, over the columns that are done. -/
def columnsFromAst (table : String) : List ColumnDef → List Column →
    Except ExecError (List Column)
  | [], done => .ok done
  | col :: rest, done =>
      if done.any (fun c => c.name == col.name) then
        .error (.plan ("column '" ++ col.name ++ "' is defined twice in table '" ++ table ++ "'"))
      else if col.key && col.nullable then
        .error (.plan ("key column '" ++ col.name ++ "' cannot be @null"))
      else
        match col.default with
        | none => columnsFromAst table rest (done ++ [columnFromAst col none])
        | some v =>
            match coerce F v col.ty col.nullable with
            | .error e =>
                .error (.plan ("default for column '" ++ col.name ++ "': " ++ reason e))
            | .ok v => columnsFromAst table rest (done ++ [columnFromAst col (some v)])

/-- `Table::from_ast`. -/
def Table.fromAst (d : TableDef) (id : UInt64) : Except ExecError Table := do
  let columns ← columnsFromAst F d.name d.columns []
  let table : Table := ⟨id, d.name, columns⟩
  if table.keyPositions.isEmpty then
    .error (.plan ("table '" ++ d.name ++ "' needs at least one @key column"))
  else return table

end

/-! ## Writing -/

def CATALOG_V1 : Nat := 1
def CATALOG_V2 : Nat := 2
def CATALOG_V3 : Nat := 3

def typeTag : TypeName → UInt8
  | .int => 0
  | .float => 1
  | .text => 2
  | .bytes => 3
  | .bool => 4
  | .asset => 5

/-- The lowest catalog version that knows this tag. -/
def versionFor : TypeName → Nat
  | .asset => CATALOG_V2
  | _ => CATALOG_V1

def typeFromTag (tag : UInt8) : Option TypeName :=
  if tag = 0 then some .int
  else if tag = 1 then some .float
  else if tag = 2 then some .text
  else if tag = 3 then some .bytes
  else if tag = 4 then some .bool
  else if tag = 5 then some .asset
  else none

/-- `put_str`: the length as `u16`, and the bytes. -/
def putStr (s : String) : Bytes := le 2 (asBytes s).length ++ asBytes s

/-- The version that a column asks for. -/
def Column.version (c : Column) : Nat :=
  if c.textIndexId.isSome then CATALOG_V3 else versionFor c.ty

def Column.flags (c : Column) : UInt8 :=
  (if c.key then 1 else 0) ||| (if c.nullable then 2 else 0)

def putDefault : Option Value → Bytes
  | some v => 1 :: (le 4 (encodeKey [v]).length ++ (encodeKey [v]).bytes)
  | none => [0]

/-- One column of `serialize`. -/
def putColumn (version : Nat) (c : Column) : Bytes :=
  putStr c.name ++ (typeTag c.ty :: c.flags :: (le 8 (c.indexId.getD 0).toNat
    ++ ((if CATALOG_V3 ≤ version then le 8 (c.textIndexId.getD 0).toNat else [])
    ++ putDefault c.default)))

def Table.version (t : Table) : Nat := ((t.columns.map Column.version).max?).getD CATALOG_V1

def Table.serialize (t : Table) : Bytes :=
  UInt8.ofNat t.version :: (le 8 t.id.toNat ++ (putStr t.name
    ++ (le 2 t.columns.length ++ t.columns.flatMap (putColumn t.version))))

/-! ## Reading -/

/-- `Reader`, as what is left to read. -/
abbrev Reader := StateT Bytes (Except ExecError)

def BAD : ExecError := .exec "catalog entry does not deserialize, this is a bug"

namespace Reader

def bytes (n : Nat) : Reader Bytes := fun buf =>
  if n ≤ buf.length then .ok (buf.take n, buf.drop n) else .error BAD

def number (w : Nat) : Reader Nat := do
  return ofLe (← bytes w)

def u8 : Reader UInt8 := do
  return UInt8.ofNat (← number 1)

def u64 : Reader UInt64 := do
  return UInt64.ofNat (← number 8)

def str : Reader String := do
  let len ← number 2
  match fromUtf8 (← bytes len) with
  | .ok s => return s
  | .error _ => throw BAD

/-- The id zero stands for none. -/
def id : Reader (Option UInt64) := do
  let id ← u64
  return if id ≠ 0 then some id else none

/-- The id of a text index, which only the third version has a place for. -/
def textId (version : Nat) : Reader (Option UInt64) :=
  if CATALOG_V3 ≤ version then id else pure none

def ty : Reader TypeName := do
  match typeFromTag (← u8) with
  | some ty => return ty
  | none => throw BAD

def default : Reader (Option Value) := do
  let tag ← u8
  if tag = 0 then return none
  else if tag = 1 then
    let len ← number 4
    let enc ← bytes len
    match decodeKey enc with
    | .error _ => throw (.exec "catalog default does not decode")
    | .ok [v] => return some v
    | .ok _ => throw BAD
  else throw BAD

/-- One turn of the loop of `deserialize`. -/
def column (version : Nat) : Reader Column := do
  let name ← str
  let ty ← ty
  let flags ← u8
  let indexId ← id
  let textIndexId ← textId version
  let default ← default
  return ⟨name, ty, flags &&& 2 ≠ 0, flags &&& 1 ≠ 0, indexId, textIndexId, default⟩

def columns (version : Nat) : Nat → Reader (List Column)
  | 0 => return []
  | n + 1 => do
      let c ← column version
      return c :: (← columns version n)

def table : Reader Table := do
  let version ← u8
  if version.toNat ≠ CATALOG_V1 ∧ version.toNat ≠ CATALOG_V2 ∧ version.toNat ≠ CATALOG_V3 then
    throw (.exec "catalog entry has an unknown version")
  else
    let id ← u64
    let name ← str
    let ncols ← number 2
    let columns ← columns version.toNat ncols
    return ⟨id, name, columns⟩

end Reader

def Table.deserialize (buf : Bytes) : Except ExecError Table := do
  let (table, rest) ← Reader.table buf
  if rest.length ≠ 0 then .error BAD else return table

/-! ## Statements that store a definition -/

def tableKey (name : String) : Key := encodeKey [.text "table", .text name]

def seqKey : Key := encodeKey [.text "seq"]

/-- What `index` and `drop index` do to the data tree: fill an index from the
    rows, and clear the range of one. -/
structure DataTree where
  fill : Table → Nat → UInt64 → Bool → Except ExecError Unit
  clear : UInt64 → Except ExecError Unit

section
variable (F : Floats) (data : DataTree) (pageSize : Nat)

/-- `catalog_put`, its error as the executor hands it on. -/
def put (c : Catalog) (key : Key) (value : Bytes) : Except ExecError Catalog :=
  (catalogPut pageSize c key value).mapError .storage

def storeTable (c : Catalog) (t : Table) : Except ExecError Catalog :=
  put pageSize c (tableKey t.name) t.serialize

def loadTable (c : Catalog) (name : String) : Except ExecError Table :=
  match catalogGet pageSize c (tableKey name) with
  | some bytes => Table.deserialize bytes
  | none => .error (.plan ("no table named '" ++ name ++ "'"))

/-- The next object id.  The counter is a `u64` and wraps. -/
def allocId (c : Catalog) : Except ExecError (UInt64 × Catalog) := do
  let next ← match catalogGet pageSize c seqKey with
    | none => pure 1
    | some bytes =>
        if bytes.length = 8 then pure (UInt64.ofNat (ofLe bytes))
        else throw (.exec "broken id counter")
  return (next, ← put pageSize c seqKey (le 8 (next + 1).toNat))

/-- The loop of `create_table` over the columns: ids for what is indexed. -/
def allocColumns : List ColumnDef → List Column → Catalog →
    Except ExecError (List Column × Catalog)
  | d :: ds, col :: cols, c => do
      let (col, c) ← if d.index then do
          let (id, c) ← allocId pageSize c
          pure ({ col with indexId := some id }, c)
        else pure (col, c)
      let (col, c) ← if d.text then
          if col.ty ≠ .text then
            throw (.plan ("'@text' wants a text column, and '" ++ col.name ++ "' is "
              ++ col.ty.asStr))
          else do
            let (id, c) ← allocId pageSize c
            pure ({ col with textIndexId := some id }, c)
        else pure (col, c)
      let (cols, c) ← allocColumns ds cols c
      return (col :: cols, c)
  | _, cols, c => .ok (cols, c)

/-- `create_table`, up to the definition it stores. -/
def defineTable (d : TableDef) (c : Catalog) : Except ExecError (Table × Catalog) := do
  if (catalogGet pageSize c (tableKey d.name)).isSome then
    throw (.plan ("table '" ++ d.name ++ "' already exists"))
  let (id, c) ← allocId pageSize c
  let table ← Table.fromAst F d id
  let (columns, c) ← allocColumns pageSize d.columns table.columns c
  return ({ table with columns := columns }, c)

/-- The index of a column, of either kind. -/
def Column.index (col : Column) (text : Bool) : Option UInt64 :=
  if text then col.textIndexId else col.indexId

def Column.setIndex (col : Column) (text : Bool) (id : Option UInt64) : Column :=
  if text then { col with textIndexId := id } else { col with indexId := id }

/-- The column a statement names, and where it is. -/
def columnOf (t : Table) (table column : String) : Except ExecError (Nat × Column) :=
  match t.columnPosition column with
  | none => .error (.plan ("table '" ++ table ++ "' has no column '" ++ column ++ "'"))
  | some pos =>
      match t.columns[pos]? with
      | none => .error (.storage (.panic "index out of bounds"))
      | some col => .ok (pos, col)

/-- `create_index`, up to the definition it stores. -/
def defineIndex (table column : String) (text : Bool) (c : Catalog) :
    Except ExecError (Table × Catalog) := do
  let t ← loadTable pageSize c table
  let (pos, col) ← columnOf t table column
  if (col.index text).isSome then
    throw (.plan ("'" ++ table ++ "." ++ column
      ++ (if text then "' already has a text index" else "' is already indexed")))
  if text ∧ col.ty ≠ .text then
    throw (.plan ("a text index wants a text column, and '" ++ column ++ "' is " ++ col.ty.asStr))
  let (id, c) ← allocId pageSize c
  let t := { t with columns := t.columns.set pos (col.setIndex text (some id)) }
  data.fill t pos id text
  return (t, c)

/-- `drop_index`, up to the definition it stores. -/
def undefineIndex (table column : String) (text : Bool) (c : Catalog) :
    Except ExecError (Table × Catalog) := do
  let t ← loadTable pageSize c table
  let (pos, col) ← columnOf t table column
  match col.index text with
  | none =>
      throw (.plan ("'" ++ table ++ "." ++ column
        ++ (if text then "' has no text index" else "' is not indexed")))
  | some id =>
      data.clear id
      return ({ t with columns := t.columns.set pos (col.setIndex text none) }, c)

/-- A statement that stores a definition. -/
inductive Ddl
  | table (d : TableDef)
  | index (table column : String) (text : Bool)
  | dropIndex (table column : String) (text : Bool)

/-- The definition that a statement hands to `store_table`. -/
def Ddl.define (c : Catalog) : Ddl → Except ExecError (Table × Catalog)
  | .table d => defineTable F pageSize d c
  | .index tab col text => defineIndex data pageSize tab col text c
  | .dropIndex tab col text => undefineIndex data pageSize tab col text c

/-- The whole statement: the catalog after it. -/
def Ddl.run (c : Catalog) (s : Ddl) : Except ExecError Catalog := do
  let (t, c) ← s.define F data pageSize c
  storeTable pageSize c t

end

end QuantyCatalog
