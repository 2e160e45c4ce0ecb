import QuantyDb.KeyEncoding

/-! # Statements

    The statements that both front ends build, as far as a session, the database
    and the catalog look into them, and what running one gives back: an output,
    or one of four kinds of error.

    The text of an operating system error is not fixed by the engine, so it is
    a parameter of `Display`. -/

namespace QuantyAst

open QuantyKey QuantyPage QuantyEncoding

/-! ## Statements -/

inductive TypeName
  | int | float | text | bytes | bool | asset
  deriving DecidableEq, Repr

/-- `TypeName::as_str`. -/
def TypeName.asStr : TypeName → String
  | .int => "int"
  | .float => "float"
  | .text => "text"
  | .bytes => "bytes"
  | .bool => "bool"
  | .asset => "asset"

structure ColumnDef where
  name : String
  ty : TypeName
  nullable : Bool
  key : Bool
  index : Bool
  text : Bool
  default : Option Value
  deriving DecidableEq, Repr

structure TableDef where
  name : String
  columns : List ColumnDef
  deriving DecidableEq, Repr

inductive AsOf
  | commit (id : UInt64)
  | time (t : UInt64)
  deriving DecidableEq, Repr

/-- What only the language reads of a statement, as it was written: rows,
    conditions, assignments, joins, projections. -/
abbrev Clauses := String

structure Get where
  asOf : Option AsOf
  clauses : Clauses
  deriving DecidableEq, Repr

inductive Statement
  | tableDef (d : TableDef)
  | dropTable (name : String)
  | put (table : String) (rows : Clauses)
  | get (g : Get)
  | set (table : String) (clauses : Clauses)
  | del (table : String) (filter : Clauses)
  | dropIndex (table column : String) (text : Bool)
  | indexDef (table column : String) (text : Bool)
  | showTables
  | branch (name : String) (at_ : Option UInt64)
  | switch (name : String)
  | merge (name : String)
  | dropBranch (name : String)
  | showBranches
  | showStats
  | showSuggestions
  | log
  | gc (keep : UInt64)
  | gcBlobs
  | begin
  | commit
  | rollback
  | explain (inner : Statement)
  deriving DecidableEq, Repr

/-! ## Answers -/

structure ParseError where
  at_ : Option Nat
  message : String
  deriving DecidableEq, Repr

/-- `Display` of a parse error. -/
def ParseError.show (e : ParseError) : String :=
  match e.at_ with
  | some at_ => "parse error at byte " ++ toString at_ ++ ": " ++ e.message
  | none => "parse error: " ++ e.message

inductive ExecError
  | parse (e : ParseError)
  | plan (message : String)
  | exec (message : String)
  | storage (e : Error)
  deriving DecidableEq, Repr

/-- `Display` of a storage error.  A panic is not an error the engine shows:
    it takes the thread down. -/
def showStorage (ioText : String) : Error → String
  | .io => "io error: " ++ ioText
  | .corrupted (some p) reason => "corrupted database (page " ++ toString p ++ "): " ++ reason
  | .corrupted none reason => "corrupted database: " ++ reason
  | .invalidFormat reason => "invalid format: " ++ reason
  | .pageNotWritable p =>
      "page " ++ toString p ++ " is not writable in this batch (committed pages are immutable)"
  | .pageOutOfBounds p => "page " ++ toString p ++ " is out of bounds"
  | .invalidArgument reason => "invalid argument: " ++ reason
  | .writerRaced expected found =>
      "another writer committed to this file: began at commit " ++ toString expected
        ++ ", found " ++ toString found
  | .panic what => what
  | .outOfFuel => ""

/-- `Display` of an execution error. -/
def ExecError.show (ioText : String) : ExecError → String
  | .parse e => e.show
  | .plan m => m
  | .exec m => m
  | .storage e => "storage error: " ++ showStorage ioText e

inductive Output
  | ok
  | count (verb : String) (n : UInt64)
  | rows (columns : List String) (rows : List (List Value))
  | lines (lines : List String)
  deriving DecidableEq, Repr

end QuantyAst
