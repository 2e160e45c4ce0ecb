import QuantyDb.SqliteModel
import QuantyDb.TokensModel

/-! # Reading a `create table` statement

    Which columns a table has, of which types, and which of them are the
    primary key is only in the text of the statement that made it.  This is
    the reader of that text: a tokenizer that works on character positions and
    keeps byte offsets, and a parser over the positions of the tokens.

    The parser stops at what it cannot understand.  What it must not do is
    look past the end of the characters or of the tokens, cut the text inside
    a character, or go on for ever, so reads, cuts and sums are checked here
    as they are there. -/

namespace QuantySqlite

open Outcome
open QuantyTokens (isWhitespace trim)

/-- `l[i]`. -/
def nth {α : Type} (l : List α) (i : Nat) : Result α :=
  match l[i]? with
  | some a => .ok a
  | none => .error (.panic "index out of bounds")

/-- `l[start..stop]`. -/
def slice {α : Type} (l : List α) (start stop : Nat) : Result (List α) :=
  if start ≤ stop ∧ stop ≤ l.length then .ok ((l.drop start).take (stop - start))
  else .error (.panic "slice index out of range")

/-- The characters up to a byte, and those from there on, unless the byte is
    inside a character. -/
def splitAtByte : List Char → Nat → Option (List Char × List Char)
  | cs, 0 => some ([], cs)
  | [], _ + 1 => none
  | c :: cs, n + 1 =>
      if c.utf8Size ≤ n + 1 then
        (splitAtByte cs (n + 1 - c.utf8Size)).map fun (before, after) => (c :: before, after)
      else none

/-- `text[start..stop]`, by bytes. -/
def sliceText (text : List Char) (start stop : Nat) : Result (List Char) :=
  match splitAtByte text stop with
  | none => .error (.panic "byte index is not a char boundary")
  | some (upTo, _) =>
      match splitAtByte upTo start with
      | none => .error (.panic "byte index is not a char boundary")
      | some (_, cut) => .ok cut

/-- `eq_ignore_ascii_case`. -/
def eqIgnoreAsciiCase (a b : String) : Bool :=
  a.toList.map Char.toLower == b.toList.map Char.toLower

/-! ## What a statement declares -/

inductive Generated
  | no | virtual | stored
  deriving DecidableEq, Repr

def Generated.isVirtual (g : Generated) : Bool := g = .virtual

structure ColumnDef where
  name : String
  declaredType : Option String
  notNull : Bool
  default : Option String
  generated : Generated
  deriving DecidableEq, Repr

structure KeyColumn where
  name : String
  descending : Bool
  deriving DecidableEq, Repr

inductive Constraint
  | unique (columns : List String)
  | check (expression : String)
  | foreignKey (columns : List String) (references : String)
  | collation (column name : String)
  deriving DecidableEq, Repr

structure TableDef where
  name : String
  columns : List ColumnDef
  primaryKey : List KeyColumn
  withoutRowid : Bool
  strict : Bool
  unsupportedConstraints : List Constraint
  /-- The key was written at its column, with `desc`. -/
  inlinePkDesc : Bool
  deriving DecidableEq, Repr

namespace TableDef

def column (d : TableDef) (name : String) : Option ColumnDef :=
  d.columns.find? fun c => eqIgnoreAsciiCase c.name name

def columnIndex (d : TableDef) (name : String) : Option Nat :=
  d.columns.findIdx? fun c => eqIgnoreAsciiCase c.name name

/-- The type is exactly `integer`. -/
def declaredInteger (c : ColumnDef) : Bool :=
  match c.declaredType with
  | some declared => eqIgnoreAsciiCase (String.ofList (trim declared.toList)) "integer"
  | none => false

/-- `rowid_alias`: the column whose value is the rowid. -/
def rowidAlias (d : TableDef) : Result (Option ColumnDef) :=
  if d.withoutRowid = true ∨ d.primaryKey.length ≠ 1 ∨ d.inlinePkDesc = true then .ok none
  else do
    let key ← nth d.primaryKey 0
    return (d.column key.name).filter declaredInteger

end TableDef

/-! ## Tokens -/

namespace Ddl

inductive Token
  | word (w : String)
  | quoted (q : String)
  | literal (l : String)
  | punct (c : Char)
  deriving DecidableEq, Repr

/-- A token and the bytes it takes. -/
structure Tok where
  token : Token
  start : Nat
  stop : Nat
  deriving DecidableEq, Repr

namespace Token

/-- The text of a bare word. -/
def word? : Token → Option String
  | .word w => some w
  | _ => none

def isWord (t : Token) (keyword : String) : Bool :=
  match t with
  | .word w => eqIgnoreAsciiCase w keyword
  | _ => false

def isPunct (t : Token) (c : Char) : Bool :=
  match t with
  | .punct p => p = c
  | _ => false

def identifier : Token → Option String
  | .word w => some w
  | .quoted q => some q
  | _ => none

/-- A quote in a quoted name is written twice. -/
def doubleQuotes (q : List Char) : List Char :=
  q.flatMap fun c => if c = '"' then ['"', '"'] else [c]

def text : Token → String
  | .word w => w
  | .quoted q => "\"" ++ String.ofList (doubleQuotes q.toList) ++ "\""
  | .literal l => l
  | .punct p => p.toString

end Token

/-- What the tokenizer looks at: the characters, and the byte each starts at,
    with the end of the text behind them. -/
structure Statement where
  chars : List Char
  offsets : List Nat

def byteOffsets : Nat → List Char → List Nat
  | off, [] => [off]
  | off, c :: cs => off :: byteOffsets (off + c.utf8Size) cs

def Statement.of (sql : String) : Statement := ⟨sql.toList, byteOffsets 0 sql.toList⟩

/-- The loop `while at < end && condition { at += 1 }`. -/
def skipWhile (stop : Nat) (condition : Nat → Result Bool) : Nat → Nat → Result Nat
  | fuel, i =>
      if i < stop then do
        let goOn ← condition i
        if goOn then
          match fuel with
          | 0 => .error .outOfFuel
          | fuel + 1 => do
              let i ← plus i 1
              skipWhile stop condition fuel i
        else return i
      else .ok i

namespace Statement

variable (s : Statement)

def skip (condition : Nat → Result Bool) (i : Nat) : Result Nat :=
  skipWhile s.chars.length condition s.chars.length i

/-- The token of the characters from one position to another. -/
def tok (token : Token) (began i : Nat) : Result Tok := do
  let start ← nth s.offsets began
  let stop ← nth s.offsets i
  return ⟨token, start, stop⟩

/-- To the end of the line. -/
def lineComment (i : Nat) : Result Nat :=
  s.skip (fun i => do return (← nth s.chars i) ≠ '\n') i

/-- To the end of the comment, or of the text when the comment does not end. -/
def blockComment (i : Nat) : Result Nat := do
  let i ← plus i 2
  let i ← s.skip (fun i => do
    let c ← nth s.chars i
    if c = '*' then do
      let following ← plus i 1
      return s.chars[following]? ≠ some '/'
    else return true) i
  let i ← plus i 2
  return min i s.chars.length

/-- The quotes of a name, by the one that opens it. -/
def closingOf (c : Char) : Option Char :=
  if c = '"' then some '"'
  -- the code of the grave accent
  else if c.toNat = 96 then some c
  else if c = '[' then some ']'
  else none

/-- The rest of a quoted name.  Brackets have no escape, the other quotes are
    doubled. -/
def quotedLoop (opening closing : Char) : Nat → Nat → List Char → Result (List Char × Nat)
  | fuel, i, value =>
      match s.chars[i]? with
      | none => .error (.unsupported ("a create statement has an unterminated "
          ++ opening.toString ++ " quoted name"))
      | some ch =>
          match fuel with
          | 0 => .error .outOfFuel
          | fuel + 1 => do
              let i ← plus i 1
              if ch = closing then
                if closing ≠ ']' ∧ s.chars[i]? = some closing then do
                  let i ← plus i 1
                  quotedLoop opening closing fuel i (value ++ [closing])
                else return (value, i)
              else quotedLoop opening closing fuel i (value ++ [ch])

/-- The rest of a string, kept as it is written. -/
def stringLoop : Nat → Nat → List Char → Result (List Char × Nat)
  | fuel, i, text =>
      match s.chars[i]? with
      | none => .error (.unsupported "a create statement has an unterminated string")
      | some ch =>
          match fuel with
          | 0 => .error .outOfFuel
          | fuel + 1 => do
              let i ← plus i 1
              if ch = '\'' then
                if s.chars[i]? = some '\'' then do
                  let i ← plus i 1
                  stringLoop fuel i (text ++ [ch, '\''])
                else return (text ++ [ch], i)
              else stringLoop fuel i (text ++ [ch])

/-- The rest of a blob, which may run to the end of the text. -/
def blobLoop : Nat → Nat → List Char → Result (List Char × Nat)
  | fuel, i, text =>
      match s.chars[i]? with
      | none => .ok (text, i)
      | some ch =>
          match fuel with
          | 0 => .error .outOfFuel
          | fuel + 1 => do
              let i ← plus i 1
              if ch = '\'' then return (text ++ [ch], i)
              else blobLoop fuel i (text ++ [ch])

def quotedName (opening closing : Char) (began : Nat) : Result (Tok × Nat) := do
  let i ← plus began 1
  let (value, i) ← s.quotedLoop opening closing s.chars.length i []
  let tok ← s.tok (.quoted (String.ofList value)) began i
  return (tok, i)

def string (began : Nat) : Result (Tok × Nat) := do
  let i ← plus began 1
  let (text, i) ← s.stringLoop s.chars.length i ['\'']
  let tok ← s.tok (.literal (String.ofList text)) began i
  return (tok, i)

/-- A character goes on a number: a letter, a digit, a point, or the sign of an
    exponent unless the number is in hex. -/
def inNumber (start i : Nat) : Result Bool := do
  let c ← nth s.chars i
  if c.isAlphanum || c = '.' then return true
  else if c = '+' || c = '-' then do
    let before ← minus i 1
    let e ← nth s.chars before
    if e = 'e' || e = 'E' then do
      let soFar ← slice s.chars start i
      return soFar.all fun c => c ≠ 'x' && c ≠ 'X'
    else return false
  else return false

def number (began : Nat) : Result (Tok × Nat) := do
  let i ← s.skip (s.inNumber began) began
  let text ← slice s.chars began i
  let tok ← s.tok (.literal (String.ofList text)) began i
  return (tok, i)

def isAscii (c : Char) : Bool := c.toNat < 128

/-- What begins a word.  A letter that is not in ASCII is not in ASCII, so only
    the letters of ASCII have to be told. -/
def beginsWord (c : Char) : Bool := c.isAlpha || c = '_' || !isAscii c

def inWord (i : Nat) : Result Bool := do
  let c ← nth s.chars i
  return c.isAlphanum || c = '_' || c = '$' || !isAscii c

/-- A word; but `x'00ff'` is a blob and not the name `x`. -/
def wordOrBlob (began : Nat) : Result (Tok × Nat) := do
  let i ← s.skip s.inWord began
  let word ← slice s.chars began i
  if eqIgnoreAsciiCase (String.ofList word) "x" ∧ s.chars[i]? = some '\'' then do
    let i ← plus i 1
    let (text, i) ← s.blobLoop s.chars.length i (word ++ ['\''])
    let tok ← s.tok (.literal (String.ofList text)) began i
    return (tok, i)
  else do
    let tok ← s.tok (.word (String.ofList word)) began i
    return (tok, i)

def punct (c : Char) (began : Nat) : Result (Tok × Nat) := do
  let i ← plus began 1
  let tok ← s.tok (.punct c) began i
  return (tok, i)

/-- The character at the position after this one. -/
def following (i : Nat) : Result (Option Char) := do
  let i ← plus i 1
  return s.chars[i]?

/-- A token makes the round of the loop useful; white space and comments do
    not. -/
def made (x : Result (Tok × Nat)) : Result (Option Tok × Nat) := x.map fun (tok, i) => (some tok, i)

def skipped (x : Result Nat) : Result (Option Tok × Nat) := x.map fun i => (none, i)

/-- One round of the loop of `tokenize`. -/
def round (i : Nat) : Result (Option Tok × Nat) := do
  let c ← nth s.chars i
  if isWhitespace c then skipped (plus i 1)
  else do
    let d ← s.following i
    if c = '-' ∧ d = some '-' then skipped (s.lineComment i)
    else if c = '/' ∧ d = some '*' then skipped (s.blockComment i)
    else
      match closingOf c with
      | some closing => made (s.quotedName c closing i)
      | none =>
          if c = '\'' then made (s.string i)
          else if c.isDigit || (c = '.' && d.any Char.isDigit) then made (s.number i)
          else if beginsWord c then made (s.wordOrBlob i)
          else made (s.punct c i)

def tokenizeLoop : Nat → Nat → List Tok → Result (List Tok)
  | fuel, i, tokens =>
      if i < s.chars.length then
        match fuel with
        | 0 => .error .outOfFuel
        | fuel + 1 => do
            let (tok, i) ← s.round i
            tokenizeLoop fuel i (tokens ++ tok.toList)
      else .ok tokens

end Statement

def tokenize (sql : String) : Result (List Tok) :=
  (Statement.of sql).tokenizeLoop sql.toList.length 0 []

/-! ## The parser -/

/-- Words that end a type and begin the constraints of a column. -/
def CONSTRAINT_WORDS : List String :=
  ["constraint", "primary", "not", "null", "unique", "check", "default", "collate", "references",
    "generated", "as"]

/-- The parser but for its position.  `debug` is how a text is shown in an
    error. -/
structure Parser where
  sql : String
  tokens : List Tok
  debug : String → String

/-- A run from a position to a position. -/
abbrev Parse := StateT Nat (Except Error)

/-- `at += count`. -/
def advance (count : Nat) : Parse Unit := fun i => do
  let i ← plus i count
  return ((), i)

def outOfFuel {α : Type} : Parse α := fun _ => .error .outOfFuel

def unsupported {α : Type} (reason : String) : Parse α := fun _ => .error (.unsupported reason)

/-- `a || b`. -/
def either (a b : Parse Bool) : Parse Bool := do
  if ← a then return true else b

/-- How a round of a loop ends. -/
inductive Turn (σ α : Type)
  | again (state : σ)
  | done (result : α)

/-- A loop over the tokens. -/
def loop {σ α : Type} (round : σ → Parse (Turn σ α)) : Nat → σ → Parse α
  | fuel, state => do
      match ← round state with
      | .done result => return result
      | .again state =>
          match fuel with
          | 0 => outOfFuel
          | fuel + 1 => loop round fuel state

namespace Parser

variable (p : Parser)

def here : Parse Nat := fun i => .ok (i, i)

def peek : Parse (Option Token) := fun i => .ok ((p.tokens[i]?).map Tok.token, i)

/-- What is next satisfies a test. -/
def isNext (test : Token → Bool) : Parse Bool := do
  return (← p.peek).any test

def atWord (offset : Nat) (keyword : String) : Parse Bool := fun i => do
  let k ← plus i offset
  return ((p.tokens[k]?).any fun t => t.token.isWord keyword, i)

/-- Where the token at an index starts in the statement. -/
def startOf (i : Nat) : Nat :=
  match p.tokens[i]? with
  | some t => t.start
  | none => p.sql.utf8ByteSize

/-- Where the token before an index ends. -/
def endBefore (i : Nat) : Nat :=
  match i with
  | 0 => 0
  | before + 1 =>
      match p.tokens[before]? with
      | some t => t.stop
      | none => 0

/-- `text_since`: the statement from a token on, as it is written. -/
def textSince (start : Nat) : Parse String := fun i =>
  if p.endBefore i ≤ p.startOf start then .ok ("", i)
  else do
    let text ← sliceText p.sql.toList (p.startOf start) (p.endBefore i)
    return (String.ofList (trim text), i)

def next : Parse (Option Token) := fun i =>
  match p.tokens[i]? with
  | some t => do
      let i ← plus i 1
      return (some t.token, i)
  | none => .ok (none, i)

/-- Take what is next if it satisfies a test. -/
def eat (test : Token → Bool) : Parse Bool := do
  if ← p.isNext test then do
    advance 1
    return true
  else return false

def eatWord (keyword : String) : Parse Bool := p.eat fun t => t.isWord keyword

def eatPunct (c : Char) : Parse Bool := p.eat fun t => t.isPunct c

/-- `gap`: what the parser stopped at. -/
def gap (what : String) (i : Nat) : Error :=
  let found := match p.tokens[i]? with
    | some t => p.debug t.token.text
    | none => "the end of the statement"
  .unsupported ("cannot read this create statement: " ++ what ++ ", found " ++ found
    ++ " at token " ++ toString i)

def fail {α : Type} (what : String) : Parse α := fun i => .error (p.gap what i)

def expectWord (keyword : String) : Parse Unit := do
  if ← p.eatWord keyword then return () else p.fail ("expected " ++ keyword)

def expectPunct (c : Char) : Parse Unit := do
  if ← p.eatPunct c then return () else p.fail ("expected " ++ c.toString)

def identifier : Parse String := do
  match (← p.next).bind Token.identifier with
  | some name => return name
  | none => p.fail "expected a name"

/-- `identifier().unwrap_or_default()`: the token is taken in any case. -/
def identifierOrDefault : Parse String := do
  return ((← p.next).bind Token.identifier).getD ""

def atConstraintWord : Parse Bool :=
  p.isNext fun t => t.word?.any fun w => CONSTRAINT_WORDS.any fun k => eqIgnoreAsciiCase w k

/-- A loop with a round for every token. -/
def loop {σ α : Type} (round : σ → Parse (Turn σ α)) (state : σ) : Parse α :=
  Ddl.loop round p.tokens.length state

/-- One token of a group, `depth` parentheses deep. -/
def balancedRound (depth : Nat) : Parse (Turn Nat Unit) := do
  if depth = 0 then return .done ()
  else
    match ← p.next with
    | none => p.fail "expected a closing paren"
    | some token =>
        if token.isPunct '(' then do
          let depth ← plus depth 1
          return .again depth
        else if token.isPunct ')' then do
          let depth ← minus depth 1
          return .again depth
        else return .again depth

/-- `balanced`: a group in parentheses, as it is written. -/
def balanced : Parse String := do
  let start ← here
  p.expectPunct '('
  p.loop p.balancedRound 1
  p.textSince start

/-- `asc` or `desc`, and whether it is the second. -/
def eatDescending : Parse Bool := do
  if ← p.eatWord "desc" then return true
  else do
    let _ ← p.eatWord "asc"
    return false

/-- A collation in a list of columns is stepped over. -/
def eatCollation : Parse Unit := do
  if ← p.eatWord "collate" then do
    let _ ← p.identifier
    return ()
  else return ()

def columnListRound (names : List String) : Parse (Turn (List String) (List String)) := do
  let name ← p.identifier
  p.eatCollation
  let _ ← either (p.eatWord "asc") (p.eatWord "desc")
  if ← p.eatPunct ',' then return .again (names ++ [name])
  else do
    p.expectPunct ')'
    return .done (names ++ [name])

/-- `column_list`. -/
def columnList : Parse (List String) := do
  p.expectPunct '('
  p.loop p.columnListRound []

def endsItem (t : Token) : Bool := t.isPunct ',' || t.isPunct ')'

/-- Step over a token or a group, unless an item ends here; `stop` may end it
    earlier. -/
def skipRound (stop : Parse Bool) (_ : Unit) : Parse (Turn Unit Unit) := do
  if ← stop then return .done ()
  else
    match ← p.peek with
    | none => return .done ()
    | some t =>
        if endsItem t then return .done ()
        else if t.isPunct '(' then do
          let _ ← p.balanced
          return .again ()
        else do
          advance 1
          return .again ()

def skipToEndOfItem : Parse Unit := p.loop (p.skipRound (return false)) ()

def eatGeneratedKind : Parse Generated := do
  if ← p.eatWord "stored" then return .stored
  else do
    let _ ← p.eatWord "virtual"
    return .virtual

/-- `on conflict` and an action. -/
def eatConflictClause : Parse Unit := do
  if (← p.atWord 0 "on") then
    if (← p.atWord 1 "conflict") then do
      advance 2
      let _ ← p.eat fun t => t.word?.isSome
      return ()
    else return ()
  else return ()

/-! ### The items of a table -/

/-- What the items of the column list have said so far. -/
structure Body where
  columns : List ColumnDef
  primaryKey : List KeyColumn
  constraints : List Constraint
  inlinePkDesc : Bool

def Body.constrain (b : Body) (c : Constraint) : Body :=
  { b with constraints := b.constraints ++ [c] }

/-- There is only one primary key. -/
def onlyKey (name : String) (b : Body) : Parse Unit :=
  if b.primaryKey.isEmpty then return ()
  else unsupported (name ++ " declares more than one primary key")

def keyRound (key : List KeyColumn) : Parse (Turn (List KeyColumn) (List KeyColumn)) := do
  let column ← p.identifier
  p.eatCollation
  let descending ← p.eatDescending
  if ← p.eatPunct ',' then return .again (key ++ [⟨column, descending⟩])
  else do
    p.expectPunct ')'
    return .done (key ++ [⟨column, descending⟩])

/-- `primary key (…)`, from behind `primary`. -/
def tableKey (name : String) (b : Body) : Parse Body := do
  p.expectWord "key"
  onlyKey name b
  p.expectPunct '('
  let key ← p.loop p.keyRound []
  p.eatConflictClause
  return { b with primaryKey := key }

def tableUnique (b : Body) : Parse Body := do
  let columns ← p.columnList
  p.eatConflictClause
  p.skipToEndOfItem
  return b.constrain (.unique columns)

def tableCheck (b : Body) : Parse Body := do
  let expression ← p.balanced
  p.skipToEndOfItem
  return b.constrain (.check expression)

def tableForeignKey (b : Body) : Parse Body := do
  p.expectWord "key"
  let columns ← p.columnList
  let references ← (do if ← p.eatWord "references" then p.identifier else return "")
  p.skipToEndOfItem
  return b.constrain (.foreignKey columns references)

/-- The word that says which kind of constraint it is comes behind its name. -/
def isTableConstraint : Parse Bool := do
  let named ← p.atWord 0 "constraint"
  let offset := if named then 2 else 0
  either (p.atWord offset "primary") (either (p.atWord offset "unique")
    (either (p.atWord offset "check") (p.atWord offset "foreign")))

def tableConstraint (name : String) (b : Body) : Parse Body := do
  if ← p.eatWord "constraint" then do
    let _ ← p.identifier
    kind
  else kind
where
  kind : Parse Body := do
    if ← p.eatWord "primary" then p.tableKey name b
    else if ← p.eatWord "unique" then p.tableUnique b
    else if ← p.eatWord "check" then p.tableCheck b
    else if ← p.eatWord "foreign" then p.tableForeignKey b
    else do
      p.skipToEndOfItem
      return b

/-- A column constraint `primary key`, from behind `primary`. -/
def columnKey (name : String) (c : ColumnDef) (b : Body) : Parse (ColumnDef × Body) := do
  p.expectWord "key"
  onlyKey name b
  let descending ← p.eatDescending
  p.eatConflictClause
  let _ ← p.eatWord "autoincrement"
  return (c, { b with
    inlinePkDesc := descending
    primaryKey := b.primaryKey ++ [⟨c.name, descending⟩] })

def columnNotNull (c : ColumnDef) (b : Body) : Parse (ColumnDef × Body) := do
  p.expectWord "null"
  p.eatConflictClause
  return ({ c with notNull := true }, b)

def columnNull (c : ColumnDef) (b : Body) : Parse (ColumnDef × Body) := do
  p.eatConflictClause
  return (c, b)

def columnUnique (c : ColumnDef) (b : Body) : Parse (ColumnDef × Body) := do
  p.eatConflictClause
  return (c, b.constrain (.unique [c.name]))

def columnCheck (c : ColumnDef) (b : Body) : Parse (ColumnDef × Body) := do
  let expression ← p.balanced
  return (c, b.constrain (.check expression))

/-- A default without parentheses: a literal, a word, or a number with its
    sign. -/
def plainDefault : Parse Unit := do
  let _ ← either (p.eatPunct '-') (p.eatPunct '+')
  match ← p.next with
  | none => p.fail "expected a default value"
  | some _ => return ()

def columnDefault (c : ColumnDef) (b : Body) : Parse (ColumnDef × Body) := do
  let start ← here
  if ← p.isNext fun t => t.isPunct '(' then do
    let _ ← p.balanced
    written start
  else do
    p.plainDefault
    written start
where
  written (start : Nat) : Parse (ColumnDef × Body) := do
    let text ← p.textSince start
    return ({ c with default := some text }, b)

def columnCollate (c : ColumnDef) (b : Body) : Parse (ColumnDef × Body) := do
  let name ← p.identifier
  return (c, if eqIgnoreAsciiCase name "binary" then b else b.constrain (.collation c.name name))

def columnReferences (c : ColumnDef) (b : Body) : Parse (ColumnDef × Body) := do
  let references ← p.identifierOrDefault
  p.skipToEndOfItem
  return (c, b.constrain (.foreignKey [c.name] references))

/-- The expression of a generated column, and whether it is stored. -/
def columnExpression (c : ColumnDef) (b : Body) : Parse (ColumnDef × Body) := do
  let _ ← p.balanced
  let generated ← p.eatGeneratedKind
  return ({ c with generated }, b)

def columnGenerated (c : ColumnDef) (b : Body) : Parse (ColumnDef × Body) := do
  p.expectWord "always"
  p.expectWord "as"
  p.columnExpression c b

/-- A constraint's own name is stepped over. -/
def constraintName (c : ColumnDef) (b : Body) : Parse (ColumnDef × Body) := do
  let _ ← p.identifier
  return (c, b)

/-- The constraints of a column, by the word that begins them. -/
def columnConstraints (name : String) (c : ColumnDef) (b : Body) :
    List (String × Parse (ColumnDef × Body)) :=
  [("constraint", p.constraintName c b),
   ("primary", p.columnKey name c b),
   ("not", p.columnNotNull c b),
   ("null", p.columnNull c b),
   ("unique", p.columnUnique c b),
   ("check", p.columnCheck c b),
   ("default", p.columnDefault c b),
   ("collate", p.columnCollate c b),
   ("references", p.columnReferences c b),
   ("generated", p.columnGenerated c b),
   ("as", p.columnExpression c b)]

/-- The first of the words that is next decides; nothing when none is. -/
def firstWord {α : Type} : List (String × Parse α) → Parse (Option α)
  | [] => return none
  | (keyword, rest) :: others => do
      if ← p.eatWord keyword then do
        let a ← rest
        return some a
      else firstWord others

/-- Column constraints come in any order and any number. -/
def constraintRound (name : String) (state : ColumnDef × Body) :
    Parse (Turn (ColumnDef × Body) (ColumnDef × Body)) := do
  match ← p.firstWord (p.columnConstraints name state.1 state.2) with
  | none => return .done state
  | some state => return .again state

def column (name : String) (b : Body) : Parse Body := do
  let columnName ← p.identifier
  let start ← here
  p.loop (p.skipRound p.atConstraintWord) ()
  let declaredType ← p.textSince start
  let c : ColumnDef :=
    { name := columnName
      declaredType := if declaredType.isEmpty then none else some declaredType
      notNull := false
      default := none
      generated := .no }
  let (c, b) ← p.loop (p.constraintRound name) (c, b)
  return { b with columns := b.columns ++ [c] }

/-- A table constraint or a column. -/
def item (name : String) (b : Body) : Parse Body := do
  if ← p.isTableConstraint then p.tableConstraint name b else p.column name b

def itemRound (name : String) (b : Body) : Parse (Turn Body Body) := do
  match ← p.peek with
  | none => p.fail "the column list is not closed"
  | some _ =>
      if ← p.eatPunct ')' then return .done b
      else do
        let b ← p.item name b
        if ← p.eatPunct ',' then return .again b
        else do
          p.expectPunct ')'
          return .done b

/-! ### The statement -/

/-- `without rowid` or `strict`, and what is set with it. -/
def tableOption (withoutRowid strict : Bool) : Parse (Option (Bool × Bool)) := do
  if ← p.eatWord "without" then do
    p.expectWord "rowid"
    return some (true, strict)
  else if ← p.eatWord "strict" then return some (withoutRowid, true)
  else return none

/-- The options of a table come in either order. -/
def optionRound (state : Bool × Bool) : Parse (Turn (Bool × Bool) (Bool × Bool)) := do
  match ← p.tableOption state.1 state.2 with
  | none => return .done state
  | some state => do
      if ← p.eatPunct ',' then return .again state else return .done state

/-- `if not exists`. -/
def eatIfNotExists : Parse Unit := do
  if ← p.eatWord "if" then do
    p.expectWord "not"
    p.expectWord "exists"
  else return ()

/-- The name of the table, behind that of its schema if it has one. -/
def tableName : Parse String := do
  let name ← p.identifier
  if ← p.eatPunct '.' then p.identifier else return name

def notAsSelect (name : String) : Parse Unit := do
  if ← p.isNext fun t => t.isWord "as" then
    unsupported (name ++ " was created by `create table ... as select`, so the file does not "
      ++ "record its column types; this reader cannot import it")
  else return ()

/-- There are columns, and every column of the key is one. -/
def checkDef (d : TableDef) : Result TableDef :=
  if d.columns.isEmpty then .error (.unsupported (d.name ++ " was parsed as having no columns"))
  else
    match d.primaryKey.find? fun key =>
        !d.columns.any fun c => eqIgnoreAsciiCase c.name key.name with
    | some key => .error (.unsupported (d.name ++ " has a primary key over " ++ key.name
        ++ ", which is not one of its columns"))
    | none => .ok d

def createTable : Parse TableDef := do
  p.expectWord "create"
  let _ ← either (p.eatWord "temp") (p.eatWord "temporary")
  p.expectWord "table"
  p.eatIfNotExists
  let name ← p.tableName
  p.notAsSelect name
  p.expectPunct '('
  let b ← p.loop (p.itemRound name) ⟨[], [], [], false⟩
  let (withoutRowid, strict) ← p.loop p.optionRound (false, false)
  let _ ← p.eatPunct ';'
  checkDef ⟨name, b.columns, b.primaryKey, withoutRowid, strict, b.constraints, b.inlinePkDesc⟩

end Parser

/-- `parse_create_table`. -/
def parseCreateTable (debug : String → String) (sql : String) : Result TableDef := do
  let tokens ← tokenize sql
  let (d, _) ← Parser.createTable ⟨sql, tokens, debug⟩ 0
  return d

end Ddl

end QuantySqlite
