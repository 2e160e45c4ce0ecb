import QuantyDb.ConnModel

/-! # One statement in, the messages that answer it out

    What the executor may do with a statement, and how the result of running
    one becomes messages.  A set of rows is framed as an opening message, as
    many batches as it takes, and a closing one; a row that fits no batch turns
    the whole set into an error. -/

namespace QuantyAnswer

open QuantyKey QuantyPage QuantyEncoding QuantyAst QuantyProto QuantyConn

/-- What the executor may do with a statement. -/
inductive Kind
  | reads
  | batchable
  | begins
  | ends
  | alone
  deriving DecidableEq, Repr

def classify : Statement → Kind
  | .get _ | .showTables | .explain _ => .reads
  | .begin => .begins
  | .commit | .rollback => .ends
  | .branch _ _ | .switch _ | .merge _ | .dropBranch _ | .showBranches | .log | .gc _ => .alone
  | _ => .batchable

/-- The reply to a request that never reaches the engine. -/
def ready : List ServerMessage := [.ready]

def failed (code : ErrorCode) (detail : String) : List ServerMessage := [.failure code detail]

def codeFor : ExecError → ErrorCode
  | .parse _ => .parse
  | _ => .execution

/-- A result set, or the error that describes why it could not be framed. -/
def rowsOrError (columns : List String) (rows : List (List Value)) : List ServerMessage :=
  match batchRows rows with
  | .ok batches => .rowsBegin columns :: (batches ++ [.rowsEnd])
  | .error e => [.rowsBegin columns, .failure .execution e.show]

def render (ioText : String) : Except ExecError Output → List ServerMessage
  | .error e => failed (codeFor e) (e.show ioText)
  | .ok .ok => [.ok]
  | .ok (.count verb n) => [.count verb n]
  | .ok (.lines ls) => [.lines ls]
  | .ok (.rows columns rows) => rowsOrError columns rows

end QuantyAnswer
