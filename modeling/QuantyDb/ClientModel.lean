import QuantyDb.AnswerModel

/-! # The client

    The other end of a connection: bytes arrive in whatever pieces the socket
    gives them, are put together to whole messages, and the messages of one
    answer to one text.  The server's side of that text is `Output::render`,
    which is what the same statement prints without a wire between.

    How a float is written and what the system says of a failed read are
    parameters; both sides use the same. -/

namespace QuantyClient

open QuantyKey QuantyPage QuantyEncoding QuantyAst QuantyProto QuantyConn

/-- Texts that come from outside. -/
structure Texts where
  float : UInt64 → String
  ioError : String

section Texts

variable (t : Texts)

/-! ## Values as text -/

/-- `value_ops::render_into`. -/
def renderInto (v : Value) (out : String) : String :=
  match v with
  | .null => out ++ "null"
  | .bool true => out ++ "true"
  | .bool false => out ++ "false"
  | .int i => out ++ toString i.toInt
  | .float bits => out ++ t.float bits
  | .text s => out ++ s
  | .bytes b => b.foldl (fun out byte => out ++ hexByte byte) (out ++ "x\"") ++ "\""

/-- `value_ops::render`. -/
def renderValue (v : Value) : String := renderInto t v ""

/-- A loop that writes elements into one buffer, from index `i` on, with a
    separator in front of all but the first. -/
def joinInto {α : Type} (sep : String) (put : α → String → String) :
    Nat → List α → String → String
  | _, [], out => out
  | i, a :: rest, out =>
      joinInto sep put (i + 1) rest (put a (if i > 0 then out ++ sep else out))

/-- `Output::render`. -/
def Output.render : Output → String
  | .ok => "ok"
  | .count verb n => verb ++ " " ++ toString n.toNat
  | .rows _ rows =>
      joinInto "\n" (fun row out => joinInto "|" (renderInto t) 0 row out) 0 rows ""
  | .lines lines => "\n".intercalate lines

/-! ## The socket -/

/-- One turn of the loop that waits for bytes: the time is up, or a read
    returned. -/
inductive Turn
  | late
  | read (r : Read)
  deriving DecidableEq, Repr

/-- A connection, with what its socket is going to do.  When that list is
    over nothing comes any more, until the time is up. -/
structure Remote where
  buf : Bytes
  turns : List Turn
  deriving DecidableEq, Repr

inductive Failure
  | failed (message : String)
  | outOfFuel
  deriving DecidableEq, Repr

abbrev Client := StateT Remote (Except Failure)

def LATE : Failure := .failed "the server did not answer in time"

/-- The loop of `fill_exactly`. -/
def fillLoop (n : Nat) : List Turn → Bytes → Except Failure Remote
  | [], buf => if buf.length < n then .error LATE else .ok ⟨buf, []⟩
  | turn :: rest, buf =>
      if buf.length < n then
        match turn with
        | .late => .error LATE
        | .read (.data b) =>
            if b.isEmpty then .error (.failed "the server closed the connection")
            else fillLoop n rest (buf ++ b)
        | .read .wouldBlock | .read .interrupted => fillLoop n rest buf
        | .read .error => .error (.failed ("could not read from the server: " ++ t.ioError))
      else .ok ⟨buf, turn :: rest⟩

/-- `fill_exactly`. -/
def fillExactly (n : Nat) : Client Bytes := fun r => do
  let r ← fillLoop t n r.turns r.buf
  return (r.buf.take n, { r with buf := r.buf.drop n })

/-! ## Messages -/

/-- `Remote::message`. -/
def message : Client ServerMessage := do
  let head ← fillExactly t HEADER_LEN
  match FrameHeader.decode head with
  | .error e => throw (.failed ("bad frame header: " ++ e.show))
  | .ok header =>
      let body ← fillExactly t header.bodyLen
      match ServerMessage.decode header.msgType body with
      | .error e => throw (.failed ("bad message from the server: " ++ e.show))
      | .ok m => return m

inductive Reply
  | done
  | text (s : String)
  | error (message : String)
  deriving DecidableEq, Repr

/-- A row as the client prints it. -/
def renderRow (row : List Value) : String := "|".intercalate (row.map (renderValue t))

/-- The loop of `answer`.  `rows` is what has come of a set of rows. -/
def answerLoop : Nat → Option (List String) → Client Reply
  | 0, _ => throw .outOfFuel
  | fuel + 1, rows => do
      match ← message t with
      | .ready | .ok => return .done
      | .count verb n => return .text (verb ++ " " ++ toString n.toNat)
      | .lines lines => return .text ("\n".intercalate lines)
      | .error _ message => return .error message
      | .rowsBegin _ => answerLoop fuel (some [])
      | .rowBatch batch =>
          match rows with
          | none => throw (.failed "the server sent rows without beginning them")
          | some collected => answerLoop fuel (some (collected ++ batch.map (renderRow t)))
      | .rowsEnd =>
          match rows with
          | none => throw (.failed "the server ended rows it never began")
          | some collected => return .text ("\n".intercalate collected)

/-- The bytes of the turns to come. -/
def arriving (turns : List Turn) : Bytes :=
  turns.flatMap fun turn =>
    match turn with
    | .read (.data b) => b
    | _ => []

/-- The bytes the client has yet to look at. -/
def Remote.ahead (r : Remote) : Bytes := r.buf ++ arriving r.turns

/-- `Remote::answer`.  Every message takes bytes, so those ahead are fuel
    enough. -/
def answer : Client Reply := fun r => answerLoop t (r.ahead.length + 1) none r

end Texts

end QuantyClient
