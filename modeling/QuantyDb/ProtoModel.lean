import QuantyDb.AstModel
import QuantyDb.LittleEndian

/-! # The wire protocol

    A connection opens with a hello of nine bytes, answered by four.  After
    that both sides send frames: a type byte, the length of the body in four
    little-endian bytes, and the body.  Every count and every length is checked
    against a limit, on the way out as on the way in.

    A reader is a function of the bytes that are left; a writer carries the
    first error that happened to it, and goes on. -/

namespace QuantyProto

open QuantyKey QuantyPage QuantyEncoding QuantyAst LittleEndian

/-! ## Limits -/

def MAX_BODY : Nat := 16 * 1024 * 1024

def MAX_VALUES_PER_ROW : Nat := 4096

def MAX_ROWS_PER_BATCH : Nat := 65536

def MAX_LINES : Nat := 65536

def MIN_VALUE_LEN : Nat := 1

def MIN_ROW_LEN : Nat := 4

def MIN_TEXT_LEN : Nat := 4

/-! ## Errors -/

inductive ProtoError
  | truncated (needed available : Nat)
  | tooLarge (declared limit : Nat)
  | tooManyElements (declared limit : Nat)
  | unknownTag (tag : UInt8)
  | malformed (what : String)
  | badUtf8
  | badMagic
  | unsupportedVersion (v : UInt16)
  | trailingBytes (n : Nat)
  deriving DecidableEq, Repr

/-- Two hex digits, as `{:02x}` writes a byte. -/
def hexByte (b : UInt8) : String :=
  let digit := fun n : Nat => if n < 10 then Char.ofNat (48 + n) else Char.ofNat (87 + n)
  String.ofList [digit (b.toNat / 16), digit (b.toNat % 16)]

/-- `Display` of a protocol error. -/
def ProtoError.show : ProtoError → String
  | .truncated needed available =>
      "truncated: needed " ++ toString needed ++ " bytes, had " ++ toString available
  | .tooLarge declared limit =>
      "declared length " ++ toString declared ++ " exceeds limit " ++ toString limit
  | .tooManyElements declared limit =>
      "declared " ++ toString declared ++ " elements, protocol allows " ++ toString limit
  | .unknownTag t => "unknown tag 0x" ++ hexByte t
  | .malformed what => "malformed " ++ what
  | .badUtf8 => "invalid utf-8 in text"
  | .badMagic => "not a quantydb client"
  | .unsupportedVersion v => "unsupported protocol version " ++ toString v.toNat
  | .trailingBytes n => toString n ++ " unread bytes at end of body"

inductive ErrorCode
  | protocol | unsupportedVersion | notAuthenticated | authFailed | parse | execution
  | writeQueue | shuttingDown
  deriving DecidableEq, Repr

/-- `ErrorCode::as_u16`. -/
def ErrorCode.asU16 : ErrorCode → UInt16
  | .protocol => 0x0001
  | .unsupportedVersion => 0x0002
  | .notAuthenticated => 0x0003
  | .authFailed => 0x0004
  | .parse => 0x0005
  | .execution => 0x0006
  | .writeQueue => 0x0007
  | .shuttingDown => 0x0008

/-! ## Reading -/

/-- A reader over the bytes that are left. -/
abbrev Reader := StateT Bytes (Except ProtoError)

namespace Reader

def take (n : Nat) : Reader Bytes := fun buf =>
  if n ≤ buf.length then .ok (buf.take n, buf.drop n)
  else .error (.truncated n buf.length)

/-- A little-endian number of `w` bytes. -/
def number (w : Nat) : Reader Nat := do
  return ofLe (← take w)

def u8 : Reader UInt8 := do
  return UInt8.ofNat (← number 1)

def u16 : Reader UInt16 := do
  return UInt16.ofNat (← number 2)

def u64 : Reader UInt64 := do
  return UInt64.ofNat (← number 8)

def i64 : Reader Int64 := do
  return (← u64).toInt64

/-- A byte that is neither 0 nor 1 is refused. -/
def bool : Reader Bool := do
  let b ← u8
  if b = 0 then return false
  else if b = 1 then return true
  else throw (.malformed "bool")

def bytes : Reader Bytes := do
  take (← number 4)

def text : Reader String := do
  match String.fromUTF8? ⟨(← bytes).toArray⟩ with
  | some s => return s
  | none => throw .badUtf8

/-- A count that will drive a loop: no more than the protocol allows, and no
    more than the bytes that are left can hold. -/
def count (minBytesEach hardMax : Nat) : Reader Nat := do
  let n ← number 4
  if n > hardMax then throw (.tooManyElements n hardMax)
  let ceiling := (← get).length / max minBytesEach 1
  if n > ceiling then throw (.tooLarge n ceiling)
  return n

/-- `for _ in 0..n`, each round reading an element. -/
def times {α : Type} (element : Reader α) : Nat → Reader (List α)
  | 0 => return []
  | n + 1 => do
      let a ← element
      return a :: (← times element n)

/-- Error unless the body has been consumed exactly. -/
def finish : Reader Unit := fun buf =>
  match buf.length with
  | 0 => .ok ((), buf)
  | n => .error (.trailingBytes n)

end Reader

/-! ## Writing -/

structure Writer where
  buf : Bytes
  err : Option ProtoError
  deriving DecidableEq, Repr

namespace Writer

def new : Writer := ⟨[], none⟩

/-- The bytes, or the first error that happened while writing them. -/
def finish (w : Writer) : Except ProtoError Bytes :=
  match w.err with
  | some e => .error e
  | none => .ok w.buf

def fail (w : Writer) (e : ProtoError) : Writer :=
  match w.err with
  | some _ => w
  | none => { w with err := some e }

def raw (w : Writer) (b : Bytes) : Writer := { w with buf := w.buf ++ b }

def u8 (w : Writer) (v : UInt8) : Writer := w.raw [v]

def u16 (w : Writer) (v : UInt16) : Writer := w.raw (le 2 v.toNat)

def u32 (w : Writer) (v : Nat) : Writer := w.raw (le 4 v)

def u64 (w : Writer) (v : UInt64) : Writer := w.raw (le 8 v.toNat)

def bytes (w : Writer) (v : Bytes) : Writer :=
  if v.length > MAX_BODY then w.fail (.tooLarge v.length MAX_BODY)
  else (w.u32 v.length).raw v

def text (w : Writer) (v : String) : Writer := w.bytes (asBytes v)

/-- An element count, refusing one the protocol does not permit. -/
def count (w : Writer) (n hardMax : Nat) : Writer :=
  if n > hardMax then w.fail (.tooManyElements n hardMax) else w.u32 n

end Writer

/-! ## Values on the wire -/

def writeValue (w : Writer) : Value → Writer
  | .null => w.u8 TAG_NULL
  | .bool b => (w.u8 TAG_BOOL).u8 (if b then 1 else 0)
  | .int i => (w.u8 TAG_INT).u64 i.toUInt64
  | .float bits => (w.u8 TAG_FLOAT).u64 bits
  | .text s => (w.u8 TAG_TEXT).text s
  | .bytes b => (w.u8 TAG_BYTES).bytes b

/-- `read_value`. -/
def readValue : Reader Value := do
  let tag ← Reader.u8
  if tag = TAG_NULL then return .null
  else if tag = TAG_BOOL then return .bool (← Reader.bool)
  else if tag = TAG_INT then return .int (← Reader.i64)
  else if tag = TAG_FLOAT then return .float (← Reader.u64)
  else if tag = TAG_TEXT then return .text (← Reader.text)
  else if tag = TAG_BYTES then return .bytes (← Reader.bytes)
  else throw (.unknownTag tag)

def encodedValueLen : Value → Nat
  | .null => 1 + 0
  | .bool _ => 1 + 1
  | .int _ => 1 + 8
  | .float _ => 1 + 8
  | .text s => 1 + (4 + (asBytes s).length)
  | .bytes b => 1 + (4 + b.length)

def encodedRowLen (row : List Value) : Nat := 4 + (row.map encodedValueLen).sum

def writeRow (w : Writer) (row : List Value) : Writer :=
  row.foldl writeValue (w.count row.length MAX_VALUES_PER_ROW)

/-- `read_row`. -/
def readRow : Reader (List Value) := do
  let n ← Reader.count MIN_VALUE_LEN MAX_VALUES_PER_ROW
  Reader.times readValue n

/-! ## Messages -/

inductive ClientMessage
  | auth (token : Bytes)
  | query (source : String)
  | querySql (source : String)
  | close
  deriving DecidableEq, Repr

inductive ServerMessage
  | ready
  | ok
  | count (verb : String) (n : UInt64)
  | rowsBegin (columns : List String)
  | rowBatch (rows : List (List Value))
  | rowsEnd
  | lines (lines : List String)
  | error (code : UInt16) (message : String)
  deriving DecidableEq, Repr

def T_AUTH : UInt8 := 0x10
def T_QUERY : UInt8 := 0x11
def T_QUERY_SQL : UInt8 := 0x12
def T_CLOSE : UInt8 := 0x13
def T_READY : UInt8 := 0x20
def T_OK : UInt8 := 0x21
def T_COUNT : UInt8 := 0x22
def T_ROWS_BEGIN : UInt8 := 0x23
def T_ROW_BATCH : UInt8 := 0x24
def T_ROWS_END : UInt8 := 0x25
def T_LINES : UInt8 := 0x26
def T_ERROR : UInt8 := 0x27

/-- `ServerMessage::error`. -/
def ServerMessage.failure (code : ErrorCode) (message : String) : ServerMessage :=
  .error code.asU16 message

/-- `ServerMessage::is_terminal`. -/
def ServerMessage.isTerminal : ServerMessage → Bool
  | .ok | .count _ _ | .rowsEnd | .lines _ | .error _ _ => true
  | .ready | .rowsBegin _ | .rowBatch _ => false

/-- `ServerMessage::msg_type`. -/
def ServerMessage.msgType : ServerMessage → UInt8
  | .ready => T_READY
  | .ok => T_OK
  | .count _ _ => T_COUNT
  | .rowsBegin _ => T_ROWS_BEGIN
  | .rowBatch _ => T_ROW_BATCH
  | .rowsEnd => T_ROWS_END
  | .lines _ => T_LINES
  | .error _ _ => T_ERROR

/-- `ServerMessage::body`. -/
def ServerMessage.body : ServerMessage → Except ProtoError Bytes
  | .ready | .ok | .rowsEnd => Writer.new.finish
  | .count verb n => ((Writer.new.text verb).u64 n).finish
  | .rowsBegin columns =>
      (columns.foldl Writer.text (Writer.new.count columns.length MAX_VALUES_PER_ROW)).finish
  | .rowBatch rows =>
      (rows.foldl writeRow (Writer.new.count rows.length MAX_ROWS_PER_BATCH)).finish
  | .lines ls => (ls.foldl Writer.text (Writer.new.count ls.length MAX_LINES)).finish
  | .error code message => ((Writer.new.u16 code).text message).finish

/-- What `ServerMessage::decode` reads under a type byte. -/
def ServerMessage.read (msgType : UInt8) : Reader ServerMessage :=
  if msgType = T_READY then return .ready
  else if msgType = T_OK then return .ok
  else if msgType = T_COUNT then do
    let verb ← Reader.text
    return .count verb (← Reader.u64)
  else if msgType = T_ROWS_BEGIN then do
    let n ← Reader.count MIN_TEXT_LEN MAX_VALUES_PER_ROW
    return .rowsBegin (← Reader.times Reader.text n)
  else if msgType = T_ROW_BATCH then do
    let n ← Reader.count MIN_ROW_LEN MAX_ROWS_PER_BATCH
    return .rowBatch (← Reader.times readRow n)
  else if msgType = T_ROWS_END then return .rowsEnd
  else if msgType = T_LINES then do
    let n ← Reader.count MIN_TEXT_LEN MAX_LINES
    return .lines (← Reader.times Reader.text n)
  else if msgType = T_ERROR then do
    let code ← Reader.u16
    return .error code (← Reader.text)
  else throw (.unknownTag msgType)

/-- `ServerMessage::decode`. -/
def ServerMessage.decode (msgType : UInt8) (body : Bytes) : Except ProtoError ServerMessage :=
  let read : Reader ServerMessage := do
    let msg ← ServerMessage.read msgType
    Reader.finish
    return msg
  (read body).map Prod.fst

/-- `ClientMessage::msg_type`. -/
def ClientMessage.msgType : ClientMessage → UInt8
  | .auth _ => T_AUTH
  | .query _ => T_QUERY
  | .querySql _ => T_QUERY_SQL
  | .close => T_CLOSE

/-- `ClientMessage::body`. -/
def ClientMessage.body : ClientMessage → Except ProtoError Bytes
  | .auth token => (Writer.new.bytes token).finish
  | .query source | .querySql source => (Writer.new.text source).finish
  | .close => Writer.new.finish

/-- `ClientMessage::decode`. -/
def ClientMessage.decode (msgType : UInt8) (body : Bytes) : Except ProtoError ClientMessage :=
  let read : Reader ClientMessage := do
    let msg ←
      if msgType = T_AUTH then ClientMessage.auth <$> Reader.bytes
      else if msgType = T_QUERY then ClientMessage.query <$> Reader.text
      else if msgType = T_QUERY_SQL then ClientMessage.querySql <$> Reader.text
      else if msgType = T_CLOSE then pure ClientMessage.close
      else throw (.unknownTag msgType)
    Reader.finish
    return msg
  (read body).map Prod.fst

/-! ## Frames -/

def HEADER_LEN : Nat := 5

structure FrameHeader where
  msgType : UInt8
  bodyLen : Nat
  deriving DecidableEq, Repr

/-- `FrameHeader::decode`, over the five bytes of a header. -/
def FrameHeader.decode (bytes : Bytes) : Except ProtoError FrameHeader :=
  let bodyLen := ofLe (slice 1 4 bytes)
  if bodyLen > MAX_BODY then .error (.tooLarge bodyLen MAX_BODY)
  else .ok ⟨bytes.headD 0, bodyLen⟩

/-- A complete frame: header followed by body. -/
def frame (msgType : UInt8) (body : Bytes) : Except ProtoError Bytes :=
  if body.length > MAX_BODY then .error (.tooLarge body.length MAX_BODY)
  else do
    let out ← ((Writer.new.u8 msgType).u32 body.length).finish
    return out ++ body

/-- `ServerMessage::encode`. -/
def ServerMessage.encode (m : ServerMessage) : Except ProtoError Bytes := do
  frame m.msgType (← m.body)

/-- `ClientMessage::encode`. -/
def ClientMessage.encode (m : ClientMessage) : Except ProtoError Bytes := do
  frame m.msgType (← m.body)

/-! ## The handshake -/

def VERSION : UInt16 := 1

/-- `b"QUANTY"`. -/
def MAGIC : Bytes := [0x51, 0x55, 0x41, 0x4E, 0x54, 0x59]

def CLIENT_HELLO_LEN : Nat := 9

inductive Refusal
  | versionTooOld
  | versionTooNew
  | badMagic
  deriving DecidableEq, Repr

def Refusal.asU8 : Refusal → UInt8
  | .versionTooOld => 0x01
  | .versionTooNew => 0x02
  | .badMagic => 0x03

inductive ServerHello
  | accepted (version : UInt16)
  | refused (r : Refusal)
  deriving DecidableEq, Repr

/-- `ServerHello::encode`. -/
def ServerHello.encode : ServerHello → Bytes
  | .accepted version => 0x01 :: (le 2 version.toNat ++ [0])
  | .refused r => [0x00, 0, 0, r.asU8]

/-- `ClientHello::decode`: the version a hello asks for. -/
def ClientHello.decode (bytes : Bytes) : Except ProtoError UInt16 :=
  let read : Reader UInt16 := do
    let magic ← Reader.take MAGIC.length
    if magic ≠ MAGIC then throw .badMagic
    let version ← Reader.number 2
    if (← Reader.u8) ≠ 0 then throw (.malformed "reserved byte")
    return UInt16.ofNat version
  (read bytes).map Prod.fst

/-- `negotiate`. -/
def negotiate (version : UInt16) : ServerHello :=
  if version = 0 then .refused .versionTooOld
  else if version > VERSION then .refused .versionTooNew
  else .accepted (min version VERSION)

/-! ## Batches of rows -/

/-- Room a `RowBatch` body has for rows, once its own count is deducted. -/
def BATCH_BUDGET : Nat := MAX_BODY - 4

/-- The loop of `RowBatcher`: `pending` is the batch being filled and `used`
    the bytes its rows take. -/
def batchLoop (pending : List (List Value)) (used : Nat) :
    List (List Value) → Except ProtoError (List ServerMessage)
  | [] => .ok (if pending.isEmpty then [] else [.rowBatch pending])
  | row :: rest =>
      let size := encodedRowLen row
      if size > BATCH_BUDGET ∨ row.length > MAX_VALUES_PER_ROW then
        .error (.tooLarge (size % 2 ^ 64) BATCH_BUDGET)
      else if ¬ pending.isEmpty
          ∧ (used + size > BATCH_BUDGET ∨ pending.length ≥ MAX_ROWS_PER_BATCH) then do
        let more ← batchLoop [row] size rest
        return .rowBatch pending :: more
      else batchLoop (pending ++ [row]) (used + size) rest

/-- `batch_rows`. -/
def batchRows (rows : List (List Value)) : Except ProtoError (List ServerMessage) :=
  batchLoop [] 0 rows

end QuantyProto
