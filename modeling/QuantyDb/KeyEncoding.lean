import QuantyDb.PageModel
import QuantyDb.BigEndian

/-! # Tuples as keys

    A key of the engine is a tuple of values, each written as a tag and its
    bytes, one after another.  Integers and floats are big endian with their
    sign bits turned so that unsigned order is their order; text and bytes are
    escaped, a zero byte as `00 FF`, and end with a single zero byte.

    A float is its bits: that is how the engine compares and stores one.  Text
    is a string, whose bytes are UTF-8 by construction. -/

namespace QuantyEncoding

open QuantyKey QuantyPage BigEndian

inductive Value
  | null
  | bool (b : Bool)
  | int (i : Int64)
  | float (bits : UInt64)
  | text (s : String)
  | bytes (b : Bytes)
  deriving DecidableEq, Repr

def TAG_NULL : UInt8 := 0x01
def TAG_BOOL : UInt8 := 0x02
def TAG_INT : UInt8 := 0x03
def TAG_FLOAT : UInt8 := 0x04
def TAG_TEXT : UInt8 := 0x05
def TAG_BYTES : UInt8 := 0x06

/-- `1 << 63`. -/
def SIGN : UInt64 := 0x8000000000000000

/-- `as_bytes`. -/
def asBytes (s : String) : Bytes := s.toByteArray.data.toList

/-! ## Encoding -/

/-- `escape_into`. -/
def escape : Bytes → Bytes
  | [] => [0x00]
  | b :: rest => if b = 0x00 then 0x00 :: 0xFF :: escape rest else b :: escape rest

/-- The bits of a float, turned so that they compare as the float does. -/
def floatOrdered (bits : UInt64) : UInt64 :=
  if bits &&& SIGN ≠ 0 then ~~~bits else bits ^^^ SIGN

/-- `Value::encode_into`. -/
def Value.encode : Value → Bytes
  | .null => [TAG_NULL]
  | .bool b => [TAG_BOOL, if b then 1 else 0]
  | .int i => TAG_INT :: be 8 (i.toUInt64 ^^^ SIGN).toNat
  | .float bits => TAG_FLOAT :: be 8 (floatOrdered bits).toNat
  | .text s => TAG_TEXT :: escape (asBytes s)
  | .bytes b => TAG_BYTES :: escape b

def encodeKey (vs : List Value) : Key := vs.flatMap Value.encode

/-! ## Decoding -/

/-- `unescape`: the bytes up to the terminator, and what follows it. -/
def unescape : Bytes → Option (Bytes × Bytes)
  | [] => none
  | [b] => if b = 0x00 then some ([], []) else none
  | b :: c :: rest =>
      if b = 0x00 then
        if c = 0xFF then (unescape rest).map (fun p => (0x00 :: p.1, p.2))
        else some ([], c :: rest)
      else (unescape (c :: rest)).map (fun p => (b :: p.1, p.2))

/-- What `decode_one` says of a key it cannot read. -/
def bad (what : String) : Error := .corrupted none ("key decode: " ++ what)

/-- The bits behind the turned ones. -/
def floatBits (ordered : UInt64) : UInt64 :=
  if ordered &&& SIGN ≠ 0 then ordered ^^^ SIGN else ~~~ordered

/-- `u64::from_be_bytes` on the first eight bytes. -/
def takeU64 (what : String) (buf : Bytes) : Except Error (UInt64 × Bytes) :=
  if buf.length < 8 then .error (bad what)
  else .ok (UInt64.ofNat (ofBe (buf.take 8)), buf.drop 8)

/-- An escaped element, or what is wrong with it. -/
def takeEscaped (what : String) (buf : Bytes) : Except Error (Bytes × Bytes) :=
  match unescape buf with
  | none => .error (bad what)
  | some p => .ok p

/-- `String::from_utf8`. -/
def fromUtf8 (b : Bytes) : Except Error String :=
  match String.fromUTF8? ⟨b.toArray⟩ with
  | none => .error (bad "text is not utf-8")
  | some s => .ok s

def decodeOne : Bytes → Except Error (Value × Bytes)
  | [] => .error (bad "empty")
  | tag :: rest =>
      if tag = TAG_NULL then .ok (.null, rest)
      else if tag = TAG_BOOL then
        match rest with
        | [] => .error (bad "truncated bool")
        | b :: rest =>
            if b = 0 then .ok (.bool false, rest)
            else if b = 1 then .ok (.bool true, rest)
            else .error (bad "bad bool byte")
      else if tag = TAG_INT then do
        let (raw, rest) ← takeU64 "truncated int" rest
        return (.int (raw ^^^ SIGN).toInt64, rest)
      else if tag = TAG_FLOAT then do
        let (ordered, rest) ← takeU64 "truncated float" rest
        return (.float (floatBits ordered), rest)
      else if tag = TAG_TEXT then do
        let (bytes, rest) ← takeEscaped "unterminated text" rest
        return (.text (← fromUtf8 bytes), rest)
      else if tag = TAG_BYTES then do
        let (bytes, rest) ← takeEscaped "unterminated bytes" rest
        return (.bytes bytes, rest)
      else .error (bad "unknown tag")

/-- The loop of `decode_key`.  Every element takes a byte off the buffer, so
    the length of the key is fuel enough. -/
def decodeLoop : Nat → Bytes → Except Error (List Value)
  | _, [] => .ok []
  | 0, _ :: _ => .error .outOfFuel
  | fuel + 1, b :: buf => do
      let (value, rest) ← decodeOne (b :: buf)
      return value :: (← decodeLoop fuel rest)

def decodeKey (key : Key) : Except Error (List Value) := decodeLoop key.length key

/-! ## The logical order -/

def Value.rank : Value → Nat
  | .null => 1
  | .bool _ => 2
  | .int _ => 3
  | .float _ => 4
  | .text _ => 5
  | .bytes _ => 6

/-- `f64::total_cmp`: where a float stands among all floats, negative ones
    below and in reverse. -/
def totalOrder (bits : UInt64) : Int :=
  if bits.toNat < 2 ^ 63 then bits.toNat else 2 ^ 63 - 1 - bits.toNat

/-- Values of one type compare by value, others by the rank of their types. -/
def Value.logicalCmp : Value → Value → Ordering
  | .bool p, .bool q => compare p q
  | .int p, .int q => compare p.toInt q.toInt
  | .float p, .float q => compare (totalOrder p) (totalOrder q)
  | .text p, .text q => memcmp (asBytes p) (asBytes q)
  | .bytes p, .bytes q => memcmp p q
  | p, q => compare p.rank q.rank

/-- Tuples compare element by element, and a longer tuple comes after its own
    beginning. -/
def logicalCmp : List Value → List Value → Ordering
  | [], [] => .eq
  | [], _ :: _ => .lt
  | _ :: _, [] => .gt
  | x :: xs, y :: ys => (x.logicalCmp y).then (logicalCmp xs ys)

end QuantyEncoding
