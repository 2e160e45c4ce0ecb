import QuantyDb.KeyEncoding

/-! # The token file

    A line is a digest in hex and a label; what follows a `#` is a comment.  A
    file that cannot be used leaves the last good set in force. -/

namespace QuantyTokens

open QuantyPage

inductive TokensError
  | io
  | writable
  | malformed (line : Nat) (detail : String)
  deriving DecidableEq, Repr

/-! ## The text of the file -/

/-- `char::is_whitespace`. -/
def isWhitespace (c : Char) : Bool :=
  let n := c.toNat
  (9 ≤ n && n ≤ 13) || n == 0x20 || n == 0x85 || n == 0xA0 || n == 0x1680 ||
    (0x2000 ≤ n && n ≤ 0x200A) || n == 0x2028 || n == 0x2029 || n == 0x202F || n == 0x205F
      || n == 0x3000

/-- `str::lines`, with the line so far in reverse. -/
def linesFrom : List Char → List Char → List (List Char)
  | cur, [] => if cur.isEmpty then [] else [cur.reverse]
  | cur, c :: rest =>
      if c = '\n' then
        let line := match cur with
          | '\r' :: before => before
          | _ => cur
        line.reverse :: linesFrom [] rest
      else linesFrom (c :: cur) rest

def lines (text : String) : List (List Char) := linesFrom [] text.toList

/-- `str::trim`. -/
def trim (l : List Char) : List Char :=
  ((l.dropWhile isWhitespace).reverse.dropWhile isWhitespace).reverse

/-- `split_whitespace`, with the word so far in reverse. -/
def wordsFrom : List Char → List Char → List (List Char)
  | cur, [] => if cur.isEmpty then [] else [cur.reverse]
  | cur, c :: rest =>
      if isWhitespace c then
        if cur.isEmpty then wordsFrom [] rest else cur.reverse :: wordsFrom [] rest
      else wordsFrom (c :: cur) rest

def hexValue (c : Char) : Option UInt8 :=
  let n := c.toNat
  if 48 ≤ n ∧ n ≤ 57 then some (UInt8.ofNat (n - 48))
  else if 97 ≤ n ∧ n ≤ 102 then some (UInt8.ofNat (n - 97 + 10))
  else if 65 ≤ n ∧ n ≤ 70 then some (UInt8.ofNat (n - 65 + 10))
  else none

def hexBytes : List Char → Option Bytes
  | [] => some []
  | [_] => none
  | hi :: lo :: rest => do
      let h ← hexValue hi
      let l ← hexValue lo
      let more ← hexBytes rest
      return ((h <<< 4) ||| l) :: more

/-- `from_hex`: sixty four characters. -/
def fromHex (l : List Char) : Option Bytes := if l.length ≠ 64 then none else hexBytes l

def nibble (n : UInt8) : Char :=
  if n < 10 then Char.ofUInt8 (48 + n) else Char.ofUInt8 (97 + n - 10)

/-- `to_hex`: lowercase. -/
def toHex (digest : Bytes) : String :=
  String.ofList (digest.flatMap fun byte : UInt8 => [nibble (byte >>> 4), nibble (byte &&& 0x0f)])

/-- `mint`: a token from random bytes, and the line that lets a server accept
    it. -/
def mint (sha256 : Bytes → Bytes) (raw : Bytes) (label : String) : String × String :=
  let token := toHex raw
  (token, toHex (sha256 (QuantyEncoding.asBytes token)) ++ " " ++ label)

/-- The check of the `token` command: a label is one word. -/
def isLabel (label : String) : Bool := (wordsFrom [] label.toList).length == 1

/-- The digests of the lines from a line number on. -/
def parseLines : Nat → List (List Char) → Except TokensError (List Bytes)
  | _, [] => .ok []
  | index, raw :: rest => do
      let line := trim (raw.takeWhile (· ≠ '#'))
      if line.isEmpty then parseLines (index + 1) rest
      else
        let parts := wordsFrom [] line
        match fromHex (parts.headD []) with
        | none => .error (.malformed (index + 1) "expected sixty four hex characters")
        | some digest =>
            if parts.tail.isEmpty then
              .error (.malformed (index + 1) "a hash needs a label after it")
            else return digest :: (← parseLines (index + 1) rest)

/-! ## The set in force -/

structure Tokens where
  accepted : List Bytes
  seen : Option Nat
  permissive : Bool
  deriving DecidableEq, Repr

/-- What the calls of one reload find: when the file was changed (asked twice),
    its permissions (asked twice) and its text. -/
structure Look where
  changed : Option Nat
  stamp : Option Nat
  mode : Option UInt32
  modeAgain : Option UInt32
  text : Option String
  deriving DecidableEq, Repr

/-- Whether anyone but the owner can read the file. -/
def readableByOthers : Option UInt32 → Bool
  | some mode => mode &&& 0o044 != 0
  | none => false

namespace Tokens

def read (t : Tokens) (look : Look) : Except TokensError Unit × Tokens :=
  match look.mode with
  | none => (.error .io, t)
  | some mode =>
      if mode &&& 0o022 ≠ 0 then (.error .writable, t)
      else
        let t := { t with permissive := readableByOthers look.modeAgain }
        match look.text with
        | none => (.error .io, t)
        | some text => match parseLines 0 (lines text) with
            | .error e => (.error e, t)
            | .ok accepted => (.ok (), { t with accepted := accepted, seen := look.stamp })

/-- `reload_if_changed`: whether anything was read again. -/
def reloadIfChanged (t : Tokens) (look : Look) : Except TokensError Bool × Tokens :=
  if look.changed = t.seen ∧ look.changed.isSome then (.ok false, t)
  else match t.read look with
    | (.error e, t) => (.error e, t)
    | (.ok _, t) => (.ok true, t)

/-- Whether a token with this digest is accepted. -/
def accepts (t : Tokens) (digest : Bytes) : Bool := t.accepted.contains digest

end Tokens

/-- A file is read as a whole or not at all. -/
theorem read_cases (t : Tokens) (look : Look) :
    (∃ text accepted t', look.text = some text ∧ parseLines 0 (lines text) = .ok accepted ∧
      t.read look = (.ok (), t') ∧ t'.accepted = accepted) ∨
    (∃ e t', t.read look = (.error e, t') ∧ t'.accepted = t.accepted) := by
  rw [Tokens.read]
  cases look.mode with
  | none => exact .inr ⟨_, _, rfl, rfl⟩
  | some mode =>
      dsimp only
      by_cases hmode : mode &&& 0o022 ≠ 0
      · rw [if_pos hmode]
        exact .inr ⟨_, _, rfl, rfl⟩
      · rw [if_neg hmode]
        cases look.text with
        | none => exact .inr ⟨_, _, rfl, rfl⟩
        | some text =>
            dsimp only
            cases hparse : parseLines 0 (lines text) with
            | error e => exact .inr ⟨_, _, rfl, rfl⟩
            | ok accepted => exact .inl ⟨text, accepted, _, rfl, hparse, rfl, rfl⟩

/-- **A RELOAD READS THE FILE OR CHANGES NOTHING THAT COUNTS**: the set in force
    afterwards is what a file that could be read says, or what it was. -/
theorem reload_cases (t : Tokens) (look : Look) :
    (∃ text, look.text = some text ∧
      parseLines 0 (lines text) = .ok (t.reloadIfChanged look).2.accepted ∧
      (t.reloadIfChanged look).1 = .ok true) ∨
    ((t.reloadIfChanged look).2.accepted = t.accepted ∧ (t.reloadIfChanged look).1 ≠ .ok true) := by
  rw [Tokens.reloadIfChanged]
  split
  · exact .inr ⟨rfl, nofun⟩
  · rcases read_cases t look with
      ⟨text, accepted, t', htext, hparse, hread, rfl⟩ | ⟨e, t', hread, hsame⟩
    · rw [hread]
      exact .inl ⟨text, htext, hparse, rfl⟩
    · rw [hread]
      exact .inr ⟨hsame, nofun⟩

end QuantyTokens
