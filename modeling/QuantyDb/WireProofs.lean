import QuantyDb.AnswerProofs
import QuantyDb.Outcome

/-! # Messages and their bytes

    Every message has one spelling.  `wireBytes` says which: a length in front
    of a string, a count in front of a list, one element after another.  A
    writer appends it, unless a string or a count is over its limit (`Puts`);
    a reader takes it off the front and hands on what follows, and accepts
    nothing else (`Reads`).  The checks of a reader that a count has to pass
    hold of whatever a writer wrote, since no element is shorter than the
    reader assumes. -/

namespace QuantyWire

open QuantyKey QuantyPage QuantyEncoding QuantyProto QuantyAnswer LittleEndian Outcome List Reader
open Writer
open Except
open ServerMessage

variable {α β : Type}

/-! ## Readers -/

/-- A reader takes the spelling of a value off the front, and returns a value
    only for its spelling. -/
def Reads (p : Reader α) (ok : α → Prop) (out : α → Bytes) : Prop :=
  ∀ buf a rest, p buf = .ok (a, rest) ↔ ok a ∧ buf = out a ++ rest

variable {p : Reader α} {b body buf rest : Bytes} {t : UInt8} {m : ServerMessage} {ok : α → Prop}
  {out : α → Bytes} {n : Nat} {bytes : Bytes} {l : List α} {a : α}

/-- The same spelling, read into another type. -/
theorem Reads.map (h : Reads p ok out) {f : α → β} {ok' : β → Prop} {out' : β → Bytes}
    (hf : ∀ a, ok a → ok' (f a) ∧ out' (f a) = out a) (hback : ∀ b, ok' b → ∃ a, ok a ∧ f a = b) :
    Reads (do return f (← p)) ok' out' := by
  intro buf b rest
  simp only [run_bind_eq_ok, run_pure_eq_ok, h _ _ _]
  constructor
  · rintro ⟨a, _, ⟨hok, rfl⟩, rfl, rfl⟩
    obtain ⟨hok', hout⟩ := hf a hok
    exact ⟨hok', by rw [hout]⟩
  · rintro ⟨hok', rfl⟩
    obtain ⟨a, hok, rfl⟩ := hback b hok'
    exact ⟨a, rest, ⟨hok, by rw [(hf a hok).2]⟩, rfl, rfl⟩

/-! ## Numbers and strings -/

theorem take_eq_ok {a : Bytes} :
    Reader.take n buf = .ok (a, rest) ↔ a.length = n ∧ buf = a ++ rest := cut_eq_ok

theorem reads_number (w : Nat) : Reads (Reader.number w) (· < 256 ^ w) (le w) := by
  intro buf n rest
  simp only [Reader.number, run_bind_eq_ok, run_pure_eq_ok, take_eq_ok]
  constructor
  · rintro ⟨bytes, _, ⟨rfl, rfl⟩, rfl, rfl⟩
    exact ⟨ofLe_lt bytes, by rw [le_ofLe]⟩
  · rintro ⟨hlt, rfl⟩
    exact ⟨le w n, rest, ⟨length_le w n, rfl⟩, ofLe_le hlt, rfl⟩

theorem reads_u8 : Reads u8 (fun _ => True) (fun b => [b]) := by
  refine (reads_number 1).map (fun n hn => ⟨trivial, ?_⟩) fun b _ => ⟨b.toNat, b.toNat_lt, by simp⟩
  rw [le, le]

theorem reads_u16 : Reads u16 (fun _ => True) (fun v => le 2 v.toNat) := by
  refine (reads_number 2).map (fun n hn => ⟨trivial, ?_⟩) fun v _ => ⟨v.toNat, v.toNat_lt, by simp⟩
  rw [UInt16.toNat_ofNat', Nat.mod_eq_of_lt (by omega)]

theorem reads_u64 : Reads u64 (fun _ => True) (fun v => le 8 v.toNat) := by
  refine (reads_number 8).map (fun n hn => ⟨trivial, ?_⟩) fun v _ => ⟨v.toNat, v.toNat_lt, by simp⟩
  rw [UInt64.toNat_ofNat', Nat.mod_eq_of_lt (by omega)]

theorem reads_i64 : Reads i64 (fun _ => True) (fun v => le 8 v.toUInt64.toNat) :=
  reads_u64.map (fun _ _ => ⟨trivial, rfl⟩) fun v _ => ⟨v.toUInt64, trivial, rfl⟩

theorem reads_bool : Reads bool (fun _ => True) (fun b => [if b then 1 else 0]) := by
  intro buf b rest
  rw [Reader.bool, run_bind_eq_ok]
  constructor
  · rintro ⟨v, mid, hread, h⟩
    obtain ⟨-, rfl⟩ := (reads_u8 _ _ _).mp hread
    split at h
    · next hv =>
      obtain ⟨rfl, rfl⟩ := run_pure_eq_ok.mp h
      exact ⟨trivial, by rw [hv]; rfl⟩
    · split at h
      · next hv =>
        obtain ⟨rfl, rfl⟩ := run_pure_eq_ok.mp h
        exact ⟨trivial, by rw [hv]; rfl⟩
      · exact absurd h run_throw_ne_ok
  · rintro ⟨-, rfl⟩
    refine ⟨_, rest, (reads_u8 _ _ _).mpr ⟨trivial, rfl⟩, ?_⟩
    cases b <;> rfl

/-- A length of four bytes. -/
def Short (bytes : Bytes) : Prop := bytes.length < 256 ^ 4

theorem reads_bytes : Reads Reader.bytes Short prefixed := by
  intro buf bytes rest
  simp only [Reader.bytes, run_bind_eq_ok, reads_number 4 _ _ _, take_eq_ok]
  constructor
  · rintro ⟨_, _, ⟨hlt, rfl⟩, rfl, rfl⟩
    exact ⟨hlt, by rw [prefixed, append_assoc]⟩
  · rintro ⟨hlt, rfl⟩
    exact ⟨_, bytes ++ rest, ⟨hlt, by rw [prefixed, append_assoc]⟩, rfl, rfl⟩

/-- Text is the bytes it is made of, and they are text. -/
theorem fromUTF8_eq_some {s : String} :
    String.fromUTF8? ⟨bytes.toArray⟩ = some s ↔ asBytes s = bytes := by
  rw [String.fromUTF8?]
  constructor
  · intro h
    split at h
    · obtain rfl := Option.some.inj h
      rfl
    · cases h
  · rintro rfl
    exact dif_pos s.isValidUTF8

theorem reads_text :
    Reads Reader.text (fun s => Short (asBytes s)) (fun s => prefixed (asBytes s)) := by
  intro buf s rest
  rw [Reader.text, run_bind_eq_ok]
  constructor
  · rintro ⟨bytes, mid, hread, h⟩
    obtain ⟨hshort, rfl⟩ := (reads_bytes _ _ _).mp hread
    cases htext : String.fromUTF8? ⟨bytes.toArray⟩ with
    | none =>
        rw [htext] at h
        exact absurd h run_throw_ne_ok
    | some s' =>
        rw [htext] at h
        obtain ⟨rfl, rfl⟩ := run_pure_eq_ok.mp h
        obtain rfl := fromUTF8_eq_some.mp htext
        exact ⟨hshort, rfl⟩
  · rintro ⟨hshort, rfl⟩
    refine ⟨_, rest, (reads_bytes _ _ _).mpr ⟨hshort, rfl⟩, ?_⟩
    rw [fromUTF8_eq_some.mpr rfl]
    rfl

/-! ## Values -/

theorem reads_value :
    Reads readValue (fun v => ∀ b ∈ valueStrings v, Short b) valueBytes := by
  intro buf v rest
  rw [readValue, run_bind_eq_ok]
  constructor
  · rintro ⟨tag, mid, hread, h⟩
    obtain ⟨-, rfl⟩ := (reads_u8 _ _ _).mp hread
    split_ifs at h with h₁ h₂ h₃ h₄ h₅ h₆
    · obtain ⟨rfl, rfl⟩ := run_pure_eq_ok.mp h
      exact ⟨by simp [valueStrings], by rw [h₁]; rfl⟩
    · obtain ⟨a, mid', ha, h⟩ := run_bind_eq_ok.mp h
      obtain ⟨rfl, rfl⟩ := run_pure_eq_ok.mp h
      obtain ⟨-, rfl⟩ := (reads_bool _ _ _).mp ha
      exact ⟨by simp [valueStrings], by rw [h₂]; rfl⟩
    · obtain ⟨a, mid', ha, h⟩ := run_bind_eq_ok.mp h
      obtain ⟨rfl, rfl⟩ := run_pure_eq_ok.mp h
      obtain ⟨-, rfl⟩ := (reads_i64 _ _ _).mp ha
      exact ⟨by simp [valueStrings], by rw [h₃]; rfl⟩
    · obtain ⟨a, mid', ha, h⟩ := run_bind_eq_ok.mp h
      obtain ⟨rfl, rfl⟩ := run_pure_eq_ok.mp h
      obtain ⟨-, rfl⟩ := (reads_u64 _ _ _).mp ha
      exact ⟨by simp [valueStrings], by rw [h₄]; rfl⟩
    · obtain ⟨a, mid', ha, h⟩ := run_bind_eq_ok.mp h
      obtain ⟨rfl, rfl⟩ := run_pure_eq_ok.mp h
      obtain ⟨hshort, rfl⟩ := (reads_text _ _ _).mp ha
      exact ⟨by simpa [valueStrings] using hshort, by rw [h₅]; rfl⟩
    · obtain ⟨a, mid', ha, h⟩ := run_bind_eq_ok.mp h
      obtain ⟨rfl, rfl⟩ := run_pure_eq_ok.mp h
      obtain ⟨hshort, rfl⟩ := (reads_bytes _ _ _).mp ha
      exact ⟨by simpa [valueStrings] using hshort, by rw [h₆]; rfl⟩
    · exact absurd h run_throw_ne_ok
  · rintro ⟨hshort, rfl⟩
    -- the tag picks the reader
    have htag : ∀ (tag : UInt8) (payload : Bytes),
        Reader.u8 (tag :: payload) = .ok (tag, payload) :=
      fun tag payload => (reads_u8 _ _ _).mpr ⟨trivial, rfl⟩
    cases v with
    | null => exact ⟨_, _, htag TAG_NULL rest, rfl⟩
    | bool b =>
        refine ⟨_, _, htag TAG_BOOL _, run_bind_eq_ok.mpr ⟨b, rest, ?_, rfl⟩⟩
        exact (reads_bool _ _ _).mpr ⟨trivial, rfl⟩
    | int i =>
        refine ⟨_, _, htag TAG_INT _, run_bind_eq_ok.mpr ⟨i, rest, ?_, rfl⟩⟩
        exact (reads_i64 _ _ _).mpr ⟨trivial, rfl⟩
    | float bits =>
        refine ⟨_, _, htag TAG_FLOAT _, run_bind_eq_ok.mpr ⟨bits, rest, ?_, rfl⟩⟩
        exact (reads_u64 _ _ _).mpr ⟨trivial, rfl⟩
    | text s =>
        refine ⟨_, _, htag TAG_TEXT _, run_bind_eq_ok.mpr ⟨s, rest, ?_, rfl⟩⟩
        exact (reads_text _ _ _).mpr ⟨hshort _ (.head _), rfl⟩
    | bytes b =>
        refine ⟨_, _, htag TAG_BYTES _, run_bind_eq_ok.mpr ⟨b, rest, ?_, rfl⟩⟩
        exact (reads_bytes _ _ _).mpr ⟨hshort _ (.head _), rfl⟩

/-! ## Lists -/

/-- A count and the elements. -/
def counted (out : α → Bytes) (l : List α) : Bytes := le 4 l.length ++ l.flatMap out

theorem reads_times (h : Reads p ok out) (n : Nat) :
    Reads (times p n) (fun l => l.length = n ∧ ∀ a ∈ l, ok a) (fun l => l.flatMap out) := by
  induction n with
  | zero =>
      intro buf l rest
      rw [times, run_pure_eq_ok]
      constructor
      · rintro ⟨rfl, rfl⟩
        exact ⟨⟨rfl, nofun⟩, rfl⟩
      · rintro ⟨⟨hlen, -⟩, rfl⟩
        obtain rfl := length_eq_zero_iff.mp hlen
        exact ⟨rfl, rfl⟩
  | succ n ih =>
      intro buf l rest
      simp only [times, run_bind_eq_ok, run_pure_eq_ok, h _ _ _, ih _ _ _]
      constructor
      · rintro ⟨a, _, ⟨ha, rfl⟩, l', _, ⟨⟨rfl, hl'⟩, rfl⟩, rfl, rfl⟩
        exact ⟨⟨rfl, forall_mem_cons.mpr ⟨ha, hl'⟩⟩, by simp⟩
      · rintro ⟨⟨hlen, hl⟩, rfl⟩
        obtain ⟨a, l', rfl⟩ := exists_cons_of_length_eq_add_one hlen
        obtain ⟨ha, hl'⟩ := forall_mem_cons.mp hl
        exact ⟨a, l'.flatMap out ++ rest, ⟨ha, by simp⟩, l', rest,
          ⟨⟨Nat.succ.inj hlen, hl'⟩, rfl⟩, rfl, rfl⟩

theorem count_eq_ok {m hardMax : Nat} : count m hardMax buf = .ok (n, rest)
      ↔ n ≤ hardMax ∧ n ≤ rest.length / max m 1 ∧ n < 256 ^ 4 ∧ buf = le 4 n ++ rest := by
  rw [Reader.count, run_bind_eq_ok]
  constructor
  · rintro ⟨n', mid, hread, h⟩
    obtain ⟨hlt, rfl⟩ := (reads_number 4 _ _ _).mp hread
    split at h
    · nomatch h
    · next hmax =>
      obtain ⟨-, -, -, h⟩ := run_bind_eq_ok.mp h
      obtain ⟨left, mid', hget, h⟩ := run_bind_eq_ok.mp h
      obtain ⟨rfl, rfl⟩ := Prod.mk.inj (ok.inj hget)
      split at h
      · nomatch h
      · next hceiling =>
        obtain ⟨rfl, rfl⟩ := run_pure_eq_ok.mp h
        exact ⟨not_lt.mp hmax, not_lt.mp hceiling, hlt, rfl⟩
  · rintro ⟨hmax, hceiling, hlt, rfl⟩
    refine ⟨n, rest, (reads_number 4 _ _ _).mpr ⟨hlt, rfl⟩, ?_⟩
    rw [if_neg (not_lt.mpr hmax)]
    refine run_bind_eq_ok.mpr ⟨rest, rest, rfl, ?_⟩
    dsimp only
    rw [if_neg (not_lt.mpr hceiling)]
    rfl

section Counted

variable {p : Reader α} {ok : α → Prop} {out : α → Bytes} {m hardMax : Nat}

/-- **A COUNTED LIST**: the checks of the count pass for every list that is
    not too long, since no element is shorter than they assume. -/
theorem reads_counted (h : Reads p ok out) (hm : 0 < m) (hmin : ∀ a, m ≤ (out a).length)
    (hmax : hardMax < 256 ^ 4) :
    (∃ n mid, count m hardMax buf = .ok (n, mid) ∧ times p n mid = .ok (l, rest))
      ↔ (l.length ≤ hardMax ∧ ∀ a ∈ l, ok a) ∧ buf = counted out l ++ rest := by
  simp only [count_eq_ok, reads_times h _ _ _ _]
  constructor
  · rintro ⟨_, _, ⟨hle, -, -, rfl⟩, ⟨rfl, hl⟩, rfl⟩
    exact ⟨⟨hle, hl⟩, by rw [counted, append_assoc]⟩
  · rintro ⟨⟨hle, hl⟩, rfl⟩
    refine ⟨l.length, l.flatMap out ++ rest, ⟨hle, ?_, hle.trans_lt hmax, ?_⟩, ⟨rfl, hl⟩, rfl⟩
    · have hlen : l.length * m ≤ (l.flatMap out).length := by
        clear hl hle
        induction l with
        | nil => exact Nat.le_of_eq (Nat.zero_mul m)
        | cons a l ih =>
            have := hmin a
            rw [length_cons, Nat.succ_mul, flatMap_cons, length_append]
            omega
      rw [Nat.max_eq_left hm, Nat.le_div_iff_mul_le hm, length_append]
      omega
    · rw [counted, append_assoc]

/-- The same, with what is made of the list. -/
theorem reads_counted_as (h : Reads p ok out) (hm : 0 < m) (hmin : ∀ a, m ≤ (out a).length)
    (hmax : hardMax < 256 ^ 4) (g : List α → β) {b : β} : (do
      let n ← count m hardMax
      return g (← times p n) : Reader β) buf = .ok (b, rest)
      ↔ ∃ l, (l.length ≤ hardMax ∧ ∀ a ∈ l, ok a) ∧ g l = b ∧ buf = counted out l ++ rest := by
  simp only [run_bind_eq_ok, run_pure_eq_ok]
  constructor
  · rintro ⟨n, mid, hcount, l, _, htimes, rfl, rfl⟩
    obtain ⟨hl, hbuf⟩ := (reads_counted h hm hmin hmax).mp ⟨n, mid, hcount, htimes⟩
    exact ⟨l, hl, rfl, hbuf⟩
  · rintro ⟨l, hl, rfl, hbuf⟩
    obtain ⟨n, mid, hcount, htimes⟩ := (reads_counted h hm hmin hmax).mpr ⟨hl, hbuf⟩
    exact ⟨n, mid, hcount, l, rest, htimes, rfl, rfl⟩

theorem puts_counted {g : Writer → α → Writer} {fits : α → Prop}
    (hg : ∀ x, Puts (g · x) (fits x) (out x)) (l : List α) :
    Puts (fun w => l.foldl g (w.count l.length hardMax))
      (l.length ≤ hardMax ∧ ∀ x ∈ l, fits x) (counted out l) :=
  (puts_count l.length hardMax).then (puts_foldl hg l)

theorem length_counted_ge (out : α → Bytes) (ha : a ∈ l) :
    (out a).length ≤ (counted out l).length := by
  have := le_sum_of_mem (mem_map_of_mem (f := fun x => (out x).length) ha)
  rw [counted, length_append, length_flatMap]
  omega

end Counted

/-- The bytes of a row. -/
def rowBytes (row : List Value) : Bytes := counted valueBytes row

theorem reads_row : Reads readRow
    (fun row => row.length ≤ MAX_VALUES_PER_ROW ∧ ∀ v ∈ row, ∀ b ∈ valueStrings v, Short b)
    rowBytes := by
  intro buf row rest
  have hmin : ∀ v, MIN_VALUE_LEN ≤ (valueBytes v).length := by
    intro v
    rw [length_valueBytes]
    cases v <;> simp only [encodedValueLen, MIN_VALUE_LEN] <;> omega
  rw [readRow, run_bind_eq_ok]
  exact reads_counted reads_value (by decide) hmin (by decide)

/-! ## Messages -/

/-- The strings a message is made of. -/
def strings : ServerMessage → List Bytes
  | .count verb _ => [asBytes verb]
  | .rowsBegin columns => columns.map asBytes
  | .rowBatch rows => rows.flatMap (·.flatMap valueStrings)
  | .lines ls => ls.map asBytes
  | .error _ message => [asBytes message]
  | _ => []

/-- The counts of a message are within their limits. -/
def Counts : ServerMessage → Prop
  | .rowsBegin columns => columns.length ≤ MAX_VALUES_PER_ROW
  | .rowBatch rows => rows.length ≤ MAX_ROWS_PER_BATCH
      ∧ ∀ row ∈ rows, row.length ≤ MAX_VALUES_PER_ROW
  | .lines ls => ls.length ≤ MAX_LINES
  | _ => True

/-- The spelling of a message. -/
def wireBytes : ServerMessage → Bytes
  | .count verb n => prefixed (asBytes verb) ++ le 8 n.toNat
  | .rowsBegin columns => counted (fun s => prefixed (asBytes s)) columns
  | .rowBatch rows => counted rowBytes rows
  | .lines ls => counted (fun s => prefixed (asBytes s)) ls
  | .error code message => le 2 code.toNat ++ prefixed (asBytes message)
  | _ => []

/-- **READING A MESSAGE**: under its type, its spelling and nothing else. -/
theorem read_eq_ok : read t buf = .ok (m, rest)
      ↔ m.msgType = t ∧ Counts m ∧ (∀ b ∈ strings m, Short b) ∧ buf = wireBytes m ++ rest := by
  have htexts : ∀ (hardMax : Nat), hardMax < 256 ^ 4 → ∀ (g : List String → ServerMessage) buf m,
      (do
        let n ← count MIN_TEXT_LEN hardMax
        return g (← times text n) : Reader ServerMessage) buf = .ok (m, rest)
        ↔ ∃ l, (l.length ≤ hardMax ∧ ∀ s ∈ l, Short (asBytes s)) ∧ g l = m
          ∧ buf = counted (fun s => prefixed (asBytes s)) l ++ rest := by
    intro hardMax hmax g buf m
    refine reads_counted_as reads_text (by decide) (fun s => ?_) hmax g
    rw [length_prefixed, MIN_TEXT_LEN]
    omega
  have hrows : ∀ (g : List (List Value) → ServerMessage) buf m,
      (do
        let n ← count MIN_ROW_LEN MAX_ROWS_PER_BATCH
        return g (← times readRow n) : Reader ServerMessage) buf = .ok (m, rest)
        ↔ ∃ l, (l.length ≤ MAX_ROWS_PER_BATCH ∧ ∀ row ∈ l, row.length ≤ MAX_VALUES_PER_ROW
            ∧ ∀ v ∈ row, ∀ b ∈ valueStrings v, Short b) ∧ g l = m
          ∧ buf = counted rowBytes l ++ rest := by
    intro g buf m
    refine reads_counted_as reads_row (by decide) (fun row => ?_) (by decide) g
    rw [rowBytes, counted, length_append, length_le, MIN_ROW_LEN]
    omega
  constructor
  · intro h
    rw [ServerMessage.read] at h
    split_ifs at h with h₁ h₂ h₃ h₄ h₅ h₆ h₇ h₈
    · obtain ⟨rfl, rfl⟩ := run_pure_eq_ok.mp h
      exact ⟨h₁.symm, trivial, fun _ hb => (nomatch hb), rfl⟩
    · obtain ⟨rfl, rfl⟩ := run_pure_eq_ok.mp h
      exact ⟨h₂.symm, trivial, fun _ hb => (nomatch hb), rfl⟩
    · simp only [run_bind_eq_ok, run_pure_eq_ok, reads_text _ _ _, reads_u64 _ _ _] at h
      obtain ⟨verb, _, ⟨hverb, rfl⟩, n, _, ⟨-, rfl⟩, rfl, rfl⟩ := h
      exact ⟨h₃.symm, trivial, by simpa [strings] using hverb, by simp [wireBytes]⟩
    · obtain ⟨l, ⟨hlen, hl⟩, rfl, rfl⟩ := (htexts _ (by decide) _ _ _).mp h
      exact ⟨h₄.symm, hlen, by simpa [strings] using hl, rfl⟩
    · obtain ⟨l, ⟨hlen, hl⟩, rfl, rfl⟩ := (hrows _ _ _).mp h
      refine ⟨h₅.symm, ⟨hlen, fun row hrow => (hl row hrow).1⟩, ?_, rfl⟩
      simp only [strings, mem_flatMap]
      rintro b ⟨row, hrow, v, hv, hb⟩
      exact (hl row hrow).2 v hv b hb
    · obtain ⟨rfl, rfl⟩ := run_pure_eq_ok.mp h
      exact ⟨h₆.symm, trivial, fun _ hb => (nomatch hb), rfl⟩
    · obtain ⟨l, ⟨hlen, hl⟩, rfl, rfl⟩ := (htexts _ (by decide) _ _ _).mp h
      exact ⟨h₇.symm, hlen, by simpa [strings] using hl, rfl⟩
    · simp only [run_bind_eq_ok, run_pure_eq_ok, reads_text _ _ _, reads_u16 _ _ _] at h
      obtain ⟨code, _, ⟨-, rfl⟩, message, _, ⟨hmessage, rfl⟩, rfl, rfl⟩ := h
      exact ⟨h₈.symm, trivial, by simpa [strings] using hmessage, by simp [wireBytes]⟩
    · exact absurd h run_throw_ne_ok
  · rintro ⟨rfl, hcounts, hshort, rfl⟩
    -- its type picks the reader
    cases m with
    | ready => rfl
    | ok => rfl
    | rowsEnd => rfl
    | count verb n =>
        show (do
          let verb ← text
          return count verb (← u64) : Reader ServerMessage) _ = _
        simp only [run_bind_eq_ok, run_pure_eq_ok, reads_text _ _ _, reads_u64 _ _ _]
        exact ⟨verb, le 8 n.toNat ++ rest, ⟨hshort _ (.head _), by simp [wireBytes]⟩, n,
          rest, ⟨trivial, rfl⟩, rfl, rfl⟩
    | rowsBegin columns =>
        refine (htexts MAX_VALUES_PER_ROW (by decide) rowsBegin _ _).mpr
          ⟨columns, ⟨hcounts, ?_⟩, rfl, rfl⟩
        simpa [strings] using hshort
    | rowBatch rows =>
        refine (hrows rowBatch _ _).mpr ⟨rows, ⟨hcounts.1, ?_⟩, rfl, rfl⟩
        intro row hrow
        refine ⟨hcounts.2 row hrow, fun v hv b hb => hshort b ?_⟩
        simp only [strings, mem_flatMap]
        exact ⟨row, hrow, v, hv, hb⟩
    | lines ls =>
        refine (htexts MAX_LINES (by decide) lines _ _).mpr
          ⟨ls, ⟨hcounts, ?_⟩, rfl, rfl⟩
        simpa [strings] using hshort
    | error code message =>
        show (do
          let code ← u16
          return error code (← text) : Reader ServerMessage) _ = _
        simp only [run_bind_eq_ok, run_pure_eq_ok, reads_text _ _ _, reads_u16 _ _ _]
        exact ⟨code, prefixed (asBytes message) ++ rest, ⟨trivial, by simp [wireBytes]⟩, message,
          rest, ⟨hshort _ (.head _), rfl⟩, rfl, rfl⟩

theorem finish_eq_ok {u : Unit} : finish buf = .ok (u, rest) ↔ buf = [] ∧ rest = [] := by
  cases buf with
  | nil =>
      constructor
      · intro h
        exact ⟨rfl, (Prod.mk.inj (ok.inj h)).2.symm⟩
      · rintro ⟨-, rfl⟩
        rfl
  | cons b buf => exact ⟨fun h => (nomatch h), fun h => (nomatch h.1)⟩

/-- A body that is read to its end. -/
theorem whole_eq_ok : ((do
      let a ← p
      finish
      return a : Reader α) body).map Prod.fst = .ok a ↔ p body = .ok (a, []) := by
  have hmap : ∀ x : Except ProtoError (α × Bytes),
      x.map Prod.fst = .ok a ↔ ∃ rest, x = .ok (a, rest) := by
    rintro (e | ⟨a', rest⟩)
    · exact ⟨fun h => (nomatch h), fun ⟨_, h⟩ => (nomatch h)⟩
    · exact ⟨fun h => ⟨rest, by rw [← ok.inj h]⟩,
        fun ⟨_, h⟩ => congrArg ok (Prod.mk.inj (ok.inj h)).1⟩
  rw [hmap]
  simp only [run_bind_eq_ok, run_pure_eq_ok, finish_eq_ok]
  constructor
  · rintro ⟨_, _, _, hread, _, _, ⟨rfl, rfl⟩, rfl, rfl⟩
    exact hread
  · intro h
    exact ⟨[], a, [], h, (), [], ⟨rfl, rfl⟩, rfl, rfl⟩

/-- **DECODING A MESSAGE**. -/
theorem decode_eq_ok : decode t body = .ok m
      ↔ m.msgType = t ∧ Counts m ∧ (∀ b ∈ strings m, Short b) ∧ body = wireBytes m := by
  refine whole_eq_ok.trans (read_eq_ok.trans ?_)
  rw [append_nil]

theorem length_strings (h : b ∈ strings m) : b.length ≤ (wireBytes m).length := by
  have htexts : ∀ {ss : List String}, b ∈ ss.map asBytes →
      b.length ≤ (counted (fun s => prefixed (asBytes s)) ss).length := by
    intro ss hb
    obtain ⟨s, hs, rfl⟩ := mem_map.mp hb
    have hlen := length_counted_ge (fun s => prefixed (asBytes s)) hs
    rw [length_prefixed] at hlen
    omega
  cases m with
  | ready => nomatch h
  | ok => nomatch h
  | rowsEnd => nomatch h
  | count verb n =>
      obtain rfl := mem_singleton.mp h
      rw [wireBytes, length_append, length_prefixed]
      omega
  | rowsBegin columns => exact htexts h
  | rowBatch rows =>
      obtain ⟨row, hrow, hb⟩ := mem_flatMap.mp h
      obtain ⟨v, hv, hb⟩ := mem_flatMap.mp hb
      exact (length_valueStrings hb).trans
        ((length_counted_ge valueBytes hv).trans (length_counted_ge rowBytes hrow))
  | lines ls => exact htexts h
  | error code message =>
      obtain rfl := mem_singleton.mp h
      rw [wireBytes, length_append, length_prefixed]
      omega

theorem puts_row_iff (row : List Value) : Puts (writeRow · row)
    (row.length ≤ MAX_VALUES_PER_ROW ∧ ∀ v ∈ row, ∀ b ∈ valueStrings v, b.length ≤ MAX_BODY)
    (rowBytes row) :=
  puts_counted puts_value row

/-- **WRITING A MESSAGE**: its spelling, if its counts and strings are within
    their limits. -/
theorem puts_message (m : ServerMessage) : ∃ f : Writer → Writer, m.body = (f new).finish
    ∧ Puts f (Counts m ∧ ∀ b ∈ strings m, b.length ≤ MAX_BODY) (wireBytes m) := by
  have hnone : Puts id (True ∧ ∀ b ∈ ([] : List Bytes), b.length ≤ MAX_BODY) [] :=
    ⟨fun _ w => by simp [raw], fun h => absurd ⟨trivial, fun _ hb => (nomatch hb)⟩ h,
      fun _ hw => hw⟩
  have htexts : ∀ (hardMax : Nat) (ss : List String),
      Puts (fun w => ss.foldl text (w.count ss.length hardMax))
        (ss.length ≤ hardMax ∧ ∀ b ∈ ss.map asBytes, b.length ≤ MAX_BODY)
        (counted (fun s => prefixed (asBytes s)) ss) := by
    intro hardMax ss
    refine (puts_counted (fun s : String => puts_bytes (asBytes s)) ss).congr ?_
    rw [forall_mem_map]
  cases m with
  | ready => exact ⟨id, rfl, hnone⟩
  | ok => exact ⟨id, rfl, hnone⟩
  | rowsEnd => exact ⟨id, rfl, hnone⟩
  | count verb n =>
      refine ⟨fun w => (w.text verb).u64 n, rfl,
        ((puts_bytes (asBytes verb)).then (puts_raw (le 8 n.toNat))).congr ?_⟩
      simp [Counts, strings]
  | rowsBegin columns => exact ⟨_, rfl, htexts MAX_VALUES_PER_ROW columns⟩
  | rowBatch rows =>
      refine ⟨_, rfl, (puts_counted puts_row_iff rows).congr ?_⟩
      simp only [Counts, strings, mem_flatMap]
      constructor
      · rintro ⟨hlen, hrows⟩
        refine ⟨⟨hlen, fun row hrow => (hrows row hrow).1⟩, ?_⟩
        rintro b ⟨row, hrow, v, hv, hb⟩
        exact (hrows row hrow).2 v hv b hb
      · rintro ⟨⟨hlen, hrows⟩, hall⟩
        exact ⟨hlen, fun row hrow =>
          ⟨hrows row hrow, fun v hv b hb => hall b ⟨row, hrow, v, hv, hb⟩⟩⟩
  | lines ls => exact ⟨_, rfl, htexts MAX_LINES ls⟩
  | error code message =>
      refine ⟨fun w => (w.u16 code).text message, rfl,
        ((puts_raw (le 2 code.toNat)).then (puts_bytes (asBytes message))).congr ?_⟩
      simp [Counts, strings]

/-- A string in a body that fits has a length of four bytes. -/
theorem short_of_le (hbody : body.length ≤ MAX_BODY) (hb : b.length ≤ body.length) : Short b :=
  lt_of_le_of_lt (hb.trans hbody) (by decide)

/-- **ENCODING A MESSAGE** works exactly when its counts are within their
    limits and its spelling fits a body. -/
theorem encode_cases (m : ServerMessage) :
    (Counts m ∧ (wireBytes m).length ≤ MAX_BODY →
      m.body = .ok (wireBytes m) ∧ m.encode = .ok (frameBytes m.msgType (wireBytes m))) ∧
    (¬ (Counts m ∧ (wireBytes m).length ≤ MAX_BODY) → ∃ e, m.encode = .error e) := by
  obtain ⟨f, hbody, hputs⟩ := puts_message m
  obtain ⟨hok, herr⟩ := encode_of_puts hbody hputs
  constructor
  · rintro ⟨hcounts, hlen⟩
    have hfits : Counts m ∧ ∀ b ∈ strings m, b.length ≤ MAX_BODY :=
      ⟨hcounts, fun b hb => (length_strings hb).trans hlen⟩
    exact ⟨hbody.trans (hputs.finish.1 hfits), hok ⟨hfits, hlen⟩⟩
  · intro h
    exact herr fun h' => h ⟨h'.1.1, h'.2⟩

/-- What encodes is decoded from its type and its body. -/
theorem decode_of_encode (h : m.encode = .ok bytes) :
    ∃ body, m.body = .ok body ∧ body.length ≤ MAX_BODY ∧ bytes = frameBytes m.msgType body
      ∧ decode m.msgType body = .ok m := by
  have hfits : Counts m ∧ (wireBytes m).length ≤ MAX_BODY := by
    by_contra hlong
    obtain ⟨e, he⟩ := (encode_cases m).2 hlong
    nomatch h.symm.trans he
  obtain ⟨hbody, hok⟩ := (encode_cases m).1 hfits
  refine ⟨_, hbody, hfits.2, ok.inj (h.symm.trans hok),
    decode_eq_ok.mpr ⟨rfl, hfits.1, ?_, rfl⟩⟩
  exact fun b hb => short_of_le hfits.2 (length_strings hb)

/-! ## Requests -/

/-- The strings of a request. -/
def requestStrings : ClientMessage → List Bytes
  | .auth token => [token]
  | .query source | .querySql source => [asBytes source]
  | .close => []

/-- The spelling of a request. -/
def requestBytes (m : ClientMessage) : Bytes := (requestStrings m).flatMap prefixed

theorem length_requestStrings {m : ClientMessage} (h : b ∈ requestStrings m) :
    b.length ≤ (requestBytes m).length := by
  have := le_sum_of_mem (mem_map_of_mem (f := fun b => (prefixed b).length) h)
  rw [length_prefixed] at this
  rw [requestBytes, length_flatMap]
  omega

theorem request_decode_eq_ok {m : ClientMessage} : ClientMessage.decode t body = .ok m
      ↔ m.msgType = t ∧ (∀ b ∈ requestStrings m, Short b) ∧ body = requestBytes m := by
  rw [ClientMessage.decode]
  constructor
  · intro h
    split_ifs at h with h₁ h₂ h₃ h₄
    · obtain ⟨token, hread, rfl⟩ := run_map_eq_ok.mp (whole_eq_ok.mp h)
      obtain ⟨hshort, rfl⟩ := (reads_bytes _ _ _).mp hread
      exact ⟨h₁.symm, by simpa [requestStrings] using hshort,
        by simp [requestBytes, requestStrings]⟩
    · obtain ⟨source, hread, rfl⟩ := run_map_eq_ok.mp (whole_eq_ok.mp h)
      obtain ⟨hshort, rfl⟩ := (reads_text _ _ _).mp hread
      exact ⟨h₂.symm, by simpa [requestStrings] using hshort,
        by simp [requestBytes, requestStrings]⟩
    · obtain ⟨source, hread, rfl⟩ := run_map_eq_ok.mp (whole_eq_ok.mp h)
      obtain ⟨hshort, rfl⟩ := (reads_text _ _ _).mp hread
      exact ⟨h₃.symm, by simpa [requestStrings] using hshort,
        by simp [requestBytes, requestStrings]⟩
    · obtain ⟨rfl, rfl⟩ := run_pure_eq_ok.mp (whole_eq_ok.mp h)
      exact ⟨h₄.symm, fun _ hb => (nomatch hb), rfl⟩
    · nomatch h
  · rintro ⟨rfl, hshort, rfl⟩
    cases m with
    | auth token =>
        refine whole_eq_ok.mpr (run_map_eq_ok.mpr ⟨token, ?_, rfl⟩)
        exact (reads_bytes _ _ _).mpr ⟨hshort _ (.head _), by simp [requestBytes, requestStrings]⟩
    | query source =>
        refine whole_eq_ok.mpr (run_map_eq_ok.mpr ⟨source, ?_, rfl⟩)
        exact (reads_text _ _ _).mpr ⟨hshort _ (.head _), by simp [requestBytes, requestStrings]⟩
    | querySql source =>
        refine whole_eq_ok.mpr (run_map_eq_ok.mpr ⟨source, ?_, rfl⟩)
        exact (reads_text _ _ _).mpr ⟨hshort _ (.head _), by simp [requestBytes, requestStrings]⟩
    | close => rfl

theorem request_encode_cases (m : ClientMessage) :
    ((requestBytes m).length ≤ MAX_BODY →
      m.body = .ok (requestBytes m) ∧ m.encode = .ok (frameBytes m.msgType (requestBytes m))) ∧
    (¬ (requestBytes m).length ≤ MAX_BODY → ∃ e, m.encode = .error e) := by
  have hputs : ∃ f : Writer → Writer, m.body = (f new).finish
      ∧ Puts f (∀ b ∈ requestStrings m, b.length ≤ MAX_BODY) (requestBytes m) := by
    cases m with
    | auth token =>
        exact ⟨_, rfl, by simpa [requestBytes, requestStrings] using puts_bytes token⟩
    | query source =>
        exact ⟨_, rfl, by simpa [requestBytes, requestStrings] using puts_bytes (asBytes source)⟩
    | querySql source =>
        exact ⟨_, rfl, by simpa [requestBytes, requestStrings] using puts_bytes (asBytes source)⟩
    | close =>
        refine ⟨id, rfl, fun _ w => ?_, fun h => absurd (fun _ hb => (nomatch hb)) h,
          fun _ hw => hw⟩
        simp [requestBytes, requestStrings, raw]
  obtain ⟨f, hbody, hputs⟩ := hputs
  obtain ⟨hok, herr⟩ := frame_of_puts (t := m.msgType) hbody hputs
  constructor
  · intro hlen
    have hfits : ∀ b ∈ requestStrings m, b.length ≤ MAX_BODY :=
      fun b hb => (length_requestStrings hb).trans hlen
    exact ⟨hbody.trans (hputs.finish.1 hfits), hok ⟨hfits, hlen⟩⟩
  · intro h
    exact herr fun h' => h h'.2

/-- **THE WIRE CODEC IS A BIJECTION** between messages and frames.  What
    encodes is decoded from its type and body; what is decoded from a body that
    a frame can hold encodes to that frame; and encoding fails exactly when a
    count is over its limit or the body over the size of one. -/
theorem wire_codec_bijective :
    (∀ (m : ClientMessage) bytes, m.encode = .ok bytes → ∃ body, m.body = .ok body
      ∧ bytes = frameBytes m.msgType body ∧ ClientMessage.decode m.msgType body = .ok m) ∧
    (∀ (m : ServerMessage) bytes, m.encode = .ok bytes → ∃ body, m.body = .ok body
      ∧ bytes = frameBytes m.msgType body ∧ decode m.msgType body = .ok m) ∧
    (∀ t body, body.length ≤ MAX_BODY → ∀ m, ClientMessage.decode t body = .ok m →
      m.encode = .ok (frameBytes t body)) ∧
    (∀ t body, body.length ≤ MAX_BODY → ∀ m, decode t body = .ok m →
      m.encode = .ok (frameBytes t body)) ∧
    (∀ m : ClientMessage, (∃ e, m.encode = .error e) ↔ MAX_BODY < (requestBytes m).length) ∧
    (∀ m : ServerMessage, (∃ e, m.encode = .error e)
      ↔ ¬ Counts m ∨ MAX_BODY < (wireBytes m).length) := by
  refine ⟨?_, ?_, ?_, ?_, ?_, ?_⟩
  · intro m bytes henc
    have hlen : (requestBytes m).length ≤ MAX_BODY := by
      by_contra hlong
      obtain ⟨e, he⟩ := (request_encode_cases m).2 hlong
      nomatch henc.symm.trans he
    obtain ⟨hbody, hok⟩ := (request_encode_cases m).1 hlen
    refine ⟨_, hbody, ok.inj (henc.symm.trans hok), request_decode_eq_ok.mpr ⟨rfl, ?_, rfl⟩⟩
    exact fun b hb => short_of_le hlen (length_requestStrings hb)
  · intro m bytes henc
    obtain ⟨body, hbody, -, hbytes, hdecode⟩ := decode_of_encode henc
    exact ⟨body, hbody, hbytes, hdecode⟩
  · intro t body hlen m h
    obtain ⟨rfl, -, rfl⟩ := request_decode_eq_ok.mp h
    exact ((request_encode_cases m).1 hlen).2
  · intro t body hlen m h
    obtain ⟨rfl, hcounts, -, rfl⟩ := decode_eq_ok.mp h
    exact ((encode_cases m).1 ⟨hcounts, hlen⟩).2
  · intro m
    constructor
    · rintro ⟨e, he⟩
      by_contra hlen
      nomatch he.symm.trans ((request_encode_cases m).1 (not_lt.mp hlen)).2
    · intro hlong
      exact (request_encode_cases m).2 (not_le.mpr hlong)
  · intro m
    constructor
    · rintro ⟨e, he⟩
      by_contra hfits
      rw [not_or, not_not, not_lt] at hfits
      nomatch he.symm.trans ((encode_cases m).1 hfits).2
    · intro hover
      refine (encode_cases m).2 fun hfits => ?_
      exact hover.elim (fun h => h hfits.1) (not_lt.mpr hfits.2)

/-! ## Batches -/

theorem length_rowBytes (row : List Value) : (rowBytes row).length = encodedRowLen row := by
  rw [rowBytes, counted, length_append, length_le, length_flatMap, encodedRowLen]
  congr 2
  exact map_congr_left fun v _ => length_valueBytes v

/-- **ROWS ARE BATCHED WITHOUT LOSS**.  When every row fits a batch the
    batches are the rows in order, none empty, each with a body that encodes;
    when one does not there is an error.  The size that this goes by is the
    number of bytes a row is written in; a row that is not written has none. -/
theorem batch_rows_lossless (rows : List (List Value)) :
    ((∀ row ∈ rows, row.length ≤ MAX_VALUES_PER_ROW ∧ encodedRowLen row ≤ BATCH_BUDGET) →
      ∃ batches : List (List (List Value)), batchRows rows = .ok (batches.map .rowBatch)
        ∧ batches.flatten = rows
        ∧ ∀ batch ∈ batches, batch ≠ [] ∧ batch.length ≤ MAX_ROWS_PER_BATCH
          ∧ ∃ body, (rowBatch batch).body = .ok body ∧ body.length ≤ MAX_BODY
            ∧ (rowBatch batch).encode = .ok (frameBytes T_ROW_BATCH body)) ∧
    ((¬ ∀ row ∈ rows, row.length ≤ MAX_VALUES_PER_ROW ∧ encodedRowLen row ≤ BATCH_BUDGET) →
      ∃ e, batchRows rows = .error e) ∧
    ∀ row, (∀ bytes, (writeRow new row).finish = .ok bytes →
        bytes.length = encodedRowLen row) ∧
      (row.length ≤ MAX_VALUES_PER_ROW → encodedRowLen row ≤ BATCH_BUDGET →
        ∃ bytes, (writeRow new row).finish = .ok bytes) := by
  refine ⟨fun hfits => ?_, fun hover => ?_,
    fun row => ⟨fun bytes hwrite => ?_, fun hlen hsize => ?_⟩⟩
  · have hrows : ∀ row ∈ rows, ¬ oversize row := by
      rintro row hrow (hsize | hlen)
      · exact absurd (hfits row hrow).2 (not_le.mpr hsize)
      · exact absurd (hfits row hrow).1 (not_le.mpr hlen)
    obtain ⟨batches, hrun, hall, -, hflat⟩ := batchLoop_ok hrows (.inl rfl)
    refine ⟨batches, hrun, hflat, fun batch hbatch => ?_⟩
    have hframed := hall batch hbatch
    refine ⟨hframed.some, hframed.count, wireBytes (.rowBatch batch), ?_⟩
    have hbody : (wireBytes (.rowBatch batch)).length ≤ MAX_BODY := by
      have hroom := hframed.room
      rw [BATCH_BUDGET] at hroom
      rw [wireBytes, counted, length_append, length_le, length_flatMap,
        map_congr_left fun row _ => length_rowBytes row]
      have : 4 ≤ MAX_BODY := by decide
      omega
    obtain ⟨hok, henc⟩ := (encode_cases (.rowBatch batch)).1 ⟨⟨hframed.count, hframed.rows⟩, hbody⟩
    exact ⟨hok, hbody, henc⟩
  · have hrow : ∃ row ∈ rows, oversize row := by
      by_contra hnone
      refine hover fun row hrow => ?_
      have : ¬ oversize row := fun h => hnone ⟨row, hrow, h⟩
      rw [oversize, not_or, not_lt, not_lt] at this
      exact this.symm
    obtain ⟨n, herr⟩ := batchLoop_error hrow [] 0
    exact ⟨_, herr⟩
  · obtain ⟨hok, herr⟩ := (puts_row_iff row).finish
    by_cases hfits : row.length ≤ MAX_VALUES_PER_ROW
        ∧ ∀ v ∈ row, ∀ b ∈ valueStrings v, b.length ≤ MAX_BODY
    · rw [← ok.inj ((hok hfits).symm.trans hwrite), length_rowBytes]
    · obtain ⟨e, he⟩ := herr hfits
      cases he.symm.trans hwrite
  · have hsmall : encodedRowLen row ≤ MAX_BODY := hsize.trans (Nat.sub_le _ _)
    exact ⟨_, (puts_row hlen hsmall).finish.1 trivial⟩

end QuantyWire
