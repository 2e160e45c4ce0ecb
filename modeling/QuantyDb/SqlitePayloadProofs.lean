import QuantyDb.SqliteReadProofs

/-! # Payloads that go on elsewhere

    The format's side first: how varints are spelled, how much of a payload
    stays on its page, and what an overflow chain is, a list of pages each of
    which names the next one and holds a part.  `LaidOut` puts them together.

    The reader does not know which pages it has been on.  It follows the chain
    until it has as many bytes as the cell claims and then asks for a last
    pointer of 0.  That is enough: the pages of a chain that ends are given by
    its first page alone (`Chain.unique`), so a page that came twice would be
    the start of two chains of different lengths. -/

namespace QuantySqlite

open QuantyPage BigEndian Outcome List Except Reader

/-! ## Varints -/

/-- Seven bits a byte. -/
def septets (value : Nat) (bytes : Bytes) : Nat :=
  bytes.foldl (fun v b => v * 128 + b.toNat % 128) value

/-- How the format spells a number: at most eight bytes, all but the last with
    the high bit set, or nine of which the last counts whole. -/
inductive Varint : Bytes → Nat → Prop
  | short (high : Bytes) (last : UInt8) : high.length ≤ 7 → (∀ b ∈ high, 128 ≤ b.toNat) →
      last.toNat < 128 → Varint (high ++ [last]) (septets 0 high * 128 + last.toNat)
  | long (high : Bytes) (last : UInt8) : high.length = 8 → (∀ b ∈ high, 128 ≤ b.toNat) →
      Varint (high ++ [last]) (septets 0 high * 256 + last.toNat)

theorem septets_lt (value : Nat) (bytes : Bytes) :
    septets value bytes < (value + 1) * 128 ^ bytes.length := by
  induction bytes generalizing value with
  | nil => simp [septets]
  | cons b bytes ih =>
      have hbyte : b.toNat % 128 < 128 := Nat.mod_lt _ (by decide)
      calc septets value (b :: bytes)
          < (value * 128 + b.toNat % 128 + 1) * 128 ^ bytes.length := ih _
        _ ≤ (value + 1) * 128 * 128 ^ bytes.length := Nat.mul_le_mul_right _ (by omega)
        _ = (value + 1) * 128 ^ (b :: bytes).length := by
          rw [length_cons, pow_succ', Nat.mul_assoc]

variable {bytes out : Bytes} {fuel total value : Nat}

/-- A varint is a number of 64 bits. -/
theorem Varint.lt (h : Varint bytes value) : value < 2 ^ 64 := by
  cases h with
  | short high last hlen _ hlast =>
      have hseptets := septets_lt 0 high
      have hpow : 128 ^ high.length ≤ 128 ^ 7 := Nat.pow_le_pow_right (by decide) hlen
      omega
  | long high last hlen _ =>
      have hseptets := septets_lt 0 high
      have hbyte := last.toNat_lt
      rw [hlen] at hseptets
      omega

theorem varintLoop_high (high : Bytes) (taken value : Nat) (hhigh : ∀ b ∈ high, 128 ≤ b.toNat)
    (rest : Bytes) : varintLoop (high ++ rest) taken value
      = varintLoop rest (taken + high.length) (septets value high) := by
  induction high generalizing taken value with
  | nil => rfl
  | cons b high ih =>
      have hb := hhigh b (.head _)
      rw [cons_append, varintLoop, if_neg (by omega),
        ih _ _ fun b' hb' => hhigh b' (mem_cons_of_mem b hb'), length_cons,
        Nat.add_assoc, Nat.add_comm 1]
      rfl

/-- **READING A VARINT** off the front, whatever follows. -/
theorem readVarint_append (h : Varint bytes value) (rest : Bytes) :
    readVarint (bytes ++ rest) = .ok (asI64 value, bytes.length) := by
  cases h with
  | short high last hlen hhigh hlast =>
      have hfront : (high ++ [last] ++ rest).take 8
          = high ++ (last :: rest.take (7 - high.length)) := by
        rw [append_assoc, take_append, take_of_length_le (by omega),
          show 8 - high.length = 7 - high.length + 1 by omega]
        rfl
      have hloop : varintLoop ((high ++ [last] ++ rest).take 8) 0 0
          = (septets 0 high * 128 + last.toNat, some (high.length + 1)) := by
        rw [hfront, varintLoop_high high 0 0 hhigh, varintLoop, if_pos hlast,
          Nat.mod_eq_of_lt hlast, Nat.zero_add]
      rw [readVarint, hloop, length_append, length_singleton]
  | long high last hlen hhigh =>
      have hloop : varintLoop ((high ++ [last] ++ rest).take 8) 0 0 = (septets 0 high, none) := by
        have := varintLoop_high high 0 0 hhigh []
        rw [append_nil] at this
        rw [append_assoc, take_left' hlen, this, varintLoop]
      have hninth : (high ++ [last] ++ rest)[8]? = some last := by
        rw [append_assoc, getElem?_append_right (by omega), hlen]
        rfl
      rw [readVarint, hloop]
      dsimp only
      rw [hninth, length_append, hlen]
      rfl

/-- How the loop over the first bytes can end. -/
theorem varintLoop_cases (bytes : Bytes) (taken value : Nat) :
    (∃ high last rest, bytes = high ++ (last :: rest) ∧ (∀ b ∈ high, 128 ≤ b.toNat)
      ∧ last.toNat < 128 ∧ varintLoop bytes taken value
        = (septets value high * 128 + last.toNat, some (taken + high.length + 1)))
    ∨ (∀ b ∈ bytes, 128 ≤ b.toNat) ∧ varintLoop bytes taken value
      = (septets value bytes, none) := by
  induction bytes generalizing taken value with
  | nil => exact .inr ⟨fun b hb => (nomatch hb), rfl⟩
  | cons b bytes ih =>
      rw [varintLoop]
      by_cases hb : b.toNat < 128
      · refine .inl ⟨[], b, bytes, rfl, fun _ h => (nomatch h), hb, ?_⟩
        rw [if_pos hb, Nat.mod_eq_of_lt hb]
        rfl
      · rw [if_neg hb]
        rcases ih (taken + 1) (value * 128 + b.toNat % 128) with
          ⟨high, last, rest, rfl, hhigh, hlast, heq⟩ | ⟨hall, heq⟩
        · refine .inl ⟨b :: high, last, rest, rfl, ?_, hlast, ?_⟩
          · exact forall_mem_cons.mpr ⟨not_lt.mp hb, hhigh⟩
          · rw [heq, length_cons]
            exact Prod.ext rfl (congrArg some (by omega))
        · exact .inr ⟨forall_mem_cons.mpr ⟨not_lt.mp hb, hall⟩, heq⟩

variable {first n taken : Nat} {after head out' : Bytes} {cell : Bytes → Cell}

theorem readVarint_eq_ok {v : Int} (h : readVarint bytes = .ok (v, taken)) :
    ∃ spelled rest value, bytes = spelled ++ rest
      ∧ spelled.length = taken ∧ Varint spelled value ∧ v = asI64 value := by
  rw [readVarint] at h
  rcases varintLoop_cases (bytes.take 8) 0 0 with
    ⟨high, last, rest, hbytes, hhigh, hlast, heq⟩ | ⟨hall, heq⟩
  · rw [heq] at h
    obtain ⟨rfl, rfl⟩ := Prod.mk.inj (ok.inj h)
    have hlen : (high ++ (last :: rest)).length ≤ 8 := hbytes ▸ length_take_le 8 bytes
    rw [length_append, length_cons] at hlen
    refine ⟨high ++ [last], rest ++ bytes.drop 8, _, ?_, ?_,
      .short high last (by omega) hhigh hlast, rfl⟩
    · have hall := take_append_drop 8 bytes
      rw [hbytes] at hall
      refine hall.symm.trans ?_
      simp
    · rw [length_append, length_singleton]
      omega
  · rw [heq] at h
    dsimp only at h
    split at h
    · next last hlast =>
      obtain ⟨rfl, rfl⟩ := Prod.mk.inj (ok.inj h)
      obtain ⟨hlt, hget⟩ := List.getElem?_eq_some_iff.mp hlast
      have hlen : (bytes.take 8).length = 8 := by
        rw [length_take]
        omega
      refine ⟨bytes.take 8 ++ [last], bytes.drop 9, _, ?_, ?_,
        .long (bytes.take 8) last hlen hall, rfl⟩
      · rw [← hget, take_append_getElem hlt, take_append_drop]
      · rw [length_append, hlen, length_singleton]
    · cases h

theorem readUnsigned_append (h : Varint bytes value) (hlt : value < 2 ^ 63) (rest : Bytes) :
    readUnsigned (bytes ++ rest) = .ok (value, bytes.length) := by
  rw [readUnsigned, readVarint_append h, ok_bind, asI64, if_pos hlt]
  dsimp only
  rw [refuse, dif_neg (by omega), ok_bind, Int.toNat_natCast]
  rfl

theorem readUnsigned_eq_ok (h : readUnsigned bytes = .ok (value, taken)) :
    ∃ spelled rest, bytes = spelled ++ rest
      ∧ spelled.length = taken ∧ Varint spelled value := by
  obtain ⟨⟨v, n⟩, hread, h⟩ := bind_eq_ok.mp h
  obtain ⟨spelled, rest, value', rfl, hlen, hspelled, rfl⟩ := readVarint_eq_ok hread
  obtain ⟨⟨hpos⟩, -, h⟩ := bind_eq_ok.mp h
  obtain ⟨rfl, rfl⟩ := Prod.mk.inj (ok.inj h)
  refine ⟨spelled, rest, rfl, hlen, ?_⟩
  rw [asI64] at hpos ⊢
  split at hpos
  · next hsmall => rwa [if_pos hsmall, Int.toNat_natCast]
  · -- a number past `2 ^ 63` is negative
    have := hspelled.lt
    exact absurd (by omega) hpos

/-! ## How much stays on the page -/

namespace Format

/-- `X` of the format: the most that stays on a page of a kind. -/
def most (kind : PageKind) (usable : Nat) : Nat :=
  if kind = .leafTable then usable - 35 else (usable - 12) * 64 / 255 - 23

/-- `M` of the format: the least that stays of a payload that goes on. -/
def least (usable : Nat) : Nat := (usable - 12) * 32 / 255 - 23

/-- What stays on the page of a payload of a given length. -/
def kept (kind : PageKind) (usable total : Nat) : Nat :=
  if total ≤ most kind usable then total
  else
    let k := least usable + (total - least usable) % (usable - 4)
    if k ≤ most kind usable then k else least usable

variable {usable : Nat} (kind : PageKind)

theorem least_le_most (hu : 480 ≤ usable) : least usable ≤ most kind usable := by
  rw [least, most]
  split <;> omega

theorem most_le (hu : 480 ≤ usable) : most kind usable ≤ usable := by
  rw [most]
  split <;> omega

theorem kept_le (hu : 480 ≤ usable) (total : Nat) :
    kept kind usable total ≤ total ∧ kept kind usable total ≤ usable := by
  have hleast := least_le_most kind hu
  have hmost := most_le kind hu
  have hmod := Nat.mod_le (total - least usable) (usable - 4)
  rw [kept]
  dsimp only
  split_ifs <;> omega

end Format

theorem minus_eq_ok {a b : Nat} (h : b ≤ a) : minus a b = .ok (a - b) := if_pos h

/-- **`local_len` IS THE FORMAT'S RULE**. -/
theorem localLen_eq_ok {usable : Nat} (hu : 480 ≤ usable) (kind : PageKind) (total : Nat) :
    localLen kind usable total = .ok (Format.kept kind usable total) := by
  have hbody : minus usable 12 = .ok (usable - 12) := minus_eq_ok (by omega)
  have hmost : maxLocal kind usable = .ok (Format.most kind usable) := by
    rw [maxLocal, Format.most]
    split
    · exact minus_eq_ok (by omega)
    · rw [hbody]
      exact minus_eq_ok (by omega)
  have hleast : minus ((usable - 12) * 32 / 255) 23 = .ok (Format.least usable) :=
    minus_eq_ok (by omega)
  have hper : minus usable 4 = .ok (usable - 4) := minus_eq_ok (by omega)
  rw [localLen, hmost, ok_bind, Format.kept]
  split
  · rfl
  · next hlong =>
    have horder := Format.least_le_most kind hu
    have hspilled : minus total (Format.least usable) = .ok (total - Format.least usable) :=
      minus_eq_ok (by omega)
    have hmod : remainder (total - Format.least usable) (usable - 4)
        = .ok ((total - Format.least usable) % (usable - 4)) := if_neg (by omega)
    rw [hbody, ok_bind, hleast, ok_bind, hspilled, ok_bind, hper, ok_bind, hmod]
    rfl

/-! ## Overflow chains -/

/-- The pages a payload goes on in, from the first on, and what they hold of
    it.  A page names the next one and holds a part, as much as it can unless
    it is the last; the last one names page 0. -/
inductive Chain (r : Reader) : Nat → Bytes → List Nat → Prop
  | done : Chain r 0 [] []
  | page {number next : Nat} {part rest tail : Bytes} {pages : List Nat}
      {content : { b : Bytes // b.length = r.header.pageSize }} :
      r.readPage number = .ok content → content.val = be 4 next ++ (part ++ tail) → part ≠ [] →
      part.length ≤ r.usableSize - 4 → (rest ≠ [] → part.length = r.usableSize - 4) →
      Chain r next rest pages → Chain r number (part ++ rest) (number :: pages)

section Chains

variable {r : Reader} {number : Nat} {bytes : Bytes} {pages : List Nat}

theorem readPage_range {content : { b : Bytes // b.length = r.header.pageSize }}
    (h : r.readPage number = .ok content) : 1 ≤ number ∧ number ≤ r.pageCount := by
  obtain ⟨⟨hrange⟩, -, -⟩ := bind_eq_ok.mp h
  omega

theorem Chain.range (h : Chain r number bytes pages) : ∀ p ∈ pages, 1 ≤ p ∧ p ≤ r.pageCount := by
  induction h with
  | done => exact fun p hp => nomatch hp
  | page hread _ _ _ _ _ ih => exact forall_mem_cons.mpr ⟨readPage_range hread, ih⟩

/-- The page a chain starts at is a `u32`. -/
theorem Chain.first_lt (h : Chain r number bytes pages) : number < 256 ^ 4 := by
  cases h with
  | done => decide
  | page hread => exact lt_of_le_of_lt (readPage_range hread).2 r.pages

/-- A chain holds something exactly when it has a page. -/
theorem Chain.nil (h : Chain r number [] pages) : number = 0 ∧ pages = [] := by
  generalize hbytes : ([] : Bytes) = bytes at h
  cases h with
  | done => exact ⟨rfl, rfl⟩
  | page _ _ hne => exact absurd (append_eq_nil_iff.mp hbytes.symm).1 hne

/-- **A CHAIN IS GIVEN BY ITS FIRST PAGE**. -/
theorem Chain.unique (h : Chain r number bytes pages) {bytes' : Bytes} {pages' : List Nat}
    (h' : Chain r number bytes' pages') : pages = pages' := by
  induction h generalizing bytes' pages' with
  | done =>
      cases h' with
      | done => rfl
      | page hread => exact absurd (readPage_range hread).1 (by decide)
  | page hread hcontent _ _ _ hrest ih =>
      cases h' with
      | done => exact absurd (readPage_range hread).1 (by decide)
      | page hread' hcontent' _ _ _ hrest' =>
          cases ok.inj (hread.symm.trans hread')
          have hnext := congrArg ofBe (congrArg (List.take 4) (hcontent.symm.trans hcontent'))
          rw [take_left' (length_be 4 _), take_left' (length_be 4 _), ofBe_be, ofBe_be,
            Nat.mod_eq_of_lt hrest.first_lt, Nat.mod_eq_of_lt hrest'.first_lt] at hnext
          subst hnext
          rw [ih hrest']

/-- A page of a chain starts a chain, of what is left. -/
theorem Chain.of_mem (h : Chain r number bytes pages) {p : Nat} (hp : p ∈ pages) :
    ∃ bytes' pages', Chain r p bytes' (p :: pages') ∧ pages'.length < pages.length := by
  induction h with
  | done => nomatch hp
  | @page q _ _ _ _ qs _ hread hcontent hne hle hfull hrest ih =>
      rcases mem_cons.mp hp with rfl | hp
      · exact ⟨_, qs, .page hread hcontent hne hle hfull hrest, Nat.lt_succ_self _⟩
      · obtain ⟨bytes', pages', hchain, hlt⟩ := ih hp
        exact ⟨bytes', pages', hchain, hlt.trans (Nat.lt_succ_self _)⟩

/-- **NO PAGE COMES TWICE** in a chain that ends. -/
theorem Chain.nodup (h : Chain r number bytes pages) : pages.Nodup := by
  induction h with
  | done => exact nodup_nil
  | page hread hcontent hne hle hfull hrest ih =>
      refine nodup_cons.mpr ⟨fun hmem => ?_, ih⟩
      -- the page would start the whole chain and a shorter one
      obtain ⟨bytes', pages', hchain, hlt⟩ := hrest.of_mem hmem
      have hsame := (Chain.page hread hcontent hne hle hfull hrest).unique hchain
      rw [(List.cons.inj hsame).2] at hlt
      exact lt_irrefl _ hlt

/-- **AS MANY PAGES AS IT TAKES**. -/
theorem Chain.length_eq (h : Chain r number bytes pages) :
    pages.length = (bytes.length + (r.usableSize - 4 - 1)) / (r.usableSize - 4) := by
  have hu := r.usableSize_ge
  induction h with
  | done => exact (Nat.div_eq_of_lt (by rw [length_nil]; omega)).symm
  | @page _ _ part rest _ pages _ _ _ hne hle hfull hrest ih =>
      have hpos : 0 < part.length := length_pos_iff.mpr hne
      rw [length_cons, length_append]
      by_cases hempty : rest = []
      · subst hempty
        rw [hrest.nil.2]
        refine (Nat.div_eq_of_lt_le ?_ ?_).symm <;> simp only [length_nil] <;> omega
      · rw [ih, hfull hempty, Nat.add_assoc, Nat.add_div_left _ (by omega)]

theorem Chain.length_le (h : Chain r number bytes pages) :
    bytes.length ≤ pages.length * (r.usableSize - 4) := by
  induction h with
  | done => exact Nat.zero_le _
  | page _ _ _ hle _ _ ih =>
      rw [length_append, length_cons, Nat.succ_mul]
      omega

/-! ## Following a chain -/

/-- A pointer is the four bytes that spell it. -/
theorem be32_eq_ok {v : U32} : be32 bytes 0 = .ok v ↔ ∃ rest, bytes = be 4 v.val ++ rest := by
  constructor
  · intro h
    match bytes with
    | [] | [_] | [_, _] | [_, _, _] => nomatch h
    | a :: b :: c :: d :: rest =>
        obtain rfl := ok.inj h
        exact ⟨rest, congrArg (· ++ rest) (be_ofBe [a, b, c, d]).symm⟩
  · rintro ⟨rest, rfl⟩
    have hvalue : ofBe (be 4 v.val) = v.val := by
      rw [ofBe_be]
      exact Nat.mod_eq_of_lt v.property
    have hlen := length_be 4 v.val
    revert hvalue hlen
    generalize be 4 v.val = spelled
    intro hvalue hlen
    match spelled, hlen with
    | [a, b, c, d], _ => exact congrArg ok (Subtype.ext hvalue)

/-- The part of a page behind its pointer. -/
theorem between_eq_ok {content part : Bytes} {next : Nat} (hcontent : content = be 4 next ++ after)
    (h : between content 4 (4 + n) = .ok part) :
    ∃ tail, content = be 4 next ++ (part ++ tail) ∧ part.length = n := by
  subst hcontent
  rw [between, drop_left' (length_be 4 _), Nat.add_sub_cancel_left] at h
  split at h
  · next hroom =>
    obtain rfl := ok.inj h
    rw [length_append, length_be] at hroom
    refine ⟨after.drop n, by rw [take_append_drop], ?_⟩
    rw [length_take]
    omega
  · cases h

theorem assembleLoop_done {perPage : Nat} (h : total ≤ out.length) :
    r.assembleLoop total perPage fuel out number = .ok (out, number) := by
  cases fuel <;> rw [assembleLoop, if_neg (not_lt.mpr h)]

/-- **THE LOOP READS A CHAIN** to its end. -/
theorem assembleLoop_of_chain (h : Chain r number bytes pages)
    (htotal : total = out.length + bytes.length) (hfuel : bytes.length ≤ fuel) :
    r.assembleLoop total (r.usableSize - 4) fuel out number = .ok (out ++ bytes, 0) := by
  induction h generalizing out fuel with
  | done =>
      rw [assembleLoop_done htotal.le, append_nil]
  | @page number next part rest tail pages content hread hcontent hne hle hfull hrest ih =>
      have hpos : 0 < part.length := length_pos_iff.mpr hne
      rw [length_append] at htotal hfuel
      obtain ⟨fuel, rfl⟩ : ∃ f, fuel = f + 1 := ⟨fuel - 1, by omega⟩
      have hnumber : number ≠ 0 := by
        have := (readPage_range hread).1
        omega
      have hfollowing : be32 content.val 0 = .ok ⟨next, hrest.first_lt⟩ :=
        be32_eq_ok.mpr ⟨_, hcontent⟩
      have htake : min (r.usableSize - 4) (total - out.length) = part.length := by
        by_cases hempty : rest = []
        · subst hempty
          simp only [length_nil] at htotal
          omega
        · have := hfull hempty
          omega
      have hpart : between content.val 4 (4 + part.length) = .ok part := by
        have hlen : 4 + part.length ≤ content.val.length := by
          rw [hcontent, length_append, length_append, length_be]
          omega
        rw [between, if_pos ⟨Nat.le_add_right _ _, hlen⟩, hcontent,
          drop_left' (length_be 4 next), Nat.add_sub_cancel_left, take_left]
      rw [assembleLoop, if_pos (by omega), refuse, dif_neg hnumber, ok_bind, hread, ok_bind,
        hfollowing, ok_bind,
        minus_eq_ok (by omega), ok_bind, htake, hpart, ok_bind,
        ih (by rw [length_append]; omega) (by omega), append_assoc]

theorem chain_of_done (hdone : out.length = total)
    (h : r.assembleLoop total (r.usableSize - 4) fuel out number = .ok (out', 0)) :
    ∃ bytes pages, out' = out ++ bytes ∧ out'.length = total ∧ Chain r number bytes pages := by
  rw [assembleLoop_done hdone.ge] at h
  obtain ⟨rfl, rfl⟩ := Prod.mk.inj (ok.inj h)
  exact ⟨[], [], (append_nil _).symm, hdone, .done⟩

/-- What the loop returned is a chain's, if the last pointer is 0. -/
theorem chain_of_assembleLoop (hout : out.length ≤ total)
    (h : r.assembleLoop total (r.usableSize - 4) fuel out number = .ok (out', 0)) :
    ∃ bytes pages, out' = out ++ bytes ∧ out'.length = total ∧ Chain r number bytes pages := by
  induction fuel generalizing out number with
  | zero =>
      rcases hout.eq_or_lt with hdone | hless
      · exact chain_of_done hdone h
      · rw [assembleLoop, if_pos hless] at h
        cases h
  | succ fuel ih =>
      rcases hout.eq_or_lt with hdone | hless
      · exact chain_of_done hdone h
      · rw [assembleLoop, if_pos hless] at h
        obtain ⟨-, -, h⟩ := bind_eq_ok.mp h
        obtain ⟨content, hread, h⟩ := bind_eq_ok.mp h
        obtain ⟨next, hnext, h⟩ := bind_eq_ok.mp h
        rw [minus_eq_ok hless.le, ok_bind] at h
        obtain ⟨part, hpart, h⟩ := bind_eq_ok.mp h
        obtain ⟨tail, hcontent, hlen⟩ := between_eq_ok (be32_eq_ok.mp hnext).choose_spec hpart
        have hu := r.usableSize_ge
        obtain ⟨rest, pages, rfl, htotal, hchain⟩ :=
          ih (by rw [length_append, hlen]; omega) h
        have hall := htotal
        simp only [length_append, hlen] at hall
        refine ⟨part ++ rest, number :: pages, append_assoc _ _ _, htotal, ?_⟩
        refine .page hread hcontent ?_ (by omega) ?_ hchain
        · intro hempty
          rw [hempty, length_nil] at hlen
          omega
        · intro hrest
          have := length_pos_iff.mpr hrest
          omega

end Chains

/-! ## Payloads -/

/-- What stands behind the head of a cell, for a payload and the pages it goes
    on in. -/
def Spilled (r : Reader) (kind : PageKind) (payload after : Bytes) (pages : List Nat) : Prop :=
  ∃ first tail, after = payload.take (Format.kept kind r.usableSize payload.length) ++ tail
    ∧ Chain r first (payload.drop (Format.kept kind r.usableSize payload.length)) pages
    ∧ (Format.kept kind r.usableSize payload.length < payload.length →
      ∃ rest, tail = be 4 first ++ rest)

section Payload

variable {r : Reader} {number : Nat} {kind : PageKind} {payload after : Bytes} {pages : List Nat}

theorem readOverflow_append (hpos : first ≠ 0) (hlt : first < 256 ^ 4) (rest : Bytes) :
    readOverflow number (be 4 first ++ rest) = .ok first := by
  have hread : be32 (be 4 first ++ rest) 0 = .ok ⟨first, hlt⟩ := be32_eq_ok.mpr ⟨rest, rfl⟩
  have hlen : ¬ (be 4 first ++ rest).length < 4 := by simp
  rw [readOverflow, refuse, dif_neg hlen, ok_bind, hread, ok_bind, refuse, dif_neg hpos]
  rfl

theorem readOverflow_eq_ok {rest : Bytes} (h : readOverflow number rest = .ok first) :
    ∃ rest', rest = be 4 first ++ rest' := by
  obtain ⟨-, -, h⟩ := bind_eq_ok.mp h
  obtain ⟨v, hv, h⟩ := bind_eq_ok.mp h
  obtain ⟨-, -, h⟩ := bind_eq_ok.mp h
  obtain rfl := ok.inj h
  exact be32_eq_ok.mp hv

/-- **A PAYLOAD LAID OUT BY THE RULE** is put together again. -/
theorem payload_of_spilled (h : Spilled r kind payload after pages)
    (hlimit : payload.length ≤ r.payloadLimit) :
    (payloadRef number kind after payload.length r.usableSize r.payloadLimit >>= r.assemble)
      = .ok payload := by
  obtain ⟨first, tail, rfl, hchain, htail⟩ := h
  have hu := r.usableSize_ge
  obtain ⟨hkept, -⟩ := Format.kept_le kind hu payload.length
  rw [payloadRef, refuse, dif_neg (not_lt.mpr hlimit), ok_bind, localLen_eq_ok hu, ok_bind]
  generalize Format.kept kind r.usableSize payload.length = kept at hchain htail hkept
  have hfront : (payload.take kept).length = kept := by
    rw [length_take]
    omega
  have hroom : ¬ (payload.take kept ++ tail).length < kept := by
    rw [length_append, hfront]
    omega
  have hin : between (payload.take kept ++ tail) 0 kept = .ok (payload.take kept) := by
    rw [between, if_pos ⟨Nat.zero_le _, not_lt.mp hroom⟩]
    exact congrArg ok (take_left' hfront)
  rw [refuse, dif_neg hroom, ok_bind, overflowOf]
  by_cases hmore : kept < payload.length
  · obtain ⟨rest, rfl⟩ := htail hmore
    have hlen : (payload.drop kept).length = payload.length - kept := length_drop
    have hfirst : first ≠ 0 := by
      rintro rfl
      cases hnil : payload.drop kept with
      | nil =>
          rw [hnil, length_nil] at hlen
          omega
      | cons b bs =>
          rw [hnil] at hchain
          generalize hbytes : b :: bs = bytes at hchain
          cases hchain with
          | done => cases hbytes
          | page hread => exact absurd (readPage_range hread).1 (by decide)
    have hsince : since (payload.take kept ++ (be 4 first ++ rest)) kept
        = .ok (be 4 first ++ rest) := by
      rw [since, if_pos (not_lt.mp hroom), drop_left' hfront]
    have hloop : r.assembleLoop payload.length (r.usableSize - 4) payload.length
        (payload.take kept) first = .ok (payload.take kept ++ payload.drop kept, 0) :=
      assembleLoop_of_chain hchain (by rw [hfront, hlen]; omega) (by rw [hlen]; omega)
    rw [if_pos hmore, hsince, ok_bind, readOverflow_append hfirst hchain.first_lt, ok_bind]
    show ((between _ _ _ >>= _) >>= _) = _
    rw [hin, ok_bind]
    change assemble r ⟨payload.length, payload.take kept, some first⟩ = .ok payload
    rw [assemble]
    dsimp only
    rw [minus_eq_ok (by omega), ok_bind, hloop, ok_bind, take_append_drop]
    rfl
  · rw [if_neg hmore, ok_bind, hin, take_of_length_le (not_lt.mp hmore)]
    rfl

/-- What is put together was laid out by the rule. -/
theorem spilled_of_payload
    (h : (payloadRef number kind after total r.usableSize r.payloadLimit >>= r.assemble)
      = .ok payload) : payload.length = total ∧ ∃ pages, Spilled r kind payload after pages := by
  have hu := r.usableSize_ge
  obtain ⟨hkept, -⟩ := Format.kept_le kind hu total
  obtain ⟨ref, href, hassemble⟩ := bind_eq_ok.mp h
  obtain ⟨-, -, href⟩ := bind_eq_ok.mp href
  rw [localLen_eq_ok hu, ok_bind] at href
  obtain ⟨⟨hroom⟩, -, href⟩ := bind_eq_ok.mp href
  have hfront : (after.take (Format.kept kind r.usableSize total)).length
      = Format.kept kind r.usableSize total := by
    rw [length_take]
    omega
  obtain ⟨overflow, hoverflow, href⟩ := bind_eq_ok.mp href
  rw [between, if_pos ⟨Nat.zero_le _, not_lt.mp hroom⟩, ok_bind, drop_zero, Nat.sub_zero] at href
  obtain rfl := ok.inj href
  rw [overflowOf] at hoverflow
  split at hoverflow
  · next hmore =>
    rw [since, if_pos (not_lt.mp hroom), ok_bind] at hoverflow
    obtain ⟨first, hfirst, hoverflow⟩ := bind_eq_ok.mp hoverflow
    obtain rfl := ok.inj hoverflow
    obtain ⟨rest, hrest⟩ := readOverflow_eq_ok hfirst
    rw [assemble] at hassemble
    dsimp only at hassemble
    rw [minus_eq_ok (by omega), ok_bind] at hassemble
    obtain ⟨⟨out, next⟩, hloop, hassemble⟩ := bind_eq_ok.mp hassemble
    obtain ⟨⟨hnext⟩, -, hassemble⟩ := bind_eq_ok.mp hassemble
    obtain rfl := ok.inj hassemble
    obtain rfl := not_not.mp hnext
    obtain ⟨bytes, pages, rfl, htotal, hchain⟩ :=
      chain_of_assembleLoop (by rw [hfront]; omega) hloop
    refine ⟨htotal, pages, first, after.drop (Format.kept kind r.usableSize total), ?_, ?_, ?_⟩
    · rw [htotal, take_left' hfront, take_append_drop]
    · rwa [htotal, drop_left' hfront]
    · exact fun _ => ⟨rest, hrest⟩
  · next hwhole =>
    obtain rfl := ok.inj hoverflow
    have hpayload : after.take (Format.kept kind r.usableSize total) = payload :=
      ok.inj hassemble
    subst hpayload
    have htotal : (after.take (Format.kept kind r.usableSize total)).length = total := by
      rw [hfront]
      omega
    refine ⟨htotal, [], 0, after.drop (Format.kept kind r.usableSize total), ?_, ?_, ?_⟩
    · rw [htotal, take_take, Nat.min_self, take_append_drop]
    · rw [htotal, drop_of_length_le (by omega)]
      exact .done
    · rw [htotal]
      exact fun hmore => absurd hmore hwhole

/-- A payload whose pages are others than its own is not larger than the file. -/
theorem Spilled.le_payloadLimit (h : Spilled r kind payload after pages) {own : Nat}
    (hown : 1 ≤ own ∧ own ≤ r.pageCount) (hother : own ∉ pages) :
    payload.length ≤ r.payloadLimit := by
  obtain ⟨first, tail, -, hchain, -⟩ := h
  have hu := r.usableSize_ge
  have hkept := (Format.kept_le kind hu payload.length).2
  have hbytes := hchain.length_le
  rw [length_drop] at hbytes
  -- the pages and the page of the cell are different pages of the file
  have hpages : pages.length + 1 ≤ r.pageCount := by
    have hnodup : (own :: pages).Nodup := nodup_cons.mpr ⟨hother, hchain.nodup⟩
    have hsub : (own :: pages) ⊆ List.range' 1 r.pageCount := by
      intro p hp
      have hrange : 1 ≤ p ∧ p ≤ r.pageCount := by
        rcases mem_cons.mp hp with rfl | hp
        · exact hown
        · exact hchain.range p hp
      exact mem_range'_1.mpr (by omega)
    have := (hnodup.subperm hsub).length_le
    rwa [length_cons, length_range'] at this
  calc payload.length
      ≤ r.usableSize + pages.length * r.usableSize := by
        have := Nat.mul_le_mul_left pages.length (Nat.sub_le r.usableSize 4)
        omega
    _ = (pages.length + 1) * r.usableSize := by rw [Nat.succ_mul, Nat.add_comm]
    _ ≤ r.pageCount * r.header.pageSize := Nat.mul_le_mul hpages r.header.usableSize_le

end Payload

/-! ## Cells -/

/-- The head of a cell, in front of its payload: a length, behind a rowid on a
    table's leaf and in front of it a child on an index's interior page.  The
    cell is what the payload makes of it. -/
inductive Lead : PageKind → Nat → Bytes → (Bytes → Cell) → Prop
  | leafTable {total row : Nat} {size rowid : Bytes} : Varint size total → Varint rowid row →
      Lead .leafTable total (size ++ rowid) (.tableLeaf (asI64 row))
  | leafIndex {total : Nat} {size : Bytes} : Varint size total →
      Lead .leafIndex total size .indexLeaf
  | interiorIndex {total child : Nat} {size : Bytes} : child ≠ 0 → child < 256 ^ 4 →
      Varint size total → Lead .interiorIndex total (be 4 child ++ size) (.indexInterior child)

/-- A cell with a payload, as the format lays it out. -/
def LaidOut (r : Reader) (page : BtreePage) (i : Nat) (cell : Bytes → Cell) (payload : Bytes)
    (pages : List Nat) : Prop :=
  ∃ head after, page.cell i = .ok (head ++ after) ∧ Lead page.kind payload.length head cell
    ∧ Spilled r page.kind payload after pages

section Cell

variable {r : Reader} {page : BtreePage} {i : Nat}

theorem since_append {front : Bytes} (h : front.length = n) (rest : Bytes) :
    since (front ++ rest) n = .ok rest := by
  rw [since, if_pos (by rw [length_append]; omega), drop_left' h]

/-- The reader takes the head off a cell. -/
theorem cell_of_lead (hcell : page.cell i = .ok (head ++ after))
    (hlead : Lead page.kind total head cell) (hlt : total < 2 ^ 63) : r.cell page i
      = (payloadRef page.number page.kind after total r.usableSize r.payloadLimit
          >>= r.assemble).map cell := by
  rw [Reader.cell, parseCell, hcell, ok_bind]
  generalize page.kind = kind at hlead
  cases hlead with
  | leafTable hsize hrow =>
      rename_i row size rowid
      have hsince : since (size ++ (rowid ++ after)) (size.length + rowid.length) = .ok after := by
        rw [← append_assoc]
        exact since_append length_append after
      rw [append_assoc]
      dsimp only
      rw [readUnsigned_append hsize hlt, ok_bind, since_append rfl, ok_bind,
        readVarint_append hrow, ok_bind, hsince, ok_bind]
      cases payloadRef page.number .leafTable after total r.usableSize r.payloadLimit with
      | error e => rfl
      | ok ref => exact bind_pure_eq_map
  | leafIndex hsize =>
      dsimp only
      rw [readUnsigned_append hsize hlt, ok_bind]
      dsimp only
      rw [since_append rfl, ok_bind]
      cases payloadRef page.number .leafIndex after total r.usableSize r.payloadLimit with
      | error e => rfl
      | ok ref => exact bind_pure_eq_map
  | interiorIndex hpos hchild hsize =>
      rename_i child size
      have hsince : since (be 4 child ++ (size ++ after)) (4 + size.length) = .ok after := by
        rw [← append_assoc]
        exact since_append (by rw [length_append, length_be]) after
      have hread : be32 (be 4 child ++ (size ++ after)) 0 = .ok ⟨child, hchild⟩ :=
        be32_eq_ok.mpr ⟨_, rfl⟩
      have hlead : readChild page.number i (be 4 child ++ (size ++ after)) = .ok child := by
        have hlen : ¬ (be 4 child ++ (size ++ after)).length < 4 := by simp
        rw [readChild, refuse, dif_neg hlen, ok_bind, hread, ok_bind, refuse, dif_neg hpos]
        rfl
      rw [append_assoc]
      dsimp only
      rw [hlead, ok_bind, since_append (length_be 4 child), ok_bind,
        readUnsigned_append hsize hlt, ok_bind, hsince, ok_bind]
      cases payloadRef page.number .interiorIndex after total r.usableSize r.payloadLimit with
      | error e => rfl
      | ok ref => exact bind_pure_eq_map

/-- A cell with a payload has a head. -/
theorem lead_of_cell {c : Cell} {payload : Bytes} (h : r.cell page i = .ok c)
    (hpayload : c.payload = some payload) : ∃ head after total cell,
      page.cell i = .ok (head ++ after) ∧ Lead page.kind total head cell ∧ total < 2 ^ 63 := by
  obtain ⟨layout, hparse, hrest⟩ := bind_eq_ok.mp h
  obtain ⟨bytes, hbytes, hparse⟩ := bind_eq_ok.mp hparse
  have hlt : ∀ {bytes : Bytes} {v : Nat × Nat}, readUnsigned bytes = .ok v → v.1 < 2 ^ 63 :=
    fun h => ((gives_readUnsigned _).ok h).2.2
  rw [hbytes]
  generalize page.kind = kind at hparse
  cases kind with
  | interiorTable =>
      obtain ⟨child, -, hparse⟩ := bind_eq_ok.mp hparse
      obtain ⟨rest, -, hparse⟩ := bind_eq_ok.mp hparse
      obtain ⟨⟨rowid, n⟩, -, hparse⟩ := bind_eq_ok.mp hparse
      obtain rfl := ok.inj hparse
      obtain rfl := ok.inj hrest
      nomatch hpayload
  | leafTable =>
      obtain ⟨⟨total, n⟩, htotal, hparse⟩ := bind_eq_ok.mp hparse
      obtain ⟨size, rest, rfl, rfl, hsize⟩ := readUnsigned_eq_ok htotal
      dsimp only at hparse
      rw [since_append rfl, ok_bind] at hparse
      obtain ⟨⟨rowid, m⟩, hrowid, -⟩ := bind_eq_ok.mp hparse
      obtain ⟨row, after, value, rfl, rfl, hrow, rfl⟩ := readVarint_eq_ok hrowid
      exact ⟨_, after, total, _, by rw [append_assoc], .leafTable hsize hrow, hlt htotal⟩
  | interiorIndex =>
      obtain ⟨child, hchild, hparse⟩ := bind_eq_ok.mp hparse
      obtain ⟨⟨hlen⟩, -, hchild⟩ := bind_eq_ok.mp hchild
      obtain ⟨v, hv, hchild⟩ := bind_eq_ok.mp hchild
      obtain ⟨⟨hpos⟩, -, hchild⟩ := bind_eq_ok.mp hchild
      obtain rfl := ok.inj hchild
      obtain ⟨rest, rfl⟩ := be32_eq_ok.mp hv
      rw [since_append (length_be 4 _), ok_bind] at hparse
      obtain ⟨⟨total, n⟩, htotal, -⟩ := bind_eq_ok.mp hparse
      obtain ⟨size, after, rfl, rfl, hsize⟩ := readUnsigned_eq_ok htotal
      exact ⟨_, after, total, _, by rw [append_assoc],
        .interiorIndex hpos v.property hsize, hlt htotal⟩
  | leafIndex =>
      obtain ⟨⟨total, n⟩, htotal, -⟩ := bind_eq_ok.mp hparse
      obtain ⟨size, after, rfl, rfl, hsize⟩ := readUnsigned_eq_ok htotal
      exact ⟨_, after, total, _, rfl, .leafIndex hsize, hlt htotal⟩

theorem Lead.payload {kind : PageKind} (h : Lead kind total head cell) (payload : Bytes) :
    (cell payload).payload = some payload := by
  cases h <;> rfl

/-- The number of a page that was read is one of the file's. -/
theorem btreePage_range {number : Nat} (h : r.btreePage number = .ok page) :
    1 ≤ number ∧ number ≤ r.pageCount := by
  obtain ⟨content, hread, -⟩ := bind_eq_ok.mp h
  exact readPage_range hread

end Cell

/-- **PAYLOADS ARE PUT TOGETHER EXACTLY, OR REFUSED**.  A cell that the format
    lays out, with its overflow on other pages than its own, is read with its
    payload.  Whatever the bytes are, a payload that is returned was laid out
    so: it has the length that the cell claims, its pages are different pages,
    and there are as many as the rest of it takes. -/
theorem payloads_reassembled (r : Reader) (number : Nat) (page : BtreePage)
    (hpage : r.btreePage number = .ok page) (i : Nat) :
    (∀ cell payload pages, LaidOut r page i cell payload pages → number ∉ pages →
      r.cell page i = .ok (cell payload)) ∧
    (∀ c payload, r.cell page i = .ok c → c.payload = some payload →
      ∃ cell pages, c = cell payload ∧ LaidOut r page i cell payload pages ∧ pages.Nodup
        ∧ pages.length = (payload.length - Format.kept page.kind r.usableSize payload.length
            + (r.usableSize - 4 - 1)) / (r.usableSize - 4)) := by
  constructor
  · rintro cell payload pages ⟨head, after, hcell, hlead, hspilled⟩ hother
    have hlimit := hspilled.le_payloadLimit (btreePage_range hpage) hother
    have hsmall : r.payloadLimit < 2 ^ 63 := by
      have := Nat.mul_le_mul r.pages.le r.header.small
      rw [payloadLimit]
      omega
    rw [cell_of_lead hcell hlead (lt_of_le_of_lt hlimit hsmall), payload_of_spilled hspilled hlimit]
    rfl
  · intro c payload hread hpayload
    obtain ⟨head, after, total, cell, hcell, hlead, hlt⟩ := lead_of_cell hread hpayload
    rw [cell_of_lead hcell hlead hlt] at hread
    cases hput : payloadRef page.number page.kind after total r.usableSize r.payloadLimit
        >>= r.assemble with
    | error e =>
        rw [hput] at hread
        nomatch hread
    | ok payload' =>
        rw [hput] at hread
        obtain rfl := ok.inj hread
        obtain rfl := Option.some.inj ((hlead.payload payload').symm.trans hpayload)
        obtain ⟨rfl, pages, hspilled⟩ := spilled_of_payload hput
        obtain ⟨first, tail, -, hchain, -⟩ := id hspilled
        refine ⟨cell, pages, rfl, ⟨head, after, hcell, hlead, hspilled⟩, hchain.nodup, ?_⟩
        rw [hchain.length_eq, length_drop]

/-- Three pages of 512 bytes: the second is a leaf with one row, whose payload
    of 600 bytes goes on in the third. -/
def spilledReader : Reader where
  source := sliceSource (List.replicate 512 0
    ++ [13, 0, 0, 0, 1, 0, 16, 0, 0, 16, 0, 0, 0, 0, 0, 0, 132, 88, 1]
    ++ List.replicate 92 7 ++ [0, 0, 0, 3] ++ List.replicate 397 0
    ++ [0, 0, 0, 0] ++ List.replicate 508 7)
  header := ⟨512, 0, false, none, .utf8, by decide, by decide⟩
  pageCount := 3
  pages := by decide

/-- The payload comes back from both pages. -/
theorem payloads_reassembled_twoPages : ∃ page, spilledReader.btreePage 2 = .ok page
    ∧ ∃ cell pages, LaidOut spilledReader page 0 cell (List.replicate 600 7) pages
      ∧ pages.Nodup ∧ pages.length = 1 := by
  have hread : (spilledReader.btreePage 2 >>= fun page => spilledReader.cell page 0)
      = .ok (.tableLeaf 1 (List.replicate 600 7)) := by decide +kernel
  have hkind : (spilledReader.btreePage 2).map (fun page => page.kind) = .ok .leafTable := by
    decide +kernel
  obtain ⟨page, hpage, hcell⟩ := bind_eq_ok.mp hread
  rw [hpage] at hkind
  have hleaf : page.kind = .leafTable := ok.inj hkind
  obtain ⟨cell, pages, -, hlaid, hnodup, hlen⟩ :=
    (payloads_reassembled spilledReader 2 page hpage 0).2 _ (List.replicate 600 7) hcell rfl
  refine ⟨page, hpage, cell, pages, hlaid, hnodup, hlen.trans ?_⟩
  rw [hleaf, length_replicate]
  decide

end QuantySqlite
