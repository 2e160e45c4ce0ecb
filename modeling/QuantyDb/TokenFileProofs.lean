import QuantyDb.TokensModel

/-! # Appending to the token file

    A minted line carries its label as it was given.  The file is read by
    lines, a line up to its first `#`, and what is left by words; so the label
    counts only as far as it has something to show before a `#` and before the
    end of its line.  Then the file with the line behind it loads and gains
    exactly the new token, and otherwise it does not load at all
    (`parse_minted`). -/

namespace QuantyTokenFile

open QuantyPage QuantyEncoding QuantyTokens List

/-! ## Words -/

theorem wordsFrom_cons (cur : List Char) (c : Char) (l : List Char) :
    wordsFrom cur (c :: l) = if isWhitespace c then
      if cur.isEmpty then wordsFrom [] l else cur.reverse :: wordsFrom [] l
      else wordsFrom (c :: cur) l := rfl

variable {a cur raw : List Char} {c : Char} {i : Nat} {label : String}

theorem wordsFrom_eq_nil {l : List Char} :
    wordsFrom cur l = [] ↔ cur = [] ∧ ∀ c ∈ l, isWhitespace c := by
  induction l generalizing cur with
  | nil => cases cur <;> simp [wordsFrom]
  | cons c l ih =>
      rw [wordsFrom]
      split
      · cases cur <;> simp_all
      · simp_all

/-- Whitespace separates words. -/
theorem wordsFrom_sep (hc : isWhitespace c) (cur a b : List Char) :
    wordsFrom cur (a ++ c :: b) = wordsFrom cur a ++ wordsFrom [] b := by
  induction a generalizing cur with
  | nil =>
      rw [nil_append, wordsFrom_cons, if_pos hc, wordsFrom]
      split <;> rfl
  | cons d a ih =>
      rw [cons_append, wordsFrom_cons, wordsFrom_cons, ih, ih]
      split
      · split <;> rfl
      · rfl

theorem wordsFrom_word (ha : ∀ c ∈ a, ¬ isWhitespace c) (cur : List Char) :
    wordsFrom cur a = wordsFrom (a.reverse ++ cur) [] := by
  induction a generalizing cur with
  | nil => rfl
  | cons c a ih =>
      obtain ⟨hc, ha⟩ := forall_mem_cons.mp ha
      rw [wordsFrom_cons, if_neg hc, ih ha, reverse_cons, append_assoc, singleton_append]

variable {s : List Char} {digest : Bytes}

theorem wordsFrom_spaces (hs : ∀ c ∈ s, isWhitespace c) (cur a : List Char) :
    wordsFrom cur (a ++ s) = wordsFrom cur a := by
  cases s with
  | nil => rw [append_nil]
  | cons c s =>
      obtain ⟨hc, hs⟩ := forall_mem_cons.mp hs
      rw [wordsFrom_sep hc, wordsFrom_eq_nil.mpr ⟨rfl, hs⟩, append_nil]

theorem wordsFrom_dropWhile (l : List Char) :
    wordsFrom [] (l.dropWhile isWhitespace) = wordsFrom [] l := by
  induction l with
  | nil => rfl
  | cons c l ih =>
      rw [dropWhile_cons, wordsFrom]
      split
      · exact ih
      · next hc => rw [wordsFrom, if_neg hc]

theorem wordsFrom_trim (l : List Char) : wordsFrom [] (trim l) = wordsFrom [] l := by
  rw [← wordsFrom_dropWhile l]
  conv_rhs => rw [← reverse_reverse (l.dropWhile isWhitespace),
    ← takeWhile_append_dropWhile (p := isWhitespace) (l := (l.dropWhile isWhitespace).reverse),
    reverse_append]
  refine (wordsFrom_spaces (fun c hc => ?_) [] _).symm
  exact mem_takeWhile_imp (mem_reverse.mp hc)

theorem trim_isEmpty (l : List Char) : (trim l).isEmpty = (wordsFrom [] l).isEmpty := by
  rw [Bool.eq_iff_iff, List.isEmpty_iff, List.isEmpty_iff]
  constructor
  · intro h
    rw [← wordsFrom_trim, h]
    rfl
  · intro h
    have hdrop : l.dropWhile isWhitespace = [] :=
      List.dropWhile_eq_nil_iff.mpr (wordsFrom_eq_nil.mp h).2
    rw [trim, hdrop]
    rfl

/-! ## One line -/

/-- What counts on a line. -/
def content (raw : List Char) : List (List Char) := wordsFrom [] (raw.takeWhile (· ≠ '#'))

/-- The digest of a line, if it is no comment. -/
def digestOf : List (List Char) → Except String (Option Bytes)
  | [] => .ok none
  | hash :: labels => match fromHex hash with
      | none => .error "expected sixty four hex characters"
      | some digest =>
          if labels.isEmpty then .error "a hash needs a label after it" else .ok (some digest)

theorem parseLines_cons (i : Nat) (raw : List Char) (rest : List (List Char)) :
    parseLines i (raw :: rest) = match digestOf (content raw) with
      | .error detail => .error (.malformed (i + 1) detail)
      | .ok digest => (parseLines (i + 1) rest).map (digest.toList ++ ·) := by
  rw [parseLines]
  dsimp only
  rw [trim_isEmpty, wordsFrom_trim, ← content]
  cases content raw with
  | nil =>
      show parseLines (i + 1) rest = (parseLines (i + 1) rest).map id
      cases parseLines (i + 1) rest <;> rfl
  | cons hash labels =>
      rw [if_neg (by simp), digestOf, headD_cons, tail_cons]
      cases fromHex hash with
      | none => rfl
      | some digest =>
          dsimp only
          split
          · rfl
          · cases parseLines (i + 1) rest <;> rfl

/-- Whitespace at the end of a line does not count. -/
theorem content_spaces (hs : ∀ c ∈ s, isWhitespace c) (raw : List Char) :
    content (raw ++ s) = content raw := by
  unfold content
  rw [takeWhile_append]
  split
  · next hlen =>
    have hwhole := takeWhile_prefix _ |>.eq_of_length hlen
    rw [hwhole]
    exact wordsFrom_spaces (fun c hc => hs c ((takeWhile_sublist _).subset hc)) [] raw
  · rfl

/-! ## Lines -/

/-- The line that a line end closes. -/
def closed (cur : List Char) : List Char :=
  (match cur with
    | '\r' :: before => before
    | _ => cur).reverse

theorem linesFrom_cons (cur : List Char) (c : Char) (l : List Char) :
    linesFrom cur (c :: l) = if c = '\n' then closed cur :: linesFrom [] l
      else linesFrom (c :: cur) l := rfl

theorem content_closed (cur : List Char) : content (closed cur) = content cur.reverse := by
  unfold closed
  split
  · rw [reverse_cons, content_spaces]
    exact fun c hc => mem_singleton.mp hc ▸ rfl
  · rfl

theorem linesFrom_append (ha : '\n' ∉ a) (cur l : List Char) :
    linesFrom cur (a ++ l) = linesFrom (a.reverse ++ cur) l := by
  induction a generalizing cur with
  | nil => rfl
  | cons c a ih =>
      obtain ⟨hc, ha⟩ := not_or.mp (mem_cons.not.mp ha)
      rw [cons_append, linesFrom_cons, if_neg (Ne.symm hc), ih ha, reverse_cons,
        append_assoc, singleton_append]

theorem parseLines_cons_ok {rest : List (List Char)} {a : List Bytes}
    (h : parseLines i (raw :: rest) = .ok a) : ∃ digest more, digestOf (content raw) = .ok digest ∧
      parseLines (i + 1) rest = .ok more ∧ a = digest.toList ++ more := by
  rw [parseLines_cons] at h
  cases hd : digestOf (content raw) with
  | error detail =>
      rw [hd] at h
      nomatch h
  | ok digest =>
      rw [hd] at h
      cases hrest : parseLines (i + 1) rest with
      | error e =>
          rw [hrest] at h
          nomatch h
      | ok more =>
          rw [hrest] at h
          exact ⟨digest, more, rfl, rfl, (Except.ok.inj h).symm⟩

/-- A line by its content, whatever else follows. -/
theorem parseLines_content {raw' : List Char} (h : content raw = content raw') (i : Nat)
    (rest : List (List Char)) : parseLines i (raw :: rest) = parseLines i (raw' :: rest) := by
  rw [parseLines_cons, parseLines_cons, h]

theorem parseLines_last (i : Nat) (cur : List Char) :
    parseLines i (linesFrom cur []) = parseLines i [cur.reverse] := by
  cases cur with
  | nil => rfl
  | cons c cur => rfl

/-- Whitespace at the end of a text does not count, line ends included. -/
theorem parseLines_spaces (hs : ∀ c ∈ s, isWhitespace c) (i : Nat) (cur : List Char) :
    parseLines i (linesFrom cur s) = parseLines i [cur.reverse] := by
  induction s generalizing i cur with
  | nil => exact parseLines_last i cur
  | cons c s ih =>
      obtain ⟨hc, hs⟩ := forall_mem_cons.mp hs
      rw [linesFrom_cons]
      split
      · rw [parseLines_content (content_closed cur), parseLines_cons, parseLines_cons, ih hs]
        rfl
      · rw [ih hs, reverse_cons]
        refine parseLines_content (content_spaces (fun d hd => ?_) _) i []
        exact mem_singleton.mp hd ▸ hc

/-- **A TEXT THAT LOADS LOADS BEFORE ANY OTHER**: what it says stays, and the
    lines behind it decide. -/
theorem parseLines_behind {t : List Char} {accepted : List Bytes}
    (h : parseLines i (linesFrom cur t) = .ok accepted) (l : List Char) :
    ∃ j, parseLines i (linesFrom cur (t ++ '\n' :: l))
      = (parseLines j (linesFrom [] l)).map (accepted ++ ·) := by
  induction t generalizing cur i accepted with
  | nil =>
      rw [parseLines_last] at h
      obtain ⟨digest, more, hd, hmore, rfl⟩ := parseLines_cons_ok h
      obtain rfl := Except.ok.inj hmore
      refine ⟨i + 1, ?_⟩
      rw [nil_append, linesFrom_cons, if_pos rfl, parseLines_content (content_closed cur),
        parseLines_cons, hd, append_nil]
  | cons c t ih =>
      rw [linesFrom_cons] at h
      rw [cons_append, linesFrom_cons]
      split at h
      · next hc =>
        obtain ⟨digest, more, hd, hmore, rfl⟩ := parseLines_cons_ok h
        obtain ⟨j, hj⟩ := ih hmore
        refine ⟨j, ?_⟩
        rw [if_pos hc, parseLines_cons, hd, hj]
        cases parseLines j (linesFrom [] l) with
        | error e => rfl
        | ok new => exact congrArg Except.ok (append_assoc _ _ _).symm
      · next hc =>
        rw [if_neg hc]
        exact ih h

/-! ## Hex -/

theorem hex_byte (b : UInt8) : hexBytes [nibble (b >>> 4), nibble (b &&& 0x0f)] = some [b]
    ∧ ∀ c ∈ [nibble (b >>> 4), nibble (b &&& 0x0f)], ¬ isWhitespace c ∧ c ≠ '#' := by
  have h : ∀ high low : Fin 16, let b := UInt8.ofNat (16 * high + low)
      hexBytes [nibble (b >>> 4), nibble (b &&& 0x0f)] = some [b]
        ∧ (¬ isWhitespace (nibble (b >>> 4)) ∧ nibble (b >>> 4) ≠ '#')
        ∧ ¬ isWhitespace (nibble (b &&& 0x0f)) ∧ nibble (b &&& 0x0f) ≠ '#' := by
    decide +kernel
  have hb := h ⟨b.toNat / 16, by have := b.toNat_lt; omega⟩ ⟨b.toNat % 16, Nat.mod_lt _ (by decide)⟩
  dsimp only at hb
  rw [Nat.div_add_mod, UInt8.ofNat_toNat] at hb
  exact ⟨hb.1, forall_mem_cons.mpr ⟨hb.2.1, forall_mem_singleton.mpr hb.2.2⟩⟩

theorem hexBytes_append_two {hi lo : Char} {b : UInt8} (h : hexBytes [hi, lo] = some [b])
    (rest : List Char) : hexBytes (hi :: lo :: rest) = (hexBytes rest).map (b :: ·) := by
  rw [hexBytes] at h ⊢
  cases hx : hexValue hi with
  | none =>
      rw [hx] at h
      nomatch h
  | some x =>
      cases hy : hexValue lo with
      | none =>
          rw [hx, hy] at h
          nomatch h
      | some y =>
          rw [hx, hy] at h
          obtain ⟨rfl, -⟩ := List.cons.inj (Option.some.inj h)
          cases hexBytes rest <;> rfl

theorem hexBytes_toHex (digest : Bytes) : hexBytes (toHex digest).toList = some digest := by
  rw [toHex, String.toList_ofList]
  induction digest with
  | nil => rfl
  | cons b digest ih =>
      rw [flatMap_cons]
      exact (hexBytes_append_two (hex_byte b).1 _).trans (congrArg (Option.map (b :: ·)) ih)

theorem toHex_plain (hc : c ∈ (toHex digest).toList) : ¬ isWhitespace c ∧ c ≠ '#' := by
  rw [toHex, String.toList_ofList] at hc
  obtain ⟨b, -, hb⟩ := mem_flatMap.mp hc
  exact (hex_byte b).2 c hb

theorem fromHex_toHex (h : digest.length = 32) : fromHex (toHex digest).toList = some digest := by
  have hlen : (toHex digest).toList.length = 64 := by
    rw [toHex, String.toList_ofList, length_flatMap]
    simp [h]
  rw [fromHex, if_neg (not_not.mpr hlen), hexBytes_toHex]

/-! ## The minted line -/

/-- Something of the label stands in front of a comment and of the end of the
    line. -/
def shows (label : String) : Bool :=
  ((label.toList.takeWhile (· ≠ '\n')).takeWhile (· ≠ '#')).any fun c => !isWhitespace c

theorem shows_eq (label : String) : shows label
    = !(wordsFrom [] ((label.toList.takeWhile (· ≠ '\n')).takeWhile (· ≠ '#'))).isEmpty := by
  rw [Bool.eq_iff_iff, shows, List.any_eq_true, Bool.not_eq_true', ← Bool.not_eq_true,
    List.isEmpty_iff, wordsFrom_eq_nil]
  simp

/-- What counts on a line that starts with a digest. -/
theorem content_hash (digest : Bytes) (r : List Char) :
    content ((toHex digest).toList ++ ' ' :: r)
      = wordsFrom [] (toHex digest).toList ++ wordsFrom [] (r.takeWhile (· ≠ '#')) := by
  unfold content
  rw [takeWhile_append_of_pos fun c hc => decide_eq_true (toHex_plain hc).2, takeWhile_cons,
    if_pos (by decide), wordsFrom_sep (by decide)]

theorem digestOf_hash (h : digest.length = 32) (labels : List (List Char)) :
    digestOf (wordsFrom [] (toHex digest).toList ++ labels)
      = if labels.isEmpty then .error "a hash needs a label after it" else .ok (some digest) := by
  have hne : (toHex digest).toList ≠ [] := by
    intro hnil
    have := fromHex_toHex h
    rw [hnil] at this
    nomatch this
  have hword : wordsFrom [] (toHex digest).toList = [(toHex digest).toList] := by
    rw [wordsFrom_word fun c hc => (toHex_plain hc).1, append_nil, wordsFrom,
      if_neg (by simpa using hne), reverse_reverse]
  rw [hword, singleton_append, digestOf, fromHex_toHex h]

/-- The line of the digest ends where the label has its first line end, and
    behind a label that shows there is nothing more. -/
theorem parse_first (hlabel : isLabel label) (digest : Bytes) (i : Nat) :
    ∃ rest, parseLines i (linesFrom [] ((toHex digest).toList ++ ' ' :: label.toList))
        = parseLines i (((toHex digest).toList ++ ' ' :: label.toList.takeWhile (· ≠ '\n')) :: rest)
      ∧ (shows label → parseLines (i + 1) rest = .ok []) := by
  generalize hr : label.toList.takeWhile (· ≠ '\n') = r
  have hsplit := takeWhile_append_dropWhile (p := (· ≠ '\n')) (l := label.toList)
  rw [hr] at hsplit
  have hline : '\n' ∉ (toHex digest).toList ++ ' ' :: r := by
    intro hmem
    rcases mem_append.mp hmem with hmem | hmem
    · exact (toHex_plain hmem).1 rfl
    · rcases mem_cons.mp hmem with hmem | hmem
      · nomatch hmem
      · rw [← hr] at hmem
        have hne := mem_takeWhile_imp hmem
        exact of_decide_eq_true hne rfl
  cases hdrop : label.toList.dropWhile (· ≠ '\n') with
  | nil =>
      rw [hdrop, append_nil] at hsplit
      refine ⟨[], ?_, fun _ => rfl⟩
      have happ := linesFrom_append hline [] []
      rw [append_nil, append_nil] at happ
      rw [← hsplit, happ, parseLines_last, reverse_reverse]
  | cons c v =>
      obtain rfl : c = '\n' := by
        have hhead := head?_dropWhile_not (· ≠ '\n') label.toList
        rw [hdrop] at hhead
        simpa using hhead
      rw [hdrop] at hsplit
      refine ⟨linesFrom [] v, ?_, fun hshows => ?_⟩
      · rw [← hsplit, ← cons_append, ← append_assoc, linesFrom_append hline, linesFrom_cons,
          if_pos rfl, append_nil, parseLines_content (content_closed _), reverse_reverse]
      · -- the one word of the label is in front of the line end
        have hv : wordsFrom [] v = [] := by
          have hone : (wordsFrom [] label.toList).length = 1 := beq_iff_eq.mp hlabel
          rw [← hsplit, wordsFrom_sep (by decide), length_append] at hone
          have hword : wordsFrom [] r ≠ [] := by
            rw [shows_eq, hr] at hshows
            intro hnil
            have hblank : ∀ c ∈ r.takeWhile (· ≠ '#'), isWhitespace c := fun c hc =>
              (wordsFrom_eq_nil.mp hnil).2 c ((takeWhile_sublist _).subset hc)
            rw [wordsFrom_eq_nil.mpr ⟨rfl, hblank⟩] at hshows
            nomatch hshows
          have := length_pos_iff.mpr hword
          exact length_eq_zero_iff.mp (by omega)
        rw [parseLines_spaces (wordsFrom_eq_nil.mp hv).2]
        rfl

/-- **THE MINTED LINE LOADS EXACTLY WHEN ITS LABEL SHOWS**. -/
theorem parse_minted (h : digest.length = 32) (hlabel : isLabel label) (i : Nat) :
    parseLines i (linesFrom [] (toHex digest ++ " " ++ label).toList)
      = if shows label then .ok [digest]
        else .error (.malformed (i + 1) "a hash needs a label after it") := by
  rw [String.toList_append, String.toList_append, append_assoc]
  obtain ⟨rest, hrest, hquiet⟩ := parse_first hlabel digest i
  refine hrest.trans ?_
  rw [parseLines_cons, content_hash, digestOf_hash h]
  cases hshows : shows label with
  | true =>
      rw [hquiet hshows, if_neg (by simpa [shows_eq] using hshows)]
      rfl
  | false =>
      rw [if_pos (by simpa [shows_eq] using hshows)]
      rfl

/-- **A MINTED LINE WORKS EXACTLY WHEN ITS LABEL SHOWS**: then the file with the
    line behind it loads, and lets in what it let in before and the new token. -/
theorem minted_line_works (sha256 : Bytes → Bytes) (hlen : ∀ b, (sha256 b).length = 32)
    (text label : String) (accepted : List Bytes) (hload : parseLines 0 (lines text) = .ok accepted)
    (hlabel : isLabel label) (raw : Bytes)
    (hcollide : ∀ token, sha256 token = sha256 (asBytes (mint sha256 raw label).1) →
      token = asBytes (mint sha256 raw label).1) :
    (∃ after, parseLines 0 (lines (text ++ "\n" ++ (mint sha256 raw label).2)) = .ok after
      ∧ ∀ token, sha256 token ∈ after
          ↔ sha256 token ∈ accepted ∨ token = asBytes (mint sha256 raw label).1)
      ↔ shows label := by
  have htext : (text ++ "\n" ++ (mint sha256 raw label).2).toList
      = text.toList ++ '\n' :: (mint sha256 raw label).2.toList := by
    rw [String.toList_append, String.toList_append, append_assoc]
    rfl
  obtain ⟨j, hj⟩ := parseLines_behind hload (mint sha256 raw label).2.toList
  rw [lines, htext, hj]
  unfold mint
  rw [parse_minted (hlen _) hlabel]
  cases shows label with
  | true =>
      refine iff_of_true ⟨_, rfl, fun token => ?_⟩ rfl
      rw [mem_append, mem_singleton]
      exact or_congr Iff.rfl ⟨hcollide token, fun h => h ▸ rfl⟩
  | false =>
      refine iff_of_false ?_ nofun
      rintro ⟨after, h, -⟩
      nomatch h

/-- A digest that tells one token from all others. -/
def marks (token : Bytes) (b : Bytes) : Bytes := List.replicate 32 (if b = token then 1 else 0)

theorem marks_eq {token b : Bytes} (h : marks token b = marks token token) : b = token := by
  by_contra hne
  unfold marks at h
  rw [if_neg hne, if_pos rfl] at h
  exact absurd h (by decide)

/-- Thirty two bytes to mint from, and the token they give. -/
def drawn : Bytes := List.replicate 32 7

def drawnToken : Bytes := asBytes (toHex drawn)

/-- A file that lets in every token with the digest of zeros. -/
def phoneFile : String := "# tokens\n" ++ toHex (List.replicate 32 0) ++ " phone"

/-- The file with a line for the drawn token lets that in too. -/
theorem minted_line_works_second :
    ∃ after, parseLines 0 (lines (phoneFile ++ "\n" ++ (mint (marks drawnToken) drawn "laptop").2))
        = .ok after
      ∧ marks drawnToken [1] ∈ after ∧ marks drawnToken drawnToken ∈ after := by
  have hload : parseLines 0 (lines phoneFile) = .ok [List.replicate 32 0] := by decide +kernel
  obtain ⟨after, hafter, hin⟩ := (minted_line_works (marks drawnToken) (fun _ => length_replicate)
    phoneFile "laptop" _ hload (by decide) drawn fun _ => marks_eq).mpr (by decide)
  refine ⟨after, hafter, (hin _).mpr (.inl ?_), (hin _).mpr (.inr rfl)⟩
  decide +kernel

/-- A label that starts a comment is one word, and its line stops the file from
    loading. -/
theorem hash_label_spoils_file : isLabel "#laptop" ∧ parseLines 0 (lines "") = .ok [] ∧
    parseLines 0 (lines ("" ++ "\n" ++ (mint (marks drawnToken) drawn "#laptop").2))
      = .error (.malformed 2 "a hash needs a label after it") := by
  refine ⟨by decide, rfl, ?_⟩
  have hlen : (marks drawnToken drawnToken).length = 32 := length_replicate
  have hminted := parse_minted hlen (show isLabel "#laptop" by decide) 1
  rw [lines, String.toList_append, String.toList_append]
  exact (parseLines_cons 0 [] _).trans (congrArg (Except.map ([] ++ ·)) hminted)

end QuantyTokenFile
