import QuantyDb.SqliteDdl
import QuantyDb.SqliteReadProofs

/-! # Reading a `create table` statement never faults

    A position in the characters stays among them, and the offset of a token
    is the offset of a position: so the text is never cut inside a character.
    A position in the tokens stays among them, and every round of a loop takes
    a token: so every loop ends. -/

namespace QuantySqlite

open Outcome List Returns
open QuantyTokens (isWhitespace trim)

/-! ## Slices and texts -/

variable {i stop : Nat} {c : Char} {what : String} {σ : Type}

/-- Indexing within the list. -/
theorem gives_nth {α : Type} {l : List α} (h : i < l.length) :
    Gives (nth l i) (fun a => l[i]? = some a) := by
  rw [nth, getElem?_eq_getElem h]
  exact of_ok rfl

/-- A slice within the list, the right way round. -/
theorem safe_slice {α : Type} {l : List α} {start : Nat} (h : start ≤ stop)
    (hstop : stop ≤ l.length) : Safe (slice l start stop) := by
  rw [slice, if_pos ⟨h, hstop⟩]
  exact of_ok trivial

theorem textSize_append (a b : List Char) : textSize (a ++ b) = textSize a + textSize b := by
  rw [textSize, map_append, sum_append]
  rfl

/-- No character is smaller than a byte. -/
theorem length_le_textSize (cs : List Char) : cs.length ≤ textSize cs := by
  induction cs with
  | nil => exact le_rfl
  | cons c cs ih =>
      have := Char.utf8Size_pos c
      rw [textSize_cons, length_cons]
      omega

/-- A byte of a text where a character ends or the text begins. -/
def Boundary (text : List Char) (byte : Nat) : Prop :=
  ∃ before after, text = before ++ after ∧ textSize before = byte

/-- A cut between two characters finds them on its sides. -/
theorem splitAtByte_append (before after : List Char) :
    splitAtByte (before ++ after) (textSize before) = some (before, after) := by
  induction before with
  | nil => rw [nil_append, show textSize [] = 0 from rfl, splitAtByte]
  | cons c before ih =>
      have hpos := Char.utf8Size_pos c
      obtain ⟨n, hn⟩ : ∃ n, textSize (c :: before) = n + 1 :=
        ⟨textSize (c :: before) - 1, by rw [textSize_cons]; omega⟩
      rw [textSize_cons] at hn
      rw [textSize_cons, hn, cons_append, splitAtByte, if_pos (by omega),
        show n + 1 - c.utf8Size = textSize before by omega, ih]
      rfl

/-- **A CUT AT BOUNDARIES**. -/
theorem safe_sliceText {text : List Char} {start : Nat} (hstart : Boundary text start)
    (hstop : Boundary text stop) (h : start ≤ stop) : Safe (sliceText text start stop) := by
  obtain ⟨before, rest, rfl, rfl⟩ := hstart
  obtain ⟨upTo, after, heq, rfl⟩ := hstop
  have hfront : ∃ cut, upTo = before ++ cut := by
    rcases append_eq_append_iff.mp heq with ⟨cut, hcut, -⟩ | ⟨cut, hcut, -⟩
    · exact ⟨cut, hcut⟩
    · -- the part before the start is not longer, so nothing is between them
      have hzero : cut.length = 0 := by
        have := length_le_textSize cut
        rw [hcut, textSize_append] at h
        omega
      exact ⟨[], by rw [hcut, length_eq_zero_iff.mp hzero, append_nil, append_nil]⟩
  obtain ⟨cut, rfl⟩ := hfront
  rw [sliceText, heq, splitAtByte_append]
  dsimp only
  rw [splitAtByte_append]
  exact of_ok trivial

namespace Ddl

/-! ## Tokens -/

/-- The offset of a position is the size of what is before it. -/
theorem getElem?_byteOffsets (off : Nat) (cs : List Char) (i : Nat) (h : i ≤ cs.length) :
    (byteOffsets off cs)[i]? = some (off + textSize (cs.take i)) := by
  induction cs generalizing off i with
  | nil =>
      obtain rfl : i = 0 := Nat.le_zero.mp h
      rfl
  | cons c cs ih =>
      cases i with
      | zero => rfl
      | succ i =>
          rw [length_cons] at h
          rw [byteOffsets, getElem?_cons_succ, ih _ i (by omega), take_succ_cons,
            textSize_cons, Nat.add_assoc]

/-- A token that begins and ends where characters do. -/
structure Tok.In (t : Tok) (text : List Char) : Prop where
  start : Boundary text t.start
  stop : Boundary text t.stop

section Loops

/-- **A LOOP OVER POSITIONS** ends among them. -/
theorem gives_skipWhile {condition : Nat → Result Bool} (hsmall : stop < 2 ^ 63) (fuel i : Nat)
    (hfuel : stop ≤ i + fuel) (hi : i ≤ stop) (h : ∀ k, i ≤ k → k < stop → Safe (condition k)) :
    Gives (skipWhile stop condition fuel i) (fun j => i ≤ j ∧ j ≤ stop) := by
  induction fuel generalizing i with
  | zero =>
      rw [skipWhile, if_neg (by omega)]
      exact of_ok ⟨le_rfl, hi⟩
  | succ fuel ih =>
      rw [skipWhile]
      refine of_ite (fun hlt => ?_) fun _ => of_ok ⟨le_rfl, hi⟩
      refine (h i le_rfl hlt).bind fun goOn _ => ?_
      refine of_ite (fun _ => ?_) fun _ => of_pure ⟨le_rfl, hi⟩
      refine of_plus (by omega) ?_
      refine (ih (i + 1) (by omega) (by omega) fun k hk => h k (by omega)).imp ?_
      rintro j ⟨hj, hstop⟩
      exact ⟨by omega, hstop⟩

/-- A loop that goes on at its first position leaves it. -/
theorem gives_skipWhile_lt {condition : Nat → Result Bool} (hsmall : stop < 2 ^ 63) (fuel i : Nat)
    (hfuel : stop ≤ i + fuel) (hi : i < stop) (h : ∀ k, i ≤ k → k < stop → Safe (condition k))
    (hfirst : condition i = .ok true) :
    Gives (skipWhile stop condition fuel i) (fun j => i < j ∧ j ≤ stop) := by
  cases fuel with
  | zero => omega
  | succ fuel =>
      rw [skipWhile, if_pos hi, hfirst, ok_bind, if_pos rfl]
      refine of_plus (by omega) ?_
      refine (gives_skipWhile hsmall fuel (i + 1) (by omega) (by omega) fun k hk =>
        h k (by omega)).imp ?_
      rintro j ⟨hj, hstop⟩
      exact ⟨by omega, hstop⟩

end Loops

namespace Statement

/-- A statement that fits the memory, with the offsets of its characters. -/
class Sound (s : Statement) : Prop where
  offsets : s.offsets = byteOffsets 0 s.chars
  small : s.chars.length < 2 ^ 63

variable {s : Statement}

/-- A token of a round, and the position behind it. -/
def Reads (s : Statement) (i : Nat) (r : Tok × Nat) : Prop :=
  i < r.2 ∧ r.2 ≤ s.chars.length ∧ r.1.In s.chars

/-- A position among the characters that leads to one behind it. -/
def Onward (s : Statement) (i : Nat) (r : List Char × Nat) : Prop := i < r.2 ∧ r.2 ≤ s.chars.length

theorem Onward.of_lt {j : Nat} {r : List Char × Nat} (h : Onward s j r) (hij : i ≤ j) :
    Onward s i r := ⟨lt_of_le_of_lt hij h.1, h.2⟩

/-- A position that has a character is before the end. -/
theorem lt_of_getElem? (h : s.chars[i]? = some c) : i < s.chars.length :=
  (List.getElem?_eq_some_iff.mp h).1

/-- What a round of the loop gives: a later position, and a token in the
    text. -/
def Advances (s : Statement) (i : Nat) (r : Option Tok × Nat) : Prop :=
  i < r.2 ∧ r.2 ≤ s.chars.length ∧ ∀ t, r.1 = some t → t.In s.chars

/-- A round that reads a token. -/
theorem gives_made {x : Result (Tok × Nat)} (h : Gives x (Reads s i)) :
    Gives (made x) (Advances s i) := by
  refine h.map ?_
  rintro ⟨tok, j⟩ ⟨hj, hstop, htok⟩
  exact ⟨hj, hstop, fun t ht => Option.some.inj ht ▸ htok⟩

/-- A round that skips something. -/
theorem gives_skipped {x : Result Nat} (h : Gives x (fun j => i < j ∧ j ≤ s.chars.length)) :
    Gives (skipped x) (Advances s i) :=
  h.map fun _ hj => ⟨hj.1, hj.2, nofun⟩

variable [hs : s.Sound]

/-- A token between two positions begins and ends where characters do. -/
theorem gives_tok (token : Token) {began : Nat} (h : began ≤ s.chars.length)
    (hi : i ≤ s.chars.length) : Gives (s.tok token began i) (fun t => t.In s.chars) := by
  have hoffset : ∀ k ≤ s.chars.length,
      Gives (nth s.offsets k) (fun byte => Boundary s.chars byte) := by
    intro k hk
    rw [nth, hs.offsets, getElem?_byteOffsets 0 _ k hk]
    exact of_ok ⟨s.chars.take k, s.chars.drop k, (take_append_drop k _).symm,
      (Nat.zero_add _).symm⟩
  refine (hoffset began h).bind fun start hstart => ?_
  refine (hoffset i hi).bind fun stop hstop => ?_
  exact of_pure ⟨hstart, hstop⟩

/-- A token of what was read up to a position. -/
theorem reads_tok (token : Token) {began : Nat} (h : began < i) (hi : i ≤ s.chars.length) :
    Gives (do let tok ← s.tok token began i; return (tok, i)) (Reads s began) := by
  refine (gives_tok token (by omega) hi).bind fun tok htok => ?_
  exact of_pure ⟨h, hi, htok⟩

/-- A comment up to the end of its line. -/
theorem gives_lineComment (h : s.chars[i]? = some '-') :
    Gives (s.lineComment i) (fun j => i < j ∧ j ≤ s.chars.length) := by
  have hi : i < s.chars.length := (List.getElem?_eq_some_iff.mp h).1
  refine gives_skipWhile_lt hs.small _ i (by omega) hi (fun k _ hk => ?_) ?_
  · exact (gives_nth hk).bind fun _ _ => of_pure trivial
  · rw [nth, h]
    rfl

/-- A comment up to its end, or to the end of the text. -/
theorem gives_blockComment (h : i + 1 < s.chars.length) :
    Gives (s.blockComment i) (fun j => i < j ∧ j ≤ s.chars.length) := by
  have hsmall := hs.small
  refine of_plus (by omega) ?_
  refine (gives_skipWhile hs.small _ (i + 2) (by omega) (by omega) fun k _ hk => ?_).bind ?_
  · refine (gives_nth hk).bind fun c _ => ?_
    refine of_ite (fun _ => ?_) fun _ => of_pure trivial
    exact (gives_plus (by omega)).bind fun _ _ => of_pure trivial
  · rintro j ⟨hj, hstop⟩
    refine of_plus (by omega) ?_
    exact of_pure ⟨by omega, by omega⟩

/-- The inside of a quoted name; a text that ends inside is refused. -/
theorem gives_quotedLoop (opening closing : Char) (fuel i : Nat) (value : List Char)
    (hfuel : s.chars.length ≤ i + fuel) :
    Gives (s.quotedLoop opening closing fuel i value) (Onward s i) := by
  have hsmall := hs.small
  induction fuel generalizing i value with
  | zero =>
      rw [quotedLoop, getElem?_eq_none (by omega)]
      exact of_error id
  | succ fuel ih =>
      rw [quotedLoop]
      split
      · exact of_error id
      · next ch hch =>
        have hi := lt_of_getElem? hch
        refine of_plus (by omega) ?_
        refine of_ite (fun _ => ?_) fun _ => (ih (i + 1) _ (by omega)).imp fun r hr =>
          hr.of_lt (by omega)
        refine of_ite (fun htwice => ?_) fun _ => of_pure ⟨by dsimp only; omega, hi⟩
        -- a doubled quote stands for one, and takes two characters
        have := lt_of_getElem? htwice.2
        refine of_plus (by omega) ?_
        exact (ih (i + 1 + 1) _ (by omega)).imp fun r hr => hr.of_lt (by omega)

/-- The inside of a string, with its doubled quotes. -/
theorem gives_stringLoop (fuel i : Nat) (text : List Char) (hfuel : s.chars.length ≤ i + fuel) :
    Gives (s.stringLoop fuel i text) (Onward s i) := by
  have hsmall := hs.small
  induction fuel generalizing i text with
  | zero =>
      rw [stringLoop, getElem?_eq_none (by omega)]
      exact of_error id
  | succ fuel ih =>
      rw [stringLoop]
      split
      · exact of_error id
      · next ch hch =>
        have hi := lt_of_getElem? hch
        refine of_plus (by omega) ?_
        refine of_ite (fun _ => ?_) fun _ => (ih (i + 1) _ (by omega)).imp fun r hr =>
          hr.of_lt (by omega)
        refine of_ite (fun htwice => ?_) fun _ => of_pure ⟨by dsimp only; omega, hi⟩
        have := lt_of_getElem? htwice
        refine of_plus (by omega) ?_
        exact (ih (i + 1 + 1) _ (by omega)).imp fun r hr => hr.of_lt (by omega)

/-- A blob may be cut off by the end of the text. -/
theorem gives_blobLoop (fuel i : Nat) (text : List Char) (hfuel : s.chars.length ≤ i + fuel)
    (hi : i ≤ s.chars.length) :
    Gives (s.blobLoop fuel i text) (fun r => i ≤ r.2 ∧ r.2 ≤ s.chars.length) := by
  have hsmall := hs.small
  induction fuel generalizing i text with
  | zero =>
      rw [blobLoop, getElem?_eq_none (by omega)]
      exact of_ok ⟨le_rfl, hi⟩
  | succ fuel ih =>
      rw [blobLoop]
      split
      · exact of_ok ⟨le_rfl, hi⟩
      · next ch hch =>
        have hlt := lt_of_getElem? hch
        refine of_plus (by omega) ?_
        refine of_ite (fun _ => of_pure ⟨by dsimp only; omega, hlt⟩) fun _ => ?_
        refine (ih (i + 1) _ (by omega) (by omega)).imp ?_
        rintro r ⟨hr, hstop⟩
        exact ⟨by omega, hstop⟩

/-- **A NAME** in any of the three kinds of quotes. -/
theorem gives_quotedName (opening closing : Char) (h : i < s.chars.length) :
    Gives (s.quotedName opening closing i) (Reads s i) := by
  have hsmall := hs.small
  refine of_plus (by omega) ?_
  refine (gives_quotedLoop opening closing _ (i + 1) _ (by omega)).bind ?_
  rintro ⟨value, j⟩ ⟨hj, hstop⟩
  exact reads_tok _ (by dsimp only at hj; omega) hstop

/-- **A STRING** in single quotes. -/
theorem gives_string (h : i < s.chars.length) : Gives (s.string i) (Reads s i) := by
  have hsmall := hs.small
  refine of_plus (by omega) ?_
  refine (gives_stringLoop _ (i + 1) _ (by omega)).bind ?_
  rintro ⟨text, j⟩ ⟨hj, hstop⟩
  exact reads_tok _ (by dsimp only at hj; omega) hstop

/-- **ANY OTHER CHARACTER** is a token of its own. -/
theorem gives_punct (c : Char) (h : i < s.chars.length) : Gives (s.punct c i) (Reads s i) := by
  have hsmall := hs.small
  refine of_plus (by omega) ?_
  exact reads_tok _ (by omega) (by omega)

/-- **A NUMBER**: a sign is looked back from, and is never its first
    character. -/
theorem gives_number (hc : s.chars[i]? = some c) (hnumber : (c.isAlphanum || c = '.') = true) :
    Gives (s.number i) (Reads s i) := by
  have hi := lt_of_getElem? hc
  have hfirst : s.inNumber i i = .ok true := by
    rw [inNumber, nth, hc, ok_bind, if_pos hnumber]
    rfl
  refine (gives_skipWhile_lt hs.small _ i (by omega) hi (fun k hik hk => ?_) hfirst).bind ?_
  · rcases Nat.eq_or_lt_of_le hik with rfl | hlt
    · rw [hfirst]
      exact of_ok trivial
    · refine (gives_nth hk).bind fun d _ => ?_
      refine of_ite (fun _ => of_pure trivial) fun _ => ?_
      refine of_ite (fun _ => ?_) fun _ => of_pure trivial
      refine (gives_minus (by omega)).bind ?_
      rintro _ rfl
      refine (gives_nth (by omega)).bind fun e _ => ?_
      refine of_ite (fun _ => ?_) fun _ => of_pure trivial
      exact (safe_slice hik hk.le).bind fun _ _ => of_pure trivial
  · rintro j ⟨hj, hstop⟩
    refine (safe_slice hj.le hstop).bind fun text _ => ?_
    exact reads_tok _ hj hstop

/-- **A WORD**, or a blob behind an `x`. -/
theorem gives_wordOrBlob (hc : s.chars[i]? = some c) (hword : beginsWord c = true) :
    Gives (s.wordOrBlob i) (Reads s i) := by
  have hsmall := hs.small
  have hi := lt_of_getElem? hc
  have hfirst : s.inWord i = .ok true := by
    rw [beginsWord, Bool.or_assoc] at hword
    rw [inWord, nth, hc, ok_bind]
    refine congrArg Except.ok ?_
    rcases (Bool.or_eq_true _ _).mp hword with h | h
    · rw [Char.isAlphanum, h, Bool.true_or, Bool.true_or, Bool.true_or, Bool.true_or]
    · rcases (Bool.or_eq_true _ _).mp h with h | h
      · rw [h, Bool.or_true, Bool.true_or, Bool.true_or]
      · rw [h, Bool.or_true]
  refine (gives_skipWhile_lt hs.small _ i (by omega) hi (fun k _ hk => ?_) hfirst).bind ?_
  · exact (gives_nth hk).bind fun _ _ => of_pure trivial
  · rintro j ⟨hj, hstop⟩
    refine (safe_slice hj.le hstop).bind fun word _ => ?_
    refine of_ite (fun hblob => ?_) fun _ => reads_tok _ hj hstop
    have hlt := lt_of_getElem? hblob.2
    refine of_plus (by omega) ?_
    refine (gives_blobLoop _ (j + 1) _ (by omega) (by omega)).bind ?_
    rintro ⟨text, k⟩ ⟨hk, hend⟩
    exact reads_tok _ (by dsimp only at hk; omega) hend

/-- **ONE ROUND** of the tokenizer. -/
theorem gives_round (h : i < s.chars.length) : Gives (s.round i) (Advances s i) := by
  have hsmall := hs.small
  refine (gives_nth h).bind fun c hc => ?_
  refine of_ite (fun _ => gives_skipped ?_) fun _ => ?_
  · refine (gives_plus (by omega)).imp ?_
    rintro _ rfl
    exact ⟨by omega, h⟩
  have hfollowing : Gives (s.following i) (fun d => d = s.chars[i + 1]?) := by
    refine of_plus (by omega) ?_
    exact of_pure rfl
  refine hfollowing.bind ?_
  rintro d hd
  refine of_ite (fun hline => gives_skipped (gives_lineComment (hline.1 ▸ hc))) fun _ => ?_
  refine of_ite (fun hblock => gives_skipped ?_) fun _ => ?_
  · exact gives_blockComment (lt_of_getElem? (hd.symm.trans hblock.2))
  split
  · exact gives_made (gives_quotedName c _ h)
  refine of_ite (fun _ => gives_made (gives_string h)) fun _ => ?_
  refine of_ite (fun hnumber => gives_made (gives_number hc ?_)) fun _ => ?_
  · rcases (Bool.or_eq_true _ _).mp hnumber with hdigit | hpoint
    · rw [Char.isAlphanum, hdigit, Bool.or_true, Bool.true_or]
    · rw [((Bool.and_eq_true _ _).mp hpoint).1, Bool.or_true]
  exact of_ite (fun hword => gives_made (gives_wordOrBlob hc hword)) fun _ =>
    gives_made (gives_punct c h)

/-- **THE WHOLE TEXT**: there are no more tokens than characters. -/
theorem gives_tokenizeLoop (fuel i : Nat) (tokens : List Tok) (hfuel : s.chars.length ≤ i + fuel)
    (hi : i ≤ s.chars.length) (hlen : tokens.length ≤ i) (hin : ∀ t ∈ tokens, t.In s.chars) :
    Gives (s.tokenizeLoop fuel i tokens)
      (fun ts => ts.length ≤ s.chars.length ∧ ∀ t ∈ ts, t.In s.chars) := by
  induction fuel generalizing i tokens with
  | zero =>
      rw [tokenizeLoop, if_neg (by omega)]
      exact of_ok ⟨by omega, hin⟩
  | succ fuel ih =>
      rw [tokenizeLoop]
      refine of_ite (fun hlt => ?_) fun _ => of_ok ⟨by omega, hin⟩
      refine (gives_round hlt).bind ?_
      rintro ⟨tok, j⟩ ⟨hj, hstop, htok⟩
      dsimp only at hj hstop htok
      have htok1 : tok.toList.length ≤ 1 := by cases tok <;> simp
      refine ih j _ (by omega) hstop ?_ ?_
      · rw [length_append]
        omega
      · intro t ht
        rcases mem_append.mp ht with ht | ht
        · exact hin t ht
        · exact htok t (Option.mem_toList.mp ht)

end Statement

/-- **TOKENS** of any text that fits the memory. -/
theorem gives_tokenize {sql : String} (h : sql.utf8ByteSize < 2 ^ 63) :
    Gives (tokenize sql) (fun ts => ts.length < 2 ^ 63 ∧ ∀ t ∈ ts, t.In sql.toList) := by
  have hsmall : sql.toList.length < 2 ^ 63 :=
    (length_le_textSize _).trans_lt (utf8ByteSize_eq sql ▸ h)
  have : (Statement.of sql).Sound := ⟨rfl, hsmall⟩
  refine (Statement.gives_tokenizeLoop _ 0 [] (Nat.zero_add _).ge (Nat.zero_le _) le_rfl nofun).imp
    ?_
  rintro ts ⟨hlen, hin⟩
  exact ⟨hlen.trans_lt hsmall, hin⟩

/-! ## Runs over the tokens -/

/-- A run from a position comes to one no earlier and not past the end, without
    a fault. -/
def Moves {α : Type} (n : Nat) (m : Parse α) (i : Nat) (Q : α → Nat → Prop) : Prop :=
  Gives (m i) (fun r => i ≤ r.2 ∧ r.2 ≤ n ∧ Q r.1 r.2)

/-- A run that does so from every position, with what holds of its value. -/
def Calm {α : Type} (n : Nat) (m : Parse α) (R : α → Prop) : Prop :=
  ∀ i ≤ n, Moves n m i (fun a _ => R a)

section Rules

variable {α β σ : Type} {n i : Nat} {m : Parse α} {f : α → Parse β} {Q : α → Nat → Prop}
  {S : β → Nat → Prop} {R R' : α → Prop} {T : β → Prop}

/-- The consequence rule. -/
theorem Moves.imp {Q' : α → Nat → Prop} (h : Moves n m i Q) (himp : ∀ a j, i ≤ j → Q a j → Q' a j) :
    Moves n m i Q' :=
  Returns.imp h fun r hr => ⟨hr.1, hr.2.1, himp r.1 r.2 hr.1 hr.2.2⟩

theorem moves_pure {a : α} (hi : i ≤ n) (h : Q a i) : Moves n (pure a) i Q := ⟨le_rfl, hi, h⟩

/-- **ONE RUN AFTER ANOTHER**. -/
theorem Moves.bind (h : Moves n m i Q) (hf : ∀ a j, i ≤ j → j ≤ n → Q a j → Moves n (f a) j S) :
    Moves n (m >>= f) i S := by
  refine Returns.bind h ?_
  rintro ⟨a, j⟩ ⟨hij, hj, hq⟩
  refine Returns.imp (hf a j hij hj hq) ?_
  rintro r ⟨hjr, hr, hs⟩
  exact ⟨hij.trans hjr, hr, hs⟩

/-- A choice, each branch knowing how it was made. -/
theorem moves_ite {c : Prop} [Decidable c] {m' : Parse α} (h : c → Moves n m i Q)
    (h' : ¬ c → Moves n m' i Q) : Moves n (if c then m else m') i Q := by
  split
  · next hc => exact h hc
  · next hc => exact h' hc

/-- A computation that takes no token. -/
theorem moves_lift {x : Result α} (hi : i ≤ n) (h : Gives x R) :
    Moves n (liftM x) i (fun a j => R a ∧ j = i) := by
  refine bind h fun a ha => ?_
  exact of_pure ⟨le_rfl, hi, ha, rfl⟩

/-- One run after another, from wherever the first one stopped. -/
theorem Calm.bind (h : Calm n m R) (hf : ∀ a, R a → Calm n (f a) T) : Calm n (m >>= f) T :=
  fun i hi => (h i hi).bind fun a j _ hj ha => hf a ha j hj

theorem calm_pure {a : α} (h : R a) : Calm n (pure a) R := fun _ hi => moves_pure hi h

theorem calm_ite {c : Prop} [Decidable c] {m' : Parse α} (h : c → Calm n m R)
    (h' : ¬ c → Calm n m' R) : Calm n (if c then m else m') R :=
  fun i hi => moves_ite (fun hc => h hc i hi) fun hc => h' hc i hi

/-- To refuse a statement is no fault. -/
theorem calm_unsupported {reason : String} : Calm n (unsupported reason : Parse α) R :=
  fun _ _ (h : False) => h

/-- What a round of a loop does: it takes a token when there is to be another
    round. -/
def Turns (i : Nat) (I : σ → Nat → Prop) (Q : α → Nat → Prop) : Turn σ α → Nat → Prop
  | .again state, j => i < j ∧ I state j
  | .done result, j => Q result j

/-- **A LOOP** whose rounds take tokens ends, and keeps what its rounds keep. -/
theorem moves_loop {round : σ → Parse (Turn σ α)} {I : σ → Nat → Prop}
    (h : ∀ state i, i ≤ n → I state i → Moves n (round state) i (Turns i I Q))
    (fuel : Nat) (state : σ) (i : Nat) (hi : i ≤ n) (hfuel : n ≤ i + fuel) (hinv : I state i) :
    Moves n (loop round fuel state) i Q := by
  induction fuel generalizing state i with
  | zero =>
      rw [loop]
      refine (h state i hi hinv).bind fun turn j hij hj hturn => ?_
      cases turn with
      | done result => exact moves_pure hj hturn
      | again state => exact absurd hturn.1 (by omega)
  | succ fuel ih =>
      rw [loop]
      refine (h state i hi hinv).bind fun turn j hij hj hturn => ?_
      cases turn with
      | done result => exact moves_pure hj hturn
      | again state => exact ih state j hj (by have := hturn.1; omega) hturn.2

end Rules

namespace Parser

/-- A parser of tokens that are in its text, and that fit the memory. -/
class Sound (p : Parser) : Prop where
  small : p.tokens.length < 2 ^ 63
  inText : ∀ t ∈ p.tokens, t.In p.sql.toList

variable {p : Parser} {α : Type} {R : α → Prop}

/-- A run of a parser over its own tokens. -/
abbrev Quiet (p : Parser) (m : Parse α) (R : α → Prop) : Prop := Calm p.tokens.length m R

/-- The same, when nothing is asked of the value. -/
abbrev Still (p : Parser) (m : Parse α) : Prop := p.Quiet m (fun _ => True)

/-- A run that takes a token whenever its value satisfies a test. -/
def Takes (p : Parser) (m : Parse α) (test : α → Prop) : Prop :=
  ∀ i ≤ p.tokens.length, Moves p.tokens.length m i (fun a j => test a → i < j)

/-- What it takes may be forgotten. -/
theorem Takes.quiet {m : Parse α} {test : α → Prop} (h : Takes p m test) : p.Still m :=
  fun i hi => (h i hi).imp fun _ _ _ _ => trivial

theorem moves_fail {n : Nat} {Q : α → Nat → Prop} :
    Moves n (p.fail what : Parse α) i Q := fun h : False => h

/-- Nor is to fail at a token. -/
theorem quiet_fail : p.Quiet (p.fail what : Parse α) R := fun _ _ => moves_fail

theorem moves_here (hi : i ≤ p.tokens.length) :
    Moves p.tokens.length here i (fun a j => a = i ∧ j = i) := ⟨le_rfl, hi, rfl, rfl⟩

theorem quiet_here : p.Still here := fun _ hi => ⟨le_rfl, hi, trivial⟩

/-- What is next, when there is something. -/
theorem moves_peek (hi : i ≤ p.tokens.length) :
    Moves p.tokens.length p.peek i (fun a j => j = i ∧ (a.isSome → i < p.tokens.length)) := by
  refine ⟨le_rfl, hi, rfl, fun h => ?_⟩
  obtain ⟨t, ht⟩ := Option.isSome_iff_exists.mp h
  obtain ⟨tok, htok, -⟩ := Option.map_eq_some_iff.mp ht
  exact (List.getElem?_eq_some_iff.mp htok).1

/-- The second is tried where the first did not match. -/
theorem quiet_either {a b : Parse Bool} (ha : p.Still a)
    (hb : p.Still b) : p.Still (either a b) :=
  ha.bind fun _ _ => calm_ite (fun _ => calm_pure trivial) fun _ => hb

/-- A loop over the tokens of a parser. -/
theorem moves_parserLoop {round : σ → Parse (Turn σ α)} {I : σ → Nat → Prop} {Q : α → Nat → Prop}
    (h : ∀ state i, i ≤ p.tokens.length → I state i →
      Moves p.tokens.length (round state) i (Turns i I Q)) (state : σ) (hi : i ≤ p.tokens.length)
    (hinv : I state i) : Moves p.tokens.length (p.loop round state) i Q :=
  moves_loop h _ state i hi (by omega) hinv

/-- A loop whose rounds keep a property of its state. -/
theorem quiet_loop {round : σ → Parse (Turn σ α)} {I : σ → Prop}
    (h : ∀ state i, i ≤ p.tokens.length → I state →
      Moves p.tokens.length (round state) i (Turns i (fun s _ => I s) (fun a _ => R a))) {state : σ}
    (hinv : I state) : p.Quiet (p.loop round state) R :=
  fun _ hi => moves_parserLoop (I := fun s _ => I s) h state hi hinv

theorem quiet_onlyKey (name : String) (b : Body) : p.Still (onlyKey name b) :=
  calm_ite (fun _ => calm_pure trivial) fun _ => calm_unsupported

/-- A look at the next token takes nothing. -/
theorem moves_isNext (test : Token → Bool) (hi : i ≤ p.tokens.length) :
    Moves p.tokens.length (p.isNext test) i
      (fun b j => j = i ∧ (b = true → i < p.tokens.length)) := by
  refine (moves_peek hi).bind fun a j _ hj ha => ?_
  obtain ⟨rfl, hsome⟩ := ha
  refine moves_pure hj ⟨rfl, fun hany => hsome ?_⟩
  cases a with
  | none => nomatch hany
  | some t => rfl

theorem quiet_isNext (test : Token → Bool) : p.Still (p.isNext test) :=
  fun _ hi => (moves_isNext test hi).imp fun _ _ _ _ => trivial

/-- Take a token, or stop. -/
theorem takes_expect {test : Token → Bool} (h : Takes p (p.eat test) (· = true)) :
    Takes p (do if ← p.eat test then return () else p.fail what) (fun _ => True) := by
  intro i hi
  refine (h i hi).bind fun b j _ hj hb => ?_
  exact moves_ite (fun hb' => moves_pure hj fun _ => hb hb') fun _ => moves_fail

theorem quiet_atConstraintWord : p.Still p.atConstraintWord := quiet_isNext _

theorem quiet_notAsSelect (name : String) : p.Still (p.notAsSelect name) :=
  (quiet_isNext _).bind fun _ _ => calm_ite (fun _ => calm_unsupported) fun _ => calm_pure trivial

variable [hp : p.Sound]

/-- Tokens that are there can be passed. -/
theorem moves_advance {count : Nat} (h : i + count ≤ p.tokens.length) :
    Moves p.tokens.length (advance count) i (fun _ j => j = i + count) := by
  have hsmall := hp.small
  refine of_plus (by omega) ?_
  exact of_pure ⟨by dsimp only; omega, h, rfl⟩

/-- A keyword up to two tokens ahead, looked at and not taken. -/
theorem moves_atWord (keyword : String) {offset : Nat} (hi : i ≤ p.tokens.length)
    (ho : offset ≤ 2) :
    Moves p.tokens.length (p.atWord offset keyword) i
      (fun b j => j = i ∧ (b = true → i + offset < p.tokens.length)) := by
  have hsmall := hp.small
  refine of_plus (by omega) ?_
  refine of_pure ⟨le_rfl, hi, rfl, fun hany => ?_⟩
  dsimp only at hany
  cases htok : p.tokens[i + offset]? with
  | none =>
      rw [htok] at hany
      nomatch hany
  | some t => exact (List.getElem?_eq_some_iff.mp htok).1

theorem quiet_atWord (keyword : String) {offset : Nat} (ho : offset ≤ 2) :
    p.Still (p.atWord offset keyword) :=
  fun _ hi => (moves_atWord keyword hi ho).imp fun _ _ _ _ => trivial

/-- **THE TEXT OF TOKENS** is cut where characters end. -/
theorem quiet_textSince (start : Nat) : p.Still (p.textSince start) := by
  intro i hi
  have hstart : Boundary p.sql.toList (p.startOf start) := by
    rw [startOf]
    split
    · next t ht => exact (hp.inText t (mem_of_getElem? ht)).start
    · exact ⟨_, [], (append_nil _).symm, (utf8ByteSize_eq _).symm⟩
  have hstop : Boundary p.sql.toList (p.endBefore i) := by
    rw [endBefore.eq_def]
    split
    · exact ⟨[], _, rfl, rfl⟩
    · split
      · next t ht => exact (hp.inText t (mem_of_getElem? ht)).stop
      · exact ⟨[], _, rfl, rfl⟩
  refine of_ite (fun _ => of_ok ⟨le_rfl, hi, trivial⟩) fun hlt => ?_
  refine (safe_sliceText hstart hstop (by omega)).bind fun text _ => ?_
  exact of_pure ⟨le_rfl, hi, trivial⟩

/-- The next token is taken when there is one. -/
theorem takes_next : Takes p p.next (fun t => t.isSome) := by
  intro i hi
  have hsmall := hp.small
  rw [Moves, next]
  split
  · next t ht =>
    have hlt := (List.getElem?_eq_some_iff.mp ht).1
    refine of_plus (by omega) ?_
    exact of_pure ⟨by dsimp only; omega, hlt, fun _ => by dsimp only; omega⟩
  · exact of_ok ⟨le_rfl, hi, nofun⟩

/-- A token is taken exactly when it passes the test. -/
theorem takes_eat (test : Token → Bool) : Takes p (p.eat test) (fun b => b = true) := by
  intro i hi
  refine (moves_isNext test hi).bind fun b j _ hj hb => ?_
  obtain ⟨rfl, hnext⟩ := hb
  refine moves_ite (fun hb => ?_) fun _ => moves_pure hj nofun
  refine (moves_advance (hnext hb)).bind fun _ k _ hk hkj => ?_
  exact moves_pure hk fun _ => by omega

theorem quiet_eat (test : Token → Bool) : p.Still (p.eat test) :=
  (takes_eat test).quiet

theorem quiet_eatWord (keyword : String) : p.Still (p.eatWord keyword) :=
  quiet_eat _

theorem quiet_eatPunct (c : Char) : p.Still (p.eatPunct c) := quiet_eat _

/-- An expected keyword is taken, or the run fails. -/
theorem takes_expectWord (keyword : String) : Takes p (p.expectWord keyword) (fun _ => True) :=
  takes_expect (takes_eat _)

theorem takes_expectPunct (c : Char) : Takes p (p.expectPunct c) (fun _ => True) :=
  takes_expect (takes_eat _)

theorem quiet_expectWord (keyword : String) : p.Still (p.expectWord keyword) :=
  (takes_expectWord keyword).quiet

theorem quiet_expectPunct (c : Char) : p.Still (p.expectPunct c) :=
  (takes_expectPunct c).quiet

/-- A name is taken, or the run fails. -/
theorem takes_identifier : Takes p p.identifier (fun _ => True) := by
  intro i hi
  refine (takes_next i hi).bind fun t j _ hj ht => ?_
  split
  · next name hname =>
    refine moves_pure hj fun _ => ht ?_
    cases t with
    | none => nomatch hname
    | some t => rfl
  · exact moves_fail

theorem quiet_identifier : p.Still p.identifier := (takes_identifier).quiet

theorem quiet_identifierOrDefault : p.Still p.identifierOrDefault :=
  (takes_next).quiet.bind fun _ _ => calm_pure trivial

/-- Parentheses are not deeper than there are tokens before. -/
theorem moves_balancedRound (depth i : Nat) (hi : i ≤ p.tokens.length) (h : depth ≤ i) :
    Moves p.tokens.length (p.balancedRound depth) i
      (Turns i (fun d j => d ≤ j) (fun _ _ => True)) := by
  have hsmall := hp.small
  refine moves_ite (fun _ => moves_pure hi trivial) fun hdepth => ?_
  refine (takes_next i hi).bind fun t j _ hj ht => ?_
  cases t with
  | none => exact moves_fail
  | some token =>
      have hij := ht rfl
      refine moves_ite (fun _ => ?_) fun _ => moves_ite (fun _ => ?_) fun _ => ?_
      · refine (moves_lift hj (gives_plus (by omega))).bind fun d k _ hk hd => ?_
        obtain ⟨rfl, rfl⟩ := hd
        exact moves_pure hk ⟨hij, by omega⟩
      · refine (moves_lift hj (gives_minus (by omega))).bind fun d k _ hk hd => ?_
        obtain ⟨rfl, rfl⟩ := hd
        exact moves_pure hk ⟨hij, by omega⟩
      · exact moves_pure hj ⟨hij, by omega⟩

/-- **A GROUP** in parentheses. -/
theorem takes_balanced : Takes p p.balanced (fun _ => True) := by
  intro i hi
  refine (moves_here hi).bind fun start _ _ hj hstart => ?_
  obtain ⟨rfl, rfl⟩ := hstart
  refine (takes_expectPunct '(' _ hj).bind fun _ j hij hj hopen => ?_
  have hlt := hopen trivial
  refine (moves_parserLoop (moves_balancedRound) 1 hj (by omega)).bind fun _ k hjk hk _ => ?_
  exact (quiet_textSince _ k hk).imp fun _ l hkl _ _ => by omega

theorem quiet_balanced : p.Still p.balanced := (takes_balanced).quiet

/-- `ASC` or `DESC`, or neither. -/
theorem quiet_eatDescending : p.Still p.eatDescending :=
  (quiet_eatWord _).bind fun _ _ => calm_ite (fun _ => calm_pure trivial) fun _ =>
    (quiet_eatWord _).bind fun _ _ => calm_pure trivial

/-- `COLLATE` and its name, or nothing. -/
theorem quiet_eatCollation : p.Still p.eatCollation :=
  (quiet_eatWord _).bind fun _ _ => calm_ite
    (fun _ => (quiet_identifier).bind fun _ _ => calm_pure trivial) fun _ => calm_pure trivial

/-- The end of a round in a list: a comma, or the end of the list. -/
theorem moves_listEnd (again : σ) (done : α) {j : Nat} (hij : i ≤ j) (hj : j ≤ p.tokens.length) :
    Moves p.tokens.length (do
      if ← p.eatPunct ',' then return Turn.again again
      else do
        p.expectPunct ')'
        return Turn.done done) j (Turns i (fun _ _ => True) (fun _ _ => True)) := by
  refine (takes_eat _ j hj).bind fun b k _ hk hb => ?_
  refine moves_ite (fun hcomma => moves_pure hk ⟨?_, trivial⟩) fun _ => ?_
  · have := hb hcomma
    omega
  · refine (quiet_expectPunct ')' k hk).bind fun _ l _ hl _ => ?_
    exact moves_pure hl trivial

/-- The columns of a `UNIQUE` or of a foreign key. -/
theorem quiet_columnList : p.Still p.columnList := by
  refine (quiet_expectPunct '(').bind fun _ _ => ?_
  refine quiet_loop (I := fun _ => True) (fun names i hi _ => ?_) trivial
  refine (quiet_identifier i hi).bind fun name j hij hj _ => ?_
  refine (quiet_eatCollation j hj).bind fun _ k hjk hk _ => ?_
  refine (quiet_either (quiet_eatWord _) (quiet_eatWord _) k hk).bind fun _ l hkl hl _ => ?_
  exact moves_listEnd _ _ (by omega) hl

/-- One round of skipping: a group in parentheses as a whole, or a token. -/
theorem moves_skipRound {stop : Parse Bool} (hstop : p.Still stop) (i : Nat)
    (hi : i ≤ p.tokens.length) :
    Moves p.tokens.length (p.skipRound stop ()) i
      (Turns i (fun _ _ => True) (fun _ _ => True)) := by
  refine (hstop i hi).bind fun b j hij hj _ => ?_
  refine moves_ite (fun _ => moves_pure hj trivial) fun _ => ?_
  refine (moves_peek hj).bind fun t k _ hk ht => ?_
  obtain ⟨rfl, hsome⟩ := ht
  cases t with
  | none => exact moves_pure hk trivial
  | some t =>
      have hlt := hsome rfl
      refine moves_ite (fun _ => moves_pure hk trivial) fun _ => moves_ite (fun _ => ?_) fun _ => ?_
      · refine (takes_balanced _ hk).bind fun _ l _ hl htook => ?_
        have := htook trivial
        exact moves_pure hl ⟨by omega, trivial⟩
      · refine (moves_advance hlt).bind fun _ l _ hl htook => ?_
        exact moves_pure hl ⟨by omega, trivial⟩

/-- Skipping stops at the end of the item, or earlier where it is told to. -/
theorem quiet_skip {stop : Parse Bool} (hstop : p.Still stop) :
    p.Still (p.loop (p.skipRound stop) ()) :=
  quiet_loop (I := fun _ => True) (fun _ i hi _ => moves_skipRound hstop i hi) trivial

theorem quiet_skipToEndOfItem : p.Still p.skipToEndOfItem :=
  quiet_skip (calm_pure trivial)

/-- `STORED` or `VIRTUAL`, or neither. -/
theorem quiet_eatGeneratedKind : p.Still p.eatGeneratedKind :=
  (quiet_eatWord _).bind fun _ _ => calm_ite (fun _ => calm_pure trivial) fun _ =>
    (quiet_eatWord _).bind fun _ _ => calm_pure trivial

/-- `ON CONFLICT` and what to do then, or nothing. -/
theorem quiet_eatConflictClause : p.Still p.eatConflictClause := by
  intro i hi
  refine (moves_atWord _ hi (by omega)).bind fun a j _ hj ha => ?_
  obtain ⟨rfl, -⟩ := ha
  refine moves_ite (fun _ => ?_) fun _ => moves_pure hj trivial
  refine (moves_atWord _ hj (by omega)).bind fun b k _ hk hb => ?_
  obtain ⟨rfl, hsecond⟩ := hb
  refine moves_ite (fun hb => ?_) fun _ => moves_pure hk trivial
  refine (moves_advance (hsecond hb)).bind fun _ l _ hl _ => ?_
  refine (quiet_eat _ l hl).bind fun _ q _ hq _ => ?_
  exact moves_pure hq trivial

/-! ### Items -/

/-- A run that does not touch the columns. -/
abbrev Keeps (p : Parser) (m : Parse Body) (b : Body) : Prop :=
  p.Quiet m (fun b' => b'.columns = b.columns)

/-- The columns of a primary key, with their orders. -/
theorem quiet_key : p.Still (p.loop p.keyRound []) := by
  refine quiet_loop (I := fun _ => True) (fun names i hi _ => ?_) trivial
  refine (quiet_identifier i hi).bind fun name j hij hj _ => ?_
  refine (quiet_eatCollation j hj).bind fun _ k hjk hk _ => ?_
  refine (quiet_eatDescending k hk).bind fun _ l hkl hl _ => ?_
  exact moves_listEnd _ _ (by omega) hl

/-- `PRIMARY KEY`, of which a table has one. -/
theorem keeps_tableKey (name : String) (b : Body) : p.Keeps (p.tableKey name b) b := by
  refine (quiet_expectWord _).bind fun _ _ => ?_
  refine (quiet_onlyKey name b).bind fun _ _ => ?_
  refine (quiet_expectPunct _).bind fun _ _ => ?_
  refine (quiet_key).bind fun _ _ => ?_
  refine (quiet_eatConflictClause).bind fun _ _ => ?_
  exact calm_pure rfl

/-- `UNIQUE` over several columns. -/
theorem keeps_tableUnique (b : Body) : p.Keeps (p.tableUnique b) b := by
  refine (quiet_columnList).bind fun _ _ => ?_
  refine (quiet_eatConflictClause).bind fun _ _ => ?_
  refine (quiet_skipToEndOfItem).bind fun _ _ => ?_
  exact calm_pure rfl

/-- `CHECK` and its condition. -/
theorem keeps_tableCheck (b : Body) : p.Keeps (p.tableCheck b) b := by
  refine (quiet_balanced).bind fun _ _ => ?_
  refine (quiet_skipToEndOfItem).bind fun _ _ => ?_
  exact calm_pure rfl

/-- `FOREIGN KEY`, with or without its `REFERENCES`. -/
theorem keeps_tableForeignKey (b : Body) : p.Keeps (p.tableForeignKey b) b := by
  refine (quiet_expectWord _).bind fun _ _ => ?_
  refine (quiet_columnList).bind fun _ _ => ?_
  have hreferences : p.Still (do if ← p.eatWord "references" then p.identifier else return "") :=
    (quiet_eatWord _).bind fun _ _ => calm_ite (fun _ => quiet_identifier) fun _ =>
      calm_pure trivial
  refine hreferences.bind fun _ _ => ?_
  refine (quiet_skipToEndOfItem).bind fun _ _ => ?_
  exact calm_pure rfl

/-- Whether an item is a constraint, behind its name if it has one. -/
theorem quiet_isTableConstraint : p.Still p.isTableConstraint := by
  refine (quiet_atWord _ (by omega)).bind fun named _ => ?_
  have hoffset : (if named then 2 else 0) ≤ 2 := by split <;> omega
  exact quiet_either (quiet_atWord _ hoffset) (quiet_either (quiet_atWord _ hoffset)
    (quiet_either (quiet_atWord _ hoffset) (quiet_atWord _ hoffset)))

/-- **A CONSTRAINT** of any kind, named or not. -/
theorem keeps_tableConstraint (name : String) (b : Body) :
    p.Keeps (p.tableConstraint name b) b := by
  have hkind : p.Keeps (tableConstraint.kind p name b) b := by
    refine (quiet_eatWord _).bind fun _ _ => ?_
    refine calm_ite (fun _ => keeps_tableKey name b) fun _ => ?_
    refine (quiet_eatWord _).bind fun _ _ => ?_
    refine calm_ite (fun _ => keeps_tableUnique b) fun _ => ?_
    refine (quiet_eatWord _).bind fun _ _ => ?_
    refine calm_ite (fun _ => keeps_tableCheck b) fun _ => ?_
    refine (quiet_eatWord _).bind fun _ _ => ?_
    refine calm_ite (fun _ => keeps_tableForeignKey b) fun _ => ?_
    exact (quiet_skipToEndOfItem).bind fun _ _ => calm_pure rfl
  refine (quiet_eatWord _).bind fun _ _ => ?_
  exact calm_ite (fun _ => (quiet_identifier).bind fun _ _ => hkind) fun _ => hkind

/-- A run for one column that does not touch the columns before. -/
abbrev KeepsColumn (p : Parser) (b : Body) (m : Parse (ColumnDef × Body)) : Prop :=
  p.Quiet m (fun r => r.2.columns = b.columns)

/-- **EVERY CONSTRAINT** of a column. -/
theorem keeps_columnConstraints (name : String) (c : ColumnDef) (b : Body) :
    ∀ k ∈ p.columnConstraints name c b, p.KeepsColumn b k.2 := by
  have hexpression : p.KeepsColumn b (p.columnExpression c b) := by
    refine (quiet_balanced).bind fun _ _ => ?_
    exact (quiet_eatGeneratedKind).bind fun _ _ => calm_pure rfl
  simp only [columnConstraints, forall_mem_cons, not_mem_nil, false_imp_iff,
    implies_true, and_true]
  refine ⟨?_, ?_, ?_, ?_, ?_, ?_, ?_, ?_, ?_, ?_, hexpression⟩
  · exact (quiet_identifier).bind fun _ _ => calm_pure rfl
  · refine (quiet_expectWord _).bind fun _ _ => ?_
    refine (quiet_onlyKey name b).bind fun _ _ => ?_
    refine (quiet_eatDescending).bind fun _ _ => ?_
    refine (quiet_eatConflictClause).bind fun _ _ => ?_
    exact (quiet_eatWord _).bind fun _ _ => calm_pure rfl
  · refine (quiet_expectWord _).bind fun _ _ => ?_
    exact (quiet_eatConflictClause).bind fun _ _ => calm_pure rfl
  · exact (quiet_eatConflictClause).bind fun _ _ => calm_pure rfl
  · exact (quiet_eatConflictClause).bind fun _ _ => calm_pure rfl
  · exact (quiet_balanced).bind fun _ _ => calm_pure rfl
  · have hwritten : ∀ start, p.KeepsColumn b (columnDefault.written p c b start) := fun start =>
      (quiet_textSince start).bind fun _ _ => calm_pure rfl
    refine quiet_here.bind fun start _ => ?_
    refine (quiet_isNext _).bind fun _ _ => ?_
    refine calm_ite (fun _ => (quiet_balanced).bind fun _ _ => hwritten start) fun _ => ?_
    refine Calm.bind ?_ fun _ (_ : True) => hwritten start
    refine (quiet_either (quiet_eatPunct _) (quiet_eatPunct _)).bind fun _ _ => ?_
    refine (takes_next).quiet.bind fun t _ => ?_
    cases t with
    | none => exact quiet_fail
    | some t => exact calm_pure trivial
  · refine (quiet_identifier).bind fun _ _ => calm_pure ?_
    dsimp only
    split <;> rfl
  · refine (quiet_identifierOrDefault).bind fun _ _ => ?_
    exact (quiet_skipToEndOfItem).bind fun _ _ => calm_pure rfl
  · refine (quiet_expectWord _).bind fun _ _ => ?_
    exact (quiet_expectWord _).bind fun _ _ => hexpression

/-- The word that decides is taken. -/
theorem moves_firstWord (l : List (String × Parse α)) (h : ∀ k ∈ l, p.Quiet k.2 R) (i : Nat)
    (hi : i ≤ p.tokens.length) :
    Moves p.tokens.length (p.firstWord l) i (fun r j => ∀ a, r = some a → i < j ∧ R a) := by
  induction l generalizing i with
  | nil => exact moves_pure hi nofun
  | cons k others ih =>
      obtain ⟨keyword, rest⟩ := k
      obtain ⟨hrest, hothers⟩ := forall_mem_cons.mp h
      refine (takes_eat _ i hi).bind fun b j hij hj hb => ?_
      refine moves_ite (fun hword => ?_) fun _ => ?_
      · have hlt := hb hword
        refine (hrest j hj).bind fun a k hjk hk ha => ?_
        refine moves_pure hk fun a' ha' => ?_
        cases ha'
        exact ⟨by omega, ha⟩
      · refine (ih hothers j hj).imp fun r k _ hr a ha => ?_
        exact ⟨by have := (hr a ha).1; omega, (hr a ha).2⟩

/-- **A COLUMN** takes a token and is one column more. -/
theorem moves_column (name : String) (b : Body) (i : Nat) (hi : i ≤ p.tokens.length) :
    Moves p.tokens.length (p.column name b) i
      (fun b' j => i < j ∧ b'.columns.length = b.columns.length + 1) := by
  refine (takes_identifier i hi).bind fun columnName j _ hj htook => ?_
  have hlt := htook trivial
  refine (quiet_here j hj).bind fun start k hjk hk _ => ?_
  refine (quiet_skip quiet_atConstraintWord k hk).bind fun _ l hkl hl _ => ?_
  refine (quiet_textSince start l hl).bind fun type q hlq hq _ => ?_
  have hloop : ∀ c, p.KeepsColumn b (p.loop (p.constraintRound name) (c, b)) := by
    intro c
    refine quiet_loop (I := fun state => state.2.columns = b.columns) (fun state i hi hinv => ?_)
      rfl
    refine (moves_firstWord _ (keeps_columnConstraints name _ _) i hi).bind
      fun r j _ hj hr => ?_
    cases r with
    | none => exact moves_pure hj hinv
    | some state' =>
        obtain ⟨hij, hkeeps⟩ := hr state' rfl
        exact moves_pure hj ⟨hij, hkeeps.trans hinv⟩
  refine (hloop _ q hq).bind fun r t hqt ht hr => ?_
  refine moves_pure ht ⟨by omega, ?_⟩
  rw [length_append, hr]
  rfl

/-- Items are columns or not, and there are no more columns than tokens. -/
theorem moves_itemRound (name : String) (b : Body) (i : Nat) (hi : i ≤ p.tokens.length)
    (hb : b.columns.length ≤ i) :
    Moves p.tokens.length (p.itemRound name b) i
      (Turns i (fun b j => b.columns.length ≤ j) (fun b j => b.columns.length ≤ j)) := by
  refine (moves_peek hi).bind fun t j _ hj ht => ?_
  obtain ⟨rfl, -⟩ := ht
  cases t with
  | none => exact moves_fail
  | some t =>
      refine (quiet_eatPunct _ _ hj).bind fun c k hjk hk _ => ?_
      refine moves_ite (fun _ => moves_pure hk (show b.columns.length ≤ k by omega)) fun _ => ?_
      have hitem : Moves p.tokens.length (p.item name b) k (fun b' l => b'.columns.length ≤ l) := by
        refine (quiet_isTableConstraint k hk).bind fun c l hkl hl _ => ?_
        refine moves_ite (fun _ => ?_) fun _ => ?_
        · refine (keeps_tableConstraint name b l hl).imp fun b' q hlq hb' => ?_
          rw [hb']
          omega
        · refine (moves_column name b l hl).imp fun b' q _ hb' => ?_
          omega
      refine hitem.bind fun b' l hkl hl hb' => ?_
      refine (takes_eat _ l hl).bind fun c q hlq hq hc => ?_
      refine moves_ite (fun hcomma => ?_) fun _ => ?_
      · have := hc hcomma
        exact moves_pure hq ⟨by omega, by omega⟩
      · refine (quiet_expectPunct ')' q hq).bind fun _ r hqr hr _ => ?_
        exact moves_pure hr (show b'.columns.length ≤ r by omega)

/-- `WITHOUT ROWID` and `STRICT`, in any order. -/
theorem quiet_options (state : Bool × Bool) : p.Still (p.loop p.optionRound state) := by
  refine quiet_loop (I := fun _ => True) (fun state i hi _ => ?_) trivial
  have hoption : p.Still (p.tableOption state.1 state.2) := by
    refine (quiet_eatWord _).bind fun _ _ => ?_
    refine calm_ite (fun _ => (quiet_expectWord _).bind fun _ _ => calm_pure trivial) fun _ => ?_
    refine (quiet_eatWord _).bind fun _ _ => ?_
    exact calm_ite (fun _ => calm_pure trivial) fun _ => calm_pure trivial
  refine (hoption i hi).bind fun r j hij hj _ => ?_
  cases r with
  | none => exact moves_pure hj trivial
  | some state' =>
      refine (takes_eat _ j hj).bind fun b k hjk hk hb => ?_
      refine moves_ite (fun hcomma => moves_pure hk ⟨?_, trivial⟩) fun _ => moves_pure hk trivial
      have := hb hcomma
      omega

/-- The check of the whole refuses a table or leaves it as it is. -/
theorem gives_checkDef (d : TableDef) : Gives (checkDef d) (fun d' => d' = d) := by
  rw [checkDef]
  refine of_ite (fun _ => of_error id) fun _ => ?_
  split
  · exact of_error id
  · exact of_ok rfl

theorem quiet_eatIfNotExists : p.Still p.eatIfNotExists :=
  (quiet_eatWord _).bind fun _ _ => calm_ite
    (fun _ => (quiet_expectWord _).bind fun _ _ => quiet_expectWord _)
    fun _ => calm_pure trivial

/-- A name, behind its schema if that is given. -/
theorem quiet_tableName : p.Still p.tableName :=
  (quiet_identifier).bind fun _ _ => (quiet_eatPunct _).bind fun _ _ =>
    calm_ite (fun _ => quiet_identifier) fun _ => calm_pure trivial

/-- **ANY STATEMENT** is read or refused. -/
theorem quiet_createTable :
    p.Quiet p.createTable (fun d => d.columns.length ≤ p.tokens.length) := by
  refine (quiet_expectWord _).bind fun _ _ => ?_
  refine (quiet_either (quiet_eatWord _) (quiet_eatWord _)).bind fun _ _ => ?_
  refine (quiet_expectWord _).bind fun _ _ => ?_
  refine (quiet_eatIfNotExists).bind fun _ _ => ?_
  refine (quiet_tableName).bind fun name _ => ?_
  refine (quiet_notAsSelect name).bind fun _ _ => ?_
  refine (quiet_expectPunct _).bind fun _ _ => ?_
  have hitems : p.Quiet (p.loop (p.itemRound name) ⟨[], [], [], false⟩)
      (fun b => b.columns.length ≤ p.tokens.length) := by
    intro i hi
    refine imp (moves_parserLoop (moves_itemRound name) _ hi (Nat.zero_le _)) ?_
    rintro r ⟨hir, hr, hcolumns⟩
    exact ⟨hir, hr, hcolumns.trans hr⟩
  refine hitems.bind fun b hb => ?_
  refine (quiet_options _).bind fun options _ => ?_
  refine (quiet_eatPunct _).bind fun _ _ => ?_
  intro i hi
  refine (moves_lift hi (gives_checkDef _)).imp fun d _ _ hd => ?_
  rw [hd.1]
  exact hb

end Parser

/-- **READING A STATEMENT** that fits the memory. -/
theorem gives_parseCreateTable (debug : String → String) {sql : String}
    (h : sql.utf8ByteSize < 2 ^ 63) :
    Gives (parseCreateTable debug sql) (fun d => d.columns.length < 2 ^ 63) := by
  refine (gives_tokenize h).bind ?_
  rintro tokens ⟨hsmall, hin⟩
  have : Parser.Sound ⟨sql, tokens, debug⟩ := ⟨hsmall, hin⟩
  refine bind (Parser.quiet_createTable 0 (Nat.zero_le _)) ?_
  rintro ⟨d, i⟩ ⟨-, -, hcolumns⟩
  exact of_pure (lt_of_le_of_lt hcolumns hsmall)

end Ddl

end QuantySqlite
