import Mathlib

/-! # Names of an import

    A name of SQLite may be anything; a name of ours is one word that is
    neither an operator nor a literal.  `Names::assign` rewrites a name and
    numbers it when it is taken.  It knows the operators of the language, but
    not its literals. -/

namespace QuantyImport

open List

/-! ## The language -/

/-- A text as its characters. -/
abbrev Name := List Char

def OPERATOR_WORDS : List Name := ["not".toList, "and".toList, "or".toList]

def LITERAL_WORDS : List Name := ["true".toList, "false".toList, "null".toList]

def isWord (c : Char) : Bool := c = '_' || c.isAlphanum

/-- The branch of `lex` for a text that begins with a letter or an underscore:
    the word, and what is left.  In front of a quote `x` begins a literal. -/
def lexIdent : Name → Option (Name × Name)
  | [] => none
  | c :: text =>
      if c = '_' || c.isAlpha then
        let word := (c :: text).takeWhile isWord
        let rest := (c :: text).dropWhile isWord
        if word = ['x'] ∧ rest.head? = some '"' then none else some (word, rest)
      else none

/-- Why this word cannot name a table or column, if it cannot. -/
def refuseAsName (word : Name) : Option String :=
  if word ∈ OPERATOR_WORDS then
    some ("'" ++ String.ofList word ++ "' is an operator and cannot name a table or column")
  else if word ∈ LITERAL_WORDS then
    some ("'" ++ String.ofList word ++ "' is a literal value and cannot name a table or column")
  else none

/-- What the parser's `name` takes, and nothing is left of it. -/
def Usable (name : Name) : Prop := lexIdent name = some (name, []) ∧ refuseAsName name = none

/-! ## The importer -/

/-- `to_ascii_lowercase`. -/
def lower (name : Name) : Name := name.map Char.toLower

/-- A name that does not begin with a digit, and is not empty. -/
def opened : Name → Name
  | [] => ['_']
  | c :: text => if c.isDigit then '_' :: c :: text else c :: text

/-- Map one name into the identifier grammar, without regard to what else
    exists. -/
def rewrite (source : Name) : Name :=
  let out := opened (source.map fun c => if isWord c then c else '_')
  if lower out ∈ OPERATOR_WORDS then out ++ ['_'] else out

def numbered (base : Name) (suffix : Nat) : Name := base ++ '_' :: (toString suffix).toList

/-- The loop of `assign`; `none` when the suffix overflows. -/
def settle (taken : List Name) (base : Name) : Nat → Nat → Name → Option Name
  | fuel, suffix, candidate =>
      if taken.any (fun t => lower t = lower candidate) then
        match fuel with
        | 0 => none
        | fuel + 1 =>
            if 2 ^ 32 ≤ suffix + 1 then none
            else settle taken base fuel (suffix + 1) (numbered base suffix)
      else some candidate

/-- `Names::assign` on one name after the other: what each becomes, and whether
    it had to change. -/
def assignAll : List Name → List Name → Option (List (Name × Bool))
  | _, [] => some []
  | taken, source :: rest => do
      let name ← settle taken (rewrite source) (taken.length + 1) 2 (rewrite source)
      let names ← assignAll (taken ++ [name]) rest
      return (name, decide (name ≠ source)) :: names

/-! ## Words -/

/-- One word of the grammar. -/
def Ident (name : Name) : Prop :=
  (∀ c ∈ name, isWord c = true) ∧ ∃ c text, name = c :: text ∧ c.isDigit = false

variable {name source base w : Name} {taken : List Name}

theorem lexIdent_ident (h : Ident name) : lexIdent name = some (name, []) := by
  obtain ⟨hword, c, text, rfl, hdigit⟩ := h
  have hfirst : (c = '_' || c.isAlpha) = true := by
    have := hword c (.head _)
    rw [isWord, Char.isAlphanum, hdigit, Bool.or_false] at this
    exact this
  rw [lexIdent, if_pos hfirst]
  dsimp only
  rw [takeWhile_eq_self_iff.mpr hword, dropWhile_eq_nil_iff.mpr hword,
    if_neg (fun h => nomatch h.2)]

/-- An underscore is in no word of the language. -/
theorem plain_words (hw : w ∈ OPERATOR_WORDS ++ LITERAL_WORDS) : '_' ∉ w ∧ lower w = w := by
  revert w
  decide

theorem Ident.append (h : Ident base) {tail : Name} (htail : ∀ c ∈ tail, isWord c = true) :
    Ident (base ++ tail) := by
  obtain ⟨hword, c, text, rfl, hdigit⟩ := h
  exact ⟨forall_mem_append.mpr ⟨hword, htail⟩, c, text ++ tail, rfl, hdigit⟩

theorem isDigit_toString {n : Nat} {c : Char} (h : c ∈ (toString n).toList) : c.isDigit = true := by
  rw [Nat.toString_eq_ofList_toDigits, String.toList_ofList] at h
  exact Nat.isDigit_of_mem_toDigits (by decide) (by decide) h

theorem Ident.numbered (h : Ident base) (n : Nat) : Ident (numbered base n) := by
  refine h.append (forall_mem_cons.mpr ⟨rfl, fun c hc => ?_⟩)
  rw [isWord, Char.isAlphanum, isDigit_toString hc, Bool.or_true, Bool.or_true]

theorem ident_rewrite (source : Name) :
    Ident (rewrite source) ∧ rewrite source ∉ OPERATOR_WORDS := by
  have hout : ∀ c ∈ source.map fun c => if isWord c then c else '_', isWord c = true := by
    simp only [mem_map, forall_exists_index, and_imp]
    rintro _ c - rfl
    split
    · assumption
    · rfl
  have hident : Ident (opened (source.map fun c => if isWord c then c else '_')) := by
    revert hout
    generalize source.map _ = out
    intro hword
    cases out with
    | nil => exact ⟨forall_mem_singleton.mpr rfl, _, _, rfl, rfl⟩
    | cons c text =>
        rw [opened]
        split
        · exact ⟨forall_mem_cons.mpr ⟨rfl, hword⟩, _, _, rfl, rfl⟩
        · next h => exact ⟨hword, c, text, rfl, Bool.not_eq_true _ ▸ h⟩
  rw [rewrite]
  split
  · exact ⟨hident.append (forall_mem_singleton.mpr rfl),
      fun h => (plain_words (mem_append_left _ h)).1 (mem_append_right _ (.head _))⟩
  · next hop => exact ⟨hident, fun h => hop ((plain_words (mem_append_left _ h)).2.symm ▸ h)⟩

theorem opened_plain {out : Name} (h : '_' ∉ opened out) : opened out = out := by
  cases out with
  | nil => exact absurd (.head _) h
  | cons c text =>
      rw [opened] at h ⊢
      split at h
      · exact absurd (.head _) h
      · next hdigit => exact if_neg hdigit

/-- Whatever is changed shows an underscore. -/
theorem rewrite_plain (h : '_' ∉ rewrite source) : rewrite source = source := by
  rw [rewrite] at h ⊢
  split at h
  · exact absurd (mem_append_right _ (.head _)) h
  · next hop =>
    rw [if_neg hop, opened_plain h]
    rw [opened_plain h] at h
    refine (map_congr_left fun c hc => ?_).trans (map_id source)
    by_contra hchanged
    exact h (mem_map.mpr ⟨c, hc, if_neg fun hword => hchanged (if_pos hword)⟩)

theorem toLower_digit {c : Char} (h : c.isDigit = true) : c.toLower = c := by
  rw [Char.isDigit, Bool.and_eq_true, decide_eq_true_iff, decide_eq_true_iff] at h
  rw [Char.toLower, dif_neg fun hup => absurd (UInt32.le_trans hup.1 h.2) (by decide)]

theorem rewrite_literal (hw : w ∈ LITERAL_WORDS) (h : lower source = w) :
    rewrite source = source := by
  have hother : ∀ w ∈ LITERAL_WORDS, w ≠ [] ∧ w ∉ OPERATOR_WORDS := by decide
  have hletters : ∀ w ∈ LITERAL_WORDS, ∀ d ∈ w, isWord d = true ∧ d.isDigit = false := by
    simp [LITERAL_WORDS, isWord]
  have hlow : ∀ c ∈ source, c.toLower ∈ w := fun c hc => h ▸ mem_map_of_mem (f := Char.toLower) hc
  have hmap : (source.map fun c => if isWord c then c else '_') = source := by
    refine (map_congr_left fun c hc => if_pos ?_).trans (map_id source)
    by_cases hup : c.val ≥ 'A'.val ∧ c.val ≤ 'Z'.val
    · rw [isWord, Char.isAlphanum, Char.isAlpha, Char.isUpper, decide_eq_true hup, Bool.true_or,
        Bool.true_or, Bool.or_true]
    · have := (hletters w hw _ (hlow c hc)).1
      rwa [Char.toLower, dif_neg hup] at this
  have hopened : opened source = source := by
    cases source with
    | nil => exact absurd h.symm (hother w hw).1
    | cons c text =>
        refine if_neg fun hdigit => ?_
        have := (hletters w hw _ (hlow c (.head _))).2
        rw [toLower_digit hdigit, hdigit] at this
        nomatch this
  rw [rewrite, hmap, hopened, if_neg (h ▸ (hother w hw).2)]

/-! ## Numbers -/

theorem lower_numbered (base : Name) (n : Nat) :
    lower (numbered base n) = numbered (lower base) n := by
  rw [lower, numbered, map_append, map_cons, numbered, lower]
  exact congrArg (_ ++ '_' :: ·)
    ((map_congr_left fun c hc => toLower_digit (isDigit_toString hc)).trans (map_id _))

theorem numbered_injective {n m : Nat} (h : numbered base n = numbered base m) : n = m := by
  have hdigits := (cons.inj (append_cancel_left h)).2
  have hnumber := congrArg (fun digits => Nat.ofDigitChars 10 digits 0) hdigits
  simpa [Nat.toString_eq_ofList_toDigits] using hnumber

variable {fuel suffix : Nat} {candidate : Name}

theorem settle_spec (h : settle taken base fuel suffix candidate = some name) :
    (name = candidate ∨ ∃ n, name = numbered base n) ∧ ∀ t ∈ taken, lower t ≠ lower name := by
  induction fuel generalizing suffix candidate with
  | zero =>
      rw [settle.eq_def] at h
      dsimp only at h
      split at h
      · nomatch h
      · next hfree =>
        obtain rfl := Option.some.inj h
        exact ⟨.inl rfl, by simpa using hfree⟩
  | succ fuel ih =>
      rw [settle.eq_def] at h
      dsimp only at h
      split at h
      · split at h
        · nomatch h
        · obtain ⟨rfl | hn, hfree⟩ := ih h
          · exact ⟨.inr ⟨suffix, rfl⟩, hfree⟩
          · exact ⟨.inr hn, hfree⟩
      · next hfree =>
        obtain rfl := Option.some.inj h
        exact ⟨.inl rfl, by simpa using hfree⟩

theorem settle_none (h : settle taken base fuel suffix candidate = none)
    (hroom : suffix + fuel < 2 ^ 32) :
    lower candidate ∈ taken.map lower ∧
      ∀ i < fuel, lower (numbered base (suffix + i)) ∈ taken.map lower := by
  induction fuel generalizing suffix candidate with
  | zero =>
      rw [settle.eq_def] at h
      dsimp only at h
      split at h
      · next htaken => exact ⟨by simpa [mem_map] using htaken, nofun⟩
      · nomatch h
  | succ fuel ih =>
      rw [settle.eq_def] at h
      dsimp only at h
      split at h
      · next htaken =>
        rw [if_neg (by omega)] at h
        obtain ⟨hfirst, hrest⟩ := ih h (by omega)
        refine ⟨by simpa [mem_map] using htaken, fun i hi => ?_⟩
        cases i with
        | zero => exact hfirst
        | succ i =>
            rw [show suffix + (i + 1) = suffix + 1 + i by omega]
            exact hrest i (by omega)
      · nomatch h

/-- **THE LOOP ENDS**: there are more numbers than names that are taken. -/
theorem settle_returns (base candidate : Name) (h : taken.length + 3 < 2 ^ 32) :
    ∃ name, settle taken base (taken.length + 1) 2 candidate = some name := by
  cases hsettle : settle taken base (taken.length + 1) 2 candidate with
  | some name => exact ⟨name, rfl⟩
  | none =>
      have hall := (settle_none hsettle (by omega)).2
      let tried := (range (taken.length + 1)).map fun i => lower (numbered base (2 + i))
      have hnodup : tried.Nodup := by
        refine Nodup.map (fun i j hij => ?_) nodup_range
        rw [lower_numbered, lower_numbered] at hij
        have := numbered_injective hij
        omega
      have hsub : tried ⊆ taken.map lower := by
        intro x hx
        obtain ⟨i, hi, rfl⟩ := mem_map.mp hx
        exact hall i (mem_range.mp hi)
      have hlen := (hnodup.subperm hsub).length_le
      rw [length_map, length_map, length_range] at hlen
      omega

/-! ## A whole import -/

/-- What a name becomes, for a literal of the language. -/
theorem settled_literal (hw : w ∈ LITERAL_WORDS)
    (h : settle taken (rewrite source) fuel suffix (rewrite source) = some name) :
    (lower name = w ↔ lower source = w ∧ ∀ t ∈ taken, lower t ≠ w)
      ∧ (lower name = w → name = source) := by
  obtain ⟨hname, hfree⟩ := settle_spec h
  have hplain := (plain_words (mem_append_right _ hw)).1
  have hsame : lower name = w → name = source := by
    intro hlow
    have hclear : '_' ∉ name := fun hmem => hplain (hlow ▸ mem_map_of_mem (f := Char.toLower) hmem)
    rcases hname with rfl | ⟨n, rfl⟩
    · exact rewrite_plain hclear
    · exact absurd (mem_append_right _ (.head _)) hclear
  refine ⟨⟨fun hlow => ⟨hsame hlow ▸ hlow, fun t ht => hlow ▸ hfree t ht⟩, ?_⟩, hsame⟩
  rintro ⟨hsource, hnone⟩
  rw [settle.eq_def, rewrite_literal hw hsource] at h
  dsimp only at h
  rw [if_neg (by simpa [hsource] using hnone)] at h
  rw [← Option.some.inj h, hsource]

/-- What is asked of the names that an import gives. -/
structure Assigned (taken sources : List Name) (names : List (Name × Bool)) : Prop where
  words : ∀ n ∈ names, Ident n.1 ∧ n.1 ∉ OPERATOR_WORDS
  distinct : (taken ++ names.map Prod.fst).Pairwise fun a b => lower a ≠ lower b
  changed : Forall₂ (fun source n => n.2 = true ↔ n.1 ≠ source) sources names
  literals : ∀ w ∈ LITERAL_WORDS, w ∈ names.map Prod.fst ↔
    (∀ t ∈ taken, lower t ≠ w) ∧ sources.find? (fun s => lower s = w) = some w

theorem assigned (sources taken : List Name) (hroom : taken.length + sources.length + 2 < 2 ^ 32)
    (htaken : taken.Pairwise fun a b => lower a ≠ lower b) :
    ∃ names, assignAll taken sources = some names ∧ Assigned taken sources names := by
  induction sources generalizing taken with
  | nil => exact ⟨[], rfl, nofun, by simpa using htaken, .nil, fun w _ => by simp⟩
  | cons source rest ih =>
      rw [length_cons] at hroom
      obtain ⟨name, hname⟩ := @settle_returns taken (rewrite source) (rewrite source) (by omega)
      obtain ⟨hshape, hfree⟩ := settle_spec hname
      obtain ⟨names, hrest, h⟩ :=
        ih (taken ++ [name]) (by rw [length_append, length_singleton]; omega)
        (pairwise_append.mpr ⟨htaken, pairwise_singleton _ _, by simpa using hfree⟩)
      refine ⟨(name, decide (name ≠ source)) :: names, ?_, ?_, ?_, ?_, fun w hw => ?_⟩
      · rw [assignAll, hname, Option.bind_eq_bind, Option.bind_some, hrest]
        rfl
      · refine forall_mem_cons.mpr ⟨?_, h.words⟩
        rcases hshape with rfl | ⟨n, rfl⟩
        · exact ident_rewrite source
        · exact ⟨(ident_rewrite source).1.numbered n,
            fun hop => (plain_words (mem_append_left _ hop)).1 (mem_append_right _ (.head _))⟩
      · simpa using h.distinct
      · exact .cons (by simp) h.changed
      · obtain ⟨hiff, hsame⟩ := settled_literal hw hname
        have hlow := (plain_words (mem_append_right _ hw)).2
        rw [map_cons, mem_cons, h.literals w hw, forall_mem_append, forall_mem_singleton,
          find?_cons]
        by_cases hs : lower source = w
        · -- the first that is spelled so, unless one was taken
          rw [decide_eq_true hs]
          constructor
          · rintro (rfl | ⟨⟨hnone, hother⟩, -⟩)
            · exact ⟨(hiff.mp hlow).2, congrArg some (hsame hlow).symm⟩
            · exact absurd (hiff.mpr ⟨hs, hnone⟩) hother
          · rintro ⟨hnone, heq⟩
            exact .inl ((hsame (hiff.mpr ⟨hs, hnone⟩)).trans (Option.some.inj heq)).symm
        · rw [decide_eq_false hs]
          constructor
          · rintro (rfl | ⟨⟨hnone, -⟩, hfind⟩)
            · exact absurd (hiff.mp hlow).1 hs
            · exact ⟨hnone, hfind⟩
          · rintro ⟨hnone, hfind⟩
            exact .inr ⟨⟨hnone, fun h => hs (hiff.mp h).1⟩, hfind⟩

/-- **WHEN NAMES CAN BE USED**.  Every import of fewer than 2^32 - 2 names comes
    to an end with names that are distinct, and says which it changed; all of
    them can be used exactly when no literal of the language is the first name
    spelled like it. -/
theorem names_usable_iff (sources : List Name) (hfew : sources.length + 2 < 2 ^ 32) :
    (∃ names, assignAll [] sources = some names ∧ (∀ n ∈ names, Usable n.1) ∧
        (names.map Prod.fst).Pairwise (fun a b => lower a ≠ lower b) ∧
        Forall₂ (fun source n => n.2 = true ↔ n.1 ≠ source) sources names) ↔
      ∀ w ∈ LITERAL_WORDS, sources.find? (fun s => lower s = w) ≠ some w := by
  obtain ⟨names, hall, h⟩ := assigned sources [] (by simpa using hfew) .nil
  constructor
  · rintro ⟨names', hall', husable, -, -⟩ w hw hfind
    obtain rfl := Option.some.inj (hall'.symm.trans hall)
    obtain ⟨n, hn, rfl⟩ := mem_map.mp ((h.literals w hw).mpr ⟨nofun, hfind⟩)
    have hrefused := (husable n hn).2
    rw [refuseAsName, if_neg (h.words n hn).2, if_pos hw] at hrefused
    nomatch hrefused
  · intro hclear
    refine ⟨names, hall, fun n hn => ⟨lexIdent_ident (h.words n hn).1, ?_⟩, h.distinct, h.changed⟩
    rw [refuseAsName, if_neg (h.words n hn).2, if_neg]
    exact fun hw => hclear n.1 hw ((h.literals _ hw).mp (mem_map_of_mem hn)).2

/-- A name that is rewritten, and a literal after another spelling of it. -/
theorem names_usable_iff_two :
    ∃ names, assignAll [] ["a b".toList, "True".toList, "true".toList] = some names
      ∧ ∀ n ∈ names, Usable n.1 := by
  obtain ⟨names, hall, husable, -⟩ := (names_usable_iff ["a b".toList, "True".toList, "true".toList]
    (by decide)).mpr (by decide)
  exact ⟨names, hall, husable⟩

/-- **A COLUMN CALLED TRUE** keeps a name that no statement can say. -/
theorem true_keeps_its_name : assignAll [] ["true".toList] = some [("true".toList, false)] ∧
    ¬ Usable "true".toList := by
  refine ⟨by decide, fun h => ?_⟩
  nomatch h.2

end QuantyImport
