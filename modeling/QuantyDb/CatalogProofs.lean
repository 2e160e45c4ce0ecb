import QuantyDb.CatalogModel
import QuantyDb.KeyEncodingProofs
import QuantyDb.Outcome

/-! # A definition comes back from the catalog

    The reader takes off the front what the writer wrote, one field after
    another, and each field it accepts was short enough to have been written
    (`column_eq_ok`).  So a definition comes back exactly when every length and
    count in it fits the bytes it is written in and no id is zero
    (`deserialize_serialize_iff`); the language bounds none of the lengths. -/

namespace QuantyCatalog

open QuantyKey QuantyPage QuantyEncoding QuantyAst QuantyBlob LittleEndian Outcome List
open Reader

/-! ## What fits -/

/-- The length fits two bytes. -/
def Short (s : String) : Prop := (asBytes s).length < 2 ^ 16

/-- The length of the default's encoding fits four bytes. -/
def DefaultFits : Option Value → Prop
  | some v => (encodeKey [v]).length < 2 ^ 32
  | none => True

structure Column.Fits (c : Column) : Prop where
  name : Short c.name
  default : DefaultFits c.default
  indexId : c.indexId ≠ some 0
  textIndexId : c.textIndexId ≠ some 0

structure Table.Fits (t : Table) : Prop where
  name : Short t.name
  count : t.columns.length < 2 ^ 16
  columns : ∀ c ∈ t.columns, c.Fits

/-! ## The fields -/

variable {n version : Nat} {o : Option UInt64} {cols : List Column} {t : Table}

namespace Reader

variable {buf rest : Bytes}

theorem bytes_eq_ok {a : Bytes} :
    bytes n buf = .ok (a, rest) ↔ a.length = n ∧ buf = a ++ rest := cut_eq_ok

theorem number_eq_ok {w : Nat} :
    number w buf = .ok (n, rest) ↔ n < 256 ^ w ∧ buf = le w n ++ rest := by
  simp only [number, run_bind_eq_ok, run_pure_eq_ok, bytes_eq_ok]
  constructor
  · rintro ⟨bytes, _, ⟨rfl, rfl⟩, rfl, rfl⟩
    exact ⟨ofLe_lt bytes, by rw [le_ofLe]⟩
  · rintro ⟨hlt, rfl⟩
    exact ⟨le w n, rest, ⟨length_le w n, rfl⟩, ofLe_le hlt, rfl⟩

theorem u8_eq_ok {b : UInt8} : u8 buf = .ok (b, rest) ↔ buf = b :: rest := by
  simp only [u8, run_bind_eq_ok, run_pure_eq_ok, number_eq_ok]
  constructor
  · rintro ⟨n, _, ⟨hn, rfl⟩, rfl, rfl⟩
    rfl
  · rintro rfl
    exact ⟨b.toNat, rest, ⟨b.toNat_lt, by rw [le, UInt8.ofNat_toNat]; rfl⟩, by simp, rfl⟩

theorem u64_eq_ok {v : UInt64} : u64 buf = .ok (v, rest) ↔ buf = le 8 v.toNat ++ rest := by
  simp only [u64, run_bind_eq_ok, run_pure_eq_ok, number_eq_ok]
  constructor
  · rintro ⟨n, _, ⟨hn, rfl⟩, rfl, rfl⟩
    rw [UInt64.toNat_ofNat', Nat.mod_eq_of_lt (by omega)]
  · rintro rfl
    exact ⟨v.toNat, rest, ⟨v.toNat_lt, rfl⟩, by simp, rfl⟩

theorem str_eq_ok {s : String} :
    str buf = .ok (s, rest) ↔ Short s ∧ buf = putStr s ++ rest := by
  simp only [str, run_bind_eq_ok, number_eq_ok, bytes_eq_ok]
  constructor
  · rintro ⟨n, _, ⟨hn, rfl⟩, a, _, ⟨rfl, rfl⟩, h⟩
    cases hs : fromUtf8 a with
    | error e =>
        rw [hs] at h
        exact absurd h run_throw_ne_ok
    | ok s' =>
        rw [hs] at h
        obtain ⟨rfl, rfl⟩ := run_pure_eq_ok.mp h
        rw [Short, putStr, asBytes_fromUtf8 hs, append_assoc]
        exact ⟨hn, rfl⟩
  · rintro ⟨hshort, rfl⟩
    refine ⟨_, _, ⟨hshort, by rw [putStr, append_assoc]⟩, _, _, ⟨rfl, rfl⟩, ?_⟩
    rw [fromUtf8_asBytes]
    rfl

theorem id_eq_ok : id buf = .ok (o, rest) ↔ o ≠ some 0 ∧ buf = le 8 (o.getD 0).toNat ++ rest := by
  simp only [id, run_bind_eq_ok, run_pure_eq_ok, u64_eq_ok]
  constructor
  · rintro ⟨v, _, rfl, rfl, rfl⟩
    split
    · next hv => exact ⟨fun h => hv (Option.some.inj h), rfl⟩
    · next hv =>
      rw [not_not.mp hv]
      exact ⟨nofun, rfl⟩
  · rintro ⟨ho, rfl⟩
    refine ⟨o.getD 0, rest, rfl, ?_, rfl⟩
    cases o with
    | none => rfl
    | some v => exact if_pos fun hv => ho (congrArg some hv)

theorem textId_eq_ok : textId version buf = .ok (o, rest) ↔
      o ≠ some 0 ∧ (version < CATALOG_V3 → o = none)
        ∧ buf = (if CATALOG_V3 ≤ version then le 8 (o.getD 0).toNat else []) ++ rest := by
  rw [textId]
  by_cases hv : CATALOG_V3 ≤ version
  · rw [if_pos hv, if_pos hv, id_eq_ok]
    exact ⟨fun ⟨h0, h⟩ => ⟨h0, fun hlt => absurd hv (by omega), h⟩, fun ⟨h0, _, h⟩ => ⟨h0, h⟩⟩
  · rw [if_neg hv, if_neg hv, run_pure_eq_ok]
    constructor
    · rintro ⟨rfl, rfl⟩
      exact ⟨nofun, fun _ => rfl, rfl⟩
    · rintro ⟨-, hnone, rfl⟩
      exact ⟨(hnone (by omega)).symm, rfl⟩

theorem ty_eq_ok {ty : TypeName} : Reader.ty buf = .ok (ty, rest) ↔ buf = typeTag ty :: rest := by
  have htag : ∀ b, typeFromTag b = some ty ↔ b = typeTag ty := by
    intro b
    constructor
    · intro h
      unfold typeFromTag at h
      repeat' split at h
      all_goals first | (obtain rfl := Option.some.inj h; assumption) | nomatch h
    · rintro rfl
      cases ty <;> rfl
  simp only [Reader.ty, run_bind_eq_ok, u8_eq_ok]
  constructor
  · rintro ⟨b, _, rfl, h⟩
    cases hb : typeFromTag b with
    | none =>
        rw [hb] at h
        exact absurd h run_throw_ne_ok
    | some ty' =>
        rw [hb] at h
        obtain ⟨rfl, rfl⟩ := run_pure_eq_ok.mp h
        rw [(htag b).mp hb]
  · rintro rfl
    exact ⟨_, rest, rfl, by rw [(htag _).mpr rfl]; rfl⟩

theorem default_eq_ok {d : Option Value} :
    default buf = .ok (d, rest) ↔ DefaultFits d ∧ buf = putDefault d ++ rest := by
  simp only [default, run_bind_eq_ok, u8_eq_ok]
  constructor
  · rintro ⟨tag, mid, rfl, h⟩
    split at h
    · next htag =>
      obtain ⟨rfl, rfl⟩ := run_pure_eq_ok.mp h
      exact ⟨trivial, by rw [htag]; rfl⟩
    split at h
    · next htag =>
      simp only [run_bind_eq_ok, number_eq_ok, bytes_eq_ok] at h
      obtain ⟨n, _, ⟨hn, rfl⟩, enc, _, ⟨rfl, rfl⟩, h⟩ := h
      cases hv : decodeKey enc with
      | error e =>
          rw [hv] at h
          exact absurd h run_throw_ne_ok
      | ok vs =>
          rw [hv] at h
          match vs, hv, h with
          | [v], hv, h =>
              obtain ⟨rfl, rfl⟩ := run_pure_eq_ok.mp h
              obtain rfl := encode_decodeKey hv
              refine ⟨hn, ?_⟩
              rw [htag, putDefault, cons_append, append_assoc]
              rfl
          | [], _, h => exact absurd h run_throw_ne_ok
          | _ :: _ :: _, _, h => exact absurd h run_throw_ne_ok
    · exact absurd h run_throw_ne_ok
  · rintro ⟨hfits, rfl⟩
    cases d with
    | none => exact ⟨0, rest, rfl, rfl⟩
    | some v =>
        refine ⟨1, le 4 (encodeKey [v]).length ++ (encodeKey [v]).bytes ++ rest, rfl, ?_⟩
        rw [if_neg (by decide), if_pos rfl]
        simp only [run_bind_eq_ok, number_eq_ok, bytes_eq_ok]
        refine ⟨_, _, ⟨hfits, append_assoc _ _ _⟩, _, _, ⟨rfl, rfl⟩, ?_⟩
        rw [show decodeKey (encodeKey [v]).bytes = _ from decodeKey_encode [v]]
        rfl

/-! ## Columns -/

/-- The bits of the flags are the flags. -/
theorem flags_bits (c : Column) :
    decide (c.flags &&& 2 ≠ 0) = c.nullable ∧ decide (c.flags &&& 1 ≠ 0) = c.key := by
  rw [Column.flags]
  cases c.key <;> cases c.nullable <;> decide

/-- A column is read from its fields, with whatever other bits its flags have. -/
theorem column_eq_ok {c : Column} : column version buf = .ok (c, rest) ↔
      c.Fits ∧ (version < CATALOG_V3 → c.textIndexId = none) ∧
      ∃ flags : UInt8, decide (flags &&& 2 ≠ 0) = c.nullable ∧ decide (flags &&& 1 ≠ 0) = c.key ∧
        buf = putStr c.name ++ (typeTag c.ty :: flags :: (le 8 (c.indexId.getD 0).toNat
          ++ ((if CATALOG_V3 ≤ version then le 8 (c.textIndexId.getD 0).toNat else [])
          ++ (putDefault c.default ++ rest)))) := by
  simp only [column, run_bind_eq_ok, run_pure_eq_ok, str_eq_ok, ty_eq_ok, u8_eq_ok, id_eq_ok,
    textId_eq_ok, default_eq_ok]
  constructor
  · rintro ⟨name, _, ⟨hname, rfl⟩, ty, _, rfl, flags, _, rfl, i, _, ⟨hi, rfl⟩, t, _, ⟨ht, hv, rfl⟩,
      d, _, ⟨hd, rfl⟩, rfl, rfl⟩
    exact ⟨⟨hname, hd, hi, ht⟩, hv, flags, rfl, rfl, rfl⟩
  · rintro ⟨hfits, hv, flags, hnull, hkey, rfl⟩
    refine ⟨_, _, ⟨hfits.name, rfl⟩, _, _, rfl, _, _, rfl, _, _, ⟨hfits.indexId, rfl⟩, _, _,
      ⟨hfits.textIndexId, hv, rfl⟩, _, _, ⟨hfits.default, rfl⟩, ?_, rfl⟩
    rw [hnull, hkey]

/-- The columns that fit come back from their bytes. -/
theorem columns_putColumn (hfits : ∀ c ∈ cols, c.Fits)
    (hv : version < CATALOG_V3 → ∀ c ∈ cols, c.textIndexId = none) :
    columns version cols.length (cols.flatMap (putColumn version) ++ rest) = .ok (cols, rest) := by
  induction cols with
  | nil => rfl
  | cons c cols ih =>
      rw [length_cons, columns, flatMap_cons, append_assoc, run_bind_eq_ok]
      refine ⟨c, cols.flatMap (putColumn version) ++ rest, column_eq_ok.mpr ?_, ?_⟩
      · obtain ⟨hnull, hkey⟩ := flags_bits c
        refine ⟨hfits c (.head _), fun h => hv h c (.head _), c.flags, hnull, hkey,
          ?_⟩
        simp only [putColumn, append_assoc, cons_append]
      · rw [run_bind_eq_ok]
        refine ⟨cols, rest, ih (fun x hx => hfits x (.tail _ hx))
          fun h x hx => hv h x (.tail _ hx), rfl⟩

/-- Columns that were read fit. -/
theorem columns_fits (h : columns version n buf = .ok (cols, rest)) :
    cols.length = n ∧ ∀ c ∈ cols, c.Fits := by
  induction n generalizing buf cols with
  | zero =>
      obtain ⟨rfl, -⟩ := run_pure_eq_ok.mp h
      exact ⟨rfl, fun _ hc => absurd hc not_mem_nil⟩
  | succ n ih =>
      simp only [columns, run_bind_eq_ok, run_pure_eq_ok] at h
      obtain ⟨c, mid, hc, cols, _, hcols, rfl, rfl⟩ := h
      obtain ⟨hlen, hfits⟩ := ih hcols
      refine ⟨by rw [length_cons, hlen], fun x hx => ?_⟩
      rcases mem_cons.mp hx with rfl | hx
      · exact (column_eq_ok.mp hc).1
      · exact hfits x hx

end Reader

/-! ## Versions -/

/-- A version can express a definition: it knows the types of the columns, and
    has a place for their text indexes. -/
def Expresses (version : Nat) (t : Table) : Prop :=
  CATALOG_V1 ≤ version
    ∧ ∀ c ∈ t.columns, versionFor c.ty ≤ version ∧ (c.textIndexId.isSome → CATALOG_V3 ≤ version)

theorem versionFor_bounds (ty : TypeName) :
    CATALOG_V1 ≤ versionFor ty ∧ versionFor ty ≤ CATALOG_V2 := by
  cases ty <;> decide

theorem Column.version_le_iff (c : Column) (v : Nat) :
    c.version ≤ v ↔ versionFor c.ty ≤ v ∧ (c.textIndexId.isSome → CATALOG_V3 ≤ v) := by
  have := versionFor_bounds c.ty
  rw [Column.version, CATALOG_V3] at *
  rw [CATALOG_V2] at this
  split
  · next h => exact ⟨fun hv => ⟨by omega, fun _ => hv⟩, fun hv => hv.2 h⟩
  · next h => exact ⟨fun hv => ⟨hv, fun hs => absurd hs h⟩, fun hv => hv.1⟩

/-- **THE LOWEST VERSION THAT CAN EXPRESS THE DEFINITION**. -/
theorem version_isLeast (t : Table) : IsLeast {v | Expresses v t} t.version := by
  have hexp : ∀ v, Expresses v t ↔ CATALOG_V1 ≤ v ∧ ∀ c ∈ t.columns, c.version ≤ v := fun v =>
    and_congr_right fun _ => forall₂_congr fun c _ => (c.version_le_iff v).symm
  have hmax : CATALOG_V1 ≤ t.version ∧ (∀ c ∈ t.columns, c.version ≤ t.version)
      ∧ ∀ v, CATALOG_V1 ≤ v → (∀ c ∈ t.columns, c.version ≤ v) → t.version ≤ v := by
    rw [Table.version]
    cases hm : (t.columns.map Column.version).max? with
    | none =>
        have hnil := map_eq_nil_iff.mp (max?_eq_none_iff.mp hm)
        rw [hnil]
        exact ⟨le_rfl, fun _ hc => absurd hc not_mem_nil, fun v hv _ => hv⟩
    | some m =>
        obtain ⟨hmem, hle⟩ := max?_eq_some_iff.mp hm
        obtain ⟨c, hc, rfl⟩ := mem_map.mp hmem
        have hone := (versionFor_bounds c.ty).1
        have hself := (c.version_le_iff c.version).mp le_rfl
        exact ⟨hone.trans hself.1, fun c hc => hle _ (mem_map_of_mem hc),
          fun v _ hv => hv c hc⟩
  refine ⟨(hexp _).mpr ⟨hmax.1, hmax.2.1⟩, fun v hv => ?_⟩
  obtain ⟨hv1, hvc⟩ := (hexp v).mp hv
  exact hmax.2.2 v hv1 hvc

theorem version_le (t : Table) : t.version ≤ CATALOG_V3 := by
  refine (version_isLeast t).2 ⟨by decide, fun c _ => ⟨?_, fun _ => le_rfl⟩⟩
  exact (versionFor_bounds c.ty).2.trans (by decide)

theorem toNat_version (t : Table) : (UInt8.ofNat t.version).toNat = t.version := by
  have hle := version_le t
  rw [CATALOG_V3] at hle
  rw [UInt8.toNat_ofNat', Nat.mod_eq_of_lt (by omega)]

/-! ## Definitions -/

theorem deserialize_serialize (h : t.Fits) : Table.deserialize t.serialize = .ok t := by
  obtain ⟨hexp, -⟩ := version_isLeast t
  have hle := version_le t
  have hv : ¬ (t.version ≠ CATALOG_V1 ∧ t.version ≠ CATALOG_V2 ∧ t.version ≠ CATALOG_V3) := by
    have hone : CATALOG_V1 ≤ t.version := hexp.1
    rw [CATALOG_V1, CATALOG_V2, CATALOG_V3] at *
    omega
  have htext : t.version < CATALOG_V3 → ∀ c ∈ t.columns, c.textIndexId = none := by
    intro hlt c hc
    by_contra hne
    have := (hexp.2 c hc).2 (Option.isSome_iff_ne_none.mpr hne)
    omega
  have hread : table t.serialize = .ok (t, []) := by
    rw [table, run_bind_eq_ok]
    refine ⟨_, _, u8_eq_ok.mpr rfl, ?_⟩
    rw [toNat_version, if_neg hv]
    simp only [run_bind_eq_ok, run_pure_eq_ok, u64_eq_ok, str_eq_ok,
      number_eq_ok]
    refine ⟨_, _, rfl, _, _, ⟨h.name, rfl⟩, _, _, ⟨h.count, rfl⟩, t.columns, [], ?_, rfl, rfl⟩
    rw [← append_nil (t.columns.flatMap _)]
    exact columns_putColumn h.columns htext
  rw [Table.deserialize, hread]
  rfl

/-- A definition that was read fits. -/
theorem fits_of_deserialize {buf : Bytes} (h : Table.deserialize buf = .ok t) : t.Fits := by
  obtain ⟨⟨t', rest⟩, hread, hend⟩ := bind_eq_ok.mp h
  have ht : t' = t := by
    by_cases hrest : rest.length ≠ 0
    · nomatch (if_pos hrest).symm.trans hend
    · exact Except.ok.inj ((if_neg hrest).symm.trans hend)
  subst ht
  rw [table, run_bind_eq_ok] at hread
  obtain ⟨version, _, -, hread⟩ := hread
  split at hread
  · exact absurd hread run_throw_ne_ok
  · simp only [run_bind_eq_ok, run_pure_eq_ok, str_eq_ok, number_eq_ok] at hread
    obtain ⟨id, _, -, name, _, ⟨hname, -⟩, n, _, ⟨hn, -⟩, cols, _, hcols, rfl, -⟩ := hread
    obtain ⟨rfl, hfits⟩ := columns_fits hcols
    exact ⟨hname, hn, hfits⟩

theorem deserialize_serialize_iff (t : Table) :
    Table.deserialize t.serialize = .ok t ↔ t.Fits :=
  ⟨fits_of_deserialize, deserialize_serialize⟩

/-! ## Statements -/

theorem catalogGet_put {pageSize : Nat} {c c' : Catalog} {key : Key} {value : Bytes}
    (h : put pageSize c key value = .ok c') : catalogGet pageSize c' key = some value := by
  rw [put] at h
  cases hput : catalogPut pageSize c key value with
  | error e =>
      rw [hput] at h
      nomatch h
  | ok c₁ =>
      rw [hput] at h
      obtain rfl := Except.ok.inj h
      rw [catalogGet_catalogPut hput, if_pos rfl]

section
variable {F : Floats} {data : DataTree} {pageSize : Nat} {c c₁ c' : Catalog} {s : Ddl} {t : Table}

theorem Ddl.run_of_define (hdef : s.define F data pageSize c = .ok (t, c₁))
    (hstore : storeTable pageSize c₁ t = .ok c') : s.run F data pageSize c = .ok c' := by
  rw [Ddl.run, hdef]
  exact hstore

/-- What was stored is what will be read. -/
theorem loadTable_storeTable (hstore : storeTable pageSize c₁ t = .ok c') :
    loadTable pageSize c' t.name = Table.deserialize t.serialize := by
  rw [loadTable, catalogGet_put hstore]

end

/-- **A DEFINITION SURVIVES THE CATALOG EXACTLY WHEN IT FITS**: what a statement
    stores is what `load_table` will read, at the lowest version that can
    express it, and it reads back as the definition when every name, count and
    default fits the length it is written with and no id is zero. -/
theorem definition_survives_iff (F : Floats) (data : DataTree) (pageSize : Nat)
    (c c₁ c' : Catalog) (s : Ddl) (t : Table)
    (hdef : s.define F data pageSize c = .ok (t, c₁))
    (hstore : storeTable pageSize c₁ t = .ok c') :
    s.run F data pageSize c = .ok c'
      ∧ loadTable pageSize c' t.name = Table.deserialize t.serialize
      ∧ ((Table.deserialize t.serialize = .ok t
          ∧ ∃ v, t.serialize.head?.map UInt8.toNat = some v ∧ IsLeast {v | Expresses v t} v)
        ↔ t.Fits) := by
  refine ⟨Ddl.run_of_define hdef hstore, loadTable_storeTable hstore, ?_⟩
  rw [deserialize_serialize_iff]
  refine ⟨And.left, fun h => ⟨h, t.version, ?_, version_isLeast t⟩⟩
  rw [Table.serialize, head?_cons, Option.map_some, toNat_version]

/-- `table t ( n: int @key )`, with `n` a name of so many letters. -/
def lettered (n : Nat) : TableDef :=
  ⟨"t", [⟨String.ofList (List.replicate n 'a'), .int, false, true, false, false, none⟩]⟩

theorem length_lettered (n : Nat) :
    (asBytes (String.ofList (List.replicate n 'a'))).length = n := by
  rw [asBytes_ofList]
  induction n with
  | zero => rfl
  | succ n ih =>
      have ha : String.utf8EncodeChar 'a' = [97] := by decide
      rw [replicate_succ, flatMap_cons, ha, length_append, ih, length_singleton,
        Nat.add_comm]

/-- The definition it makes of an empty catalog. -/
def letteredTable (n : Nat) : Table :=
  ⟨1, "t", [⟨String.ofList (List.replicate n 'a'), .int, false, true, none, none, none⟩]⟩

/-- No part of the data tree is in the way. -/
def idle : DataTree := ⟨fun _ _ _ _ => .ok (), fun _ => .ok ()⟩

theorem define_lettered (F : Floats) (n : Nat) :
    ∃ c₁ c', Ddl.define F idle 4096 .empty (.table (lettered n)) = .ok (letteredTable n, c₁)
      ∧ storeTable 4096 c₁ (letteredTable n) = .ok c' :=
  ⟨_, _, rfl, rfl⟩

theorem fits_lettered (n : Nat) : (letteredTable n).Fits ↔ n < 2 ^ 16 := by
  have hlen := length_lettered n
  constructor
  · intro h
    have hname := (h.columns _ (mem_singleton.mpr rfl)).name
    rwa [Short, hlen] at hname
  · intro hn
    have hname : (asBytes "t").length < 2 ^ 16 := by decide
    have hcount : 1 < 2 ^ 16 := by decide
    refine ⟨hname, hcount, fun c hc => ?_⟩
    obtain rfl := mem_singleton.mp hc
    exact ⟨by rwa [Short, hlen], trivial, nofun, nofun⟩

theorem definition_survives_iff_three :
    ∃ c', Ddl.run hostFloats idle 4096 .empty (.table (lettered 3)) = .ok c'
      ∧ loadTable 4096 c' "t" = .ok (letteredTable 3) := by
  obtain ⟨c₁, c', hdef, hstore⟩ := define_lettered hostFloats 3
  obtain ⟨hrun, hload, hiff⟩ :=
    definition_survives_iff hostFloats idle 4096 .empty c₁ c' (.table (lettered 3)) _ hdef hstore
  exact ⟨c', hrun, hload.trans (hiff.mpr ((fits_lettered 3).mpr (by decide))).1⟩

/-- A column name of `2 ^ 16` bytes is accepted, its length is written as zero,
    and the definition does not come back. -/
theorem long_column_name_lost :
    ∃ c', Ddl.run hostFloats idle 4096 .empty (.table (lettered (2 ^ 16))) = .ok c'
      ∧ loadTable 4096 c' "t" ≠ .ok (letteredTable (2 ^ 16)) := by
  obtain ⟨c₁, c', hdef, hstore⟩ := define_lettered hostFloats (2 ^ 16)
  refine ⟨c', Ddl.run_of_define hdef hstore, fun hload => ?_⟩
  have hfits := fits_of_deserialize ((loadTable_storeTable hstore).symm.trans hload)
  have := (fits_lettered _).mp hfits
  omega

end QuantyCatalog
