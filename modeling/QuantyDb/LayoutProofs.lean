import QuantyDb.SqliteSchema
import QuantyDb.DdlProofs

/-! # Columns and the record they come from

    SQLite writes the columns of a row in an order that nothing in the row
    says: as declared, or the key first and the rest as declared, always
    without the virtual ones.  `writeOrder` is that order.  A layout has at each
    column the place of the column in it (`new_eq`), so it gives every column
    its own value back, as far as the record goes (`cell_written`). -/

namespace QuantySqlite

open Outcome List TableDef

/-! ## The order of a record -/

/-- A list without what was there before. -/
def firsts : List Nat → List Nat
  | [] => []
  | i :: l => i :: (firsts l).filter (· ≠ i)

namespace TableDef

/-- Whether a column has a place in the record. -/
def stores (d : TableDef) (i : Nat) : Bool := d.columns[i]?.any fun c => !c.generated.isVirtual

/-- The columns in the order SQLite writes them. -/
def writeOrder (d : TableDef) : List Nat :=
  (if d.withoutRowid then
    firsts (d.primaryKey.filterMap (fun k => d.columnIndex k.name) ++ List.range d.columns.length)
  else List.range d.columns.length).filter d.stores

/-- The column whose value is the rowid. -/
def aliasIndex (d : TableDef) : Option Nat :=
  if d.withoutRowid = true ∨ d.primaryKey.length ≠ 1 ∨ d.inlinePkDesc = true then none
  else (d.primaryKey.head?.bind fun k => d.columnIndex k.name).filter fun i =>
    d.columns[i]?.any declaredInteger

/-- Its name. -/
def aliasName (d : TableDef) : Option String :=
  (d.aliasIndex.bind fun i => d.columns[i]?).map ColumnDef.name

/-- The row SQLite writes for values of the columns, of which only so many were
    there when it was written. -/
def written (d : TableDef) (value : Nat → SqliteValue) (rowid : Int) (count : Nat) : Row :=
  ⟨if d.withoutRowid then none else some rowid,
    (d.writeOrder.map fun i => if d.aliasIndex = some i then .null else value i).take count⟩

/-- What a column of that row holds. -/
def holds (d : TableDef) (value : Nat → SqliteValue) (rowid : Int) (count i : Nat) : MappedCell :=
  if d.stores i = false then .virtual
  else if d.aliasIndex = some i then .rowid rowid
  else if d.writeOrder.idxOf i < count then .value (value i)
  else .missing

end TableDef

/-! ## Lists of indices -/

variable {i : Nat} {l : List Nat}

theorem mem_firsts : i ∈ firsts l ↔ i ∈ l := by
  induction l with
  | nil => exact Iff.rfl
  | cons k l ih =>
      rw [firsts, mem_cons, mem_cons, mem_filter, ih, decide_eq_true_iff]
      tauto

theorem nodup_firsts (l : List Nat) : (firsts l).Nodup := by
  induction l with
  | nil => exact nodup_nil
  | cons k l ih =>
      refine nodup_cons.mpr ⟨fun h => ?_, ih.filter _⟩
      exact of_decide_eq_true (mem_filter.mp h).2 rfl

theorem foldl_pushNew (acc l : List Nat) :
    l.foldl RowLayout.pushNew acc = acc ++ (firsts l).filter (· ∉ acc) := by
  induction l generalizing acc with
  | nil => exact (append_nil acc).symm
  | cons i l ih =>
      rw [foldl_cons, ih, RowLayout.pushNew, firsts]
      by_cases hi : i ∈ acc
      · rw [if_pos hi, filter_cons_of_neg (by simpa using hi), filter_filter]
        refine congrArg (acc ++ ·) (filter_congr fun k _ => ?_)
        by_cases hk : k = i <;> simp [hk, hi]
      · rw [if_neg hi, filter_cons_of_pos (by simpa using hi), filter_filter,
          append_assoc, singleton_append]
        refine congrArg (acc ++ i :: ·) (filter_congr fun k _ => ?_)
        simp [not_or]

/-- Where an index stands among those of a range that pass a test. -/
theorem idxOf_filter_range (p : Nat → Bool) {n : Nat} (hi : i < n) (hp : p i = true) :
    ((List.range n).filter p).idxOf i = ((List.range i).filter p).length := by
  induction n with
  | zero => exact absurd hi (Nat.not_lt_zero i)
  | succ n ih =>
      rw [range_succ, filter_append]
      rcases Nat.lt_succ_iff_lt_or_eq.mp hi with hlt | rfl
      · rw [idxOf_append_of_mem (mem_filter.mpr ⟨mem_range.mpr hlt, hp⟩), ih hlt]
      · rw [idxOf_append_of_notMem (by simp), filter_cons_of_pos hp]
        simp

theorem map_idxOf_self (h : l.Nodup) : l.map (l.idxOf ·) = List.range l.length := by
  refine ext_getElem (by simp) fun k hk _ => ?_
  rw [getElem_map, getElem_range, h.idxOf_getElem]

namespace RowLayout

variable {d : TableDef}

theorem recordOrder_eq (d : TableDef) : recordOrder d
    = firsts (d.primaryKey.filterMap (fun k => d.columnIndex k.name)
      ++ List.range d.columns.length) := by
  rw [recordOrder, ← foldl_append, foldl_pushNew, nil_append]
  exact filter_eq_self.mpr fun i _ => by simp

theorem mem_recordOrder : i ∈ recordOrder d ↔ i < d.columns.length := by
  rw [recordOrder_eq, mem_firsts, mem_append, mem_range, or_iff_right_of_imp]
  intro h
  obtain ⟨key, -, hkey⟩ := mem_filterMap.mp h
  exact (findIdx?_eq_some_iff_findIdx_eq.mp hkey).1

theorem nodup_recordOrder (d : TableDef) : (recordOrder d).Nodup :=
  recordOrder_eq d ▸ nodup_firsts _

theorem writeOrder_eq (d : TableDef) : d.writeOrder
    = (if d.withoutRowid then recordOrder d else List.range d.columns.length).filter d.stores := by
  rw [recordOrder_eq]
  rfl

/-- The record has every column that is stored, once. -/
theorem writeOrder_perm (d : TableDef) :
    d.writeOrder.Perm ((List.range d.columns.length).filter d.stores) := by
  rw [writeOrder_eq]
  split
  · refine List.Perm.filter _ ?_
    rw [perm_ext_iff_of_nodup (nodup_recordOrder d) nodup_range]
    exact fun i => mem_recordOrder.trans mem_range.symm
  · exact .refl _

/-! ## Slots -/

/-- Whether a column has the name of the column that is the rowid. -/
def named (d : TableDef) (i : Nat) : Bool :=
  d.columns[i]?.any fun c => d.aliasName.any fun a => eqIgnoreAsciiCase a c.name

/-- The slot of a column. -/
def slotAt (d : TableDef) (i : Nat) : Slot :=
  if d.stores i = false then .virtual
  else if named d i then
    .rowidAlias (d.writeOrder.idxOf i)
  else .stored (d.writeOrder.idxOf i)

/-- **HANDING OUT POSITIONS**: each column of the order gets its place in it. -/
theorem handOut_eq (order : List Nat) (position : Nat) (slots : List Slot)
    (hsmall : ∀ i ∈ order, i < d.columns.length) (hslots : slots.length = d.columns.length)
    (hnodup : order.Nodup) (h : position + order.length < 2 ^ 64) :
    ∃ out, handOut d order position slots = .ok out ∧ ∀ i, out[i]?
      = if i ∈ order.filter d.stores then
          some (.stored (position + (order.filter d.stores).idxOf i))
        else slots[i]? := by
  induction order generalizing position slots with
  | nil => exact ⟨slots, rfl, fun _ => rfl⟩
  | cons k order ih =>
      obtain ⟨hk, hsmall⟩ := forall_mem_cons.mp hsmall
      obtain ⟨hnew, hnodup⟩ := nodup_cons.mp hnodup
      rw [length_cons] at h
      rw [handOut, nth, getElem?_eq_getElem hk, ok_bind]
      have hstores : d.stores k = !d.columns[k].generated.isVirtual := by
        rw [stores, getElem?_eq_getElem hk]
        rfl
      cases hv : d.columns[k].generated.isVirtual with
      | true =>
          rw [if_pos rfl, filter_cons_of_neg (by rw [hstores, hv]; rintro ⟨⟩)]
          exact ih position slots hsmall hslots hnodup (by omega)
      | false =>
          rw [if_neg (by rintro ⟨⟩), setNth, if_pos (by omega), ok_bind, plus, if_pos (by omega),
            ok_bind]
          obtain ⟨out, hout, hat⟩ := ih (position + 1) (slots.set k (.stored position)) hsmall
            (length_set.trans hslots) hnodup (by omega)
          refine ⟨out, hout, fun i => ?_⟩
          rw [hat, filter_cons_of_pos (by rw [hstores, hv]; rfl)]
          have hk' : k ∉ order.filter d.stores := fun hmem => hnew (mem_of_mem_filter hmem)
          rcases eq_or_ne i k with rfl | hne
          · rw [if_neg hk', if_pos (.head _), idxOf_cons_self,
              getElem?_set_self (by omega)]
            rfl
          · rw [idxOf_cons_ne _ hne.symm, getElem?_set_ne hne.symm, Nat.add_assoc,
              Nat.add_comm 1]
            refine if_congr ?_ rfl rfl
            rw [mem_cons, or_iff_right hne]

/-- **COUNTING POSITIONS** in the order of the declaration. -/
theorem positions_eq (hrowid : d.withoutRowid = false) (hsmall : d.columns.length < 2 ^ 63)
    (columns pre : List ColumnDef) (h : d.columns = pre ++ columns) :
    positions d.aliasName columns ((List.range pre.length).filter d.stores).length
      = .ok ((List.range' pre.length columns.length).map (slotAt d)) := by
  induction columns generalizing pre with
  | nil => rfl
  | cons c columns ih =>
      have hc : d.columns[pre.length]? = some c := by
        rw [h, getElem?_append_right le_rfl, Nat.sub_self]
        rfl
      have hlt := (List.getElem?_eq_some_iff.mp hc).1
      have hstores : d.stores pre.length = !c.generated.isVirtual := by
        rw [stores, hc]
        rfl
      have hrest := ih (pre ++ [c]) (by rw [h, append_assoc, singleton_append])
      rw [length_append, length_singleton, range_succ, filter_append] at hrest
      rw [positions, length_cons, List.range'_succ, map_cons, slotAt, hstores, named, hc]
      cases hv : c.generated.isVirtual with
      | true =>
          rw [filter_cons_of_neg (by rw [hstores, hv]; exact nofun), filter_nil,
            append_nil] at hrest
          rw [if_pos rfl, hrest]
          rfl
      | false =>
          have hle : ((List.range pre.length).filter d.stores).length ≤ pre.length :=
            (length_filter_le ..).trans length_range.le
          have hat : d.writeOrder.idxOf pre.length
              = ((List.range pre.length).filter d.stores).length := by
            rw [writeOrder_eq, hrowid]
            exact idxOf_filter_range d.stores hlt (by rw [hstores, hv]; rfl)
          rw [filter_cons_of_pos (by rw [hstores, hv]; rfl), length_append] at hrest
          rw [if_neg nofun, plus, if_pos (by omega), ok_bind]
          refine (congrArg (· >>= _) hrest).trans ?_
          rw [ok_bind, hat]
          rfl

theorem rowidAlias_eq (d : TableDef) :
    d.rowidAlias = .ok (d.aliasIndex.bind fun i => d.columns[i]?) := by
  unfold rowidAlias aliasIndex
  split
  · rfl
  · next hkey =>
    have hone : d.primaryKey.length = 1 := by
      by_contra hne
      exact hkey (.inr (.inl hne))
    obtain ⟨key, hkeys⟩ := length_eq_one_iff.mp hone
    rw [hkeys]
    refine congrArg Except.ok ?_
    show (d.column key.name).filter _ = ((d.columnIndex key.name).filter _).bind _
    rw [column, columnIndex, find?_eq_bind_findIdx?_getElem?]
    cases List.findIdx? _ d.columns with
    | none => rfl
    | some i =>
        rw [Option.bind_some, Option.filter_some]
        cases hc : d.columns[i]? with
        | none => rfl
        | some c =>
            rw [Option.filter_some, Option.any_some]
            split
            · exact hc.symm
            · rfl

/-- **THE LAYOUT OF A TABLE**. -/
theorem new_eq (h : d.columns.length < 2 ^ 63) :
    new d = .ok ⟨(List.range d.columns.length).map (slotAt d)⟩ := by
  unfold new
  cases hrowid : d.withoutRowid with
  | false =>
      rw [if_neg nofun, rowidAlias_eq, ok_bind]
      have hpositions := positions_eq hrowid h d.columns [] rfl
      rw [length_nil, ← range_eq_range'] at hpositions
      exact (congrArg (· >>= _) hpositions).trans rfl
  | true =>
      have hlen : (recordOrder d).length ≤ d.columns.length := by
        have hsub : recordOrder d ⊆ List.range d.columns.length := fun i hi =>
          mem_range.mpr (mem_recordOrder.mp hi)
        exact (subperm_of_subset (nodup_recordOrder d) hsub).length_le.trans length_range.le
      obtain ⟨out, hout, hat⟩ := handOut_eq (d := d) (recordOrder d) 0
        (List.replicate d.columns.length .virtual) (fun i => mem_recordOrder.mp) length_replicate
        (nodup_recordOrder d) (by omega)
      rw [if_pos rfl, keyed, hout, ok_bind]
      refine congrArg (fun slots => Except.ok (RowLayout.mk slots)) (ext_getElem? fun i => ?_)
      have horder : d.writeOrder = (recordOrder d).filter d.stores := by
        rw [writeOrder_eq, hrowid, if_pos rfl]
      have hnamed : named d i = false := by
        rw [named, aliasName, aliasIndex, if_pos (.inl hrowid)]
        cases d.columns[i]? <;> rfl
      rw [hat, getElem?_map, Nat.zero_add, ← horder]
      by_cases hi : i < d.columns.length
      · have hmem : i ∈ d.writeOrder ↔ d.stores i = true := by
          rw [horder, mem_filter, mem_recordOrder, and_iff_right hi]
        rw [getElem?_range hi, Option.map_some, slotAt, hnamed, getElem?_replicate_of_lt hi]
        cases hs : d.stores i with
        | false => rw [if_neg (by rw [hmem, hs]; exact nofun)]; rfl
        | true => rw [if_pos (hmem.mpr hs)]; rfl
      · rw [if_neg fun hmem => hi (mem_recordOrder.mp (mem_of_mem_filter (horder ▸ hmem))),
          getElem?_eq_none (by simpa using hi), getElem?_eq_none (by simpa using hi)]
        rfl

/-! ## Rows -/

/-- No other column that is stored has the name of the column that is the
    rowid. -/
def AliasAlone (d : TableDef) : Prop :=
  ∀ k a i c, d.aliasIndex = some k → d.columns[k]? = some a → d.columns[i]? = some c →
    c.generated.isVirtual = false → eqIgnoreAsciiCase a.name c.name = true → i = k

/-- How many values a whole record has: `stored_columns`. -/
def storedColumns (layout : RowLayout) : Nat := layout.slots.countP (· ≠ .virtual)

/-- The place a slot names. -/
def Slot.position : Slot → Option Nat
  | .stored position => some position
  | .rowidAlias position => some position
  | .virtual => none

theorem aliasIndex_column {k : Nat} (h : d.aliasIndex = some k) :
    ∃ a, d.columns[k]? = some a := by
  unfold aliasIndex at h
  split at h
  · nomatch h
  · obtain ⟨a, ha, -⟩ := Option.any_eq_true _ _ |>.mp (Option.filter_eq_some_iff.mp h).2
    exact ⟨a, ha⟩

/-- A table whose rowid is a column has rowids. -/
theorem withoutRowid_of_alias {k : Nat} (h : d.aliasIndex = some k) : d.withoutRowid = false := by
  by_contra hne
  rw [aliasIndex, if_pos (.inl (Bool.not_eq_false _ ▸ hne))] at h
  nomatch h

theorem named_iff : named d i = true ↔ ∃ k a c, d.aliasIndex = some k ∧ d.columns[k]? = some a
    ∧ d.columns[i]? = some c ∧ eqIgnoreAsciiCase a.name c.name = true := by
  simp only [named, aliasName, Option.any_eq_true, Option.map_eq_some_iff,
    Option.bind_eq_some_iff]
  constructor
  · rintro ⟨c, hc, -, ⟨a, ⟨k, hk, ha⟩, rfl⟩, hname⟩
    exact ⟨k, a, c, hk, ha, hc, hname⟩
  · rintro ⟨k, a, c, hk, ha, hc, hname⟩
    exact ⟨c, hc, _, ⟨a, ⟨k, hk, ha⟩, rfl⟩, hname⟩

theorem stores_iff : d.stores i = true ↔
    ∃ c, d.columns[i]? = some c ∧ c.generated.isVirtual = false := by
  simp only [stores, Option.any_eq_true, Bool.not_eq_true']

theorem aliasAlone_iff : AliasAlone d ↔
    ∀ i, d.stores i = true → named d i = true → d.aliasIndex = some i := by
  constructor
  · intro halone i hs hn
    obtain ⟨c, hc, hv⟩ := stores_iff.mp hs
    obtain ⟨k, a, c', hk, ha, hc', hname⟩ := named_iff.mp hn
    obtain rfl := Option.some.inj (hc.symm.trans hc')
    rw [halone k a i c hk ha hc hv hname]
    exact hk
  · intro h k a i c hk ha hc hv hname
    have hi := h i (stores_iff.mpr ⟨c, hc, hv⟩) (named_iff.mpr ⟨k, a, c, hk, ha, hc, hname⟩)
    exact Option.some.inj (hi.symm.trans hk)

theorem named_alias (h : d.aliasIndex = some i) : named d i = true := by
  obtain ⟨a, ha⟩ := aliasIndex_column h
  exact named_iff.mpr ⟨i, a, a, h, ha, ha, beq_self_eq_true _⟩

/-- The place of a column that is stored. -/
theorem getElem?_writeOrder (hi : i < d.columns.length) (hs : d.stores i = true) :
    d.writeOrder[d.writeOrder.idxOf i]? = some i := by
  have hmem : i ∈ d.writeOrder :=
    (writeOrder_perm d).mem_iff.mpr (mem_filter.mpr ⟨mem_range.mpr hi, hs⟩)
  exact getElem?_idxOf hmem

/-- A column with the name of the one that is the rowid reads the rowid. -/
theorem cell_named (value : Nat → SqliteValue) (rowid : Int) (count : Nat)
    (hi : i < d.columns.length) (hs : d.stores i = true) (hn : named d i = true) :
    cell ⟨(List.range d.columns.length).map (slotAt d)⟩ (d.written value rowid count) i
      = .rowid rowid := by
  obtain ⟨k, -, -, hk, -⟩ := named_iff.mp hn
  rw [cell, getElem?_map, getElem?_range hi, Option.map_some, slotAt, hs, if_neg nofun, hn,
    if_pos rfl]
  dsimp only
  rw [written, withoutRowid_of_alias hk]
  rfl

/-- A row reads back at a column that is not mistaken for the rowid. -/
theorem cell_written (value : Nat → SqliteValue) (rowid : Int) (count : Nat)
    (hi : i < d.columns.length)
    (halone : d.stores i = true → named d i = true → d.aliasIndex = some i) :
    cell ⟨(List.range d.columns.length).map (slotAt d)⟩ (d.written value rowid count) i
      = d.holds value rowid count i := by
  cases hs : d.stores i with
  | false =>
      rw [cell, getElem?_map, getElem?_range hi, Option.map_some, slotAt, holds, hs]
      rfl
  | true =>
      rw [holds, hs, if_neg nofun]
      by_cases ha : d.aliasIndex = some i
      · rw [cell_named value rowid count hi hs (named_alias ha), if_pos ha]
      · rw [cell, getElem?_map, getElem?_range hi, Option.map_some, slotAt, hs, if_neg nofun,
          if_neg fun h => ha (halone hs h), if_neg ha]
        dsimp only
        rw [stored, written]
        dsimp only
        rw [getElem?_take, getElem?_map, getElem?_writeOrder hi hs, Option.map_some, if_neg ha]
        by_cases hcut : d.writeOrder.idxOf i < count
        · rw [if_pos hcut, if_pos hcut]
        · rw [if_neg hcut, if_neg hcut]

/-- The places of the columns are those of the record. -/
theorem positions_perm (d : TableDef) :
    (((List.range d.columns.length).map (slotAt d)).filterMap Slot.position).Perm
      (List.range (storedColumns ⟨(List.range d.columns.length).map (slotAt d)⟩)) := by
  have hplaces : ((List.range d.columns.length).map (slotAt d)).filterMap Slot.position
      = ((List.range d.columns.length).filter d.stores).map d.writeOrder.idxOf := by
    rw [filterMap_map, ← filterMap_eq_filter, map_filterMap]
    refine filterMap_congr fun i _ => ?_
    rw [Function.comp_apply, slotAt]
    cases hs : d.stores i <;> cases named d i <;> simp [Option.guard, hs, Slot.position]
  have hcount : storedColumns ⟨(List.range d.columns.length).map (slotAt d)⟩
      = d.writeOrder.length := by
    rw [storedColumns, countP_map, (writeOrder_perm d).length_eq, ← countP_eq_length_filter]
    refine countP_congr fun i _ => ?_
    rw [Function.comp_apply, slotAt]
    cases d.stores i <;> cases named d i <;> simp
  rw [hplaces, hcount, ← map_idxOf_self ((writeOrder_perm d).nodup_iff.mpr (nodup_range.filter _))]
  exact (writeOrder_perm d).symm.map _

/-- **A LAYOUT INVERTS THE RECORD**: of a row as SQLite writes it, whole or cut
    short, each column gets what it holds, and the columns that are stored have
    the places of the record to themselves.  This is so exactly where no other
    stored column has the name of the column that is the rowid, for the layout
    tells that column by its name. -/
theorem layout_inverts_record_iff (h : d.columns.length < 2 ^ 63) :
    (∃ layout, new d = .ok layout
      ∧ (∀ value rowid count, ∀ i < d.columns.length,
          layout.cell (d.written value rowid count) i = d.holds value rowid count i)
      ∧ (layout.slots.filterMap Slot.position).Perm (List.range layout.storedColumns))
    ↔ AliasAlone d := by
  rw [aliasAlone_iff]
  constructor
  · rintro ⟨layout, hnew, hcells, -⟩ i hs hn
    obtain rfl := Except.ok.inj ((new_eq h).symm.trans hnew)
    obtain ⟨c, hc, -⟩ := stores_iff.mp hs
    have hi := (List.getElem?_eq_some_iff.mp hc).1
    -- the cell is the rowid, and of the columns that are stored only one holds it
    have hread := (cell_named (fun _ => .null) 0 0 hi hs hn).symm.trans (hcells _ 0 0 i hi)
    rw [holds, hs, if_neg nofun] at hread
    by_contra hne
    rw [if_neg hne, if_neg (Nat.not_lt_zero _)] at hread
    nomatch hread
  · intro halone
    exact ⟨_, new_eq h, fun value rowid count i hi =>
      cell_written value rowid count hi (halone i), positions_perm d⟩

/-- A key, a column computed on reading that has its name, and two more. -/
def fourColumns : TableDef :=
  ⟨"t", [⟨"a", some "integer", false, none, .no⟩, ⟨"A", none, false, none, .virtual⟩,
    ⟨"b", some "text", false, none, .no⟩, ⟨"c", none, false, none, .no⟩], [⟨"A", false⟩],
    false, false, [], false⟩

/-- In a row from before the last column was added that one is missing; the
    virtual column may share the name of the key. -/
theorem layout_inverts_record_iff_four : ∃ layout, new fourColumns = .ok layout
    ∧ (∀ value rowid, layout.cell (fourColumns.written value rowid 2) 0 = .rowid rowid
      ∧ layout.cell (fourColumns.written value rowid 2) 1 = .virtual
      ∧ layout.cell (fourColumns.written value rowid 2) 2 = .value (value 2)
      ∧ layout.cell (fourColumns.written value rowid 2) 3 = .missing)
    ∧ (layout.slots.filterMap Slot.position).Perm (List.range layout.storedColumns) := by
  have halone : AliasAlone fourColumns := by
    rw [aliasAlone_iff]
    intro i hs hn
    have hi : i < 4 := by
      by_contra hge
      rw [stores, getElem?_eq_none (by simpa [fourColumns] using hge)] at hs
      nomatch hs
    revert hs hn
    interval_cases i <;> decide
  obtain ⟨layout, hnew, hcells, hperm⟩ :=
    (layout_inverts_record_iff (show fourColumns.columns.length < 2 ^ 63 by decide)).mpr halone
  refine ⟨layout, hnew, fun value rowid => ?_, hperm⟩
  exact ⟨hcells value rowid 2 0 (by decide), hcells value rowid 2 1 (by decide),
    hcells value rowid 2 2 (by decide), hcells value rowid 2 3 (by decide)⟩

/-- A stored column whose name differs from the key's in case only is taken for
    the rowid. -/
theorem same_name_reads_rowid : ∃ d layout, new d = .ok layout
    ∧ d.columns.map ColumnDef.name = ["a", "A"]
    ∧ layout.cell (d.written (fun _ => .integer 5) 7 2) 1 = .rowid 7
    ∧ d.holds (fun _ => .integer 5) 7 2 1 = .value (.integer 5) :=
  ⟨⟨"t", [⟨"a", some "integer", false, none, .no⟩, ⟨"A", none, false, none, .no⟩], [⟨"A", false⟩],
      false, false, [], false⟩,
    ⟨[.rowidAlias 0, .rowidAlias 1]⟩, rfl, rfl, by decide, by decide⟩

end RowLayout

end QuantySqlite
