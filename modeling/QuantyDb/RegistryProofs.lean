import QuantyDb.WorkerModel

/-! # The slots of a worker

    A registry hands out each vacant slot once.  That the index of a slot fits
    its 32 bits rests on the kernel: a registry only grows when every slot is
    occupied, and as many descriptors are open as slots are occupied. -/

namespace QuantyWorker

open QuantyConn List Token Registry

/-! ## Tokens -/

variable {t : Token} {r r' : Registry} {c : Connection} {socket : Fd}

namespace Token

theorem toNat_new (i g : UInt32) : (new i g).bits.toNat = g.toNat * 2 ^ 32 + i.toNat := by
  have hi := i.toNat_lt
  have hg := g.toNat_lt
  have hshift : (g.toUInt64 <<< 32).toNat = g.toNat <<< 32 := by
    rw [UInt64.toNat_shiftLeft]
    simp [Nat.shiftLeft_eq]
    omega
  rw [new, UInt64.toNat_or, hshift, UInt32.toNat_toUInt64, ← Nat.shiftLeft_add_eq_or_of_lt hi,
    Nat.shiftLeft_eq]

theorem toNat_index (t : Token) : t.index.toNat = t.bits.toNat % 2 ^ 32 := by
  rw [index, UInt64.toNat_toUInt32]

theorem toNat_generation (t : Token) : t.generation.toNat = t.bits.toNat / 2 ^ 32 := by
  have h := t.bits.toNat_lt
  rw [generation, UInt64.toNat_toUInt32, UInt64.toNat_shiftRight]
  simp [Nat.shiftRight_eq_div_pow]
  omega

@[simp] theorem index_new (i g : UInt32) : (new i g).index = i := by
  apply UInt32.toNat_inj.mp
  have hi := i.toNat_lt
  rw [toNat_index, toNat_new]
  omega

@[simp] theorem generation_new (i g : UInt32) : (new i g).generation = g := by
  apply UInt32.toNat_inj.mp
  have hi := i.toNat_lt
  rw [toNat_generation, toNat_new]
  omega

/-- A token is its slot and its generation. -/
theorem eq_iff {u : Token} : t = u ↔ t.index = u.index ∧ t.generation = u.generation := by
  constructor
  · rintro rfl
    exact ⟨rfl, rfl⟩
  · rintro ⟨hi, hg⟩
    have hi' : t.bits.toNat % 2 ^ 32 = u.bits.toNat % 2 ^ 32 := by
      rw [← toNat_index, hi, toNat_index]
    have hg' : t.bits.toNat / 2 ^ 32 = u.bits.toNat / 2 ^ 32 := by
      rw [← toNat_generation, hg, toNat_generation]
    have hbits : t.bits = u.bits := UInt64.toNat_inj.mp (by omega)
    cases t
    cases u
    exact congrArg Token.mk hbits

end Token

/-! ## What the operations do to the slots -/

namespace Registry

/-- A token resolves when its slot is occupied in its generation. -/
theorem get_eq_some : r.get t = some c ↔ r.slots[t.index.toNat]? = some ⟨t.generation, some c⟩ := by
  rw [get]
  cases hs : r.slots[t.index.toNat]? with
  | none => exact ⟨nofun, nofun⟩
  | some s =>
      obtain ⟨g, k⟩ := s
      dsimp only
      by_cases hg : g = t.generation
      · rw [if_neg (not_not_intro hg), hg]
        exact ⟨fun h => by rw [h], fun h => (Slot.mk.inj (Option.some.inj h)).2⟩
      · rw [if_pos hg]
        exact ⟨nofun, fun h => absurd (Slot.mk.inj (Option.some.inj h)).1 hg⟩

/-- Two tokens of one slot do not both resolve. -/
theorem get_index_eq {u : Token} (h : r.get t = some c) (hi : u.index = t.index) (hne : u ≠ t) :
    r.get u = none := by
  cases hu : r.get u with
  | none => rfl
  | some d =>
      rw [get_eq_some] at h hu
      rw [hi, h] at hu
      have hg := (Slot.mk.inj (Option.some.inj hu)).1
      exact absurd (eq_iff.mpr ⟨hi, hg.symm⟩) hne

theorem put_slots (h : r.get t = some c) (c' : Connection) :
    r.put t c' = { r with slots := r.slots.set t.index.toNat ⟨t.generation, some c'⟩ } := by
  rw [put, get_eq_some.mp h]

theorem remove_slots (h : r.get t = some c) : r.remove t = some (c, {
      slots := r.slots.set t.index.toNat ⟨t.generation + 1, none⟩
      free := t.index :: r.free
      live := r.live - 1 }) := by
  rw [remove, get_eq_some.mp h]
  dsimp only
  rw [if_neg (not_not_intro rfl)]

theorem remove_none (h : r.get t = none) : r.remove t = none := by
  cases hr : r.remove t with
  | none => rfl
  | some p =>
      rw [remove] at hr
      rw [get] at h
      cases hs : r.slots[t.index.toNat]? with
      | none => rw [hs] at hr; nomatch hr
      | some s =>
          rw [hs] at hr h
          dsimp only at hr h
          by_cases hg : s.generation ≠ t.generation
          · rw [if_pos hg] at hr
            nomatch hr
          · rw [if_neg hg] at hr h
            rw [h] at hr
            nomatch hr

/-- What every token resolves to after the slot of one that did was changed. -/
theorem get_set {s : Slot} (h : r.get t = some c) (hslots : r'.slots = r.slots.set t.index.toNat s)
    (hs : s.conn = none ∨ s.generation = t.generation) (u : Token) :
    r'.get u = if u = t then (if s.generation = t.generation then s.conn else none)
      else r.get u := by
  have hlt : t.index.toNat < r.slots.length := (List.getElem?_eq_some_iff.mp (get_eq_some.mp h)).1
  by_cases hu : u = t
  · subst hu
    rw [if_pos rfl, get, hslots, getElem?_set_self hlt]
    dsimp only
    by_cases hg : s.generation = u.generation
    · rw [if_neg (not_not_intro hg), if_pos hg]
    · rw [if_pos hg, if_neg hg]
  · rw [if_neg hu]
    by_cases hi : u.index = t.index
    · rw [get_index_eq h hi hu, get, hslots, hi, getElem?_set_self hlt]
      dsimp only
      by_cases hg : s.generation = u.generation
      · rcases hs with hnone | hsame
        · rw [hnone]
          exact ite_self _
        · exact absurd (eq_iff.mpr ⟨hi, hg.symm.trans hsame⟩) hu
      · rw [if_pos hg]
    · have hne : t.index.toNat ≠ u.index.toNat := fun heq => hi (UInt32.toNat_inj.mp heq.symm)
      rw [get, get, hslots, getElem?_set_ne hne]

theorem get_put (h : r.get t = some c) (c' : Connection) (u : Token) :
    (r.put t c').get u = if u = t then some c' else r.get u := by
  have hslots : (r.put t c').slots = r.slots.set t.index.toNat ⟨t.generation, some c'⟩ := by
    rw [put_slots h]
  rw [get_set h hslots (.inr rfl), if_pos rfl]

theorem get_remove (h : r.get t = some c) (hr : r.remove t = some (c, r')) (u : Token) :
    r'.get u = if u = t then none else r.get u := by
  have hslots : r'.slots = r.slots.set t.index.toNat ⟨t.generation + 1, none⟩ := by
    rw [remove_slots h] at hr
    rw [← (Prod.mk.inj (Option.some.inj hr)).2]
  rw [get_set h hslots (.inl rfl), ite_self]

/-- A change before a removal leaves no trace. -/
theorem remove_put (h : r.get t = some c) (c' : Connection) :
    ∃ r', r.remove t = some (c, r') ∧ (r.put t c').remove t = some (c', r') := by
  have h' : (r.put t c').get t = some c' := by rw [get_put h, if_pos rfl]
  refine ⟨_, remove_slots h, ?_⟩
  rw [remove_slots h', put_slots h]
  dsimp only
  rw [set_set]

theorem put_put (h : r.get t = some c) (c' c'' : Connection) :
    (r.put t c').put t c'' = r.put t c'' := by
  have h' : (r.put t c').get t = some c' := by rw [get_put h, if_pos rfl]
  rw [put_slots h', put_slots h, put_slots h]
  dsimp only
  rw [set_set]

/-! ## Consistency -/

/-- The free list holds each vacant slot once and no other, `live` counts the
    occupied ones, and no two connections share a descriptor. -/
structure Consistent (r : Registry) : Prop where
  free_nodup : r.free.Nodup
  free_iff : ∀ i : UInt32, i ∈ r.free ↔ ∃ s, r.slots[i.toNat]? = some s ∧ s.conn = none
  live_eq : r.live = r.connections.length
  bound : r.slots.length ≤ 2 ^ 31
  sockets : (r.connections.map (·.socket)).Nodup

theorem Consistent.empty : empty.Consistent where
  free_nodup := nodup_nil
  free_iff _ := ⟨(fun h => absurd h not_mem_nil), fun ⟨_, h, _⟩ => nomatch h⟩
  live_eq := rfl
  bound := Nat.zero_le _
  sockets := nodup_nil

/-- The connections around one slot. -/
theorem connections_set {l : List Slot} {i : Nat} {s : Slot} (h : l[i]? = some s) (s' : Slot) :
    ∃ a b, l.filterMap (·.conn) = a ++ s.conn.toList ++ b ∧
      (l.set i s').filterMap (·.conn) = a ++ s'.conn.toList ++ b := by
  obtain ⟨hlt, hget⟩ := List.getElem?_eq_some_iff.mp h
  have hcons : ∀ (x : Slot) (m : List Slot),
      (x :: m).filterMap (·.conn) = x.conn.toList ++ m.filterMap (·.conn) := by
    intro x m
    cases hx : x.conn with
    | none => rw [filterMap_cons_none hx]; rfl
    | some c => rw [filterMap_cons_some hx]; rfl
  refine ⟨(l.take i).filterMap (·.conn), (l.drop (i + 1)).filterMap (·.conn), ?_, ?_⟩
  · conv => lhs; rw [← take_append_drop i l, drop_eq_getElem_cons hlt, hget]
    rw [filterMap_append, hcons, append_assoc]
  · rw [set_eq_take_append_cons_drop, if_pos hlt, filterMap_append, hcons, append_assoc]

theorem Consistent.put (h : r.Consistent) {c' : Connection} (hget : r.get t = some c)
    (hsocket : c'.socket = c.socket) : (r.put t c').Consistent := by
  have hslot := get_eq_some.mp hget
  have hlt := (List.getElem?_eq_some_iff.mp hslot).1
  obtain ⟨a, b, hold, hnew⟩ := connections_set hslot ⟨t.generation, some c'⟩
  have hconn : r.connections = a ++ [c] ++ b := hold
  have hconn' : (r.put t c').connections = a ++ [c'] ++ b := by
    rw [put_slots hget]
    exact hnew
  rw [put_slots hget] at hconn' ⊢
  refine ⟨h.free_nodup, fun i => (h.free_iff i).trans ?_, ?_, ?_, ?_⟩
  · -- the slot was occupied and still is
    dsimp only
    by_cases hi : t.index.toNat = i.toNat
    · rw [← hi, hslot, List.getElem?_set_self hlt]
      constructor <;> rintro ⟨s, hs, hnone⟩ <;> cases hs <;> nomatch hnone
    · rw [List.getElem?_set_ne hi]
  · rw [hconn']
    exact h.live_eq.trans (by rw [hconn]; simp)
  · show (r.slots.set _ _).length ≤ _
    rw [List.length_set]
    exact h.bound
  · rw [hconn']
    have hs := h.sockets
    rw [hconn] at hs
    simpa [hsocket] using hs

theorem Consistent.remove (h : r.Consistent) (hget : r.get t = some c)
    (hr : r.remove t = some (c, r')) : r'.Consistent := by
  have hslot := get_eq_some.mp hget
  have hlt := (List.getElem?_eq_some_iff.mp hslot).1
  obtain ⟨a, b, hold, hnew⟩ := connections_set hslot ⟨t.generation + 1, none⟩
  have hconn : r.connections = a ++ [c] ++ b := hold
  rw [remove_slots hget] at hr
  obtain ⟨-, rfl⟩ := Prod.mk.inj (Option.some.inj hr)
  have hconn' : connections ⟨r.slots.set t.index.toNat ⟨t.generation + 1, none⟩,
      t.index :: r.free, r.live - 1⟩ = a ++ b := by
    have := hnew
    rw [Option.toList_none, List.append_nil] at this
    exact this
  have hbusy : t.index ∉ r.free := by
    intro hmem
    obtain ⟨s, hs, hnone⟩ := (h.free_iff _).mp hmem
    rw [hslot] at hs
    cases hs
    nomatch hnone
  refine ⟨List.nodup_cons.mpr ⟨hbusy, h.free_nodup⟩, fun i => ?_, ?_, ?_, ?_⟩
  · rw [List.mem_cons]
    dsimp only
    by_cases hi : i = t.index
    · rw [hi, List.getElem?_set_self hlt]
      exact iff_of_true (.inl rfl) ⟨_, rfl, rfl⟩
    · have hne : t.index.toNat ≠ i.toNat := fun heq => hi (UInt32.toNat_inj.mp heq.symm)
      rw [List.getElem?_set_ne hne, ← h.free_iff]
      exact or_iff_right hi
  · rw [hconn']
    show r.live - 1 = _
    rw [h.live_eq, hconn]
    simp
  · show (r.slots.set _ _).length ≤ _
    rw [List.length_set]
    exact h.bound
  · rw [hconn']
    have hs := h.sockets
    rw [hconn] at hs
    simp only [List.append_assoc, List.map_append] at hs ⊢
    exact hs.sublist (List.Sublist.append_left (List.sublist_append_right _ _) _)

/-! ## Handing out a slot -/

/-- The connection that `insert` puts into a slot. -/
def fresh (socket : Fd) (id : UInt64) (i generation : UInt32) : Connection :=
  ⟨socket, new i generation, id, .new, .READABLE⟩

/-- A registry in which every slot is occupied has room for one more, since a
    descriptor is left. -/
theorem Consistent.room (h : r.Consistent) (hfree : r.free = [])
    (hsocket : socket ∉ r.connections.map (·.socket)) : r.slots.length < 2 ^ 31 := by
  have hall : ∀ s ∈ r.slots, s.conn.isSome := by
    intro s hs
    obtain ⟨i, hi⟩ := mem_iff_getElem?.mp hs
    have hlt := (List.getElem?_eq_some_iff.mp hi).1
    have hnat : (UInt32.ofNat i).toNat = i := by
      rw [UInt32.toNat_ofNat']
      have := h.bound
      omega
    cases hconn : s.conn with
    | some c => rfl
    | none =>
        have hmem := (h.free_iff (UInt32.ofNat i)).mpr ⟨s, by rw [hnat]; exact hi, hconn⟩
        rw [hfree] at hmem
        exact absurd hmem not_mem_nil
  have hlen : r.connections.length = r.slots.length := by
    rw [connections, length_filterMap_eq_countP, countP_eq_length]
    exact hall
  have hnodup : (socket :: r.connections.map (·.socket)).Nodup :=
    nodup_cons.mpr ⟨hsocket, h.sockets⟩
  have hcard := hnodup.length_le_card
  rw [Fintype.card_fin, length_cons, length_map, hlen] at hcard
  omega

/-- A slot that was taken off the free list, or made, and not given away yet. -/
structure Claimed (r p : Registry) (i : UInt32) (g : UInt32) : Prop where
  slot : p.slots[i.toNat]? = some ⟨g, none⟩
  before : r.slots[i.toNat]? = some ⟨g, none⟩ ∨ (r.slots[i.toNat]? = none ∧ g = 0)
  others : ∀ j, j ≠ i.toNat → p.slots[j]? = r.slots[j]?
  free_nodup : (i :: p.free).Nodup
  free_iff : ∀ j : UInt32, j ∈ i :: p.free ↔ ∃ s, p.slots[j.toNat]? = some s ∧ s.conn = none
  connections : p.connections = r.connections
  live : p.live = r.live
  bound : p.slots.length ≤ 2 ^ 31

theorem Consistent.claim (h : r.Consistent) (hsocket : socket ∉ r.connections.map (·.socket)) :
    ∃ g, Claimed r r.claim.2 r.claim.1 g := by
  cases hfree : r.free with
  | cons i rest =>
      have hclaim : r.claim = (i, { r with free := rest }) := by rw [Registry.claim, hfree]
      obtain ⟨⟨g, k⟩, hs, hnone⟩ := (h.free_iff i).mp (hfree ▸ (.head _))
      cases hnone
      rw [hclaim]
      exact ⟨g, hs, .inl hs, fun _ _ => rfl, hfree ▸ h.free_nodup,
        fun j => hfree ▸ h.free_iff j, rfl, rfl, h.bound⟩
  | nil =>
      have hroom := h.room hfree hsocket
      have hnat : (UInt32.ofNat r.slots.length).toNat = r.slots.length := by
        rw [UInt32.toNat_ofNat']
        omega
      have hclaim : r.claim = (UInt32.ofNat r.slots.length,
          { r with slots := r.slots ++ [⟨0, none⟩] }) := by
        rw [Registry.claim, hfree]
      have hlast : (r.slots ++ [⟨0, none⟩])[(UInt32.ofNat r.slots.length).toNat]?
          = some (⟨0, none⟩ : Slot) := by
        rw [hnat, getElem?_concat_length]
      have hothers : ∀ j, j ≠ (UInt32.ofNat r.slots.length).toNat →
          (r.slots ++ [(⟨0, none⟩ : Slot)])[j]? = r.slots[j]? := by
        intro j hj
        rw [hnat] at hj
        rcases Nat.lt_or_gt_of_ne hj with hlt | hgt
        · rw [getElem?_append_left hlt]
        · rw [getElem?_eq_none (by simp; omega), getElem?_eq_none (by omega)]
      rw [hclaim]
      refine ⟨0, hlast, .inr ⟨?_, rfl⟩, hothers, ?_, fun j => ?_, ?_, rfl, ?_⟩
      · rw [hnat]
        exact getElem?_eq_none (Nat.le_refl _)
      · rw [hfree]
        exact nodup_singleton _
      · dsimp only
        rw [hfree, mem_singleton]
        by_cases hj : j = UInt32.ofNat r.slots.length
        · rw [hj, hlast]
          exact iff_of_true rfl ⟨_, rfl, rfl⟩
        · rw [hothers _ (fun heq => hj (UInt32.toNat_inj.mp heq)), ← h.free_iff, hfree]
          exact iff_of_false hj not_mem_nil
      · rw [connections, filterMap_append]
        exact append_nil _
      · show (r.slots ++ [_]).length ≤ _
        rw [length_append]
        exact hroom

/-- **A CONNECTION GETS A VACANT SLOT**: the index is in bounds, every other
    slot is left alone, and the registry stays consistent. -/
theorem Consistent.insert (h : r.Consistent) (id : UInt64)
    (hsocket : socket ∉ r.connections.map (·.socket)) :
    ∃ g r', r.insert socket id = some (new r.claim.1 (g + 1), r') ∧
      (r.slots[r.claim.1.toNat]? = some ⟨g, none⟩ ∨ (r.slots[r.claim.1.toNat]? = none ∧ g = 0)) ∧
      (∀ j, r'.slots[j]? = if j = r.claim.1.toNat
        then some ⟨g + 1, some (fresh socket id r.claim.1 (g + 1))⟩ else r.slots[j]?) ∧
      r'.Consistent := by
  obtain ⟨g, hc⟩ := h.claim hsocket
  cases hclaim : r.claim with
  | mk i p =>
      rw [hclaim] at hc
      obtain ⟨hlt, -⟩ := List.getElem?_eq_some_iff.mp hc.slot
      obtain ⟨a, b, hold, hnew⟩ := connections_set hc.slot ⟨g + 1, some (fresh socket id i (g + 1))⟩
      have hconn : r.connections = a ++ b := by
        have := hold
        rw [Option.toList_none, append_nil] at this
        rw [← hc.connections]
        exact this
      obtain ⟨hbusy, hnodup⟩ := nodup_cons.mp hc.free_nodup
      refine ⟨g, { p with
        live := p.live + 1, slots :=
          p.slots.set i.toNat ⟨g + 1, some (fresh socket id i (g + 1))⟩ },
        ?_, hc.before, fun j => ?_, hnodup, fun j => ?_, ?_, ?_, ?_⟩
      · rw [Registry.insert, hclaim]
        dsimp only
        rw [hc.slot]
        rfl
      · dsimp only
        by_cases hj : j = i.toNat
        · rw [if_pos hj, hj, getElem?_set_self hlt]
        · rw [if_neg hj, getElem?_set_ne (Ne.symm hj), hc.others j hj]
      · dsimp only
        by_cases hj : j = i
        · rw [hj, getElem?_set_self hlt]
          refine iff_of_false hbusy ?_
          rintro ⟨s, hs, hnone⟩
          cases hs
          nomatch hnone
        · have hne : i.toNat ≠ j.toNat := fun heq => hj (UInt32.toNat_inj.mp heq.symm)
          rw [getElem?_set_ne hne, ← hc.free_iff, mem_cons]
          exact (or_iff_right hj).symm
      · show p.live + 1 = (List.filterMap _ _).length
        rw [hnew, hc.live, h.live_eq, hconn]
        simp
        omega
      · show (p.slots.set _ _).length ≤ _
        rw [length_set]
        exact hc.bound
      · show ((List.filterMap _ _).map _).Nodup
        have hperm : ((a ++ [fresh socket id i (g + 1)] ++ b).map (·.socket)).Perm
            (socket :: (a ++ b).map (·.socket)) := by
          simp only [map_append, append_assoc]
          exact perm_middle
        rw [hnew, Option.toList_some, hperm.nodup_iff, nodup_cons, ← hconn]
        exact ⟨hsocket, h.sockets⟩

/-- What every token resolves to after a connection was put into a vacant slot. -/
theorem get_insert {i g : UInt32}
    (hbefore : r.slots[i.toNat]? = some ⟨g, none⟩ ∨ (r.slots[i.toNat]? = none ∧ g = 0))
    (hslots : ∀ j, r'.slots[j]? = if j = i.toNat then some ⟨g + 1, some c⟩ else r.slots[j]?)
    (u : Token) : r'.get u = if u = new i (g + 1) then some c else r.get u := by
  by_cases hi : u.index = i
  · have hvacant : r.get u = none := by
      rw [get, hi]
      rcases hbefore with hs | ⟨hs, -⟩
      · rw [hs]
        exact ite_self _
      · rw [hs]
    have hslot : r'.slots[u.index.toNat]? = some ⟨g + 1, some c⟩ := by rw [hslots, hi, if_pos rfl]
    rw [hvacant, get, hslot]
    dsimp only
    by_cases hg : g + 1 = u.generation
    · rw [if_neg (not_not_intro hg),
        if_pos (eq_iff.mpr ⟨by simpa using hi, by simpa using hg.symm⟩)]
    · rw [if_pos hg, if_neg]
      rintro rfl
      exact hg (by simp)
  · have hne : u ≠ new i (g + 1) := by
      rintro rfl
      exact hi (by simp)
    have hslot : r'.slots[u.index.toNat]? = r.slots[u.index.toNat]? := by
      rw [hslots, if_neg (fun heq => hi (UInt32.toNat_inj.mp heq))]
    rw [if_neg hne, get, get, hslot]

end Registry

end QuantyWorker
