import QuantyDb.CacheModel
import QuantyDb.RetryProofs
import QuantyDb.NodeCodecProofs

/-! # The page cache is transparent

    `Coherent` says that map and ring are two views of one thing: an id maps to
    a slot exactly when the slot is that id's.  Every call keeps it, none
    panics, and an insertion changes what the cache holds in one way only: the
    inserted page is there, and every other page is as before or gone
    (`insert_spec`).

    A handle with this cache is then a handle whose cache may give pages up at
    any time, of which it is known that it serves its meta.  What is left to
    say is which bytes those are: the ones last committed under the id. -/

namespace QuantyCache

open QuantyKey QuantyPage List AssocList Option PageCache

/-! ## The ring and its map -/

variable {capacity hand i now ps : Nat} {s : Slot}

section Ring

variable {c : PageCache} {id : PageId} {buf : Bytes}

/-- **MAP AND SLOTS ARE IN BIJECTION**, the ring is no longer than it may be,
    and the hand points into it. -/
structure Coherent (c : PageCache) : Prop where
  bijection : ∀ id i, AssocList.get id c.map = some i ↔ (c.slots[i]?).map Slot.id = some id
  bound : c.slots.length ≤ c.capacity
  hand : c.hand = 0 ∨ c.hand < c.slots.length
  room : 0 < c.capacity

/-- What the cache has for a page. -/
def PageCache.holds (c : PageCache) (id : PageId) : Option Bytes :=
  (AssocList.get id c.map).bind fun i => (c.slots[i]?).map Slot.buf

theorem coherent_new (capacity : Nat) : Coherent (.new capacity) :=
  ⟨fun _ _ => ⟨(nomatch ·), (nomatch ·)⟩, Nat.zero_le _, .inl rfl,
    lt_of_lt_of_le (by decide) (Nat.le_max_right capacity 8)⟩

/-- No id is in two slots. -/
theorem Coherent.once (h : Coherent c) {j : Nat} {s' : Slot} (hi : c.slots[i]? = some s)
    (hj : c.slots[j]? = some s') (hid : s.id = s'.id) : i = j := by
  have hs : AssocList.get s.id c.map = some i := (h.bijection _ _).mpr (by rw [hi]; rfl)
  have hs' : AssocList.get s.id c.map = some j := (h.bijection _ _).mpr (by rw [hj, hid]; rfl)
  exact Option.some.inj (hs.symm.trans hs')

theorem Coherent.slot (h : Coherent c) (hget : AssocList.get id c.map = some i) :
    ∃ s, c.slots[i]? = some s ∧ s.id = id :=
  map_eq_some_iff.mp ((h.bijection id i).mp hget)

/-- A slot is written over, its id staying the same. -/
theorem Coherent.rewrite (h : Coherent c) (s' : Slot) (hi : c.slots[i]? = some s)
    (hid : s'.id = s.id) (hhand : hand = 0 ∨ hand < c.slots.length) :
    Coherent { c with slots := c.slots.set i s', hand := hand }
      ∧ ∀ x, holds { c with slots := c.slots.set i s', hand := hand } x
        = if x = s.id then some s'.buf else c.holds x := by
  have hlt : i < c.slots.length := (List.getElem?_eq_some_iff.mp hi).1
  have hslots : ∀ j : Nat, ((c.slots.set i s')[j]?).map Slot.id = (c.slots[j]?).map Slot.id := by
    intro j
    rw [getElem?_set]
    by_cases hij : i = j
    · subst hij
      rw [if_pos rfl, if_pos hlt, hi]
      exact congrArg some hid
    · rw [if_neg hij]
  refine ⟨⟨fun x j => ?_, ?_, ?_, h.room⟩, fun x => ?_⟩
  · rw [hslots]
    exact h.bijection x j
  · rw [length_set]
    exact h.bound
  · rw [length_set]
    exact hhand
  · have hs : AssocList.get s.id c.map = some i := (h.bijection _ _).mpr (by rw [hi]; rfl)
    simp only [holds]
    by_cases hx : x = s.id
    · subst hx
      rw [if_pos rfl, hs, bind_some, getElem?_set, if_pos rfl, if_pos hlt]
      rfl
    · rw [if_neg hx]
      cases hget : AssocList.get x c.map with
      | none => rfl
      | some j =>
          obtain ⟨s₁, hj, hs₁⟩ := h.slot hget
          have hij : i ≠ j := by
            rintro rfl
            rw [hi] at hj
            cases hj
            exact hx hs₁.symm
          rw [bind_some, bind_some, getElem?_set, if_neg hij]

theorem get_spec (h : Coherent c) (id : PageId) :
    ∃ c', c.get id = .ok (c.holds id, c') ∧ Coherent c' ∧ c'.capacity = c.capacity
      ∧ c'.holds = c.holds := by
  rw [PageCache.get, holds]
  cases hget : AssocList.get id c.map with
  | none => exact ⟨c, rfl, h, rfl, rfl⟩
  | some i =>
      obtain ⟨s, hi, rfl⟩ := h.slot hget
      obtain ⟨hc', hholds⟩ := h.rewrite { s with referenced := true } hi rfl h.hand
      refine ⟨_, ?_, hc', rfl, funext fun x => (hholds x).trans ?_⟩
      · rw [bind_some, hi]
        dsimp only
        rw [hi]
        rfl
      by_cases hx : x = s.id
      · rw [if_pos hx, hx, holds, hget, bind_some, hi]
        rfl
      · rw [if_neg hx]

/-- What an insertion does to what the cache holds. -/
structure Inserted (c : PageCache) (id : PageId) (buf : Bytes) (c' : PageCache) : Prop where
  coherent : Coherent c'
  capacity : c'.capacity = c.capacity
  here : c'.holds id = some buf
  others : ∀ x, x ≠ id → c'.holds x = none ∨ c'.holds x = c.holds x

/-- The hand evicts a slot that was not asked for. -/
theorem Coherent.evict (h : Coherent c) {victim : Slot} (hvictim : c.slots[c.hand]? = some victim)
    (hnew : AssocList.get id c.map = none) (hhand : hand < c.slots.length) :
    Inserted c id buf { c with
      hand := hand
      slots := c.slots.set c.hand ⟨id, buf, true⟩
      map := put id c.hand (del victim.id c.map) } := by
  have hlt : c.hand < c.slots.length := (List.getElem?_eq_some_iff.mp hvictim).1
  have hwas : AssocList.get victim.id c.map = some c.hand :=
    (h.bijection _ _).mpr (by rw [hvictim]; rfl)
  have hmap : ∀ x, AssocList.get x (put id c.hand (del victim.id c.map))
      = if x = id then some c.hand else if x = victim.id then none else AssocList.get x c.map := by
    intro x
    rw [get_put, get_del]
  have hslots : ∀ i : Nat, ((c.slots.set c.hand ⟨id, buf, true⟩)[i]?)
      = if c.hand = i then some ⟨id, buf, true⟩ else c.slots[i]? := by
    intro i
    rw [getElem?_set]
    by_cases hi : c.hand = i
    · subst hi
      rw [if_pos rfl, if_pos rfl, if_pos hlt]
    · rw [if_neg hi, if_neg hi]
  -- an id that is neither the new one nor the victim's has its slot elsewhere
  have hother : ∀ {x : PageId} {i : Nat}, x ≠ victim.id → AssocList.get x c.map = some i →
      c.hand ≠ i := by
    rintro x i hx hget rfl
    have := (h.bijection x c.hand).mp hget
    rw [hvictim] at this
    exact hx (Option.some.inj this).symm
  refine ⟨⟨fun x i => ?_, ?_, .inr ?_, h.room⟩, rfl, ?_, fun x hx => ?_⟩
  · rw [hmap, hslots]
    by_cases hx : x = id
    · subst hx
      rw [if_pos rfl]
      by_cases hi : c.hand = i
      · simp [hi]
      · rw [if_neg hi, ← h.bijection, hnew]
        simp [hi]
    · rw [if_neg hx]
      by_cases hv : x = victim.id
      · rw [if_pos hv, hv]
        by_cases hi : c.hand = i
        · rw [if_pos hi]
          simp [← hv, Ne.symm hx]
        · rw [if_neg hi, ← h.bijection, hwas]
          simp [hi]
      · rw [if_neg hv]
        by_cases hi : c.hand = i
        · rw [if_pos hi]
          have : AssocList.get x c.map ≠ some i := fun hget => hother hv hget hi
          simp [this, Ne.symm hx]
        · rw [if_neg hi]
          exact h.bijection x i
  · rw [length_set]
    exact h.bound
  · rw [length_set]
    exact hhand
  · show ((AssocList.get id _).bind fun i => (_[i]?).map Slot.buf) = some buf
    rw [hmap, if_pos rfl, bind_some, hslots, if_pos rfl]
    rfl
  · show ((AssocList.get x _).bind fun i => (_[i]?).map Slot.buf) = none
      ∨ ((AssocList.get x _).bind fun i => (_[i]?).map Slot.buf) = _
    rw [hmap, if_neg hx]
    by_cases hv : x = victim.id
    · rw [if_pos hv]
      exact .inl rfl
    · right
      rw [if_neg hv, holds]
      cases hget : AssocList.get x c.map with
      | none => rfl
      | some i => rw [bind_some, bind_some, hslots, if_neg (hother hv hget)]

/-- **THE SWEEP ENDS**: every slot the hand passes loses its mark, so it stops
    after as many slots as are marked, and one. -/
theorem sweep_spec {fuel : Nat} (h : Coherent c) (hnew : AssocList.get id c.map = none)
    (hsome : c.slots ≠ []) (hfuel : c.slots.countP Slot.referenced < fuel) :
    ∃ c', c.sweep id buf fuel = .ok c' ∧ Inserted c id buf c' := by
  induction fuel generalizing c with
  | zero => exact absurd hfuel (Nat.not_lt_zero _)
  | succ fuel ih =>
      have hpos : 0 < c.slots.length := length_pos_iff.mpr hsome
      have hlt : c.hand < c.slots.length := by
        rcases h.hand with h0 | hlt
        · rw [h0]
          exact hpos
        · exact hlt
      have hnext : (c.hand + 1) % c.slots.length < c.slots.length := Nat.mod_lt _ hpos
      have hvictim : c.slots[c.hand]? = some (c.slots[c.hand]) := getElem?_eq_getElem hlt
      rw [sweep, if_neg (Nat.ne_of_gt hpos)]
      dsimp only
      rw [hvictim]
      dsimp only
      by_cases href : c.slots[c.hand].referenced = true
      · rw [if_pos href]
        obtain ⟨hc₁, hholds⟩ := h.rewrite { c.slots[c.hand] with referenced := false }
          hvictim rfl (.inr hnext)
        obtain ⟨c', hsweep, hins⟩ := ih (c := { c with
            hand := (c.hand + 1) % c.slots.length
            slots := c.slots.set c.hand { c.slots[c.hand] with referenced := false } })
          hc₁ hnew (by simpa using hsome) (by
            rw [countP_set hlt, if_pos href, if_neg nofun]
            have : 0 < c.slots.countP Slot.referenced :=
              countP_pos_iff.mpr ⟨_, getElem_mem hlt, href⟩
            omega)
        refine ⟨c', hsweep, hins.coherent, hins.capacity, hins.here, fun x hx => ?_⟩
        refine (hins.others x hx).imp_right fun hsame => hsame.trans ((hholds x).trans ?_)
        by_cases hv : x = c.slots[c.hand].id
        · have hget : AssocList.get x c.map = some c.hand :=
            (h.bijection _ _).mpr (by rw [hvictim, hv]; rfl)
          rw [if_pos hv, holds, hget, bind_some, hvictim]
          rfl
        · rw [if_neg hv]
      · rw [if_neg href]
        exact ⟨_, rfl, h.evict hvictim hnew hnext⟩

/-- A ring with room takes another slot. -/
theorem Coherent.push (h : Coherent c) (hnew : AssocList.get id c.map = none)
    (hroom : c.slots.length < c.capacity) :
    Inserted c id buf { c with
      slots := c.slots ++ [⟨id, buf, true⟩]
      map := put id c.slots.length c.map } := by
  have hold : ∀ {x : PageId} {i : Nat}, AssocList.get x c.map = some i → i < c.slots.length := by
    intro x i hget
    obtain ⟨s, hi, -⟩ := h.slot hget
    exact (List.getElem?_eq_some_iff.mp hi).1
  have hlast : (c.slots ++ [(⟨id, buf, true⟩ : Slot)])[c.slots.length]? = some ⟨id, buf, true⟩ := by
    simp
  have hlen : (c.slots ++ [(⟨id, buf, true⟩ : Slot)]).length = c.slots.length + 1 := by simp
  refine ⟨⟨fun x i => ?_, ?_, ?_, h.room⟩, rfl, ?_, fun x hx => .inr ?_⟩
  · rw [get_put]
    rcases Nat.lt_trichotomy i c.slots.length with hlt | rfl | hgt
    · rw [getElem?_append_left hlt, ← h.bijection x i]
      by_cases hx : x = id
      · rw [if_pos hx, hx, hnew]
        simp [Nat.ne_of_gt hlt]
      · rw [if_neg hx]
    · rw [hlast]
      by_cases hx : x = id
      · simp [hx]
      · have : AssocList.get x c.map ≠ some c.slots.length := fun hget =>
          lt_irrefl _ (hold hget)
        simp [hx, this, Ne.symm hx]
    · have hnone : (c.slots ++ [(⟨id, buf, true⟩ : Slot)])[i]? = none :=
        getElem?_eq_none (by omega)
      rw [hnone]
      by_cases hx : x = id
      · simp [hx, Nat.ne_of_lt hgt]
      · have : AssocList.get x c.map ≠ some i := fun hget => by
          have := hold hget
          omega
        simp [hx, this]
  · dsimp only
    omega
  · rw [hlen]
    exact .inr (by have := h.hand; dsimp only; omega)
  · show ((AssocList.get id _).bind fun i => (_[i]?).map Slot.buf) = some buf
    rw [get_put, if_pos rfl, bind_some, hlast]
    rfl
  · show ((AssocList.get x _).bind fun i => (_[i]?).map Slot.buf) = _
    rw [get_put, if_neg hx, holds]
    cases hget : AssocList.get x c.map with
    | none => rfl
    | some i =>
        rw [bind_some, bind_some, getElem?_append_left (hold hget)]

/-- **AN INSERTION** never panics, and ends within two turns of the ring. -/
theorem insert_spec (h : Coherent c) (id : PageId) (buf : Bytes) :
    ∃ c', c.insert id buf = .ok c' ∧ Inserted c id buf c' := by
  rw [PageCache.insert]
  cases hget : AssocList.get id c.map with
  | some i =>
      obtain ⟨s, hi, rfl⟩ := h.slot hget
      obtain ⟨hc', hholds⟩ := h.rewrite { s with buf := buf, referenced := true } hi rfl h.hand
      dsimp only
      rw [hi]
      refine ⟨_, rfl, hc', rfl, (hholds _).trans (if_pos rfl), fun x hx => .inr ?_⟩
      exact (hholds x).trans (if_neg hx)
  | none =>
      dsimp only
      by_cases hroom : c.slots.length < c.capacity
      · rw [if_pos hroom]
        exact ⟨_, rfl, h.push hget hroom⟩
      · rw [if_neg hroom]
        have hpos : 0 < c.slots.length := lt_of_lt_of_le h.room (not_lt.mp hroom)
        refine sweep_spec h hget (length_pos_iff.mp hpos) ?_
        have := countP_le_length (p := Slot.referenced) (l := c.slots)
        omega

/-- Insertions one after another. -/
theorem insertAll_spec {l : List (PageId × Bytes)} (hs : AssocList.Sorted l) (h : Coherent c) :
    ∃ c', l.foldlM (fun c e => c.insert e.1 e.2) c = .ok c' ∧ Coherent c'
      ∧ c'.capacity = c.capacity
      ∧ ∀ x, c'.holds x = none ∨ c'.holds x = (AssocList.get x l).or (c.holds x) := by
  induction l generalizing c with
  | nil => exact ⟨c, rfl, h, rfl, fun x => .inr rfl⟩
  | cons e rest ih =>
      obtain ⟨hlt, hrest⟩ := pairwise_cons.mp hs
      obtain ⟨c₁, hinsert, hins⟩ := insert_spec h e.1 e.2
      obtain ⟨c', hall, hc', hcap, hholds⟩ := ih hrest hins.coherent
      refine ⟨c', ?_, hc', hcap.trans hins.capacity, fun x => ?_⟩
      · rw [foldlM_cons, hinsert]
        exact hall
      · rcases hholds x with hnone | hsome
        · exact .inl hnone
        · by_cases hx : x = e.1
          · subst hx
            have hlate : AssocList.get e.1 rest = none :=
              get_eq_none fun e' he' => ne_of_gt (hlt e' he')
            right
            rw [hsome, hlate, hins.here]
            simp [AssocList.get]
          · have hget : AssocList.get x (e :: rest) = AssocList.get x rest := by
              simp [AssocList.get, Ne.symm hx]
            rw [hget, hsome]
            cases AssocList.get x rest with
            | some b => exact .inr rfl
            | none => exact hins.others x hx

end Ring

/-! ## A handle and its cache -/

section Handle

open QuantyPager QuantySavepoint QuantyCommit QuantyCodec QuantyStorage QuantyCrash QuantyRetry
open QuantyNode QuantyBytes LittleEndian

variable {readable : Bool} {acts : List Action} {b' : Batch}

/-- What `read_page` checks of a page as it enters the cache. -/
def checkPage (id : PageId) (buf : Bytes) : Except Error Unit :=
  match pageType buf with
  | .ok .leaf => (checkLeaf buf id).map fun _ => ()
  | .ok .branch => (checkBranch buf id).map fun _ => ()
  | _ => .ok ()

/-- A page as the engine writes it: a node has its keys in order and fits. -/
def WellFormed (ps : Nat) : Page → Prop
  | .node n => n.inOrder = true ∧ nodeInU64 n ∧ n.encodedSize ≤ ps
  | _ => True

/-- An open pager, its cache, and the bytes of storage. -/
structure Hot where
  pager : Pager
  cache : PageCache
  disk : Disk

/-- The handle, with its cache as a map. -/
def Hot.plain (h : Hot) : Handle := ⟨h.pager, h.cache.holds, h.disk⟩

section Checksum

variable (crc : Bytes → UInt32)

/-- `Pager::read_page`. -/
def Hot.readPage (h : Hot) (id : PageId) : Except Error Bytes × Hot :=
  if id < 2 ∨ h.pager.committed.pageCount ≤ id then (.error (.pageOutOfBounds id), h)
  else
    match h.cache.get id with
    | .error e => (.error e, h)
    | .ok (some buf, cache) => (.ok buf, { h with cache := cache })
    | .ok (none, cache) =>
        let h := { h with cache := cache }
        match h.disk.readAt (id * h.pager.pageSize) h.pager.pageSize with
        | none => (.error .io, h)
        | some buf =>
            match verify crc id buf with
            | .error e => (.error e, h)
            | .ok _ =>
                match checkPage id buf with
                | .error e => (.error e, h)
                | .ok _ =>
                    match h.cache.insert id buf with
                    | .error e => (.error e, h)
                    | .ok cache => (.ok buf, { h with cache := cache })

/-- The bytes a commit publishes, in the order of their ids. -/
def published (b : Batch) : List (PageId × Bytes) :=
  b.sealedPages.map fun e => (e.1, image crc b.pageSize e.2)

/-- A commit that goes through: the sealed pages are cached one by one. -/
def Hot.done (h : Hot) (now : Nat) (b : Batch) : Except Error Hot := do
  let cache ← (published crc b).foldlM (fun c e => c.insert e.1 e.2) h.cache
  return ⟨b.publish now, cache, commitDisk crc now b h.disk⟩

/-- A commit that fails leaves the cache alone. -/
def Hot.after (h : Hot) (b : Batch) (d' : Disk) : Hot :=
  { h with pager := (h.plain.after crc b d').pager, disk := d' }

/-- **EVERY RUN OF A HANDLE**, with the bytes last committed for each id.  They
    change when a commit goes through and at no other time. -/
inductive Reached {R : Type} (rd : Reading R) (h₀ : Hot) :
    Hot → (PageId → Option Bytes) → Prop where
  | opened : Reached rd h₀ h₀ fun id =>
      (AssocList.get id h₀.pager.storage.pages).map (image crc h₀.pager.pageSize)
  | read {h : Hot} {last : PageId → Option Bytes} (id : PageId) (hr : Reached rd h₀ h last) :
      Reached rd h₀ (h.readPage crc id).2 last
  | failed {h : Hot} {last : PageId → Option Bytes} {readable : Bool} {acts : List Action}
      {now : Nat} {b' : Batch} {d' : Disk} (hr : Reached rd h₀ h last)
      (hc : Commissioned rd (h.plain.seen readable) acts now b')
      (hf : Failure crc now b' h.disk d') : Reached rd h₀ (h.after crc b' d') last
  | done {h h' : Hot} {last : PageId → Option Bytes} {readable : Bool} {acts : List Action}
      {now : Nat} {b' : Batch} (hr : Reached rd h₀ h last)
      (hc : Commissioned rd (h.plain.seen readable) acts now b')
      (hd : h.done crc now b' = .ok h') :
      Reached rd h₀ h' fun id => (AssocList.get id (published crc b')).or (last id)

end Checksum

variable {crc : Bytes → UInt32}

/-- A sealed node is a frame, as encoding leaves it. -/
theorem image_node {n : Node} (lsn : Nat) (hfits : n.encodedSize ≤ ps) :
    image crc ps ⟨lsn, .node n⟩ = frame n (image crc ps ⟨lsn, .node n⟩) := by
  have hbody := length_body n
  have hmarks : le 1 (Page.tag (.node n)) ++ (le 1 0 ++ le 2 (Page.count (.node n))) = marks n := by
    cases n <;> rfl
  have hpad : pad (ps - PAGE_HEADER_LEN) (Page.body (.node n))
      = body n ++ List.replicate (16 + (ps - PAGE_HEADER_LEN) - n.encodedSize) 0 := by
    have hshort : (body n).length ≤ ps - PAGE_HEADER_LEN := by omega
    rw [pad, ← body, take_of_length_le hshort]
    congr 2
    rw [PAGE_HEADER_LEN] at hbody ⊢
    omega
  have hcut : image crc ps ⟨lsn, .node n⟩ = le 4 (crc (header (Page.tag (.node n))
        (Page.count (.node n)) lsn ++ pad (ps - PAGE_HEADER_LEN) (Page.body (.node n)))).toNat
      ++ (marks n ++ (le 8 lsn ++ pad (ps - PAGE_HEADER_LEN) (Page.body (.node n)))) := by
    rw [image, sealBytes, ← hmarks]
    simp [header, layout]
  rw [hcut, frame_append (length_le 4 _) (length_marks n) (length_le 8 _), length_pad, hpad]

/-- A well formed page passes the check. -/
theorem checkPage_image (crc : Bytes → UInt32) {s : Sealed} (hps : validPageSize ps = true)
    (h : WellFormed ps s.page) (id : PageId) : checkPage id (image crc ps s) = .ok () := by
  have hlow : PAGE_HEADER_LEN ≤ ps := le_trans (by decide) (le_of_validPageSize hps).1
  have hlen : (image crc ps s).length = ps := length_image hlow s
  obtain ⟨lsn, page⟩ := s
  have hbyte : (image crc ps ⟨lsn, page⟩).getD 4 0 = UInt8.ofNat (Page.tag page) := by
    simp [image, sealBytes, header, layout, le, getD_eq_getElem?_getD]
  cases page with
  | node n =>
      obtain ⟨horder, h64, hfits⟩ := h
      have hdecode : decode (image crc ps ⟨lsn, .node n⟩) id = .ok n := by
        rw [image_node lsn hfits]
        exact decode_frame (by rw [hlen]; exact hlow)
          (by rw [hlen]; exact (le_of_validPageSize hps).2)
          (by rw [hlen]; exact hfits) horder h64 id
      cases n with
      | leaf es =>
          have hkind : pageType (image crc ps ⟨lsn, .node (.leaf es)⟩) = .ok .leaf := by
            rw [pageType, hbyte]
            rfl
          obtain ⟨k, hcheck⟩ := (checkLeaf_iff (by rw [hlen]; exact hps) hkind).mpr ⟨_, hdecode⟩
          rw [checkPage, hkind]
          dsimp only
          rw [hcheck]
          rfl
      | branch f es =>
          have hkind : pageType (image crc ps ⟨lsn, .node (.branch f es)⟩) = .ok .branch := by
            rw [pageType, hbyte]
            rfl
          obtain ⟨k, hcheck⟩ := (checkBranch_iff hkind).mpr ⟨_, hdecode⟩
          rw [checkPage, hkind]
          dsimp only
          rw [hcheck]
          rfl
  | overflow next part =>
      rw [checkPage, pageType, hbyte]
      rfl
  | freeList next ids =>
      rw [checkPage, pageType, hbyte]
      rfl
  | commit info =>
      rw [checkPage, pageType, hbyte]
      rfl

/-- Reading through the cache answers as reading from a map does, and leaves
    the map with the page read and nothing else new. -/
theorem readPage_spec (crc : Bytes → UInt32) {h : Hot} (hc : Coherent h.cache) (id : PageId) :
    (h.readPage crc id).1 = h.plain.readPage crc checkPage id
      ∧ ∃ cache, (h.readPage crc id).2 = { h with cache := cache } ∧ Coherent cache
        ∧ cache.capacity = h.cache.capacity
        ∧ ∀ x, cache.holds x = none ∨ cache.holds x = h.cache.holds x
          ∨ x = id ∧ ∃ buf, h.plain.readPage crc checkPage id = .ok buf
            ∧ cache.holds x = some buf := by
  obtain ⟨cache, hget, hcache, hcap, hholds⟩ := get_spec hc id
  have hsame : ∀ x, cache.holds x = h.cache.holds x := fun x => congrFun hholds x
  rw [Hot.readPage, Handle.readPage]
  by_cases hrange : id < 2 ∨ h.pager.committed.pageCount ≤ id
  · rw [if_pos hrange, if_pos (show id < 2 ∨ h.plain.pager.committed.pageCount ≤ id from hrange)]
    exact ⟨rfl, h.cache, rfl, hc, rfl, fun x => .inr (.inl rfl)⟩
  rw [if_neg hrange, if_neg (show ¬ (id < 2 ∨ h.plain.pager.committed.pageCount ≤ id) from hrange),
    hget]
  cases hhit : h.cache.holds id with
  | some buf =>
      rw [show h.plain.cache id = _ from hhit]
      exact ⟨rfl, cache, rfl, hcache, hcap, fun x => .inr (.inl (hsame x))⟩
  | none =>
      rw [show h.plain.cache id = _ from hhit]
      dsimp only
      cases hdisk : h.disk.readAt (id * h.pager.pageSize) h.pager.pageSize with
      | none =>
          rw [show h.plain.disk.readAt (id * h.plain.pager.pageSize) h.plain.pager.pageSize = _
            from hdisk]
          exact ⟨rfl, cache, rfl, hcache, hcap, fun x => .inr (.inl (hsame x))⟩
      | some buf =>
          rw [show h.plain.disk.readAt (id * h.plain.pager.pageSize) h.plain.pager.pageSize = _
            from hdisk]
          dsimp only
          cases hverify : verify crc id buf with
          | error e => exact ⟨rfl, cache, rfl, hcache, hcap, fun x => .inr (.inl (hsame x))⟩
          | ok _ =>
              dsimp only
              cases hcheck : checkPage id buf with
              | error e => exact ⟨rfl, cache, rfl, hcache, hcap, fun x => .inr (.inl (hsame x))⟩
              | ok _ =>
                  obtain ⟨cache', hinsert, hins⟩ := insert_spec hcache id buf
                  dsimp only
                  rw [hinsert]
                  refine ⟨rfl, cache', rfl, hins.coherent, hins.capacity.trans hcap, fun x => ?_⟩
                  by_cases hx : x = id
                  · exact .inr (.inr ⟨hx, buf, rfl, hx ▸ hins.here⟩)
                  · rcases hins.others x hx with hnone | hold
                    · exact .inl hnone
                    · exact .inr (.inl (hold.trans (hsame x)))

section Run

variable {R : Type} {rd : Reading R} {L : FreePages} {h₀ h : Hot}
  {last : PageId → Option Bytes}

/-- **WHAT EVERY RUN KEEPS**: map and ring agree, the handle serves its meta,
    and what storage has for a page that the meta depends on is what was last
    committed for it. -/
structure Kept (crc : Bytes → UInt32) (rd : Reading R) (capacity : Nat) (h : Hot)
    (last : PageId → Option Bytes) : Prop where
  coherent : Coherent h.cache
  capacity : h.cache.capacity = capacity
  serves : ∃ L, Serves crc rd h.plain L
  last : ∀ x, Live rd h.pager x →
    last x = (AssocList.get x h.pager.storage.pages).map (image crc h.pager.pageSize)

theorem Kept.read (hk : Kept crc rd capacity h last) (id : PageId) :
    Kept crc rd capacity (h.readPage crc id).2 last := by
  obtain ⟨-, cache, hread, hcoherent, hcap, hholds⟩ := readPage_spec crc hk.coherent id
  obtain ⟨L, hs⟩ := hk.serves
  rw [hread]
  refine ⟨hcoherent, hcap.trans hk.capacity, ⟨L, hs.backs, hs.healthy, hs.current, ?_⟩, hk.last⟩
  intro x hx buf hbuf
  have hbuf' : cache.holds x = some buf := hbuf
  rcases hholds x with hnone | hsame | ⟨rfl, buf', hok, hnew⟩
  · nomatch hnone.symm.trans hbuf'
  · exact hs.cached x hx buf (hsame.symm.trans hbuf')
  · obtain rfl := Option.some.inj (hnew.symm.trans hbuf')
    exact hs.read hx hok

theorem Kept.failed (hk : Kept crc rd capacity h last) {d' : Disk}
    (hc : Commissioned rd (h.plain.seen readable) acts now b') (hf : Failure crc now b' h.disk d') :
    Kept crc rd capacity (h.after crc b' d') last := by
  obtain ⟨L, hs⟩ := hk.serves
  obtain ⟨L', hu⟩ := hs.underway hc
  refine ⟨hk.coherent, hk.capacity, ⟨L, hs.after hu hf⟩, fun x hx => ?_⟩
  have hx' : Live rd h.pager x := (live_after hs hu).mp hx
  rw [hk.last x hx']
  exact congrArg (Option.map _) (hu.same hx').symm

theorem Kept.done (hk : Kept crc rd capacity h last) {h' : Hot}
    (hc : Commissioned rd (h.plain.seen readable) acts now b') (hd : h.done crc now b' = .ok h') :
    Kept crc rd capacity h' fun id => (AssocList.get id (published crc b')).or (last id) := by
  obtain ⟨L, hs⟩ := hk.serves
  obtain ⟨L', hu⟩ := hs.underway hc
  have hget : ∀ x, AssocList.get x (published crc b')
      = (AssocList.get x b'.sealedPages).map (image crc b'.pageSize) :=
    fun x => get_map _ _ x
  have hsorted : AssocList.Sorted (published crc b') :=
    sorted_map _ (sorted_map _ hu.sorted)
  obtain ⟨cache, hall, hcoherent, hcap, hholds⟩ := insertAll_spec hsorted hk.coherent
  rw [Hot.done, hall] at hd
  cases hd
  have hserves := hs.done hu
  refine ⟨hcoherent, hcap.trans hk.capacity,
    ⟨L', hserves.backs, hserves.healthy, hserves.current, ?_⟩, fun x hx => ?_⟩
  · intro x hx buf hbuf
    have hbuf' : cache.holds x = some buf := hbuf
    rcases hholds x with hnone | hsome
    · cases hnone.symm.trans hbuf'
    · refine hserves.cached x hx buf ?_
      show ((AssocList.get x b'.sealedPages).map (image crc b'.pageSize)).or (h.cache.holds x) = _
      rw [← hget, ← hsome, hbuf']
  · show _ = (AssocList.get x (b'.publish now).storage.pages).map (image crc b'.pageSize)
    rw [get_publish hu.sorted, hget, get_sealedPages]
    cases hdirty : AssocList.get x b'.dirty with
    | some page => rfl
    | none =>
        have hown : b'.owns x = false := by
          rw [Batch.owns, hdirty]
          rfl
        have hx' := (hu.heirs x hx).resolve_left (by rw [hown]; rintro ⟨⟩)
        show last x = (AssocList.get x b'.pager.storage.pages).map (image crc b'.pageSize)
        rw [hk.last x hx', hu.pages, hu.pageSize]
        rfl

theorem Reached.kept (hstart : Coherent h₀.cache) (hserves : Serves crc rd h₀.plain L)
    (hr : Reached crc rd h₀ h last) : Kept crc rd h₀.cache.capacity h last := by
  induction hr with
  | opened => exact ⟨hstart, rfl, ⟨L, hserves⟩, fun _ _ => rfl⟩
  | read id _ ih => exact ih.read id
  | failed _ hc hf ih => exact ih.failed hc hf
  | done _ hc hd ih => exact ih.done hc hd

/-- **THE PAGE CACHE IS TRANSPARENT**.  In every state of every run of reads
    and commits, failed ones among them, a read of a page that the committed
    meta depends on returns nothing but the bytes last committed for its id,
    and does return them when the page is well formed; map and slots are in
    bijection and no id is in two slots; there are no more slots than the
    capacity; and inserting never panics and ends within two turns of the
    ring. -/
theorem page_cache_transparent {p₀ : Pager} {d₀ : Disk} (capacity : Nat)
    (h₀ : Durable crc rd p₀ L d₀) (hr : Reached crc rd ⟨p₀, .new capacity, d₀⟩ h last) :
    (∀ x, Live rd h.pager x → ∃ s, AssocList.get x h.pager.storage.pages = some s
        ∧ last x = some (image crc h.pager.pageSize s)
        ∧ (∀ buf, (h.readPage crc x).1 = .ok buf → last x = some buf)
        ∧ (WellFormed h.pager.pageSize s.page →
            (h.readPage crc x).1 = .ok (image crc h.pager.pageSize s)))
      ∧ (∀ id i, AssocList.get id h.cache.map = some i ↔
          (h.cache.slots[i]?).map Slot.id = some id)
      ∧ (∀ (i j : Nat) (s s' : Slot), h.cache.slots[i]? = some s → h.cache.slots[j]? = some s' →
          s.id = s'.id → i = j)
      ∧ h.cache.slots.length ≤ h.cache.capacity ∧ h.cache.capacity = max capacity 8
      ∧ ∀ id buf, ∃ c', h.cache.insert id buf = .ok c' := by
  have hopen : Serves crc rd (Hot.plain ⟨p₀, .new capacity, d₀⟩) L := serves_open h₀
  have hk := hr.kept (coherent_new capacity) hopen
  obtain ⟨L', hs⟩ := hk.serves
  refine ⟨fun x hx => ?_, hk.coherent.bijection, fun i j s s' => hk.coherent.once,
    hk.coherent.bound, hk.capacity, fun id buf => ?_⟩
  · obtain ⟨s, hget⟩ := stored_of_live hs.healthy hx
    have hlast : last x = some (image crc h.pager.pageSize s) := by
      rw [hk.last x hx, show AssocList.get x h.pager.storage.pages = _ from hget]
      rfl
    have hlive := Healthy.live hs.healthy hx
    have hdisk := hs.backs.pages x s hget hlive.1
    obtain ⟨hread, -⟩ := readPage_spec crc hk.coherent x
    refine ⟨s, hget, hlast, fun buf hbuf => ?_, fun hwell => ?_⟩
    · rw [hread] at hbuf
      exact hlast.trans (hdisk.symm.trans (hs.read hx hbuf))
    · have hrange : ¬ (x < 2 ∨ h.plain.pager.committed.pageCount ≤ x) := by
        rintro (hlow | hhigh)
        · exact absurd hlive.1 (not_le.mpr hlow)
        · exact absurd hlive.2.1 (not_lt.mpr hhigh)
      rw [hread, Handle.readPage, if_neg hrange]
      cases hhit : h.plain.cache x with
      | some buf =>
          exact congrArg Except.ok (Option.some.inj ((hs.cached x hx buf hhit).symm.trans hdisk))
      | none =>
          have hverify : verify crc x (image crc h.pager.pageSize s) = .ok () :=
            verify_sealBytes x _
          have hcheck := checkPage_image crc hs.backs.valid hwell x
          rw [hdisk]
          dsimp only
          rw [show verify crc x (image crc h.plain.pager.pageSize s) = _ from hverify, hcheck]
          rfl
  · obtain ⟨c', hinsert, -⟩ := insert_spec hk.coherent id buf
    exact ⟨c', hinsert⟩

/-- A new file, one commit, and a read of the page it wrote. -/
theorem page_cache_transparent_firstCommit :
    ∃ (h : Hot) (last : PageId → Option Bytes) (bytes : Bytes),
      Reached noChecksum everything ⟨newHandle.pager, .new 1, newHandle.disk⟩ h last
      ∧ last 2 = some bytes ∧ (h.readPage noChecksum 2).1 = .ok bytes
      ∧ h.cache.slots.length ≤ 8 := by
  have hsorted : AssocList.Sorted (published noChecksum firstBatch) := pairwise_singleton _ _
  obtain ⟨cache, hall, -⟩ := insertAll_spec hsorted (coherent_new 1)
  have hdone : Hot.done noChecksum ⟨newHandle.pager, .new 1, newHandle.disk⟩ 0 firstBatch
      = .ok ⟨onceCommitted, cache, commitDisk noChecksum 0 firstBatch newHandle.disk⟩ := by
    rw [Hot.done, hall]
    rfl
  have hcommit : Commissioned everything ((Hot.plain ⟨newHandle.pager, .new 1,
      newHandle.disk⟩).seen true) (leafActions 2) 0 firstBatch := first_commissioned
  have hr := Reached.done Reached.opened hcommit hdone
  obtain ⟨hreads, -, -, hslots, hcap, -⟩ := page_cache_transparent 1 durable_newHandle hr
  have hlive : Live everything onceCommitted 2 := .inl ⟨.tree, .root (by decide)⟩
  obtain ⟨s, hget, hlast, -, hwell⟩ := hreads 2 hlive
  have hpage : AssocList.get 2 onceCommitted.storage.pages
      = some ⟨1, .node (.leaf [([1], .inline [])])⟩ := rfl
  obtain rfl := Option.some.inj (hget.symm.trans hpage)
  have hfits : (Node.leaf [([1], .inline [])]).encodedSize ≤ onceCommitted.pageSize := by decide
  refine ⟨_, _, _, hr, hlast, hwell ⟨by decide, ?_, hfits⟩, hslots.trans hcap.le⟩
  simp [nodeInU64, valueInU64]

end Run

end Handle

end QuantyCache
