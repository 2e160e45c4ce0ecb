import QuantyDb.PageModel

/-! # The page cache

    A map from page id to slot, a ring of slots, and one bit per slot that says
    whether it was asked for since the hand last passed.  When the ring is full
    the hand goes round: it takes the bit from every slot that has it and
    evicts the first that has not.

    The hash map of the source is an association list in key order.  Indexing
    past the end of the ring and a hand that never stops are panics here, so
    that it can be said that neither happens. -/

namespace QuantyCache

open QuantyKey QuantyPage AssocList

structure Slot where
  id : PageId
  buf : Bytes
  referenced : Bool
  deriving DecidableEq, Repr

structure PageCache where
  map : List (PageId × Nat)
  slots : List Slot
  hand : Nat
  capacity : Nat
  deriving DecidableEq, Repr

def OUT_OF_BOUNDS : Error := .panic "index out of bounds"

namespace PageCache

def new (capacity : Nat) : PageCache := ⟨[], [], 0, max capacity 8⟩

/-- The page, if it is cached; its slot is then marked. -/
def get (c : PageCache) (id : PageId) : Except Error (Option Bytes × PageCache) :=
  match AssocList.get id c.map with
  | none => .ok (none, c)
  | some i =>
      match c.slots[i]? with
      | none => .error OUT_OF_BOUNDS
      | some slot =>
          .ok (some slot.buf, { c with slots := c.slots.set i { slot with referenced := true } })

/-- The clock sweep of `insert`, for so many slots at most. -/
def sweep (id : PageId) (buf : Bytes) : Nat → PageCache → Except Error PageCache
  | 0, _ => .error .outOfFuel
  | fuel + 1, c =>
      if c.slots.length = 0 then
        .error (.panic "attempt to calculate the remainder with a divisor of zero")
      else
        let hand := (c.hand + 1) % c.slots.length
        match c.slots[c.hand]? with
        | none => .error OUT_OF_BOUNDS
        | some victim =>
            if victim.referenced then
              sweep id buf fuel { c with
                hand := hand
                slots := c.slots.set c.hand { victim with referenced := false } }
            else
              .ok { c with
                hand := hand
                slots := c.slots.set c.hand ⟨id, buf, true⟩
                map := put id c.hand (del victim.id c.map) }

/-- The hand is given two turns of the ring. -/
def insert (c : PageCache) (id : PageId) (buf : Bytes) : Except Error PageCache :=
  match AssocList.get id c.map with
  | some i =>
      match c.slots[i]? with
      | none => .error OUT_OF_BOUNDS
      | some slot =>
          .ok { c with slots := c.slots.set i { slot with buf := buf, referenced := true } }
  | none =>
      if c.slots.length < c.capacity then
        .ok { c with
          slots := c.slots ++ [⟨id, buf, true⟩]
          map := put id c.slots.length c.map }
      else sweep id buf (2 * c.slots.length) c

end PageCache

end QuantyCache
