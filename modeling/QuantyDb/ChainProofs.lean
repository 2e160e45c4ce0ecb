import QuantyDb.SplitProofs

/-! # Overflow chains, read from any pages

    `read_value` first reserves room for the length it is told, then walks the
    chain for at most as many pages as such a value can take.

    What it returns is a chain that ends where the length does, whatever the
    pages are.  Three lengths it does not handle as such: above `isize::MAX` the
    reservation panics, above what the allocator grants it ends the process,
    and for length zero it still reads one page. -/

namespace QuantyChain

open QuantyKey QuantyPage QuantyPager QuantyPagerInv QuantyBtree QuantyBtreeSim QuantyOverflow List
open QuantySplit CowHeap

/-! ## The walk -/

/-- What comes of `Vec::with_capacity`. -/
inductive Reserved
  | granted
  | panics
  | aborts
  deriving DecidableEq, Repr

/-- `Vec::with_capacity(len)` where the allocator grants up to `room` bytes. -/
def reserve (room len : Nat) : Reserved :=
  if ISIZE_MAX < len then .panics else if room < len then .aborts else .granted

/-- `read_value` on top of that allocator; `none` when the process ends in it. -/
def readValueWithin (room : Nat) (r : Reader) (v : ValueRef) : Option (Except Error Bytes) :=
  match v with
  | .inline _ => some (readValue r v)
  | .overflow _ len => if reserve room len = .aborts then none else some (readValue r v)

/-- The pages that the loop of `read_value` reads. -/
def pagesRead (part : PageId → Except Error (PageId × Bytes)) : Nat → PageId → List PageId
  | 0, _ => []
  | n + 1, page =>
      if page = NIL_PAGE then []
      else
        page :: match part page with
          | .error _ => []
          | .ok (next, _) => pagesRead part n next

/-- The pages that `read_value` reads. -/
def visited (room : Nat) (r : Reader) (head : PageId) (len : Nat) : List PageId :=
  if reserve room len = .granted then pagesRead r.part (maxPages r.pageSize len) head else []

variable {r : Reader} {head page : PageId} {len n room : Nat} {out : Bytes}

/-- The overflow pages from a page on, with the part each holds, up to the end. -/
def ChainFrom (r : Reader) : PageId → List Bytes → Prop
  | page, [] => page = NIL_PAGE
  | page, part :: parts => page ≠ NIL_PAGE ∧ part.length ≤ overflowCapacity r.pageSize
      ∧ ∃ next, r.read page = .ok (.overflow next part) ∧ ChainFrom r next parts

/-- How many pages a value takes when each but the last is full. -/
def pagesFor (ps len : Nat) : Nat := (len + overflowCapacity ps - 1) / overflowCapacity ps

/-- What a read of a reference should keep to: it comes back with a value or
    an error, after no more pages than such a value takes and whatever the
    others hold, and a value has the length claimed and is the parts of a chain
    that ends there. -/
structure Bounded (room : Nat) (r : Reader) (head : PageId) (len : Nat) : Prop where
  returns : ∃ answer, readValueWithin room r (.overflow head len) = some answer
    ∧ ∀ what, answer ≠ .error (.panic what)
  pages : (visited room r head len).length ≤ pagesFor r.pageSize len
  only : ∀ r', r'.pageSize = r.pageSize →
    (∀ p ∈ visited room r head len, r'.read p = r.read p) →
    readValueWithin room r' (.overflow head len) = readValueWithin room r (.overflow head len)
  whole : ∀ v, readValueWithin room r (.overflow head len) = some (.ok v) →
    v.length = len ∧ ∃ parts, ChainFrom r head parts ∧ parts.flatten = v

/-- Pages that form a ring. -/
def ring : Reader := ⟨fun page => .ok (.overflow (page % 3 + 1) [1, 2, 3]), 512, 4⟩

end QuantyChain
