import QuantyDb.KeyOrder
import QuantyDb.AssocList
import QuantyDb.Fan

/-! # Pages — what the file is made of

    Everything past the two meta slots is a page of `pageSize` bytes.  The
    model keeps a page as what its bytes decode to, and keeps the number of
    bytes that takes, because whether a node fits its page decides every split
    and every merge.  Page ids are `u64` in the source; they count pages, and
    nothing in the engine wraps them.

    A node is decoded, changed and encoded again.  Decoding refuses a page of
    another kind and entries that are not in order; encoding never refuses, it
    runs off the end of the page, which is a panic. -/

namespace QuantyPage

open QuantyKey

abbrev PageId := Nat

abbrev Bytes := List UInt8

/-- Page `0` is a meta slot and never a target, so it doubles as "none". -/
def NIL_PAGE : PageId := 0

def PAGE_HEADER_LEN : Nat := 16

def MIN_PAGE_SIZE : Nat := 512

def MAX_PAGE_SIZE : Nat := 65536

/-- `is_power_of_two` on the range that is legal. -/
def validPageSize (ps : Nat) : Bool :=
  decide (MIN_PAGE_SIZE ≤ ps) && decide (ps ≤ MAX_PAGE_SIZE) && decide (ps &&& (ps - 1) = 0)

theorem le_of_validPageSize {ps : Nat} (h : validPageSize ps = true) : 512 ≤ ps ∧ ps ≤ 65536 := by
  simp only [validPageSize, Bool.and_eq_true, decide_eq_true_eq] at h
  exact h.1

/-- The kinds of page a batch allocates. -/
inductive PageType
  | branch | leaf | overflow | freeList | commit
  deriving DecidableEq, Repr

/-- What a call can fail with.  `panic` and `outOfFuel` are not values of the
    source's type: the first is the process giving up, the second a descent
    that the model cut short. -/
inductive Error
  | io
  | corrupted (page : Option PageId) (reason : String)
  | invalidFormat (reason : String)
  | pageNotWritable (id : PageId)
  | pageOutOfBounds (id : PageId)
  | invalidArgument (reason : String)
  | writerRaced (expected found : Nat)
  | panic (what : String)
  | outOfFuel
  deriving DecidableEq, Repr

/-- Where the value of a leaf entry lives. -/
inductive ValueRef
  | inline (v : Bytes)
  | overflow (head : PageId) (len : Nat)
  deriving DecidableEq, Repr

inductive Node
  | leaf (entries : List (Key × ValueRef))
  | branch (firstChild : PageId) (entries : List (Key × PageId))
  deriving DecidableEq, Repr

/-- One commit, as its record page describes it. -/
structure CommitInfo where
  commitId : Nat
  parentId : Nat
  dataRoot : PageId
  catalogRoot : PageId
  parentPage : PageId
  unixTsMs : Nat
  deriving DecidableEq, Repr

inductive Page
  | node (n : Node)
  | overflow (next : PageId) (part : Bytes)
  | freeList (next : PageId) (ids : List PageId)
  | commit (info : CommitInfo)
  deriving DecidableEq, Repr

/-- A page whose header is initialised and whose body is all zero. -/
def Page.blank : PageType → Page
  | .branch => .node (.branch NIL_PAGE [])
  | .leaf => .node (.leaf [])
  | .overflow => .overflow NIL_PAGE []
  | .freeList => .freeList NIL_PAGE []
  | .commit => .commit ⟨0, 0, NIL_PAGE, NIL_PAGE, NIL_PAGE, 0⟩

/-! ## Sizes -/

def leafCellSize (key : Key) : ValueRef → Nat
  | .inline v => 2 + 1 + key.length + (4 + v.length)
  | .overflow _ _ => 2 + 1 + key.length + 16

def branchCellSize (key : Key) : Nat := 2 + 1 + key.length + 8

/-- What the cells of a leaf take. -/
def leafCells (es : List (Key × ValueRef)) : Nat :=
  (es.map (fun e => leafCellSize e.1 e.2)).sum

/-- What the cells of a branch take, whatever its children are called. -/
def branchCells {α : Type} (es : List (Key × α)) : Nat :=
  (es.map (fun e => branchCellSize e.1)).sum

def Node.encodedSize : Node → Nat
  | .leaf es => PAGE_HEADER_LEN + leafCells es
  | .branch _ es => PAGE_HEADER_LEN + (8 + branchCells es)

/-- Bytes of a value that one overflow page holds. -/
def overflowCapacity (ps : Nat) : Nat := ps - PAGE_HEADER_LEN - 8 - 2

/-- The pages of a free list, each with the ids on it. -/
abbrev FreePages := List (PageId × List PageId)

/-- Ids that one page of the free list holds. -/
def idsPerPage (ps : Nat) : Nat := (ps - PAGE_HEADER_LEN - 8 - 2) / 8

def maxKeyLen (ps : Nat) : Nat := ps / 8

def inlineMax (ps : Nat) : Nat := ps / 4

section Sizes

variable {α β : Type}

@[simp] theorem leafCells_nil : leafCells [] = 0 := rfl

@[simp] theorem leafCells_cons (e : Key × ValueRef) (es : List (Key × ValueRef)) :
    leafCells (e :: es) = leafCellSize e.1 e.2 + leafCells es := by
  simp [leafCells]

@[simp] theorem branchCells_nil : branchCells ([] : List (Key × α)) = 0 := rfl

@[simp] theorem branchCells_cons (e : Key × α) (es : List (Key × α)) :
    branchCells (e :: es) = branchCellSize e.1 + branchCells es := by
  simp [branchCells]

@[simp] theorem branchCells_map (g : α → β) (es : List (Key × α)) :
    branchCells (es.map (Prod.map id g)) = branchCells es := by
  simp [branchCells, Function.comp_def]

end Sizes

/-! ## Decoding -/

/-- `windows(2).all(|w| w[0].0 < w[1].0)`. -/
def ascending {α : Type} : List (Key × α) → Bool
  | [] => true
  | [_] => true
  | a :: b :: rest => decide (a.1 < b.1) && ascending (b :: rest)

theorem ascending_iff_sorted {α : Type} (es : List (Key × α)) :
    ascending es = true ↔ AssocList.Sorted es := by
  have h : ascending es = true ↔ es.IsChain (fun a b => a.1 < b.1) := by
    induction es with
    | nil => simp [ascending]
    | cons a rest ih =>
        cases rest with
        | nil => simp [ascending]
        | cons b rest => simp [ascending, ih]
  rw [h, AssocList.Sorted]
  exact List.isChain_iff_pairwise

def Node.inOrder : Node → Bool
  | .leaf es => ascending es
  | .branch _ es => ascending es

/-- `Node::decode` on a page that is whole. -/
def Node.decode (id : PageId) : Page → Except Error Node
  | .node (.leaf es) =>
      if ascending es then .ok (.leaf es)
      else .error (.corrupted (some id) "node decode: leaf keys not strictly sorted")
  | .node (.branch f es) =>
      if ascending es then .ok (.branch f es)
      else .error (.corrupted (some id) "node decode: branch keys not strictly sorted")
  | .overflow _ _ =>
      .error (.corrupted (some id) "node decode: expected a btree node, found Overflow")
  | .freeList _ _ =>
      .error (.corrupted (some id) "node decode: expected a btree node, found FreeList")
  | .commit _ =>
      .error (.corrupted (some id) "node decode: expected a btree node, found Commit")

/-- What `check_leaf` and `check_branch` say when the pager loads a page. -/
def Page.check (id : PageId) : Page → Except Error Unit
  | .node (.leaf es) =>
      if ascending es then .ok ()
      else .error (.corrupted (some id) "node decode: leaf keys not strictly sorted")
  | .node (.branch _ es) =>
      if ascending es then .ok ()
      else .error (.corrupted (some id) "node decode: branch keys not strictly sorted")
  | _ => .ok ()

theorem Node.decode_ok {id : PageId} {n : Node} (h : n.inOrder = true) :
    Node.decode id (.node n) = .ok n := by
  cases n with
  | leaf es => exact if_pos h
  | branch f es => exact if_pos h

/-- `freelist::decode_page`: the next page of the chain and the ids listed. -/
def decodeFreeList (ps : Nat) (id : PageId) : Page → Except Error (PageId × List PageId)
  | .freeList next ids =>
      if idsPerPage ps < ids.length then
        .error (.corrupted (some id) "free list page claims impossible count")
      else .ok (next, ids)
  | _ => .error (.corrupted (some id) "free list chain hit a non free list page")

/-- The value stored under `key`, stopping at the first key past it. -/
def findInLeaf (key : Key) : List (Key × ValueRef) → Option ValueRef
  | [] => none
  | (k, v) :: rest =>
      if k < key then findInLeaf key rest
      else if k = key then some v
      else none

/-- On entries in order the early stop misses nothing. -/
theorem findInLeaf_eq_get {es : List (Key × ValueRef)} (hs : AssocList.Sorted es)
    (key : Key) : findInLeaf key es = AssocList.get key es := by
  induction es with
  | nil => rfl
  | cons e rest ih =>
      obtain ⟨k, v⟩ := e
      obtain ⟨hlt, hrest⟩ := List.pairwise_cons.mp hs
      simp only [findInLeaf, AssocList.get]
      by_cases h1 : k < key
      · rw [if_pos h1, if_neg (ne_of_lt h1)]
        exact ih hrest
      · rw [if_neg h1]
        by_cases h2 : k = key
        · rw [if_pos h2, if_pos h2]
        · rw [if_neg h2, if_neg h2]
          refine (AssocList.get_eq_none fun e he => ?_).symm
          have hk : key < k := lt_of_le_of_ne (not_lt.mp h1) (Ne.symm h2)
          exact ne_of_gt (lt_trans hk (hlt e he))

end QuantyPage
