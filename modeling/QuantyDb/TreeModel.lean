import QuantyDb.BtreeModel

/-! # The tree behind the pages

    What the pages of a tree say once the page ids are followed: a leaf with
    its entries, or a branch with its children in place of their ids.  The
    insertion and the deletion here do to such a tree what `insert_rec` and
    `delete_rec` do to the pages, with two outcomes kept apart that the pages
    show as a panic and as an error: a node that does not fit the page it is
    written to, and neighbours of different kinds.

    The order of a tree is read off its `marks`, the separators and the
    entries from left to right.  A separator stands right before the entries
    it admits, so one strict order on marks says everything: entries in order,
    and every entry on the right side of every separator. -/

namespace QuantyTree

open QuantyKey QuantyPage QuantyPager QuantyBtree Fan AssocList

inductive Tree
  | leaf (entries : List (Key × ValueRef))
  | branch (firstChild : Tree) (entries : List (Key × Tree))

variable {P : Tree → Prop}

/-- What holds of leaves, and of a branch when it holds of its children, holds
    of every tree. -/
theorem Tree.induct (hleaf : ∀ es, P (.leaf es))
    (hbranch : ∀ f es, P f → (∀ e ∈ es, P e.2) → P (.branch f es)) (t : Tree) : P t := by
  refine @Tree.rec P (fun es => ∀ e ∈ es, P e.2) (fun e => P e.2) hleaf hbranch ?_ ?_ ?_ t
  · intro e he
    nomatch he
  · intro e es he hes e' he'
    rcases List.mem_cons.mp he' with heq | hmem
    · exact heq ▸ he
    · exact hes e' hmem
  · intro k t ht
    exact ht

/-- Induction along the descent for a key: from the child it goes to, to the
    branch. -/
theorem Tree.descend (key : Key) (hleaf : ∀ es, P (.leaf es))
    (hbranch : ∀ f es, P (branchChild f es key) → P (.branch f es)) (t : Tree) : P t := by
  induction t using Tree.induct with
  | hleaf es => exact hleaf es
  | hbranch f es ihf ihes => exact hbranch f es (child_of_forall ihf ihes _)

/-- A property of every node of a tree. -/
def Tree.All (P : Tree → Prop) : Tree → Prop
  | .leaf es => P (.leaf es)
  | .branch f es => P (.branch f es) ∧ f.All P ∧ allOf es
where
  allOf : List (Key × Tree) → Prop
    | [] => True
    | (_, t) :: rest => t.All P ∧ allOf rest

theorem Tree.allOf_iff {es : List (Key × Tree)} : Tree.All.allOf P es ↔ ∀ e ∈ es, e.2.All P := by
  induction es with
  | nil => simp [Tree.All.allOf]
  | cons e es ih => simp [Tree.All.allOf, ih]

@[simp] theorem Tree.all_leaf {es : List (Key × ValueRef)} :
    (Tree.leaf es).All P ↔ P (.leaf es) := by
  simp [Tree.All]

@[simp] theorem Tree.all_branch {f : Tree} {es : List (Key × Tree)} :
    (Tree.branch f es).All P ↔ P (.branch f es) ∧ f.All P ∧ ∀ e ∈ es, e.2.All P := by
  rw [← Tree.allOf_iff, Tree.All]

/-- What holds of every node holds of the one at the top. -/
theorem Tree.All.top {t : Tree} (h : t.All P) : P t := by
  cases t with
  | leaf es => exact Tree.all_leaf.mp h
  | branch f es => exact (Tree.all_branch.mp h).1

/-- The encoded size of the node at the top. -/
def Tree.size : Tree → Nat
  | .leaf es => PAGE_HEADER_LEN + leafCells es
  | .branch _ es => PAGE_HEADER_LEN + (8 + branchCells es)

/-- Every node fits its page. -/
def Tree.Fits (ps : Nat) : Tree → Prop := Tree.All (fun t => t.size ≤ ps)

/-- The keys of the node at the top are in order. -/
def Tree.topInOrder : Tree → Prop
  | .leaf es => AssocList.Sorted es
  | .branch _ es => AssocList.Sorted es

/-- The keys of every node are in order. -/
def Tree.InOrder : Tree → Prop := Tree.All Tree.topInOrder

/-! ## Marks -/

/-- A separator, or an entry with its value. -/
abbrev Mark := Key × Option ValueRef

/-- Marks from left to right: a separator comes before an entry of the same
    key, since it admits that key. -/
def MarkLt (a b : Mark) : Prop := a.1 < b.1 ∨ (a.1 = b.1 ∧ a.2 = none ∧ b.2 ≠ none)

instance decidableMarkLt : DecidableRel MarkLt := fun _ _ => inferInstanceAs (Decidable (_ ∨ _))

def sepMark : Option Key → List Mark
  | none => []
  | some k => [(k, none)]

def entryMarks (es : List (Key × ValueRef)) : List Mark := es.map (fun e => (e.1, some e.2))

def Tree.marks : Tree → List Mark
  | .leaf es => entryMarks es
  | .branch f es => f.marks ++ marksOf es
where
  marksOf : List (Key × Tree) → List Mark
    | [] => []
    | (k, t) :: rest => (k, none) :: (t.marks ++ marksOf rest)

/-- The marks of a list of slots. -/
def slotMarks (l : List (Option Key × Tree)) : List Mark :=
  l.flatMap (fun s => sepMark s.1 ++ s.2.marks)

@[simp] theorem slotMarks_nil : slotMarks [] = [] := rfl

@[simp] theorem slotMarks_cons (s : Option Key × Tree) (l : List (Option Key × Tree)) :
    slotMarks (s :: l) = sepMark s.1 ++ s.2.marks ++ slotMarks l := by
  simp [slotMarks]

@[simp] theorem slotMarks_append (l m : List (Option Key × Tree)) :
    slotMarks (l ++ m) = slotMarks l ++ slotMarks m := by
  simp [slotMarks]

theorem Tree.marks_leaf (es : List (Key × ValueRef)) :
    (Tree.leaf es).marks = entryMarks es := by
  rw [Tree.marks]

theorem Tree.marksOf_eq (es : List (Key × Tree)) :
    Tree.marks.marksOf es = slotMarks (es.map (fun e => (some e.1, e.2))) := by
  induction es with
  | nil => simp [Tree.marks.marksOf]
  | cons e es ih => simp [Tree.marks.marksOf, ih, sepMark]

theorem Tree.marks_branch (f : Tree) (es : List (Key × Tree)) :
    (Tree.branch f es).marks = slotMarks (slots f es) := by
  rw [Tree.marks, Tree.marksOf_eq, slots, slotMarks_cons]
  rfl

/-- The entries among the marks. -/
def unmark (l : List Mark) : List (Key × ValueRef) :=
  l.filterMap (fun m => m.2.map (fun v => (m.1, v)))

/-- The entries of a tree from left to right. -/
def Tree.entries (t : Tree) : List (Key × ValueRef) := unmark t.marks

/-- **THE SEARCH-TREE INVARIANT**. -/
def Tree.Ordered (t : Tree) : Prop := t.marks.Pairwise MarkLt

/-! ## Insertion -/

inductive Inserted
  | done (t : Tree)
  | split (left : Tree) (sep : Key) (right : Tree)
  | duplicate
  | overrun

/-- Two nodes in place of one, if each fits its page. -/
def halves (ps : Nat) (left : Tree) (sep : Key) (right : Tree) : Inserted :=
  if left.size ≤ ps ∧ right.size ≤ ps then .split left sep right else .overrun

/-- Where a leaf is cut. -/
def leafCut (es : List (Key × ValueRef)) : Nat :=
  max 1 (min (splitPoint (leafCells es) 0 0 es) (es.length - 1))

/-- Where a branch is cut. -/
def branchCut (n : Nat) : Nat := max 1 (min (n / 2) (n - 2))

def closeLeaf (ps : Nat) (es : List (Key × ValueRef)) : Inserted :=
  if (Tree.leaf es).size ≤ ps then .done (.leaf es)
  else if es.length < 2 then .overrun
  else
    match es.drop (leafCut es) with
    | [] => .overrun
    | (sep, v) :: rest =>
        halves ps (.leaf (es.take (leafCut es))) sep (.leaf ((sep, v) :: rest))

def closeBranch (ps : Nat) (f : Tree) (es : List (Key × Tree)) : Inserted :=
  if (Tree.branch f es).size ≤ ps then .done (.branch f es)
  else if es.length < 3 then .overrun
  else
    match es.drop (branchCut es.length) with
    | [] => .overrun
    | (sep, rf) :: rest =>
        halves ps (.branch f (es.take (branchCut es.length))) sep (.branch rf rest)

/-- What the child at `idx` became goes into the branch. -/
def graftChild (ps : Nat) (f : Tree) (es : List (Key × Tree)) (idx : Nat) : Inserted → Inserted
  | .duplicate => .duplicate
  | .overrun => .overrun
  | .done c => .done (.branch (setChild f es idx c).1 (setChild f es idx c).2)
  | .split left sep right =>
      closeBranch ps (setChild f es idx left).1
        ((setChild f es idx left).2.insertIdx idx (sep, right))

def Tree.insert (ps : Nat) (key : Key) (v : ValueRef) (unique : Bool) : Tree → Inserted
  | .leaf es =>
      if unique && (AssocList.get key es).isSome then .duplicate
      else closeLeaf ps (put key v es)
  | .branch f es =>
      graftChild ps f es (rank key es)
        (match rank key es with
          | 0 => f.insert ps key v unique
          | i + 1 => insertAt es i)
where
  insertAt : List (Key × Tree) → Nat → Inserted
    | [], _ => .overrun
    | (_, t) :: _, 0 => t.insert ps key v unique
    | _ :: rest, i + 1 => insertAt rest i

/-! ## Deletion -/

inductive Removed
  | notFound
  | updated (t : Tree)
  | emptied
  | mixed

/-- Two neighbours as one; `none` when they are of different kinds. -/
def mergeTrees (sep : Key) : Tree → Tree → Option Tree
  | .leaf l, .leaf r => some (.leaf (l ++ r))
  | .branch lf l, .branch rf r => some (.branch lf (l ++ (sep, rf) :: r))
  | _, _ => none

/-- The child at `li` and its right neighbour, merged when the pair leaves
    headroom in one page; `none` when they are of different kinds. -/
def joinPair (ps : Nat) (f : Tree) (es : List (Key × Tree)) (li : Nat) :
    Option (Tree × List (Key × Tree)) :=
  match es[li]? with
  | none => some (f, es)
  | some (sep, right) =>
      match mergeTrees sep (child f es li) right with
      | none => none
      | some merged =>
          if ps * 7 / 8 < merged.size then some (f, es)
          else some ((setChild f es li merged).1, (setChild f es li merged).2.eraseIdx li)

/-- The children after the one at `idx` was offered a merge if underfull. -/
def mergeChild (ps : Nat) (f : Tree) (es : List (Key × Tree)) (idx : Nat) :
    Option (Tree × List (Key × Tree)) :=
  if es.isEmpty ∨ ps / 4 ≤ (child f es idx).size then some (f, es)
  else joinPair ps f es (mergeAt es.length idx)

/-- A single child takes the place of its branch. -/
def collapse (f : Tree) (es : List (Key × Tree)) : Tree :=
  if es.isEmpty then f else .branch f es

/-- The branch after its child at `idx` became what is given. -/
def pruneChild (ps : Nat) (f : Tree) (es : List (Key × Tree)) (idx : Nat) : Removed → Removed
  | .notFound => .notFound
  | .mixed => .mixed
  | .updated c =>
      match mergeChild ps (setChild f es idx c).1 (setChild f es idx c).2 idx with
      | none => .mixed
      | some (f', es') => .updated (collapse f' es')
  | .emptied =>
      match idx, es with
      | 0, [] => .emptied
      | 0, (_, c) :: rest => .updated (collapse c rest)
      | i + 1, es => .updated (collapse f (es.eraseIdx i))

def Tree.delete (ps : Nat) (key : Key) : Tree → Removed
  | .leaf es =>
      if (AssocList.get key es).isSome then
        if (del key es).isEmpty then .emptied
        else .updated (.leaf (del key es))
      else .notFound
  | .branch f es =>
      pruneChild ps f es (rank key es)
        (match rank key es with
          | 0 => f.delete ps key
          | i + 1 => deleteAt es i)
where
  deleteAt : List (Key × Tree) → Nat → Removed
    | [], _ => .notFound
    | (_, t) :: _, 0 => t.delete ps key
    | _ :: rest, i + 1 => deleteAt rest i

/-! ## Whole trees

    A tree may be empty.  `none` as an outcome is the call that does not
    return: a node that runs off its page, or neighbours that do not merge. -/

/-- The root above what an insertion leaves. -/
def plant (ps : Nat) : Inserted → Option Tree
  | .done t => some t
  | .split l sep r =>
      if (Tree.branch l [(sep, r)]).size ≤ ps then some (.branch l [(sep, r)]) else none
  | .duplicate => none
  | .overrun => none

def insertTop (ps : Nat) (key : Key) (v : ValueRef) : Option Tree → Option Tree
  | none => if (Tree.leaf [(key, v)]).size ≤ ps then some (.leaf [(key, v)]) else none
  | some t => plant ps (t.insert ps key v false)

/-- What a deletion leaves of the tree, and whether the key was there. -/
def uproot (t : Tree) : Removed → Option (Option Tree × Bool)
  | .notFound => some (some t, false)
  | .updated t' => some (some t', true)
  | .emptied => some (none, true)
  | .mixed => none

def deleteTop (ps : Nat) (key : Key) : Option Tree → Option (Option Tree × Bool)
  | none => some (none, false)
  | some t => uproot t (t.delete ps key)

/-- The value that a descent for `key` ends at. -/
def Tree.find (key : Key) : Tree → Option ValueRef
  | .leaf es => AssocList.get key es
  | .branch f es =>
      match rank key es with
      | 0 => f.find key
      | i + 1 => findAt es i
where
  findAt : List (Key × Tree) → Nat → Option ValueRef
    | [], _ => none
    | (_, t) :: _, 0 => t.find key
    | _ :: rest, i + 1 => findAt rest i

def topFind (key : Key) (o : Option Tree) : Option ValueRef := o.bind (Tree.find key)

end QuantyTree
