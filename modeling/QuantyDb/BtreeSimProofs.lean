import QuantyDb.PagerProofs
import QuantyDb.TreeMapProofs

/-! # The pages simulate the tree

    A tree located in pages is a tree with the id of the page of each node.
    `insert_rec` and `delete_rec` on its pages do what `Tree.insert` and
    `Tree.delete` do on its shape: they end the same way, and leave a located
    tree of the resulting shape.  What they write is what `Work` allows, so
    everything that the tree does not own is as before. -/

namespace QuantyBtreeSim

open QuantyKey QuantyPage QuantyPager QuantyPagerInv QuantyBtree QuantyTree QuantyTreeMap CowHeap
open Node
open AssocList
open Fan
open List

/-! ## Running a call -/

section Run

variable {α β : Type} {m : BatchM α} {k : α → BatchM β} {b b' : Batch}

theorem bind_ok {a : α} (h : m b = .ok a b') : (m >>= k) b = k a b' := by
  show EStateM.bind m k b = k a b'
  unfold EStateM.bind
  rw [h]

theorem get_bind {k : Batch → BatchM β} : (get >>= k) b = k b b := rfl

theorem bind_error {e : Error} (h : m b = .error e b') : (m >>= k) b = .error e b' := by
  show EStateM.bind m k b = .error e b'
  unfold EStateM.bind
  rw [h]

/-- A sequence that succeeds took its first step and then the rest. -/
theorem bind_eq_ok {r : β} (h : (m >>= k) b = .ok r b') :
    ∃ a b₁, m b = .ok a b₁ ∧ k a b₁ = .ok r b' := by
  cases hm : m b with
  | ok a b₁ => exact ⟨a, b₁, rfl, (bind_ok hm).symm.trans h⟩
  | error e b₁ => nomatch (bind_error hm).symm.trans h

end Run

/-! ## Located trees -/

inductive Located
  | leaf (page : PageId) (entries : List (Key × ValueRef))
  | branch (page : PageId) (firstChild : Located) (entries : List (Key × Located))

variable {p : PageId} {C : List (PageId × Page)} {n : Node} {P : Located → Prop} {q : Page}
  {b' : Batch}

namespace Located

def page : Located → PageId
  | .leaf p _ => p
  | .branch p _ _ => p

/-- The node that the page at the top holds. -/
def node : Located → Node
  | .leaf _ es => .leaf es
  | .branch _ f es => .branch f.page (es.map (Prod.map id page))

def shape : Located → Tree
  | .leaf _ es => .leaf es
  | .branch _ f es => .branch f.shape (shapes es)
where
  shapes : List (Key × Located) → List (Key × Tree)
    | [] => []
    | (k, t) :: rest => (k, t.shape) :: shapes rest

/-- Every page of the tree with its contents. -/
def pages : Located → List (PageId × Page)
  | .leaf p es => [(p, .node (.leaf es))]
  | .branch p f es =>
      (p, .node (.branch f.page (es.map (Prod.map id page)))) :: (f.pages ++ pagesOf es)
where
  pagesOf : List (Key × Located) → List (PageId × Page)
    | [] => []
    | (_, t) :: rest => t.pages ++ pagesOf rest

/-- The pages of a list of slots. -/
def slotPages (l : List (Option Key × Located)) : List (PageId × Page) :=
  l.flatMap (fun s => s.2.pages)

@[simp] theorem slotPages_nil : slotPages [] = [] := rfl

@[simp] theorem slotPages_cons (s : Option Key × Located) (l : List (Option Key × Located)) :
    slotPages (s :: l) = s.2.pages ++ slotPages l := by
  simp [slotPages]

@[simp] theorem slotPages_append (l m : List (Option Key × Located)) :
    slotPages (l ++ m) = slotPages l ++ slotPages m := by
  simp [slotPages]

theorem induct (hleaf : ∀ p es, P (.leaf p es))
    (hbranch : ∀ p f es, P f → (∀ e ∈ es, P e.2) → P (.branch p f es)) (t : Located) : P t := by
  refine @Located.rec P (fun es => ∀ e ∈ es, P e.2) (fun e => P e.2) hleaf hbranch ?_ ?_ ?_ t
  · intro e he
    nomatch he
  · intro e es he hes e' he'
    rcases mem_cons.mp he' with heq | hmem
    · exact heq ▸ he
    · exact hes e' hmem
  · intro k t ht
    exact ht

/-- Induction along the descent for a key. -/
theorem descend (key : Key) (hleaf : ∀ p es, P (.leaf p es))
    (hbranch : ∀ p f es, P (branchChild f es key) → P (.branch p f es)) (t : Located) : P t := by
  induction t using induct with
  | hleaf p es => exact hleaf p es
  | hbranch p f es ihf ihes => exact hbranch p f es (child_of_forall ihf ihes _)

@[simp] theorem shape_leaf (p : PageId) (es : List (Key × ValueRef)) :
    (Located.leaf p es).shape = .leaf es := by
  rw [shape]

@[simp] theorem shape_branch (p : PageId) (f : Located) (es : List (Key × Located)) :
    (Located.branch p f es).shape = .branch f.shape (es.map (Prod.map id shape)) := by
  rw [shape]
  congr 1
  induction es with
  | nil => rw [shape.shapes]; rfl
  | cons e es ih => rw [shape.shapes, ih]; rfl

@[simp] theorem pages_leaf (p : PageId) (es : List (Key × ValueRef)) :
    (Located.leaf p es).pages = [(p, .node (.leaf es))] := by
  rw [pages]

theorem pages_branch (p : PageId) (f : Located) (es : List (Key × Located)) :
    (Located.branch p f es).pages
      = (p, .node (Located.branch p f es).node) :: slotPages (slots f es) := by
  rw [pages, node]
  congr 1
  rw [slots, slotPages_cons]
  congr 1
  induction es with
  | nil => rw [pages.pagesOf]; rfl
  | cons e es ih => rw [pages.pagesOf, ih]; simp

/-- The page at the top is a page of the tree. -/
theorem mem_pages (t : Located) : (t.page, Page.node t.node) ∈ t.pages := by
  cases t with
  | leaf p es => rw [pages_leaf]; exact mem_singleton.mpr rfl
  | branch p f es => rw [pages_branch]; exact .head _ ..

theorem shape_branchChild (f : Located) (es : List (Key × Located)) (key : Key) :
    branchChild f.shape (es.map (Prod.map id shape)) key = (branchChild f es key).shape := by
  rw [branchChild, branchChild, rank_map, child_map]

theorem page_branchChild (f : Located) (es : List (Key × Located)) (key : Key) :
    branchChild f.page (es.map (Prod.map id page)) key = (branchChild f es key).page := by
  rw [branchChild, branchChild, rank_map, child_map]

/-- The pages of a branch around those of one child. -/
theorem pages_cut {f : Located} {es : List (Key × Located)} {i : Nat}
    {pre : List (Option Key × Located)} {s : Option Key} (hc : Fan.Cut f es i pre s) :
    (Located.branch p f es).pages
      = ((p, .node (Located.branch p f es).node) :: slotPages pre)
        ++ ((child f es i).pages ++ slotPages (entrySlots (es.drop i))) := by
  rw [pages_branch, hc.eq]
  simp

/-- The pages below the page at the top. -/
def under : Located → List (PageId × Page)
  | .leaf _ _ => []
  | .branch _ f es => slotPages (slots f es)

theorem pages_eq (t : Located) : t.pages = (t.page, .node t.node) :: t.under := by
  cases t with
  | leaf p es => exact pages_leaf p es
  | branch p f es => exact pages_branch p f es

/-- Putting a located tree in the place of a child: the node of the branch is
    the one that `setChild` on the page ids gives. -/
theorem node_setChild (p : PageId) (f : Located) (es : List (Key × Located)) (i : Nat)
    (t : Located) :
    (Located.branch p (setChild f es i t).1 (setChild f es i t).2).node
      = .branch (setChild f.page (es.map (Prod.map id page)) i t.page).1
          (setChild f.page (es.map (Prod.map id page)) i t.page).2 := by
  rw [node, setChild_map]

theorem shape_setChild (p : PageId) (f : Located) (es : List (Key × Located)) (i : Nat)
    (t : Located) :
    (Located.branch p (setChild f es i t).1 (setChild f es i t).2).shape
      = .branch (setChild f.shape (es.map (Prod.map id shape)) i t.shape).1
          (setChild f.shape (es.map (Prod.map id shape)) i t.shape).2 := by
  rw [shape_branch, setChild_map]

theorem encodedSize_node (t : Located) : t.node.encodedSize = t.shape.size := by
  cases t with
  | leaf p es => rw [shape_leaf]; rfl
  | branch p f es =>
      rw [shape_branch, node, encodedSize, Tree.size, branchCells_map, branchCells_map]

theorem inOrder_node {t : Located} (h : t.shape.topInOrder) : t.node.inOrder = true := by
  cases t with
  | leaf p es =>
      rw [shape_leaf] at h
      exact (ascending_iff_sorted es).mpr h
  | branch p f es =>
      rw [shape_branch] at h
      refine (ascending_iff_sorted _).mpr ?_
      have h' : (es.map (Prod.map id shape)).Pairwise (fun a b => a.1 < b.1) := h
      rw [pairwise_map] at h'
      exact pairwise_map.mpr h'

/-- The pages that the descent for a key goes through. -/
def path (key : Key) : Located → List PageId
  | .leaf p _ => [p]
  | .branch p f es =>
      p :: (match rank key es with
        | 0 => f.path key
        | i + 1 => pathAt es i)
where
  pathAt : List (Key × Located) → Nat → List PageId
    | [], _ => []
    | (_, t) :: _, 0 => t.path key
    | _ :: rest, i + 1 => pathAt rest i

theorem path_leaf (key : Key) (p : PageId) (es : List (Key × ValueRef)) :
    (Located.leaf p es).path key = [p] := by
  rw [path]

theorem path_branch (key : Key) (p : PageId) (f : Located) (es : List (Key × Located)) :
    (Located.branch p f es).path key = p :: (branchChild f es key).path key := by
  rw [path, branchChild]
  congr 1
  have hle := rank_le_length key es
  split
  next h0 => rw [h0]; rfl
  next i hi =>
    rw [hi]
    exact at_child (by simp [path.pathAt]) (by simp [path.pathAt]) f es (by omega)

/-- How many pages the longest way down goes through. -/
def height : Located → Nat
  | .leaf _ _ => 1
  | .branch _ f es => max f.height (heightOf es) + 1
where
  heightOf : List (Key × Located) → Nat
    | [] => 0
    | (_, t) :: rest => max t.height (heightOf rest)

theorem height_leaf (p : PageId) (es : List (Key × ValueRef)) : (Located.leaf p es).height = 1 := by
  rw [height]

/-- The children of a branch are lower, and one of them by one page only. -/
theorem height_slots (p : PageId) (f : Located) (es : List (Key × Located)) :
    (∀ s ∈ slots f es, s.2.height < (Located.branch p f es).height)
      ∧ ∃ s ∈ slots f es, (Located.branch p f es).height = s.2.height + 1 := by
  have hof : ∀ l : List (Key × Located), (∀ e ∈ l, e.2.height ≤ height.heightOf l)
      ∧ (height.heightOf l = 0 ∨ ∃ e ∈ l, e.2.height = height.heightOf l) := by
    intro l
    induction l with
    | nil => exact ⟨nofun, .inl (by rw [height.heightOf])⟩
    | cons e rest ih =>
        rw [height.heightOf]
        refine ⟨?_, ?_⟩
        · intro e' he'
          rcases mem_cons.mp he' with rfl | he'
          · exact le_max_left _ _
          · exact (ih.1 e' he').trans (le_max_right _ _)
        · rcases le_total e.2.height (height.heightOf rest) with hle | hle
          · rcases ih.2 with hzero | ⟨e', he', heq⟩
            · exact .inl (by omega)
            · exact .inr ⟨e', .tail _ he', by omega⟩
          · exact .inr ⟨e, (.head _) .., by omega⟩
  rw [height]
  refine ⟨?_, ?_⟩
  · intro s hs
    rcases mem_cons.mp hs with rfl | hs
    · exact Nat.lt_succ_of_le (le_max_left _ _)
    · obtain ⟨e, he, rfl⟩ := mem_map.mp hs
      exact Nat.lt_succ_of_le (((hof es).1 e he).trans (le_max_right _ _))
  · rcases le_total f.height (height.heightOf es) with hle | hle
    · rcases (hof es).2 with hzero | ⟨e, he, heq⟩
      · exact ⟨_, (.head _) .., by dsimp only; omega⟩
      · exact ⟨(some e.1, e.2), mem_cons_of_mem _ (mem_map_of_mem he), by
          dsimp only; omega⟩
    · exact ⟨_, (.head _) .., by dsimp only; omega⟩

theorem path_length_le_height (key : Key) (t : Located) : (t.path key).length ≤ t.height := by
  induction t using descend key with
  | hleaf p es => rw [path_leaf, height_leaf]; exact le_rfl
  | hbranch p f es ih =>
      obtain ⟨pre, s, hc⟩ := exists_cut f es (rank_le_length key es)
      have hlt := (height_slots p f es).1 (s, branchChild f es key) (by
        rw [hc.eq]
        exact mem_append_right _ (mem_cons_self ..))
      rw [path_branch, length_cons]
      dsimp only at hlt
      omega

end Located

/-! ## Writing nodes -/

section WriteNode

variable {b : Batch} {L : FreePages} {n : Node}

theorem encodeInto_ok (hs : Sound b L) {id : PageId} (hq : AssocList.get id b.dirty = some q)
    (hfit : n.encodedSize ≤ b.pageSize) :
    ∃ b', encodeInto id n b = .ok () b' ∧ Work b L [(id, q)] b' L [(id, .node n)] := by
  obtain ⟨b₁, hmut, hw, hget, -⟩ := pageMut_work hs hq (fun _ => .node n)
  have hps : ¬ b₁.pageSize < n.encodedSize := by
    rw [hw.stays.pageSize]; exact not_lt.mpr hfit
  refine ⟨b₁.keepNodeSized id n n.encodedSize, ?_,
    hw.trans (keepNodeSized_work hw.sound hw.holds hget)⟩
  unfold encodeInto
  rw [bind_ok hmut, get_bind, if_neg hps]
  rfl

theorem encodeInto_panic (hs : Sound b L) {id : PageId} (hq : AssocList.get id b.dirty = some q)
    (hbig : b.pageSize < n.encodedSize) :
    ∃ b', encodeInto id n b = .error (.panic "range end index out of range for slice") b' := by
  obtain ⟨b₁, hmut, hw, -, -⟩ := pageMut_work hs hq (fun _ => .node n)
  refine ⟨b₁, ?_⟩
  unfold encodeInto
  rw [bind_ok hmut, get_bind,
    if_pos (by rw [hw.stays.pageSize]; exact hbig)]
  rfl

/-- The page that a node came from, if it came from one. -/
def Source : Option PageId → List (PageId × Page) → Prop
  | none, C => C = []
  | some p, C => ∃ q, C = [(p, q)]

theorem allocate_drop (hs : Sound b L) (hC : Holds (view b L) C) (ty : PageType) :
    ∃ id b' L' q, allocate ty b = .ok id b' ∧ Work b L C b' L' [(id, q)]
      ∧ AssocList.get id b'.dirty = some q := by
  obtain ⟨L', hw, hget⟩ := allocate_work hs ty
  exact ⟨_, _, L', _, rfl, (hw.frame hC).drop (sublist_append_left _ _), hget⟩

theorem writablePage_ok (hs : Sound b L) (old : Option PageId) (hC : Holds (view b L) C)
    (hold : Source old C) (ty : PageType) :
    ∃ id b' L' q, writablePage old ty b = .ok id b' ∧ Work b L C b' L' [(id, q)]
      ∧ AssocList.get id b'.dirty = some q := by
  cases old with
  | none => exact allocate_drop hs hC ty
  | some p =>
      obtain ⟨q, rfl⟩ := hold
      unfold writablePage
      by_cases ho : b.owns p = true
      · obtain ⟨q', hq'⟩ := owns_iff.mp ho
        have hq : q' = q := by
          have h1 := hC.stored (p, q) (mem_singleton.mpr rfl)
          have h2 := read_eq_some (L := L).mpr (pageBytes_of_owned hq')
          exact Option.some.inj (h2.symm.trans h1)
        exact ⟨p, b, L, q, by simp only [ho, if_true], Work.refl hs hC, hq ▸ hq'⟩
      · simp only [ho]
        exact allocate_drop hs hC ty

/-- **WRITING A NODE** that fits. -/
theorem writeNode_ok (hs : Sound b L) (old : Option PageId) (hC : Holds (view b L) C)
    (hold : Source old C) (hfit : n.encodedSize ≤ b.pageSize) :
    ∃ id b' L', writeNode old n b = .ok id b' ∧ Work b L C b' L' [(id, .node n)] := by
  obtain ⟨id, b₁, L₁, q, hrun, hw, hq⟩ := writablePage_ok hs old hC hold (pageType n)
  obtain ⟨b₂, henc, hw₂⟩ := encodeInto_ok hw.sound hq (by rw [hw.stays.pageSize]; exact hfit)
  refine ⟨id, b₂, L₁, ?_, hw.trans hw₂⟩
  unfold writeNode
  rw [bind_ok hrun, bind_ok henc]
  rfl

/-- A written node is the batch's own. -/
theorem writeNode_owned {old : Option PageId} {id : PageId} (h : writeNode old n b = .ok id b') :
    b'.owns id = true := by
  obtain ⟨x, b₁, -, h⟩ := bind_eq_ok h
  obtain ⟨u, b₂, henc, h⟩ := bind_eq_ok h
  injection h with hid hb
  subst hid hb
  obtain ⟨u', b₃, hmut, henc⟩ := bind_eq_ok henc
  have hput : b₃.owns x = true := by
    unfold Batch.pageMut at hmut
    dsimp only at hmut
    split at hmut
    · injection hmut with _ hmut
      subst hmut
      show (AssocList.get x (put _ _ _)).isSome = true
      rw [get_put, if_pos rfl]
      rfl
    · nomatch hmut
  rw [get_bind] at henc
  split at henc
  · nomatch henc
  · injection henc with _ henc
    subst henc
    exact hput

/-- Writing a node that does not fit. -/
theorem writeNode_panic (hs : Sound b L) (old : Option PageId) (hC : Holds (view b L) C)
    (hold : Source old C) (hbig : b.pageSize < n.encodedSize) :
    ∃ b', writeNode old n b = .error (.panic "range end index out of range for slice") b' := by
  obtain ⟨id, b₁, L₁, q, hrun, hw, hq⟩ := writablePage_ok hs old hC hold (pageType n)
  obtain ⟨b₂, henc⟩ := encodeInto_panic hw.sound hq (by rw [hw.stays.pageSize]; exact hbig)
  refine ⟨b₂, ?_⟩
  unfold writeNode
  rw [bind_ok hrun, bind_error henc]

end WriteNode

/-! ## Searching a leaf -/

section Search

variable {es : List (Key × ValueRef)}

/-- Binary search on entries in order: what is found, and that acting at the
    index it gives is putting or deleting the key. -/
theorem binarySearch_spec (hs : AssocList.Sorted es) (key : Key) (v : ValueRef) :
    (binarySearch key es).2 = (AssocList.get key es).isSome
      ∧ ((binarySearch key es).2 = false →
          es.insertIdx (binarySearch key es).1 (key, v) = AssocList.put key v es)
      ∧ ((binarySearch key es).2 = true →
          es.modify (binarySearch key es).1 (fun e => (e.1, v)) = AssocList.put key v es
          ∧ es.eraseIdx (binarySearch key es).1 = AssocList.del key es) := by
  induction es with
  | nil => simp [binarySearch, AssocList.get, AssocList.put]
  | cons e rest ih =>
      obtain ⟨k, w⟩ := e
      obtain ⟨hlt, hrest⟩ := pairwise_cons.mp hs
      by_cases h1 : k < key
      · -- the search goes past the first entry
        have hb : binarySearch key ((k, w) :: rest)
            = ((binarySearch key rest).1 + 1, (binarySearch key rest).2) := by
          simp [binarySearch, h1]
        have hne : k ≠ key := ne_of_lt h1
        obtain ⟨ihf, ihi, ihd⟩ := ih hrest
        rw [hb]
        refine ⟨?_, ?_, ?_⟩
        · simp only [AssocList.get, if_neg hne]
          exact ihf
        · intro hf
          simp only [AssocList.put, if_pos h1, insertIdx_succ_cons]
          rw [ihi hf]
        · intro hf
          obtain ⟨ihm, ihe⟩ := ihd hf
          simp only [AssocList.put, if_pos h1, modify_succ_cons, eraseIdx_cons_succ]
          refine ⟨by rw [ihm], ?_⟩
          rw [ihe, AssocList.del, AssocList.del, filter_cons_of_pos (by simpa using hne)]
      · -- the first entry is the one, or past the key
        have hb : binarySearch key ((k, w) :: rest) = (0, decide (k = key)) := by
          simp [binarySearch, h1]
        rw [hb]
        by_cases h2 : k = key
        · subst h2
          refine ⟨by simp [AssocList.get], by simp, fun _ => ⟨by simp [AssocList.put], ?_⟩⟩
          rw [AssocList.del, filter_cons_of_neg (by simp)]
          refine (filter_eq_self.mpr fun e he => ?_).symm
          simpa using ne_of_gt (hlt e he)
        · have hk : key < k := lt_of_le_of_ne (not_lt.mp h1) (Ne.symm h2)
          refine ⟨?_, fun _ => by simp [AssocList.put, h1, h2], by simp [h2]⟩
          have hnone : AssocList.get key ((k, w) :: rest) = none :=
            AssocList.get_eq_none fun e he => by
              rcases mem_cons.mp he with rfl | hm
              · exact h2
              · exact ne_of_gt (lt_trans hk (hlt e hm))
          rw [hnone]
          simp [h2]

/-- A key that was absent adds one cell. -/
theorem leafCells_put {key : Key} (h : AssocList.get key es = none) (v : ValueRef) :
    leafCells (put key v es) = leafCells es + leafCellSize key v := by
  induction es with
  | nil => simp [AssocList.put]
  | cons e rest ih =>
      obtain ⟨k, w⟩ := e
      simp only [AssocList.get] at h
      split at h
      · cases h
      · next hne =>
        simp only [AssocList.put]
        split
        · rw [leafCells_cons, leafCells_cons, ih h]
          omega
        · rw [leafCells_cons, Nat.add_comm]

end Search

/-! ## Loading nodes -/

section Load

variable {b : Batch} {L : FreePages}

/-- A kept node is the node of its page. -/
theorem kept_eq (hs : Sound b L) {m : Node} {z : Nat} (hp : b.pageBytes p = .ok (.node n))
    (hk : AssocList.get p b.nodes = some (m, z)) :
    m = n ∧ AssocList.get p b.dirty = some (.node n) ∧ z = n.encodedSize := by
  obtain ⟨hd, hz⟩ := hs.kept p m z hk
  have hm := (pageBytes_of_owned hd).symm.trans hp
  cases hm
  exact ⟨rfl, hd, hz⟩

/-- The child that a node sends a key to. -/
def childFor (key : Key) : Node → Option PageId
  | .branch f es => some (branchChild f es key)
  | .leaf _ => none

theorem descent_eq (hs : Sound b L) (hp : b.pageBytes p = .ok (.node n)) (key : Key) :
    descent p key b = .ok (childFor key n) := by
  unfold descent Batch.keptNode
  cases hk : AssocList.get p b.nodes with
  | none =>
      rw [hp]
      cases n <;> rfl
  | some x =>
      obtain ⟨m, z⟩ := x
      obtain ⟨rfl, -, -⟩ := kept_eq hs hp hk
      rw [hp]
      cases m <;> rfl

theorem loadNode_ok (hs : Sound b L) (hC : Holds (view b L) C) (hm : (p, Page.node n) ∈ C)
    (ho : n.inOrder = true) : ∃ b', loadNode p b = .ok n b' ∧ Work b L C b' L C := by
  have hp := Holds.pageBytes hC hm
  unfold loadNode
  cases hk : AssocList.get p b.nodes with
  | none =>
      refine ⟨b, ?_, Work.refl hs hC⟩
      simp only [hp, decode_ok ho]
  | some x =>
      obtain ⟨m, z⟩ := x
      obtain ⟨rfl, -, -⟩ := kept_eq hs hp hk
      exact ⟨{ b with nodes := del p b.nodes }, rfl,
        work_quiet hs hC b.savepoint _ fun id x hx => .inl (get_del_nodes p id x hx)⟩

theorem decodePage_ok (hC : Holds (view b L) C) (hm : (p, Page.node n) ∈ C)
    (ho : n.inOrder = true) :
    decodePage p b = .ok n b := by
  unfold decodePage
  rw [Holds.pageBytes hC hm]
  simp only [decode_ok ho]
  rfl

end Load

/-! ## Closing nodes -/

/-- A leaf with the key is among the pages, and the batch wrote it. -/
def Landed (key : Key) (b : Batch) (C : List (PageId × Page)) : Prop :=
  ∃ x es, (x, Page.node (.leaf es)) ∈ C ∧ (AssocList.get key es).isSome = true
    ∧ b.owns x = true

/-- How a call that inserts the key into the pages `C` has to end, given how
    the insertion into the tree ends. -/
def InsertPost (key : Key) (b : Batch) (L : FreePages)
    (C : List (PageId × Page)) (r : EStateM.Result Error Batch Insert) : Inserted → Prop
  | .done s => ∃ (t : Located) (b' : Batch) (L' : FreePages),
      r = .ok (.done t.page) b' ∧ t.shape = s ∧ Work b L C b' L' t.pages ∧ Landed key b' t.pages
  | .split l sep r' => ∃ (tl tr : Located) (b' : Batch) (L' : FreePages),
      r = .ok (.split tl.page sep tr.page) b' ∧ tl.shape = l ∧ tr.shape = r'
        ∧ Work b L C b' L' (tl.pages ++ tr.pages) ∧ Landed key b' (tl.pages ++ tr.pages)
  | .duplicate => ∃ b' L', r = .ok .duplicate b' ∧ Work b L C b' L' C
  | .overrun => ∃ what b', r = .error (.panic what) b'

section Close

variable {b : Batch} {L : FreePages} {p : PageId} {q : Page} {key : Key}

/-- What the batch wrote stays its own, and more pages do no harm. -/
theorem Landed.later {L' : FreePages} {D A B : List (PageId × Page)}
    (h : Landed key b C) (hw : Work b L A b' L' B) (hsub : ∀ c ∈ C, c ∈ D) : Landed key b' D := by
  obtain ⟨x, es, hmem, hkey, hown⟩ := h
  exact ⟨x, es, hsub _ hmem, hkey, hw.moves.ext.owned x hown⟩

/-- Work done before the call counts. -/
theorem InsertPost.after {b₀ : Batch} {L₀ : FreePages} {C₀ : List (PageId × Page)}
    {r : EStateM.Result Error Batch Insert} {o : Inserted} (hw : Work b₀ L₀ C₀ b L C)
    (hC : o = .duplicate → C = C₀) (h : InsertPost key b L C r o) :
    InsertPost key b₀ L₀ C₀ r o := by
  cases o with
  | done s =>
      obtain ⟨t, b', L', hr, hs, hw', hland⟩ := h
      exact ⟨t, b', L', hr, hs, hw.trans hw', hland⟩
  | split l sep r' =>
      obtain ⟨tl, tr, b', L', hr, hl, hr', hw', hland⟩ := h
      exact ⟨tl, tr, b', L', hr, hl, hr', hw.trans hw', hland⟩
  | duplicate =>
      obtain ⟨b', L', hr, hw'⟩ := h
      have := hw.trans hw'
      rw [hC rfl] at this
      exact ⟨b', L', hr, this⟩
  | overrun =>
      obtain ⟨what, b', hr⟩ := h
      exact ⟨what, b', hr⟩

theorem writeHalves_ok (hs : Sound b L) {R : List (PageId × Page)}
    (hh : Holds (view b L) ((p, q) :: R)) (nl : Node) (sep : Key) (nr : Node)
    (hl : nl.encodedSize ≤ b.pageSize) (hr : nr.encodedSize ≤ b.pageSize) :
    ∃ x y b' L', writeHalves p nl sep nr b = .ok (.split x sep y) b'
      ∧ Work b L ((p, q) :: R) b' L' ((x, .node nl) :: (y, .node nr) :: R)
      ∧ b'.owns x = true ∧ b'.owns y = true := by
  have hhp : Holds (view b L) [(p, q)] := hh.sublist (singleton_sublist.mpr (by simp))
  obtain ⟨x, b₁, L₁, hrun₁, hw₁⟩ := writeNode_ok hs (some p) hhp ⟨q, rfl⟩ hl
  have hw₁' : Work b L ((p, q) :: R) b₁ L₁ ((x, .node nl) :: R) := hw₁.frame hh
  obtain ⟨y, b₂, L₂, hrun₂, hw₂⟩ := writeNode_ok hw₁.sound none
    (Holds.nil (view b₁ L₁)) rfl (by rw [hw₁.stays.pageSize]; exact hr)
  have hw₂' : Work b₁ L₁ ((x, .node nl) :: R) b₂ L₂ ((y, .node nr) :: (x, .node nl) :: R) :=
    hw₂.frame hw₁'.holds
  refine ⟨x, y, b₂, L₂, ?_, (hw₁'.trans hw₂').perm (List.Perm.refl _) (List.Perm.swap _ _ _),
    hw₂.moves.ext.owned x (writeNode_owned hrun₁), writeNode_owned hrun₂⟩
  unfold writeHalves
  rw [bind_ok hrun₁, bind_ok hrun₂]
  rfl

theorem writeHalves_panic (hs : Sound b L) (hh : Holds (view b L) [(p, q)]) {nl nr : Node}
    {sep : Key} (h : ¬ (nl.encodedSize ≤ b.pageSize ∧ nr.encodedSize ≤ b.pageSize)) :
    ∃ what b', writeHalves p nl sep nr b = .error (.panic what) b' := by
  unfold writeHalves
  by_cases hl : nl.encodedSize ≤ b.pageSize
  · obtain ⟨x, b₁, L₁, hrun₁, hw₁⟩ := writeNode_ok hs (some p) hh ⟨q, rfl⟩ hl
    obtain ⟨b₂, hrun₂⟩ := writeNode_panic (n := nr) hw₁.sound none
      (Holds.nil (view b₁ L₁)) rfl
      (by rw [hw₁.stays.pageSize]; exact not_le.mp fun hr => h ⟨hl, hr⟩)
    exact ⟨_, b₂, by rw [bind_ok hrun₁, bind_error hrun₂]⟩
  · obtain ⟨b₁, hrun₁⟩ := writeNode_panic hs (some p) hh ⟨q, rfl⟩ (not_le.mp hl)
    exact ⟨_, b₁, by rw [bind_error hrun₁]⟩

theorem finishLeaf_post (hs : Sound b L) (hh : Holds (view b L) [(p, q)])
    (es : List (Key × ValueRef)) (hkey : (AssocList.get key es).isSome = true) :
    InsertPost key b L [(p, q)] (finishLeaf p es b) (closeLeaf b.pageSize es) := by
  unfold finishLeaf closeLeaf
  rw [get_bind]
  by_cases hfit : (Tree.leaf es).size ≤ b.pageSize
  · rw [if_pos hfit, if_pos (show (leaf es).encodedSize ≤ b.pageSize from hfit)]
    obtain ⟨x, b₁, L₁, hrun, hw⟩ :=
      writeNode_ok (n := .leaf es) hs (some p) hh ⟨q, rfl⟩ hfit
    refine ⟨.leaf x es, b₁, L₁, bind_ok hrun, Located.shape_leaf x es, ?_⟩
    rw [Located.pages_leaf]
    exact ⟨hw, x, es, mem_singleton.mpr rfl, hkey, writeNode_owned hrun⟩
  · rw [if_neg hfit, if_neg (show ¬ (leaf es).encodedSize ≤ b.pageSize from hfit)]
    by_cases hlen : es.length < 2
    · rw [if_pos hlen, if_pos hlen]
      exact ⟨_, b, rfl⟩
    · rw [if_neg hlen, if_neg hlen]
      rw [show max 1 (min (splitPoint (leafCells es) 0 0 es) (es.length - 1)) = leafCut es from rfl]
      cases hd : es.drop (leafCut es) with
      | nil => exact ⟨_, b, rfl⟩
      | cons e rest =>
          show InsertPost key b L [(p, q)]
            (writeHalves p (.leaf (es.take (leafCut es))) e.1 (.leaf (e :: rest)) b)
            (halves b.pageSize (.leaf (es.take (leafCut es))) e.1 (.leaf (e :: rest)))
          unfold halves
          split
          · next hf =>
            obtain ⟨x, y, b₁, L₁, hrun, hw, hownx, howny⟩ := writeHalves_ok hs hh
              (.leaf (es.take (leafCut es))) e.1 (.leaf (e :: rest)) hf.1 hf.2
            refine ⟨.leaf x (es.take (leafCut es)), .leaf y (e :: rest), b₁, L₁, hrun,
              Located.shape_leaf .., Located.shape_leaf .., ?_⟩
            rw [Located.pages_leaf, Located.pages_leaf]
            refine ⟨hw, ?_⟩
            -- the key is in one half or the other, and both were written
            rw [← take_append_drop (leafCut es) es, hd, get_append] at hkey
            cases hleft : AssocList.get key (es.take (leafCut es)) with
            | some w => exact ⟨x, _, (.head _) .., by rw [hleft]; rfl, hownx⟩
            | none =>
                rw [hleft] at hkey
                exact ⟨y, _, .tail _ (mem_cons_self ..), hkey, howny⟩
          · next hf => exact writeHalves_panic hs hh hf

theorem finishBranch_post (hs : Sound b L) (f : Located) (es : List (Key × Located))
    (hh : Holds (view b L) ((p, q) :: Located.slotPages (slots f es)))
    (hland : Landed key b (Located.slotPages (slots f es))) :
    InsertPost key b L ((p, q) :: Located.slotPages (slots f es))
      (finishBranch p f.page (es.map (Prod.map id Located.page)) b)
      (closeBranch b.pageSize f.shape (es.map (Prod.map id Located.shape))) := by
  have hhp : Holds (view b L) [(p, q)] := hh.sublist (singleton_sublist.mpr (by simp))
  have hsize : (branch f.page (es.map (Prod.map id Located.page))).encodedSize
      = (Tree.branch f.shape (es.map (Prod.map id Located.shape))).size := by
    rw [encodedSize, Tree.size, branchCells_map, branchCells_map]
  unfold finishBranch closeBranch
  rw [get_bind, hsize, length_map, length_map]
  by_cases hfit : (Tree.branch f.shape (es.map (Prod.map id Located.shape))).size ≤ b.pageSize
  · rw [if_pos hfit, if_pos hfit]
    obtain ⟨x, b₁, L₁, hrun, hw⟩ := writeNode_ok hs (some p) hhp ⟨q, rfl⟩
      (hsize ▸ hfit)
    refine ⟨.branch x f es, b₁, L₁, bind_ok hrun, Located.shape_branch x f es, ?_⟩
    rw [Located.pages_branch]
    exact ⟨hw.frame hh, hland.later hw fun c hc => .tail _ hc⟩
  · rw [if_neg hfit, if_neg hfit]
    by_cases hlen : es.length < 3
    · rw [if_pos hlen, if_pos hlen]
      exact ⟨_, b, rfl⟩
    · rw [if_neg hlen, if_neg hlen]
      rw [show max 1 (min (es.length / 2) (es.length - 2)) = branchCut es.length from rfl]
      rw [← map_drop, ← map_take, ← map_drop, ← map_take]
      cases hd : es.drop (branchCut es.length) with
      | nil => exact ⟨_, b, rfl⟩
      | cons e rest =>
          obtain ⟨sep, rf⟩ := e
          -- the children split in two, around the separator that goes up
          have hslots : slots f es = slots f (es.take (branchCut es.length))
              ++ (some sep, rf) :: entrySlots rest := by
            conv_lhs => rw [← take_append_drop (branchCut es.length) es, hd]
            rw [slots_append]
            rfl
          have hsl : (branch f.page ((es.take (branchCut es.length)).map
              (Prod.map id Located.page))).encodedSize
              = (Tree.branch f.shape ((es.take (branchCut es.length)).map
                (Prod.map id Located.shape))).size := by
            rw [encodedSize, Tree.size, branchCells_map, branchCells_map]
          have hsr : (branch rf.page (rest.map (Prod.map id Located.page))).encodedSize
              = (Tree.branch rf.shape (rest.map (Prod.map id Located.shape))).size := by
            rw [encodedSize, Tree.size, branchCells_map, branchCells_map]
          show InsertPost key b L _
            (writeHalves p (.branch f.page ((es.take (branchCut es.length)).map
              (Prod.map id Located.page))) sep
              (.branch rf.page (rest.map (Prod.map id Located.page))) b)
            (halves b.pageSize (.branch f.shape ((es.take (branchCut es.length)).map
              (Prod.map id Located.shape))) sep
              (.branch rf.shape (rest.map (Prod.map id Located.shape))))
          unfold halves
          rw [← hsl, ← hsr]
          split
          · next hf =>
            obtain ⟨x, y, b₁, L₁, hrun, hw, -, -⟩ := writeHalves_ok hs hh _ sep _ hf.1 hf.2
            refine ⟨.branch x f (es.take (branchCut es.length)), .branch y rf rest, b₁, L₁, hrun,
              Located.shape_branch .., Located.shape_branch .., ?_⟩
            have hright : Located.slotPages (slots rf rest)
                = Located.slotPages ((some sep, rf) :: entrySlots rest) := by
              rw [slots, Located.slotPages_cons, Located.slotPages_cons]
            have hperm : ((x, Page.node (Located.branch x f (es.take (branchCut es.length))).node)
                :: (y, Page.node (Located.branch y rf rest).node)
                :: Located.slotPages (slots f es)).Perm
                ((Located.branch x f (es.take (branchCut es.length))).pages
                  ++ (Located.branch y rf rest).pages) := by
              rw [Located.pages_branch, Located.pages_branch, hslots, Located.slotPages_append,
                hright]
              exact (perm_middle).symm.cons _
            exact ⟨hw.perm (List.Perm.refl _) hperm, hland.later hw fun c hc =>
              hperm.mem_iff.mp (.tail _ (.tail _ hc))⟩
          · next hf => exact writeHalves_panic hs hhp hf

end Close

end QuantyBtreeSim
