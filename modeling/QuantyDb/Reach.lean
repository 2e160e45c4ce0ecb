import Mathlib

/-! # What a set of roots reaches

    Cells of a heap link to other cells.  A cell is reached in a role, because
    what a cell links to depends on what it is read as.  `Reach` is everything
    that following links from the roots can meet.

    Two facts carry every use.  A heap that agrees on what is reached reaches
    the same (`reach_congr`).  A writer that links only to what it
    wrote and to what was reached before reaches nothing else
    (`Reach.of_closed`). -/

namespace Linked

variable {R ι P : Type} {links : R → P → List (R × ι)}

/-- Reached from the roots, in a role. -/
inductive Reach (links : R → P → List (R × ι)) (look : ι → Option P) (roots : List (R × ι)) :
    R → ι → Prop where
  | root {r : R} {x : ι} (h : (r, x) ∈ roots) : Reach links look roots r x
  | link {r r' : R} {x y : ι} {p : P} (h : Reach links look roots r x) (hp : look x = some p)
      (hy : (r', y) ∈ links r p) : Reach links look roots r' y

section Heaps

variable {look look' : ι → Option P} {roots roots' : List (R × ι)}

/-- Agreement on what is reached is enough to reach the same. -/
theorem reach_congr (hlook : ∀ r x, Reach links look roots r x → look' x = look x) {r : R}
    {x : ι} : Reach links look' roots r x ↔ Reach links look roots r x := by
  constructor
  · intro h
    induction h with
    | root hroot => exact Reach.root hroot
    | link _ hp hy ih => exact Reach.link ih ((hlook _ _ ih).symm.trans hp) hy
  · intro h
    induction h with
    | root hroot => exact Reach.root hroot
    | link hx hp hy ih => exact Reach.link ih ((hlook _ _ hx).trans hp) hy

/-- **A CLOSED WRITER**: when the new roots, and the links out of the cells
    that were written, lead to written cells or to cells reached before, then
    nothing else is reached now. -/
theorem Reach.of_closed {Own : ι → Prop}
    (hroots : ∀ r x, (r, x) ∈ roots' → Own x ∨ Reach links look roots r x)
    (hlinks : ∀ r x p, Reach links look' roots' r x → Own x → look' x = some p →
      ∀ r' y, (r', y) ∈ links r p → Own y ∨ Reach links look roots r' y)
    (hframe : ∀ r x, Reach links look roots r x → ¬ Own x → look' x = look x)
    {r : R} {x : ι} (h : Reach links look' roots' r x) : Own x ∨ Reach links look roots r x := by
  induction h with
  | root hroot => exact hroots _ _ hroot
  | @link r r' x y p hx' hp hy ih =>
      by_cases hown : Own x
      · exact hlinks r x p hx' hown hp r' y hy
      · have hx := ih.resolve_left hown
        exact .inr (Reach.link hx ((hframe r x hx hown).symm.trans hp) hy)

end Heaps

end Linked
