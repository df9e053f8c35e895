import Mathlib

/-!
# Binary heaps in an array

The operations of a heap that keeps its elements in an array: the children of position `i` are at
`2 * i + 1` and `2 * i + 2`, and the element at `0` goes before all others. The order is given by a
comparison `less`, about which nothing is assumed here.

An element sinks by swapping with the child that goes first until no child goes before it. It moves
to a larger position each time, so the number of elements bounds the number of swaps.
-/

namespace Container.Heap

variable {α : Type} (less : α → α → Bool)

/-- Whether the element at `i` goes before the one at `j`. -/
def before (h : Array α) (i j : Nat) : Bool :=
  match h[i]?, h[j]? with
  | some x, some y => less x y
  | _, _ => false

/-- Of the children of `i` among the first `n` elements, the one that goes first. -/
def firstChild (h : Array α) (i n : Nat) : Option Nat :=
  if 2 * i + 1 < n then
    some (if 2 * i + 2 < n && before less h (2 * i + 2) (2 * i + 1) then 2 * i + 2 else 2 * i + 1)
  else none

/-- `down`: let the element at `i` sink among the first `n`, for a number of swaps; where it ends. -/
def down (n : Nat) : Nat → Array α → Nat → Array α × Nat
  | 0, h, i => (h, i)
  | fuel + 1, h, i =>
    match firstChild less h i n with
    | none => (h, i)
    | some j => if before less h j i then down n fuel (h.swapIfInBounds i j) j else (h, i)

/-- `up`: let the element at `j` rise, for a number of swaps. -/
def up : Nat → Array α → Nat → Array α
  | 0, h, _ => h
  | fuel + 1, h, j =>
    let i := (j - 1) / 2
    if i = j || !before less h j i then h else up fuel (h.swapIfInBounds i j) i

/-- `Init`: let the elements that have children sink, the last ones first. -/
def init (h : Array α) : Array α :=
  (List.range (h.size / 2)).foldr (fun i h ↦ (down less h.size h.size h i).1) h

/-- `Pop`, without the element it removes. -/
def pop (h : Array α) : Array α :=
  let n := h.size - 1
  (down less n n (h.swapIfInBounds 0 n) 0).1.pop

/-- `Fix`: restore the order after the element at `i` has changed. -/
def fix (h : Array α) (i : Nat) : Array α :=
  let sunk := down less h.size h.size h i
  if sunk.2 > i then sunk.1 else up less i sunk.1 i

end Container.Heap
