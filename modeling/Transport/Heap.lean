/-!
# Binary heaps

A heap stores its items level by level in an array, none above its parent. The top item is taken
out by putting the last one in its place, exchanging that one with its higher child down to a leaf,
and letting it rise again from there. Of two children on a level the right one is exchanged; this
settles in which order items come out that the order does not tell apart. Every step exchanges two
items, so a heap holds exactly what was put in and not yet taken out.
-/

namespace Transport

structure Heap (α : Type) where
  items : Array α := #[]
deriving DecidableEq

namespace Heap

variable {α : Type} (le : α → α → Bool)

def size (h : Heap α) : Nat := h.items.size

def toList (h : Heap α) : List α := h.items.toList

/-- Is the item at `i` not above the one at `j`? -/
def notAbove (xs : Array α) (i j : Nat) : Bool :=
  match xs[i]?, xs[j]? with
  | some x, some y => le x y
  | _, _ => true

/-- Exchange the item at `i` with its parent as long as it is above it. -/
def rise : Nat → Array α → Nat → Array α
  | 0, xs, _ => xs
  | fuel + 1, xs, i =>
    let parent := (i - 1) / 2
    if i = 0 || notAbove le xs i parent then xs
    else rise fuel (xs.swapIfInBounds i parent) parent

/-- The higher child of position `i`, the right one if they are level. -/
def higherChild? (xs : Array α) (i : Nat) : Option Nat :=
  let left := 2 * i + 1
  if left + 1 < xs.size then some (if notAbove le xs left (left + 1) then left + 1 else left)
  else if left < xs.size then some left
  else none

/-- Exchange the item at `i` with its higher child down to a leaf, and tell where that is. -/
def sink : Nat → Array α → Nat → Array α × Nat
  | 0, xs, i => (xs, i)
  | fuel + 1, xs, i =>
    match higherChild? le xs i with
    | some child => sink fuel (xs.swapIfInBounds i child) child
    | none => (xs, i)

def push (h : Heap α) (x : α) : Heap α := ⟨rise le h.size (h.items.push x) h.size⟩

/-- The heap of the given items without the first. -/
def dropTop (xs : Array α) : Heap α :=
  let rest := (xs.swapIfInBounds 0 (xs.size - 1)).pop
  let (rest, leaf) := sink le rest.size rest 0
  ⟨rise le leaf rest leaf⟩

/-- The top item, and the heap without it. -/
def pop? (h : Heap α) : Option (α × Heap α) :=
  h.items[0]?.map fun top => (top, dropTop le h.items)

/-! ## What a heap holds -/

theorem swapIfInBounds_perm (xs : Array α) (i j : Nat) : (xs.swapIfInBounds i j).Perm xs := by
  unfold Array.swapIfInBounds
  split
  · split
    · exact Array.swap_perm ..
    · exact .refl _
  · exact .refl _

theorem rise_perm (fuel : Nat) (xs : Array α) (i : Nat) : (rise le fuel xs i).Perm xs := by
  induction fuel generalizing xs i with
  | zero => exact .refl _
  | succ fuel ih =>
    simp only [rise]
    split
    · exact .refl _
    · exact (ih ..).trans (swapIfInBounds_perm ..)

theorem sink_perm (fuel : Nat) (xs : Array α) (i : Nat) : (sink le fuel xs i).1.Perm xs := by
  induction fuel generalizing xs i with
  | zero => exact .refl _
  | succ fuel ih =>
    simp only [sink]
    split
    · exact (ih ..).trans (swapIfInBounds_perm ..)
    · exact .refl _

theorem toList_push_perm (h : Heap α) (x : α) : (h.push le x).toList.Perm (x :: h.toList) := by
  have hp : (h.push le x).items.Perm (h.items.push x) := rise_perm ..
  refine hp.toList.trans ?_
  rw [Array.toList_push]
  exact List.perm_append_singleton ..

theorem toList_dropTop_perm {xs : Array α} {x : α} (h : xs[0]? = some x) :
    (x :: (dropTop le xs).toList).Perm xs.toList := by
  obtain ⟨h0, hx⟩ := Array.getElem?_eq_some_iff.1 h
  have hswap : xs.swapIfInBounds 0 (xs.size - 1) = xs.swap 0 (xs.size - 1) := by
    rw [Array.swapIfInBounds_def, dif_pos h0, dif_pos (by omega)]
  have hlast : (xs.swap 0 (xs.size - 1)).toList = (xs.swap 0 (xs.size - 1)).pop.toList ++ [x] := by
    have hne : (xs.swap 0 (xs.size - 1)).toList ≠ [] := by
      rw [ne_eq, ← List.length_eq_zero_iff, Array.length_toList, Array.size_swap]; omega
    have hx' : (xs.swap 0 (xs.size - 1)).toList.getLast hne = x := by
      simp [List.getLast_eq_getElem, hx]
    rw [Array.toList_pop, ← hx', List.dropLast_concat_getLast]
  have hrest : (dropTop le xs).items.Perm (xs.swap 0 (xs.size - 1)).pop := by
    simp only [dropTop, hswap]
    exact (rise_perm ..).trans (sink_perm ..)
  have hall : (xs.swap 0 (xs.size - 1)).toList.Perm xs.toList := (Array.swap_perm ..).toList
  rw [hlast] at hall
  exact (hrest.toList.cons x).trans ((List.perm_append_singleton ..).symm.trans hall)

theorem toList_pop?_perm {h h' : Heap α} {x : α} (hp : h.pop? le = some (x, h')) :
    (x :: h'.toList).Perm h.toList := by
  obtain ⟨_, hx, rfl, rfl⟩ : ∃ y, h.items[0]? = some y ∧ y = x ∧ dropTop le h.items = h' := by
    simpa [pop?] using hp
  exact toList_dropTop_perm le hx

end Heap

end Transport
