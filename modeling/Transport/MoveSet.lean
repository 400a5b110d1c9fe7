import Transport.Fault

/-!
# Dense sets of moves

A set of moves as a row of 64-bit frames, one bit per identifier. The row grows on demand and
never shrinks, and two sets are equal only if their rows have the same length.
-/

namespace Transport

structure MoveSet where
  frames : Array (BitVec 64)
deriving DecidableEq

namespace MoveSet

def empty : MoveSet := ⟨#[]⟩

/-- The empty set with room for the identifiers up to `n`. -/
def withCapacity (n : Nat) : MoveSet := ⟨Array.replicate (n / 64 + 1) 0⟩

def bit (i : Nat) : BitVec 64 := 1#64 <<< (i % 64)

def has (s : MoveSet) (i : Nat) : Bool :=
  match s.frames[i / 64]? with
  | some frame => frame.getLsbD (i % 64)
  | none => false

def add (s : MoveSet) (i : Nat) : MoveSet :=
  let frames := s.frames ++ Array.replicate (i / 64 + 1 - s.frames.size) 0
  ⟨frames.modify (i / 64) (· ||| bit i)⟩

def drop (s : MoveSet) (i : Nat) : MoveSet :=
  ⟨s.frames.modify (i / 64) (· &&& ~~~bit i)⟩

/-- Put `n` in, and tell whether it was absent. -/
def insert (s : MoveSet) (n : MoveId) : Checked (Bool × MoveSet) := do
  let i ← n.index
  return (!s.has i, s.add i)

def erase (s : MoveSet) (n : MoveId) : Checked MoveSet := do
  return s.drop (← n.index)

def contains (s : MoveSet) (n : MoveId) : Checked Bool := do
  return s.has (← n.index)

def clear (s : MoveSet) : MoveSet := ⟨s.frames.map fun _ => 0⟩

def isEmpty (s : MoveSet) : Bool := s.frames.all (· == 0)

/-- The number of bits that are set. -/
def count (frame : BitVec 64) : Nat := (List.range 64).countP frame.getLsbD

def size (s : MoveSet) : Nat := s.frames.toList.foldr (fun frame k => count frame + k) 0

def ofList (ns : List MoveId) : Checked MoveSet :=
  ns.foldlM (fun s n => return (← s.insert n).2) (withCapacity 0)

/-! ## The members in order -/

theorem getLsbD_bit {i j : Nat} : (bit i).getLsbD (j % 64) ↔ j % 64 = i % 64 := by
  simp only [bit, BitVec.getLsbD_shiftLeft, BitVec.getLsbD_one, Bool.and_eq_true, decide_eq_true_eq,
    Bool.not_eq_true', decide_eq_false_iff_not]
  omega

theorem getLsbD_without (frame : BitVec 64) (i j : Nat) :
    (frame &&& ~~~bit i).getLsbD (j % 64) ↔ frame.getLsbD (j % 64) ∧ j % 64 ≠ i % 64 := by
  have hj : j % 64 < 64 := Nat.mod_lt _ (by decide)
  simp only [BitVec.getLsbD_and, BitVec.getLsbD_not, hj, decide_true, Bool.true_and, Bool.and_eq_true,
    Bool.not_eq_true', ← Bool.not_eq_true, getLsbD_bit, ne_eq]

/-- The frame without its lowest bit. -/
def dropLowest (frame : BitVec 64) : BitVec 64 := frame &&& ~~~bit frame.ctz.toNat

theorem getLsbD_dropLowest {frame : BitVec 64} (h : frame ≠ 0) {i : Nat} (hi : i < 64) :
    (dropLowest frame).getLsbD i ↔ frame.getLsbD i ∧ i ≠ frame.ctz.toNat := by
  have hlowest : frame.ctz.toNat < 64 := BitVec.ctz_lt_iff_ne_zero.2 h
  have hbits := getLsbD_without frame frame.ctz.toNat i
  rwa [Nat.mod_eq_of_lt hi, Nat.mod_eq_of_lt hlowest] at hbits

theorem dropLowest_lt {frame : BitVec 64} (h : frame ≠ 0) : (dropLowest frame).toNat < frame.toNat := by
  refine Nat.lt_of_le_of_ne ?_ fun heq => ?_
  · rw [dropLowest, BitVec.toNat_and]
    exact Nat.and_le_left
  · have hgone := mt (getLsbD_dropLowest h (BitVec.ctz_lt_iff_ne_zero.2 h)).1 fun h => h.2 rfl
    rw [BitVec.eq_of_toNat_eq heq] at hgone
    exact hgone (BitVec.getLsbD_true_ctz_of_ne_zero h)

/-- The members that are left after `taken` frames were taken up, if `current` is left of the last. -/
def walk (taken : Nat) (current : BitVec 64) (rest : List (BitVec 64)) : List MoveId :=
  if current = 0 then
    match rest with
    | [] => []
    | frame :: rest => walk (taken + 1) frame rest
  else Id.ofNat ((taken - 1) * 64 + current.ctz.toNat) :: walk taken (dropLowest current) rest
termination_by (rest.length, current.toNat)
decreasing_by
  · exact .left _ _ (Nat.lt_succ_self _)
  · exact .right _ (dropLowest_lt ‹_›)

/-- The members in increasing order. -/
def toList (s : MoveSet) : List MoveId := walk 0 0 s.frames.toList

/-- `{ mv1 mv5 }`. -/
def text (s : MoveSet) : String :=
  "\x7b " ++ String.join (s.toList.map fun n => n.text ++ " ") ++ "\x7d"

end MoveSet

end Transport
