/-!
# Identifiers

Moves, dependences, operations and the resources of a machine live in tables and refer to each
other by position. An identifier carries the kind of table it points into, so that two tables
cannot be confused. It is 32 bits wide, and the largest value stands for "nothing".
-/

namespace Transport

/-- The tables an identifier can point into. -/
inductive Kind
  | move
  | edge
  | operation
  | file
  | unit
  | bus
  | block
deriving DecidableEq

/-- How the kind is spelled in a detailed report. -/
def Kind.title : Kind → String
  | .move => "MoveId"
  | .edge => "EdgeId"
  | .operation => "OpId"
  | .file => "RfId"
  | .unit => "FuId"
  | .bus => "BusId"
  | .block => "BlockId"

/-- How an identifier of the kind begins in running text. -/
def Kind.sigil : Kind → String
  | .move => "mv"
  | .edge => "e"
  | .operation => "op"
  | .file => "rf"
  | .unit => "fu"
  | .bus => "b"
  | .block => "block"

structure Id (k : Kind) where
  val : Nat
deriving DecidableEq

abbrev MoveId := Id .move
abbrev EdgeId := Id .edge
abbrev OpId := Id .operation
abbrev FileId := Id .file
abbrev UnitId := Id .unit
abbrev BusId := Id .bus
abbrev BlockId := Id .block

namespace Id

variable {k : Kind}

/-- The identifier with the low 32 bits of `n`. -/
def ofNat (n : Nat) : Id k := ⟨n % 4294967296⟩

/-- The identifier of nothing. -/
def invalid : Id k := ⟨4294967295⟩

instance : Inhabited (Id k) := ⟨invalid⟩

/-- The first `n` identifiers, in order. -/
def below (n : Nat) : List (Id k) := (List.range n).map Id.mk

@[simp] theorem mem_below {n : Nat} {i : Id k} : i ∈ below n ↔ i.val < n := by
  simp only [below, List.mem_map, List.mem_range]
  exact ⟨fun ⟨_, h, e⟩ => e ▸ h, fun h => ⟨i.val, h, rfl⟩⟩

instance : Ord (Id k) := ⟨compareOn Id.val⟩

instance : Std.TransOrd (Id k) := inferInstanceAs (Std.TransCmp (compareOn Id.val))

instance : Std.LawfulEqOrd (Id k) where
  eq_of_compare {a b} h := by
    have h : a.val = b.val := Std.LawfulEqOrd.eq_of_compare h
    cases a; cases b; simp_all

/-- `mv3`. -/
def text (i : Id k) : String := s!"{k.sigil}{i.val}"

/-- `MoveId(3)`. -/
def detail (i : Id k) : String := s!"{k.title}({i.val})"

end Id

/-- `[MoveId(0), MoveId(1)]`. -/
def detailList {k : Kind} (is : List (Id k)) : String :=
  "[" ++ ", ".intercalate (is.map Id.detail) ++ "]"

end Transport
