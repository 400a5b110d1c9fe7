import Transport.Fault

/-!
# Registers, terminals and guards

A move carries a value from one terminal to another. Writing a register takes the identifier of
its file apart, so the text of a register of no file is a fault.
-/

namespace Transport

/-- A register: a register file and an index into it. -/
structure Reg where
  file : FileId
  index : Nat
deriving DecidableEq

namespace Reg

instance : Ord Reg := ⟨compareLex (compareOn Reg.file) (compareOn Reg.index)⟩

instance : Std.TransOrd Reg :=
  inferInstanceAs (Std.TransCmp (compareLex (compareOn Reg.file) (compareOn Reg.index)))

instance : Std.LawfulEqOrd Reg where
  eq_of_compare {x y} h := by
    obtain ⟨h₁, h₂⟩ := Ordering.then_eq_eq.1 h
    have h₁ := Std.LawfulEqOrd.eq_of_compare h₁
    have h₂ := Std.LawfulEqOrd.eq_of_compare h₂
    cases x; cases y; simp_all

def text (r : Reg) : Checked String := do
  let file ← r.file.index
  return s!"rf{file}.{r.index}"

end Reg

/-- One end of a move. -/
inductive Terminal
  | register (r : Reg)
  /-- Whether it travels inline or in a long-immediate slot is decided when the move is placed. -/
  | immediate (value : Int)
  /-- An input of the unit executing the move's destination operation. The trigger starts it. -/
  | input (operand : Nat) (trigger : Bool)
  /-- An output of the unit executing the move's source operation. -/
  | output (operand : Nat)
  | returnAddress
deriving DecidableEq

namespace Terminal

def reg? : Terminal → Option Reg
  | .register r => some r
  | _ => none

def isRegister (t : Terminal) : Bool := t.reg?.isSome

def isImmediate : Terminal → Bool
  | .immediate _ => true
  | _ => false

def isInput : Terminal → Bool
  | .input .. => true
  | _ => false

def isOutput : Terminal → Bool
  | .output _ => true
  | _ => false

def isTrigger : Terminal → Bool
  | .input _ trigger => trigger
  | _ => false

def text : Terminal → Checked String
  | .register r => r.text
  | .immediate v => return s!"#{v}"
  | .input k true => return s!"fu.{k}t"
  | .input k false => return s!"fu.{k}o"
  | .output k => return s!"fu.{k}r"
  | .returnAddress => return "ra"

/-- The terminal spelled out field by field. -/
def detail : Terminal → Checked String
  | .register r => do
    let reg ← r.text
    return s!"Register({reg})"
  | .immediate v => return s!"Immediate({v})"
  | .input k t => return s!"FuInput \x7b operand: {k}, trigger: {t} \x7d"
  | .output k => return s!"FuOutput \x7b operand: {k} \x7d"
  | .returnAddress => return "ReturnAddress"

end Terminal

/-- A register that decides whether a move takes place. -/
structure Guard where
  reg : Reg
  inverted : Bool
deriving DecidableEq

namespace Guard

/-- Both test one register with opposite polarity, so at most one of the guarded moves executes. -/
def excludes (a b : Guard) : Bool := a.reg = b.reg && a.inverted != b.inverted

/-- The mark in front of a guarded move: `?rf1.0 ` or `!rf1.0 `. -/
def mark (g : Guard) : Checked String := do
  let reg ← g.reg.text
  return (if g.inverted then "!" else "?") ++ reg ++ " "

def detail (g : Guard) : Checked String := do
  let reg ← g.reg.text
  return s!"Guard \x7b reg: {reg}, inverted: {g.inverted} \x7d"

end Guard

/-- The mark of an optional guard, empty for an unconditional move. -/
def guardMark : Option Guard → Checked String
  | none => pure ""
  | some g => g.mark

end Transport
