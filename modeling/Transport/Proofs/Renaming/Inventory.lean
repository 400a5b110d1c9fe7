import Transport.Renaming.Inventory

/-!
# What an inventory answers

An inventory answers for a machine what it found for the first machine with the same key. So its answers are
those of a new inventory exactly if machines with equal keys have the same usable registers. The key tells
neither forced-bypass nor temporary files apart from others, so they need not.
-/

namespace Transport

namespace Machine

variable {m : Machine} {r : Reg}

theorem mem_usableRegistersOf {f : FileId} : r ∈ m.usableRegistersOf f ↔ r.file = f ∧
    ∃ file, m.files[f.val]? = some file ∧ file.forcedBypass = false ∧ r.index < file.size ∧
      (file.temporary → r.index + 1 < file.size) := by
  unfold usableRegistersOf
  cases m.files[f.val]? with
  | none => simp
  | some file =>
    cases r with
    | mk f' i => cases file.forcedBypass <;> cases file.temporary <;> simp <;> grind

/-- Renaming may hand the register out: it is one of a file without forced bypassing, and not the last
one of a temporary file. -/
def Allots (machine : Machine) (r : Reg) : Prop :=
  ∃ file, machine.files[r.file.val]? = some file ∧ file.forcedBypass = false ∧ r.index < file.size ∧
    (file.temporary → r.index + 1 < file.size)

theorem mem_usableRegisters : r ∈ m.usableRegisters ↔ m.Allots r := by
  simp only [usableRegisters, List.mem_flatMap, Id.mem_below, mem_usableRegistersOf]
  constructor
  · rintro ⟨f, -, rfl, h⟩
    exact h
  · rintro ⟨file, hfile, h⟩
    exact ⟨r.file, (Array.getElem?_eq_some_iff.1 hfile).1, rfl, file, hfile, h⟩

/-- By file, then by index. -/
theorem pairwise_usableRegisters : m.usableRegisters.Pairwise fun r r' =>
    r.file.val < r'.file.val ∨ r.file = r'.file ∧ r.index < r'.index := by
  refine List.pairwise_flatMap.2 ⟨fun f _ => ?_, ?_⟩
  · unfold usableRegistersOf
    cases m.files[f.val]? with
    | none => exact .nil
    | some file =>
      dsimp only
      split
      · exact .nil
      · exact List.pairwise_map.2 (List.pairwise_lt_range.imp fun h => Or.inr ⟨rfl, h⟩)
  · refine List.pairwise_map.2 (List.pairwise_lt_range.imp fun {i j} h r hr r' hr' => .inl ?_)
    rw [(mem_usableRegistersOf.1 hr).1, (mem_usableRegistersOf.1 hr').1]
    exact h

end Machine

namespace Inventory

variable {inv : Inventory} {m : Machine} {ms : List Machine}

/-- The inventory after questions about the machines. -/
def after (inv : Inventory) (ms : List Machine) : Inventory := ms.foldl (fun inv m => (inv.registers m).2) inv

theorem lookup_registers {k : Machine.Key} : (inv.registers m).2.entries.lookup k =
    (inv.entries.lookup k).or (if m.key = k then some m.usableRegisters else none) := by
  unfold registers
  cases h : inv.entries.lookup m.key with
  | some regs =>
    by_cases hk : m.key = k
    · simp [← hk, h]
    · simp [hk]
  | none =>
    rw [List.lookup_append]
    by_cases hk : m.key = k
    · simp [hk]
    · simp [hk, List.lookup_cons, beq_false_of_ne (Ne.symm hk)]

/-- The first machine with a key decides. -/
theorem lookup_after {k : Machine.Key} : (inv.after ms).entries.lookup k =
    (inv.entries.lookup k).or ((ms.find? (·.key = k)).map Machine.usableRegisters) := by
  induction ms generalizing inv with
  | nil => simp [after]
  | cons m ms ih =>
    rw [after, List.foldl_cons, ← after, ih, lookup_registers, Option.or_assoc, List.find?_cons]
    congr 1
    by_cases hk : m.key = k <;> simp [hk]

theorem registers_after (ms : List Machine) (m : Machine) : ((({} : Inventory).after ms).registers m).1 =
    ((ms.find? (·.key = m.key)).getD m).usableRegisters := by
  unfold registers
  rw [lookup_after]
  cases ms.find? (·.key = m.key) <;> rfl

/-- In a series of questions, each is answered as by a new inventory exactly if machines with equal keys have the
same usable registers. A new inventory answers with the usable registers, in order. -/
theorem registers_transparent_iff (ms : List Machine) :
    ((∀ ks m, ks ++ [m] <+: ms →
        ((({} : Inventory).after ks).registers m).1 = (({} : Inventory).registers m).1) ↔
      ∀ m₀ ∈ ms, ∀ m ∈ ms, m₀.key = m.key → m₀.usableRegisters = m.usableRegisters) ∧
    ∀ m : Machine, (({} : Inventory).registers m).1 = m.usableRegisters ∧
      (∀ r, r ∈ m.usableRegisters ↔ m.Allots r) ∧ m.usableRegisters.Pairwise fun r r' =>
        r.file.val < r'.file.val ∨ r.file = r'.file ∧ r.index < r'.index := by
  have hfresh : ∀ m, (({} : Inventory).registers m).1 = m.usableRegisters := registers_after []
  refine ⟨?_, fun m => ⟨hfresh m, fun _ => Machine.mem_usableRegisters, Machine.pairwise_usableRegisters⟩⟩
  simp only [hfresh, registers_after]
  constructor
  · intro h m₀ hm₀ m hm hkey
    -- Both have the registers of the first machine with their key.
    have hfirst {m : Machine} (hm : m ∈ ms) :
        ((ms.find? (·.key = m.key)).getD m).usableRegisters = m.usableRegisters := by
      obtain ⟨ks, rest, rfl⟩ := List.append_of_mem hm
      rw [← h ks m ⟨rest, by simp⟩, List.find?_append, List.find?_cons_of_pos (by simp)]
      cases ks.find? (·.key = m.key) <;> rfl
    obtain ⟨m₁, hm₁⟩ := Option.isSome_iff_exists.1 (List.find?_isSome.2 ⟨m, hm, by simp⟩ :
      (ms.find? (·.key = m.key)).isSome)
    rw [← hfirst hm₀, ← hfirst hm, hkey, hm₁]
    rfl
  · intro h ks m hks
    cases hfind : ks.find? (·.key = m.key) with
    | none => rfl
    | some m₀ =>
      have hm₀ := List.mem_of_find?_eq_some hfind
      exact h m₀ (hks.mem (by simp [hm₀])) m (hks.mem (by simp)) (by simpa using List.find?_some hfind)

end Inventory

/-! ## A file that becomes temporary -/

/-- A machine with one file of two registers. -/
def oneFile (temporary : Bool) : Machine where
  name := "m"
  files := #[{ name := "r", size := 2, readPorts := 1, writePorts := 1, temporary }]

/-- The inventory hands out the reserved register if it knows the machine without the mark. -/
theorem reserved_register_listed : (oneFile false).key = (oneFile true).key ∧
    ((({} : Inventory).after [oneFile false]).registers (oneFile true)).1 = [⟨⟨0⟩, 0⟩, ⟨⟨0⟩, 1⟩] ∧
    (({} : Inventory).registers (oneFile true)).1 = [⟨⟨0⟩, 0⟩] := by
  decide

end Transport
