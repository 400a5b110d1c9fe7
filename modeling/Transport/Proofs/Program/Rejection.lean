import Transport.Proofs.Program.Acceptance
import Transport.Proofs.Resource.Agreement

/-!
# The programs that have no graph

A program that is not `WellFormed` is rejected, and the report names its first offence (`offence?`):
the first move that does not fit, or the first operation that does not pass if every move fits
(`graph_rejects_iff`). Before it looks at the program the builder adds up the guard latencies of the
machine, and on a machine where a sum is too wide no program has a graph.
-/

namespace Transport

open Transport.Graph

namespace Program

variable {machine : Machine} {p : Program} {g : Graph} {n : MoveId} {o : OpId} {op : Operation}
  {pm : ProgramMove} {ms : List ProgramMove} {d : Defect}

/-! ## Offences -/

/-- What is wrong with a move, its destination first. -/
def moveDefect (p : Program) (pm : ProgramMove) : Option Defect :=
  (destDefect p.operations.size pm).or (sourceDefect p.operations.size pm)

/-- What is wrong with a declared operation. -/
def operationDefect (p : Program) (machine : Machine) (o : OpId) : Option Defect :=
  p.operations[o.val]?.bind fun decl =>
    if machine.unitsWith decl.opcode = [] then some .noUnit
    else if feeding p.moves.toList o.val ≠ [] ∧ triggers p.moves.toList o.val ≠ 1 then some .notOneTrigger
    else none

/-- The move that a report on an operation names. -/
def reported (p : Program) (o : OpId) : MoveId :=
  (feeding p.moves.toList o.val ++ reading p.moves.toList o.val).head?.getD .invalid

/-- The first move that does not fit. -/
def moveOffence? (p : Program) : Option (Defect × MoveId) :=
  p.moves.toList.zipIdx.findSome? fun x => (p.moveDefect x.1).map (·, ⟨x.2⟩)

/-- The first operation that does not pass. -/
def operationOffence? (p : Program) (machine : Machine) : Option (Defect × MoveId) :=
  (Id.below p.operations.size).findSome? fun o => (p.operationDefect machine o).map (·, p.reported o)

/-- The first offence of the program, and the move that it is reported for. -/
def offence? (p : Program) (machine : Machine) : Option (Defect × MoveId) :=
  p.moveOffence?.or (p.operationOffence? machine)

theorem moveDefect_eq_none : p.moveDefect pm = none ↔ p.Fits pm := by
  rw [moveDefect, Option.or_eq_none_iff, fits_iff]

theorem moveOffence?_eq_none : p.moveOffence? = none ↔ ∀ pm ∈ p.moves.toList, p.Fits pm := by
  simp only [moveOffence?, List.findSome?_eq_none_iff, Option.map_eq_none_iff, moveDefect_eq_none]
  rw [← List.forall_mem_map, List.zipIdx_map_fst]

theorem operationDefect_eq_none : p.operationDefect machine o = none ↔
    ∀ decl, p.operations[o.val]? = some decl → machine.unitsWith decl.opcode ≠ [] ∧
      (feeding p.moves.toList o.val ≠ [] → triggers p.moves.toList o.val = 1) := by
  rw [operationDefect, Option.bind_eq_none_iff]
  refine forall₂_congr fun decl _ => ?_
  split
  · simp_all
  · split <;> simp_all

theorem operationOffence?_eq_none :
    p.operationOffence? machine = none ↔ ∀ o, p.operationDefect machine o = none := by
  simp only [operationOffence?, List.findSome?_eq_none_iff, Option.map_eq_none_iff, Id.mem_below]
  refine ⟨fun h o => ?_, fun h o _ => h o⟩
  by_cases ho : o.val < p.operations.size
  · exact h o ho
  · rw [operationDefect, Array.getElem?_eq_none (Nat.le_of_not_lt ho), Option.bind_none]

/-- A program that does not offend is well-formed. -/
theorem offence?_eq_none : p.offence? machine = none ↔ p.WellFormed machine := by
  simp only [offence?, Option.or_eq_none_iff, moveOffence?_eq_none, operationOffence?_eq_none,
    operationDefect_eq_none]
  constructor
  · rintro ⟨hfits, hops⟩
    refine ⟨fun hpm => hfits _ hpm, fun {decl} hd => ?_, fun {pm k} hpm hk => ?_⟩
    · obtain ⟨k, hk⟩ := Array.mem_iff_getElem?.1 (Array.mem_toList_iff.1 hd)
      exact (hops ⟨k⟩ decl hk).1
    · have hlt := (hfits pm hpm).dst_known hk
      exact (hops ⟨k⟩ _ (Array.getElem?_eq_getElem hlt)).2 (feeding_ne_nil.2 ⟨pm, hpm, hk⟩)
  · rintro ⟨hfits, hunits, htrigger⟩
    refine ⟨fun pm hpm => hfits hpm, fun k decl hk => ⟨hunits ?_, fun hne => ?_⟩⟩
    · exact Array.mem_toList_iff.2 (Array.mem_of_getElem? hk)
    · obtain ⟨pm, hpm, hk⟩ := feeding_ne_nil.1 hne
      exact htrigger hpm hk

/-! ## Moves -/

section

variable (hops : p.operations.size ≤ 4294967295)
include hops

theorem Entered.enterMove_of_defect (he : Entered p machine ms g) (hlen : ms.length < 4294967295)
    (hd : p.moveDefect pm = some d) :
    enterMove g pm = .error (.error (.invalidProgram d ⟨ms.length⟩)) := by
  rw [moveDefect, ← he.size_ops] at hd
  rw [enterMove_eq, he.size]
  cases hdst : destDefect g.ops.size pm with
  | some d' =>
    rw [hdst] at hd
    cases hd
    rw [linkDest_eq, show destDefect (append g pm).ops.size pm = some d from hdst]
    rfl
  | none =>
    rw [hdst, Option.none_or] at hd
    obtain ⟨g₁, h₁⟩ := exists_linkDest (move_append (he.size ▸ hlen)) hdst (he.size_ops ▸ hops)
    obtain ⟨-, -, l⟩ := links_of_linkDest h₁
    rw [he.size] at h₁
    rw [h₁, ok_bind, linkSource_eq, l.size_ops, show sourceDefect (append g pm).ops.size pm = some d from hd]
    rfl

/-- The moves before the first offence are entered, and the offence ends the walk. -/
theorem enterMoves_of_offence (he : Entered p machine [] g) (hmoves : p.moves.size ≤ 4294967295)
    (h : p.moveOffence? = some (d, n)) :
    p.moves.toList.foldlM enterMove g = .error (.error (.invalidProgram d n)) := by
  obtain ⟨before, ⟨pm, i⟩, after, hsplit, hpm, hfits⟩ := List.findSome?_eq_some_iff.1 h
  obtain ⟨pre, rest, hlist, rfl, hrest⟩ := List.zipIdx_eq_append_iff.1 hsplit
  obtain ⟨pm', post, rfl, heq, -⟩ := List.zipIdx_eq_cons_iff.1 hrest.symm
  cases heq
  obtain ⟨d', hd, heq⟩ := Option.map_eq_some_iff.1 hpm
  cases heq
  have hsize : pre.length < p.moves.size := by
    rw [← Array.length_toList, hlist, List.length_append, List.length_cons]
    omega
  have hpre : ∀ q ∈ pre, p.Fits q := by
    rw [← List.zipIdx_map_fst 0 pre, List.forall_mem_map]
    intro x hx
    exact moveDefect_eq_none.1 (Option.map_eq_none_iff.1 (hfits x hx))
  obtain ⟨g₁, h₁⟩ := exists_enterMoves he hpre (by rw [List.nil_append]; omega) hops
  obtain ⟨he₁, -⟩ := entered_of_enterMoves he h₁
  rw [List.nil_append] at he₁
  rw [hlist, List.foldlM_append, h₁, ok_bind, List.foldlM_cons, he₁.enterMove_of_defect hops (by omega) hd,
    Nat.zero_add]
  rfl

end

/-! ## Operations -/

theorem checkOperation_of_defect {decl : OperationDecl} (hop : g.op o = .ok op)
    (hdecl : p.operations[o.val]? = some decl) (hunits : op.units = machine.unitsWith decl.opcode)
    (hin : op.inputs = feeding p.moves.toList o.val)
    (hcount : op.inputs.countP (fun n => (g.move? n).any Move.isTrigger) = triggers p.moves.toList o.val)
    (hd : p.operationDefect machine o = some d) :
    checkOperation machine g o = .error (.error (.invalidProgram d (op.moves.head?.getD .invalid))) := by
  have hlift : (liftM (g.op o) : Except Halt Operation) = .ok op := liftM_eq_ok.2 hop
  simp only [operationDefect, hdecl, Option.bind_some, ← hunits, ← hin, ← hcount] at hd
  simp only [checkOperation, hlift, ok_bind]
  split at hd
  · rename_i hunits
    cases hd
    simp only [hunits, List.isEmpty_nil, if_true]
    rfl
  · rename_i hunits
    split at hd
    · rename_i h
      cases hd
      have hcount := h.2
      simp [hunits, h.1, hcount, invalid]
      rfl
    · cases hd

theorem exists_control (hunits : machine.units.size ≤ 4294967295) (opcode : String) :
    ∃ b, ((machine.unitsWith opcode).allM fun u => return (← machine.unit u).control : Checked Bool) = .ok b := by
  have hknown : ∀ u ∈ machine.unitsWith opcode, ∃ unit, machine.unit u = .ok unit := by
    intro u hu
    simp only [Machine.unitsWith, List.mem_filter, Option.any_eq_true] at hu
    obtain ⟨-, unit, hunit, -⟩ := hu
    exact ⟨unit, fetch_ok hunits hunit⟩
  generalize machine.unitsWith opcode = us at hknown
  induction us with
  | nil => exact ⟨true, rfl⟩
  | cons u us ih =>
    obtain ⟨unit, hunit⟩ := hknown u (.head _)
    obtain ⟨b, hb⟩ := ih fun v hv => hknown v (.tail _ hv)
    cases hc : unit.control with
    | false => exact ⟨false, by simp [List.allM, hunit, hc]⟩
    | true => exact ⟨b, by simp_all [List.allM]⟩

theorem Entered.checkOperations_of_offence (he : Entered p machine p.moves.toList g) (hg : g.Matched machine)
    (hunits : machine.units.size ≤ 4294967295) (hops : p.operations.size ≤ 4294967295)
    (h : p.operationOffence? machine = some (d, n)) :
    g.opIds.foldlM (checkOperation machine) g = .error (.error (.invalidProgram d n)) := by
  obtain ⟨pre, o, post, hsplit, ho, hfirst⟩ := List.findSome?_eq_some_iff.1 h
  obtain ⟨d', hd, heq⟩ := Option.map_eq_some_iff.1 ho
  cases heq
  rw [← he.size_ops] at hsplit hops
  have hknown : ∀ x ∈ pre ++ o :: post, ∃ op decl, g.op x = .ok op ∧ g.op? x = some op ∧
      p.operations[x.val]? = some decl ∧ op.units = machine.unitsWith decl.opcode := by
    rw [← hsplit]
    intro x hx
    obtain ⟨op, hop⟩ := mem_opIds.1 hx
    obtain ⟨decl, hdecl, -, hunits, -⟩ := he.declared hop
    exact ⟨op, decl, fetch_ok hops hop, hop, hdecl, hunits⟩
  have hpasses : ∀ o ∈ pre, ∃ op, g.op o = .ok op ∧ Passes machine g op := by
    intro o ho
    obtain ⟨op, decl, hop, hop?, hdecl, heq⟩ := hknown o (List.mem_append_left _ ho)
    obtain ⟨hne, htrigger⟩ := operationDefect_eq_none.1 (Option.map_eq_none_iff.1 (hfirst o ho)) decl hdecl
    refine ⟨op, hop, heq ▸ hne, ?_, heq ▸ exists_control hunits _⟩
    rw [he.inputs hop?, he.countP_feeding]
    exact htrigger
  obtain ⟨g₁, h₁⟩ := exists_checkOperations hg (fun o op ho => he.units_eq ho) hpasses
  -- The operations before the offence may have marked their triggers, which changes no count.
  have hsame := (keeps_of_checkOperations hg h₁).1.toSameShapes
  have hops₁ := (marks_of_checkOperations hg (fun o op ho => he.units_eq ho) h₁).ops
  obtain ⟨op, decl, hop, hop?, hdecl, heq⟩ := hknown o (by simp)
  have hbad := checkOperation_of_defect (g := g₁) (by simpa only [Graph.op, hops₁] using hop) hdecl heq
    (he.inputs hop?) (by simp only [any_isTrigger_congr hsame, he.inputs hop?, he.countP_feeding]) hd
  rw [Graph.opIds, hsplit, List.foldlM_append, h₁, ok_bind, List.foldlM_cons, hbad, Operation.moves,
    he.inputs hop?, he.outputs hop?]
  rfl

/-! ## Whole programs -/

/-- The guard latencies of the machine and of each of its register files add up in 32 bits. -/
def GuardsFit (machine : Machine) : Prop :=
  ∀ file ∈ machine.files, machine.guardLatency + file.guardLatency < 4294967296

theorem mapM_eq_error {ε α β : Type} {f : α → Except ε β} {xs : List α} {x : α} {e : ε}
    (h : ∀ x ∈ xs, (∃ y, f x = .ok y) ∨ f x = .error e) (hx : x ∈ xs) (hbad : f x = .error e) :
    xs.mapM f = .error e := by
  induction xs with
  | nil => cases hx
  | cons z zs ih =>
    rw [List.mapM_cons]
    rcases h z (.head _) with ⟨y, hy⟩ | hz
    · have hx : x ∈ zs := by
        rcases List.mem_cons.1 hx with rfl | hx
        · rw [hy] at hbad
          cases hbad
        · exact hx
      rw [hy, ok_bind, ih (fun w hw => h w (.tail _ hw)) hx]
      rfl
    · rw [hz]
      rfl

section

variable (hfiles : machine.files.size ≤ 4294967295)
include hfiles

theorem totalGuardLatency_eq {f : FileId} {file : RegisterFile} (hf : machine.files[f.val]? = some file) :
    machine.totalGuardLatency f = addWord machine.guardLatency file.guardLatency := by
  have hfetch : machine.file f = .ok file := fetch_ok hfiles hf
  rw [Machine.totalGuardLatency, hfetch, ok_bind]

theorem exists_ofMachine (h : GuardsFit machine) : ∃ g, Graph.ofMachine machine = .ok g := by
  refine exists_bind_eq_ok (mapM_eq_ok_of_forall fun f hf => ?_) fun _ _ => exists_pure_eq_ok
  have hf := Array.getElem?_eq_getElem (Id.mem_below.1 hf)
  have hfit := h _ (Array.mem_of_getElem? hf)
  rw [totalGuardLatency_eq hfiles hf, addWord, addBelow, if_pos hfit]
  exact exists_pure_eq_ok

theorem ofMachine_overflows (h : ¬ GuardsFit machine) : Graph.ofMachine machine = .error .overflow := by
  simp only [GuardsFit, not_forall] at h
  obtain ⟨file, hmem, hwide⟩ := h
  obtain ⟨i, hi⟩ := Array.mem_iff_getElem?.1 hmem
  have hlatencies : (Id.below machine.files.size).mapM machine.totalGuardLatency = .error .overflow := by
    refine mapM_eq_error (x := ⟨i⟩) (fun f hf => ?_) (Id.mem_below.2 (Array.getElem?_eq_some_iff.1 hi).1) ?_
    · rw [totalGuardLatency_eq hfiles (Array.getElem?_eq_getElem (Id.mem_below.1 hf)), addWord, addBelow]
      split
      · exact .inl exists_pure_eq_ok
      · exact .inr rfl
    · rw [totalGuardLatency_eq hfiles hi, addWord, addBelow, if_neg hwide]
      rfl
  rw [Graph.ofMachine, hlatencies]
  rfl

variable (hunits : machine.units.size ≤ 4294967295) (hmoves : p.moves.size ≤ 4294967295)
  (hops : p.operations.size ≤ 4294967295)
include hunits hmoves hops

/-- The first offence ends the construction. -/
theorem graph_of_offence (hguards : GuardsFit machine) (h : p.offence? machine = some (d, n)) :
    p.graph machine = .error (.error (.invalidProgram d n)) := by
  obtain ⟨g₀, h₀⟩ := exists_ofMachine hfiles hguards
  have he := start_entered (p := p) h₀
  have hlift : (liftM (Graph.ofMachine machine) : Except Halt Graph) = .ok g₀ := liftM_eq_ok.2 h₀
  rw [graph, hlift]
  change (p.moves.toList.foldlM enterMove (p.start machine g₀) >>= _) = _
  rcases Option.or_eq_some_iff.1 h with h | ⟨hnone, h⟩
  · rw [enterMoves_of_offence hops he hmoves h]
    rfl
  · obtain ⟨g₁, h₁⟩ := exists_enterMoves he (moveOffence?_eq_none.1 hnone) (by simpa using hmoves) hops
    obtain ⟨he₁, -⟩ := entered_of_enterMoves he h₁
    rw [List.nil_append] at he₁
    rw [h₁, ok_bind, he₁.checkOperations_of_offence (matched_of_enterMoves h₀ h₁).1 hunits hops h]
    rfl

/-- A program has a graph exactly if it is well-formed, and otherwise its first offence is reported;
no program has a graph on a machine with a guard latency that is too wide. -/
theorem graph_rejects_iff :
    (GuardsFit machine → ((∃ g, p.graph machine = .ok g) ↔ p.WellFormed machine) ∧
      (¬ p.WellFormed machine → ∃ d n, p.graph machine = .error (.error (.invalidProgram d n))) ∧
      ∀ d n, p.graph machine = .error (.error (.invalidProgram d n)) ↔ p.offence? machine = some (d, n)) ∧
    (¬ GuardsFit machine → p.graph machine = .error (.fault .overflow)) := by
  refine ⟨fun hguards => ?_, fun hwide => ?_⟩
  · have hreject : ∀ {d n}, p.offence? machine = some (d, n) →
        p.graph machine = .error (.error (.invalidProgram d n)) :=
      graph_of_offence hfiles hunits hmoves hops hguards
    have haccept : p.WellFormed machine → ∃ g, p.graph machine = .ok g := fun hp =>
      exists_graph ⟨hp, exists_ofMachine hfiles hguards, fun _ => exists_control hunits _⟩ hmoves hops
    refine ⟨⟨fun ⟨g, hg⟩ => (buildable_of_graph hg).toWellFormed, haccept⟩, fun hp => ?_,
      fun d n => ⟨fun h => ?_, hreject⟩⟩
    · obtain ⟨⟨d, n⟩, hoff⟩ := Option.ne_none_iff_exists'.1 (mt offence?_eq_none.1 hp)
      exact ⟨d, n, hreject hoff⟩
    · cases hoff : p.offence? machine with
      | none =>
        obtain ⟨g, hg⟩ := haccept (offence?_eq_none.1 hoff)
        rw [hg] at h
        cases h
      | some x =>
        cases h.symm.trans (hreject hoff)
        rfl
  · rw [graph, ofMachine_overflows hfiles hwide]
    rfl

end

/-- The second move reads a result of no operation, and the third operation cannot be executed. -/
def twoOffences : Program where
  operations := #[{ opcode := "add" }, { opcode := "mov" }, { opcode := "mul" }]
  moves := #[{ src := .register ⟨⟨0⟩, 0⟩, dst := .input 1 true, dstOp := some 0 },
    { src := .output 2, dst := .input 0 false, dstOp := some 1 }]

theorem graph_rejects_iff_twoOffences : twoOffences.graph copyMachine =
    .error (.error (.invalidProgram .resultWithoutOperation ⟨1⟩)) := by
  refine (((graph_rejects_iff ?_ ?_ ?_ ?_).1 ?_).2.2 _ _).2 rfl
  all_goals simp [copyMachine, twoOffences, GuardsFit]

/-- A machine whose guards are read too long before the moves that they guard. -/
def slowGuards : Machine where
  name := "m"
  files := #[{ name := "r", size := 4, readPorts := 2, writePorts := 2, guardLatency := 1 }]
  guardLatency := 4294967295

def loadConstant : Program where
  moves := #[{ src := .immediate 1, dst := .register ⟨⟨0⟩, 1⟩ }]

theorem slowGuards_overflow : loadConstant.WellFormed slowGuards ∧
    loadConstant.graph slowGuards = .error (.fault .overflow) :=
  ⟨offence?_eq_none.1 rfl, rfl⟩

end Program

end Transport
