import Transport.Proofs.Dependence.Surgery
import Transport.Proofs.Program.Build

/-!
# The edges of a built graph

Before its edges are drawn, a graph holds one entry for each move of the program and one for each
operation (`Prepared`). Drawing then adds the edges that the walk over the moves finds and those
that order the moves of an operation, and no others: `Program.graph_drawn`.
-/

namespace Transport

namespace Graph

/-- An edge that carries `d` leads from `t` to `h`. -/
def Arc (g : Graph) (t h : MoveId) (d : Dependence) : Prop :=
  ∃ e, g.link? e = some { tail := t, head := h, dep := d }

variable {g g' : Graph} {t h : MoveId} {d : Dependence} {e : EdgeId} {l : Link}
  {New : MoveId → MoveId → Dependence → Prop}

theorem Arc.of_link (hl : g.link? e = some l) (hlive : l.live) : g.Arc l.tail l.head l.dep :=
  ⟨e, by rw [hl, ← hlive]⟩

theorem Rewires.arc (hr : g.Rewires g' New NoneBack NoneBack) (ha : g.Arc t h d) : g'.Arc t h d := by
  obtain ⟨e, he⟩ := ha
  exact ⟨e, hr.uncut he id fun _ => id⟩

theorem Rewires.cases_arc
    (hr : g.Rewires g' New NoneBack NoneBack) (ha : g'.Arc t h d) : g.Arc t h d ∨ New t h d := by
  obtain ⟨e, he⟩ := ha
  rcases hr.live_or_new he rfl with hl | hn
  · exact .inl ⟨e, hl⟩
  · exact .inr hn

theorem arc_of_connect (hc : g.connect t h d = .ok (g', e)) : g'.Arc t h d :=
  ⟨e, link?_of_connect hc⟩

theorem arc_of_hasEdge (hg : g.Linked) (hh : g.hasEdge t h d = .ok true) : g.Arc t h d := by
  simp only [hasEdge, bind_eq_ok, pure_eq_ok, List.any_eq_true, Bool.and_eq_true,
    decide_eq_true_eq, Prod.exists] at hh
  obtain ⟨m, hm, e, l, hl, rfl, rfl⟩ := hh
  rw [← leaving_eq (move?_of_move hm), hg.mem_leaving] at hl
  obtain ⟨hl, hlive, rfl⟩ := hl
  exact .of_link hl hlive

theorem arc_of_ensureEdge (hg : g.Linked) {x : Option EdgeId}
    (hs : g.ensureEdge t h d = .ok (g', x)) : g'.Arc t h d := by
  rcases ensureEdge_eq_ok hs with ⟨rfl, -, hh⟩ | ⟨e, -, hc⟩
  · exact arc_of_hasEdge hg hh
  · exact arc_of_connect hc

/-- No edge has been taken out, and all edges are between moves that can be looked up. -/
def Unbroken (g : Graph) : Prop :=
  ∀ e l, g.link? e = some l → l.live ∧ l.tail ≠ .invalid ∧ l.head ≠ .invalid

theorem unbroken_of_connect (hg : g.Unbroken) (hc : g.connect t h d = .ok (g', e)) : g'.Unbroken := by
  intro e' l hl
  obtain ⟨⟨_, ht, -⟩, ⟨_, hh, -⟩, -, rfl⟩ := connect_eq_ok hc
  have hl : (g.links.push { tail := t, head := h, dep := d })[e'.val]? = some l := hl
  rw [Array.getElem?_push] at hl
  split at hl
  · cases hl
    exact ⟨rfl, (move_eq_ok.1 ht).1, (move_eq_ok.1 hh).1⟩
  · exact hg e' l hl

/-- Edges are drawn one after the other: those there were, and those of the list. -/
theorem arc_iff_of_drawing {α : Type} (tail head : α → MoveId) (dep : α → Dependence)
    {f : Graph → α → Checked Graph} (hf : ∀ g x g', f g x = .ok g' → g.Linked →
      g.Rewires g' (fun t h d => t = tail x ∧ h = head x ∧ d = dep x) NoneBack NoneBack ∧
        g'.Arc (tail x) (head x) (dep x))
    {xs : List α} (hg : g.Linked) (hs : xs.foldlM f g = .ok g') :
    g'.Linked ∧ g.SameMoves g' ∧ ∀ t h d, g'.Arc t h d ↔
      g.Arc t h d ∨ ∃ x ∈ xs, t = tail x ∧ h = head x ∧ d = dep x := by
  induction xs generalizing g with
  | nil =>
    cases pure_eq_ok.1 hs
    exact ⟨hg, .refl, by simp⟩
  | cons x xs ih =>
    obtain ⟨g1, h1, hs⟩ := foldlM_cons_eq_ok.1 hs
    obtain ⟨hr, ha⟩ := hf g x g1 h1 hg
    obtain ⟨hg', hsame, hiff⟩ := ih (hr.linked hg) hs
    refine ⟨hg', hr.moves.trans hsame, fun t h d => ?_⟩
    rw [hiff]
    constructor
    · rintro (ha' | ⟨y, hy, hd⟩)
      · rcases hr.cases_arc ha' with ha' | hd
        · exact .inl ha'
        · exact .inr ⟨x, .head _, hd⟩
      · exact .inr ⟨y, .tail _ hy, hd⟩
    · rintro (ha' | ⟨y, hy, rfl, rfl, rfl⟩)
      · exact .inl (hr.arc ha')
      · cases hy with
        | head => exact .inl ha
        | tail _ hy => exact .inr ⟨y, hy, rfl, rfl, rfl⟩

end Graph

namespace Program

open Transport.Graph

variable {machine : Machine} {p : Program} {g g' : Graph} {n : MoveId} {pm : ProgramMove} {os : List OpId}
  {ms ms' : List ProgramMove} {t h : MoveId} {o : OpId} {op : Operation}

/-! ## The entries -/

/-- The declaration of the operation that a move feeds. -/
def target (p : Program) (pm : ProgramMove) : Option OperationDecl :=
  pm.dstOp.bind fun k => p.operations[k]?

/-- Do only control units execute the opcode? -/
def isControl (machine : Machine) (opcode : String) : Bool :=
  (machine.unitsWith opcode).all fun u => (machine.units[u.val]?).any FunctionUnit.control

/-- The marks of the trigger of a jump or call. -/
def signal (machine : Machine) (opcode : String) (m : Move) : Move :=
  if m.isTrigger && isControl machine opcode
  then { m with controlFlow := true, call := opcode = "call" } else m

/-- The entry of a move, with its marks. -/
def marked (p : Program) (machine : Machine) (pm : ProgramMove) : Move :=
  (p.target pm).elim (entry pm) fun d => signal machine d.opcode (entry pm)

/-- The entries as the walk over them needs them. -/
def flow (p : Program) (machine : Machine) : List (Move × MoveId × Option MemoryAccess) :=
  p.moves.toList.zipIdx.map fun x =>
    (p.marked machine x.1, ⟨x.2⟩, (p.target x.1).bind OperationDecl.memory)

/-- Operation `o` stands in the table as declared. -/
def Declared (p : Program) (machine : Machine) (o : OpId) (op : Operation) : Prop :=
  ∃ d, p.operations[o.val]? = some d ∧ op.opcode = d.opcode ∧
    op.units = machine.unitsWith d.opcode ∧ op.memory = d.memory

/-- The tables hold the moves of `ms` and the operations of the program, and no edge. -/
structure Tabled (p : Program) (machine : Machine) (ms : List ProgramMove) (g : Graph) : Prop where
  move? (n : MoveId) : g.move? n = (ms[n.val]?).map entry
  size : g.moves.size = ms.length
  declared {o : OpId} {op : Operation} : g.op? o = some op → p.Declared machine o op
  known {o : OpId} {d : OperationDecl} : p.operations[o.val]? = some d → ∃ op, g.op? o = some op
  edges : g.links = #[]
  forcedFiles : g.forcedFiles = machine.forcedFiles

/-- The table has an operation where the program declares one. -/
theorem op?_cases {k : Nat}
    (declared : ∀ {o op}, g.op? o = some op → p.Declared machine o op)
    (known : ∀ {o : OpId} {d}, p.operations[o.val]? = some d → ∃ op, g.op? o = some op) :
    p.operations[k]? = none ∧ g.op? ⟨k⟩ = none ∨ ∃ d op, p.operations[k]? = some d ∧ g.op? ⟨k⟩ = some op ∧
      op.opcode = d.opcode ∧ op.units = machine.unitsWith d.opcode ∧ op.memory = d.memory := by
  cases hop : g.op? ⟨k⟩ with
  | none =>
    refine .inl ⟨Option.eq_none_iff_forall_not_mem.2 fun d hd => ?_, rfl⟩
    obtain ⟨op, hop'⟩ := known (o := ⟨k⟩) hd
    rw [hop] at hop'
    cases hop'
  | some op =>
    obtain ⟨d, hd, h⟩ := declared hop
    exact .inr ⟨d, op, hd, rfl, h⟩

/-- A declared operation before any move is entered. -/
def opened (machine : Machine) (d : OperationDecl) : Operation where
  opcode := d.opcode
  units := machine.unitsWith d.opcode
  latency := machine.latencyOf d.opcode
  memory := d.memory

theorem ops_enterOperations (p : Program) (machine : Machine) (g : Graph) :
    (p.enterOperations machine g).ops = g.ops ++ p.operations.map (opened machine) := by
  rcases p with ⟨⟨ds⟩⟩
  simp only [enterOperations]
  induction ds generalizing g with
  | nil => simp
  | cons d ds ih =>
    rw [List.foldl_cons, ih]
    simp [Graph.addOperation, opened]

theorem moves_enterOperations (p : Program) (machine : Machine) (g : Graph) :
    (p.enterOperations machine g).moves = g.moves ∧
      (p.enterOperations machine g).links = g.links ∧
      (p.enterOperations machine g).forcedFiles = g.forcedFiles := by
  unfold enterOperations
  generalize p.operations.toList = ds
  induction ds generalizing g with
  | nil => exact ⟨rfl, rfl, rfl⟩
  | cons d ds ih => exact ih _

theorem tabled_of_enterOperations (hmoves : g.moves = #[]) (hlinks : g.links = #[]) (hops : g.ops = #[])
    (hfiles : g.forcedFiles = machine.forcedFiles) : Tabled p machine [] (p.enterOperations machine g) := by
  obtain ⟨hm, hl, hforced⟩ := moves_enterOperations p machine g
  have hop : ∀ o : OpId, (p.enterOperations machine g).op? o =
      (p.operations[o.val]?).map (opened machine) := by
    intro o
    simp [Graph.op?, ops_enterOperations, hops]
  refine ⟨fun n => ?_, ?_, ?_, ?_, hl.trans hlinks, hforced.trans hfiles⟩
  · simp [Graph.move?, hm, hmoves]
  · simp [hm, hmoves]
  · intro o op ho
    rw [hop] at ho
    obtain ⟨d, hd, rfl⟩ := Option.map_eq_some_iff.1 ho
    exact ⟨d, hd, rfl, rfl, rfl⟩
  · intro o d hd
    rw [hop, hd]
    exact ⟨_, rfl⟩

theorem Tabled.enters (ht : Tabled p machine ms g) (h : Enters g pm g') : Tabled p machine (ms ++ [pm]) g' where
  move? n := by
    rw [h.move?, ht.size]
    by_cases hn : n.val = ms.length
    · simp [hn]
    · rw [if_neg hn, ht.move?]
      rcases Nat.lt_or_gt_of_ne hn with hlt | hgt
      · rw [List.getElem?_append_left hlt]
      · rw [List.getElem?_eq_none (by omega), List.getElem?_eq_none (by simp; omega)]
  size := by rw [h.size, ht.size]; simp
  declared {o op'} ho := by
    obtain ⟨op, hop, rfl⟩ := h.cases_op ho
    obtain ⟨d, hd, h1, h2, h3⟩ := ht.declared hop
    exact ⟨d, hd, h1, h2, h3⟩
  known hd := h.op_known (ht.known hd)
  edges := h.edges.trans ht.edges
  forcedFiles := h.forcedFiles.trans ht.forcedFiles

theorem Tabled.units_eq (ht : Tabled p machine ms g) (ho : g.op? o = some op) :
    op.units = machine.unitsWith op.opcode := by
  obtain ⟨d, -, hcode, hunits, -⟩ := ht.declared ho
  rw [hunits, hcode]

/-- Operations are given exactly where a move enters or leaves a unit, and they are declared. -/
structure Fits (p : Program) (pm : ProgramMove) : Prop where
  dst_input : pm.dstOp.isSome = pm.dst.isInput
  src_output : pm.srcOp.isSome = pm.src.isOutput
  dst_known {k : Nat} : pm.dstOp = some k → k < p.operations.size
  src_known {k : Nat} : pm.srcOp = some k → k < p.operations.size

/-- The moves of `ms` that feed operation `k`, in order. -/
def feeding (ms : List ProgramMove) (k : Nat) : List MoveId :=
  (ms.zipIdx.filter fun x => x.1.dstOp = some k).map fun x => ⟨x.2⟩

theorem feeding_append_singleton {k : Nat} : feeding (ms ++ [pm]) k =
    feeding ms k ++ if pm.dstOp = some k then [⟨ms.length⟩] else [] := by
  simp only [feeding, List.zipIdx_append, List.filter_append, List.map_append]
  congr 1
  by_cases hk : pm.dstOp = some k <;> simp [hk]

/-- The moves of `ms` that read a result of operation `k`, in order. -/
def reading (ms : List ProgramMove) (k : Nat) : List MoveId :=
  (ms.zipIdx.filter fun x => x.1.srcOp = some k).map fun x => ⟨x.2⟩

theorem reading_append_singleton {k : Nat} : reading (ms ++ [pm]) k =
    reading ms k ++ if pm.srcOp = some k then [⟨ms.length⟩] else [] := by
  simp only [reading, List.zipIdx_append, List.filter_append, List.map_append]
  congr 1
  by_cases hk : pm.srcOp = some k <;> simp [hk]

/-- The moves of `ms` are entered, and each operation knows those that feed it and those that read it. -/
structure Entered (p : Program) (machine : Machine) (ms : List ProgramMove) (g : Graph) : Prop
    extends Tabled p machine ms g where
  inputs {o : OpId} {op : Operation} : g.op? o = some op → op.inputs = feeding ms o.val
  outputs {o : OpId} {op : Operation} : g.op? o = some op → op.outputs = reading ms o.val

section

variable (he : Entered p machine ms g)
include he

theorem Entered.enters (h : Enters g pm g') : Entered p machine (ms ++ [pm]) g' where
  toTabled := he.toTabled.enters h
  inputs {o op'} ho := by
    obtain ⟨op, hop, rfl⟩ := h.cases_op ho
    rw [feeding_append_singleton, ← he.inputs hop, he.size]
  outputs {o op'} ho := by
    obtain ⟨op, hop, rfl⟩ := h.cases_op ho
    rw [reading_append_singleton, ← he.outputs hop, he.size]

theorem Entered.lt_of_op? (ho : g.op? o = some op) : o.val < p.operations.size := by
  obtain ⟨d, hd, -⟩ := he.declared ho
  exact (Array.getElem?_eq_some_iff.1 hd).1

theorem Entered.fits (h : Enters g pm g') : p.Fits pm where
  dst_input := h.dst_input
  src_output := h.src_output
  dst_known hk := by
    obtain ⟨op, hop⟩ := h.dst_known hk
    exact he.lt_of_op? hop
  src_known hk := by
    obtain ⟨op, hop⟩ := h.src_known hk
    exact he.lt_of_op? hop

theorem entered_of_enterMoves (h : ms'.foldlM enterMove g = .ok g') :
    Entered p machine (ms ++ ms') g' ∧ ∀ pm ∈ ms', p.Fits pm := by
  induction ms' generalizing g ms with
  | nil =>
    cases pure_eq_ok.1 h
    exact ⟨by rwa [List.append_nil], by simp⟩
  | cons pm ms' ih =>
    obtain ⟨g1, h1, h⟩ := foldlM_cons_eq_ok.1 h
    have henters := enters_of_enterMove h1
    obtain ⟨he', hfits⟩ := ih (he.enters henters) h
    rw [List.append_assoc] at he'
    exact ⟨he', List.forall_mem_cons.2 ⟨he.fits henters, hfits⟩⟩

end

theorem start_entered (h : Graph.ofMachine machine = .ok g) : Entered p machine [] (p.start machine g) := by
  have hblank := start_blank (p := p) h
  simp only [Graph.ofMachine, bind_eq_ok, pure_eq_ok] at h
  obtain ⟨latencies, -, rfl⟩ := h
  exact ⟨tabled_of_enterOperations rfl rfl rfl rfl, fun ho => (hblank.ops ho).1, fun ho => (hblank.ops ho).2.1⟩

theorem entered_of_graph (h : p.graph machine = .ok g) : ∃ g1 g2 g3, Entered p machine p.moves.toList g1 ∧
    (∀ pm ∈ p.moves.toList, p.Fits pm) ∧ g1.Matched machine ∧ g1.Fresh ∧
    g1.opIds.foldlM (checkOperation machine) g1 = .ok g2 ∧ p.drawFlow g2 = .ok g3 ∧
    g3.opIds.foldlM drawOperation g3 = .ok g := by
  simp only [graph, bind_eq_ok, liftM_eq_ok] at h
  obtain ⟨g0, h0, g1, h1, g2, h2, g3, h3, h4⟩ := h
  obtain ⟨he, hfits⟩ := entered_of_enterMoves (start_entered (p := p) h0) h1
  obtain ⟨hmatched, hfresh⟩ := matched_of_enterMoves h0 h1
  exact ⟨g1, g2, g3, he, hfits, hmatched, hfresh, h2, h3, h4⟩

/-! ## The marks -/

theorem allM_control {us : List UnitId} {b : Bool}
    (h : us.allM (fun u => return (← machine.unit u).control) = (.ok b : Checked Bool)) :
    b = us.all fun u => (machine.units[u.val]?).any FunctionUnit.control := by
  induction us with
  | nil =>
    simp only [List.allM, pure_eq_ok] at h
    simp [h]
  | cons u us ih =>
    simp only [List.allM, bind_eq_ok, pure_eq_ok] at h
    obtain ⟨c, ⟨unit, hunit, rfl⟩, h⟩ := h
    rw [List.all_cons, (Id.fetch_eq_ok_iff.1 hunit).2]
    cases hc : unit.control with
    | false => simp_all
    | true =>
      simp only [hc] at h
      simp [hc, ih h]

/-- Only the trigger of a checked jump or call is marked. -/
structure Marks (machine : Machine) (os : List OpId) (g g' : Graph) : Prop where
  move? (x : MoveId) : g'.move? x = (g.move? x).map fun m => m.dstOp.elim m fun o =>
    if o ∈ os then (g.op? o).elim m fun op => signal machine op.opcode m else m
  ops : g'.ops = g.ops
  edges : g'.links = g.links
  size : g'.moves.size = g.moves.size
  forcedFiles : g'.forcedFiles = g.forcedFiles

theorem signal_signal (opcode : String) (m : Move) :
    signal machine opcode (signal machine opcode m) = signal machine opcode m := by
  unfold signal
  split
  · split <;> rfl
  · rfl

theorem dstOp_signal (opcode : String) (m : Move) : (signal machine opcode m).dstOp = m.dstOp := by
  unfold signal
  split <;> rfl

theorem Marks.refl : Marks machine [] g g where
  move? x := by
    cases g.move? x with
    | none => rfl
    | some m => cases hd : m.dstOp <;> simp [hd]
  ops := rfl
  edges := rfl
  size := rfl
  forcedFiles := rfl

theorem Marks.cons {g'' : Graph} (h : Marks machine [o] g g')
    (h' : Marks machine os g' g'') : Marks machine (o :: os) g g'' where
  move? x := by
    have hop : ∀ o, g'.op? o = g.op? o := fun o => by simp only [Graph.op?, h.ops]
    rw [h'.move?, h.move?]
    cases g.move? x with
    | none => rfl
    | some m =>
      simp only [Option.map_some, hop]
      congr 1
      cases hd : m.dstOp with
      | none => simp [hd]
      | some o' =>
        cases hop' : g.op? o' with
        | none => simp [hd, hop']
        | some op =>
          by_cases ho : o' = o
          · subst ho
            by_cases hos : o' ∈ os <;> simp [hos, hd, hop', dstOp_signal, signal_signal]
          · simp [ho, hd, hop']
  ops := h'.ops.trans h.ops
  edges := h'.edges.trans h.edges
  size := h'.size.trans h.size
  forcedFiles := h'.forcedFiles.trans h.forcedFiles

theorem marks_of_checkOperation (hg : g.Matched machine)
    (hunits : ∀ op, g.op? o = some op → op.units = machine.unitsWith op.opcode)
    (h : checkOperation machine g o = .ok g') : Marks machine [o] g g' := by
  have hone := (keeps_of_checkOperation hg h).2.2
  obtain ⟨op, control, t, hop, -, -, hcontrol, ht, h⟩ := checkOperation_eq_ok h
  have hop' := op?_of_op hop
  have hcontrol : control = isControl machine op.opcode := by
    rw [allM_control hcontrol, hunits op hop']
    rfl
  simp only [Graph.trigger, hop, ok_bind, pure_eq_ok] at ht
  -- The trigger that was found is the only move the mark is meant for.
  have htrigger : ∀ {x : MoveId} {m : Move}, g.move? x = some m → m.dstOp = some o →
      (m.isTrigger ↔ t = some x) := by
    intro x m hm hd
    rw [← ht]
    constructor
    · exact fun htr => hg.find_trigger hop' hm hd htr fun y m' hm' hd' hy =>
        (hone x y m m' hm hm' hd hd' htr hy).symm
    · intro hf
      simpa [hm] using List.find?_some hf
  have hplain : ∀ {x m}, g.move? x = some m → (t = some x → control = false) →
      (m.dstOp.elim m fun o' => if o' ∈ [o] then
        (g.op? o').elim m fun op => signal machine op.opcode m else m) = m := by
    intro x m hm hx
    cases hd : m.dstOp with
    | none => rfl
    | some o' =>
      by_cases ho : o' = o
      · subst ho
        have hsig : ¬ (m.isTrigger && isControl machine op.opcode) = true := by
          rw [Bool.and_eq_true, ← hcontrol]
          rintro ⟨htr, hc⟩
          rw [hx ((htrigger hm hd).1 htr)] at hc
          cases hc
        simp only [Option.elim_some, List.mem_singleton, if_true, hop', signal, if_neg hsig]
      · simp [ho]
  by_cases hx : ∃ x, control = true ∧ t = some x
  · obtain ⟨x, rfl, rfl⟩ := hx
    cases pure_eq_ok.1 h
    refine ⟨fun y => ?_, rfl, rfl, by simp [modifyMove], rfl⟩
    rw [move?_modifyMove]
    cases hm : g.move? y with
    | none => simp
    | some m =>
      by_cases hy : y = x
      · subst hy
        have hd := of_some ((hg.mem_inputs hop').1 (List.mem_of_find?_eq_some ht)) hm
        simp [hd, hop', signal, (htrigger hm hd).2 rfl, ← hcontrol]
      · rw [if_neg hy, Option.map_some, hplain hm (fun h => absurd (Option.some.inj h).symm hy)]
  · obtain rfl : g = g' := by
      cases control <;> cases t <;> simp_all
    refine ⟨fun y => ?_, rfl, rfl, rfl, rfl⟩
    cases hm : g.move? y with
    | none => rfl
    | some m =>
      rw [Option.map_some, hplain hm]
      intro hy
      cases hc : control with
      | false => rfl
      | true => exact (hx ⟨y, hc, hy⟩).elim

theorem marks_of_checkOperations (hg : g.Matched machine)
    (hunits : ∀ o op, g.op? o = some op → op.units = machine.unitsWith op.opcode)
    (h : os.foldlM (checkOperation machine) g = .ok g') : Marks machine os g g' := by
  induction os generalizing g with
  | nil =>
    cases pure_eq_ok.1 h
    exact .refl
  | cons o os ih =>
    obtain ⟨g1, h1, h⟩ := foldlM_cons_eq_ok.1 h
    have hm := marks_of_checkOperation hg (hunits o) h1
    refine hm.cons (ih (hg.congr (keeps_of_checkOperation hg h1).1.toSameShapes) ?_ h)
    intro o op ho
    rw [Graph.op?, hm.ops] at ho
    exact hunits o op ho

/-- All moves are entered and marked, and no edge is drawn. -/
structure Prepared (p : Program) (machine : Machine) (g : Graph) : Prop where
  move? (n : MoveId) : g.move? n = (p.moves[n.val]?).map (p.marked machine)
  size : g.moves.size = p.moves.size
  declared {o : OpId} {op : Operation} : g.op? o = some op → p.Declared machine o op
  known {o : OpId} {d : OperationDecl} : p.operations[o.val]? = some d → ∃ op, g.op? o = some op
  edges : g.links = #[]
  forcedFiles : g.forcedFiles = machine.forcedFiles

theorem Tabled.prepared (ht : Tabled p machine p.moves.toList g) (hm : Marks machine g.opIds g g') :
    Prepared p machine g' := by
  have hop : ∀ o, g'.op? o = g.op? o := fun o => by simp only [Graph.op?, hm.ops]
  refine ⟨fun n => ?_, ?_, ?_, ?_, hm.edges.trans ht.edges, hm.forcedFiles.trans ht.forcedFiles⟩
  · rw [hm.move?, ht.move?, Option.map_map, Array.getElem?_toList]
    congr 1
    funext pm
    show (pm.dstOp.map Id.mk).elim _ _ = _
    cases hd : pm.dstOp with
    | none => simp [marked, target, hd]
    | some k =>
      simp only [Option.map_some, Option.elim_some, mem_opIds, marked, target, hd,
        Option.bind_some]
      obtain ⟨hdecl, hop⟩ | ⟨d, op, hdecl, hop, hcode, -⟩ := op?_cases ht.declared ht.known (k := k)
      · simp [hdecl, hop]
      · simp [hdecl, mem_opIds.2 ⟨op, hop⟩, hop, hcode]
  · simp [hm.size, ht.size]
  · intro o op ho
    exact ht.declared (hop o ▸ ho)
  · intro o d hd
    obtain ⟨op, h⟩ := ht.known hd
    exact ⟨op, (hop o).trans h⟩

/-! ## The edges -/

theorem marked_bare (p : Program) (machine : Machine) (pm : ProgramMove) :
    (p.marked machine pm).bare = p.marked machine pm := by
  unfold marked
  cases p.target pm with
  | none => rfl
  | some d =>
    simp only [Option.elim_some, signal]
    split <;> rfl

theorem marked_field {α : Type} (f : Move → α)
    (hf : ∀ m c b, f { m with controlFlow := c, call := b } = f m) :
    f (p.marked machine pm) = f (entry pm) := by
  unfold marked
  cases p.target pm with
  | none => rfl
  | some d =>
    simp only [Option.elim_some, signal]
    split
    · exact hf _ _ _
    · rfl

@[simp] theorem src_marked : (p.marked machine pm).src = pm.src :=
  marked_field Move.src fun _ _ _ => rfl

@[simp] theorem dst_marked : (p.marked machine pm).dst = pm.dst :=
  marked_field Move.dst fun _ _ _ => rfl

@[simp] theorem guard_marked : (p.marked machine pm).guard = pm.guard :=
  marked_field Move.guard fun _ _ _ => rfl

@[simp] theorem dstOp_marked : (p.marked machine pm).dstOp = pm.dstOp.map Id.mk :=
  marked_field Move.dstOp fun _ _ _ => rfl

@[simp] theorem srcOp_marked : (p.marked machine pm).srcOp = pm.srcOp.map Id.mk :=
  marked_field Move.srcOp fun _ _ _ => rfl

@[simp] theorem isTrigger_marked : (p.marked machine pm).isTrigger = pm.dst.isTrigger :=
  marked_field Move.isTrigger fun _ _ _ => rfl

namespace Prepared

theorem flowMoves_eq (hp : Prepared p machine g) : flowMoves g = p.flow machine := by
  apply List.ext_getElem?
  intro i
  have hm : g.moves[i]? = (p.moves[i]?).map (p.marked machine) := hp.move? ⟨i⟩
  simp only [flowMoves, flow, List.getElem?_map, List.getElem?_zipIdx, Array.getElem?_toList, hm]
  cases p.moves[i]? with
  | none => rfl
  | some pm =>
    simp only [Option.map_some, Nat.zero_add, dstOp_marked, target]
    cases pm.dstOp with
    | none => rfl
    | some k =>
      simp only [Option.map_some, Option.bind_some]
      congr 3
      obtain ⟨hdecl, hop⟩ | ⟨d, op, hdecl, hop, -, -, hmem⟩ := op?_cases hp.declared hp.known (k := k)
      · simp [hdecl, hop]
      · simp [hdecl, hop, hmem]

theorem link? (hp : Prepared p machine g) (e : EdgeId) : g.link? e = none := by
  simp [Graph.link?, hp.edges]

theorem linked (hp : Prepared p machine g) : g.Linked := by
  refine ⟨fun hm => ?_, fun hm => ?_, fun hl => ?_, fun hl => ?_⟩
  iterate 2
    rw [hp.move?] at hm
    obtain ⟨pm, -, rfl⟩ := Option.map_eq_some_iff.1 hm
    rw [← marked_bare]
    simp [Move.bare, hp.link?]
  all_goals simp [hp.link?] at hl

end Prepared

theorem arc_iff_of_drawFlow (hg : g.Linked) (h : p.drawFlow g = .ok g') :
    g'.Linked ∧ g.SameMoves g' ∧ ∀ t h d, g'.Arc t h d ↔
      g.Arc t h d ∨ (t, h, d) ∈ Flow.edges p.isLoop (flowMoves g) := by
  have hdraw := arc_iff_of_drawing (fun e : Flow.Edge => e.1) (fun e => e.2.1) (fun e => e.2.2)
    (fun g e g' h hg => ?_) hg h
  · refine ⟨hdraw.1, hdraw.2.1, fun t h d => (hdraw.2.2 t h d).trans (or_congr_right ?_)⟩
    constructor
    · rintro ⟨e, he, rfl, rfl, rfl⟩
      exact he
    · intro he
      exact ⟨_, he, rfl, rfl, rfl⟩
  · simp only [bind_eq_ok, pure_eq_ok, Prod.exists] at h
    obtain ⟨_, x, h, rfl⟩ := h
    exact ⟨rewires_of_ensureEdge h ⟨rfl, rfl, rfl⟩, arc_of_ensureEdge hg h⟩

/-- In operation `o`, `t` comes before `h`: an operand before the trigger, or that before a
result. -/
def Stages (g : Graph) (o : OpId) (t h : MoveId) : Prop :=
  ∃ a b, g.move? t = some a ∧ g.move? h = some b ∧ a.dstOp = some o ∧
    (b.dstOp = some o ∧ a.isTrigger = false ∧ b.isTrigger ∨ a.isTrigger ∧ b.srcOp = some o)

theorem Stages.congr (hs : Stages g o t h) (hsame : g.SameMoves g') : Stages g' o t h := by
  obtain ⟨a, b, ha, hb, hs⟩ := hs
  obtain ⟨a', ha', hea⟩ := hsame.move? ha
  obtain ⟨b', hb', heb⟩ := hsame.move? hb
  refine ⟨a', b', ha', hb', ?_⟩
  rw [Move.eq_of_bare hea, Move.eq_of_bare heb]
  exact hs

theorem arc_iff_of_connects {ns : List MoveId} (tail head : MoveId → MoveId) {d0 : Dependence}
    (hg : g.Linked) (h : ns.foldlM (fun g n => return (← g.connect (tail n) (head n) d0).1) g =
      (.ok g' : Checked Graph)) :
    g'.Linked ∧ g.SameMoves g' ∧ ∀ t h d, g'.Arc t h d ↔
      g.Arc t h d ∨ ∃ n ∈ ns, t = tail n ∧ h = head n ∧ d = d0 := by
  refine arc_iff_of_drawing tail head (fun _ => d0) (fun g n g' h hg => ?_) hg h
  simp only [bind_eq_ok, pure_eq_ok, Prod.exists] at h
  obtain ⟨_, e, h, rfl⟩ := h
  exact ⟨rewires_of_connect h ⟨rfl, rfl, rfl⟩, arc_of_connect h⟩

/-- An operation without a trigger is left as it is, and otherwise its moves are tied to the trigger. -/
theorem drawOperation_eq_ok (hf : g.Formed machine) (h : drawOperation g o = .ok g') : ∃ op, g.op? o = some op ∧
    (g = g' ∧ (∀ n m, g.move? n = some m → m.dstOp = some o → m.isTrigger = false) ∨
      ∃ t mt g1, g.move? t = some mt ∧ mt.dstOp = some o ∧ mt.isTrigger ∧
        (op.inputs.filter (· ≠ t)).foldlM (fun g n => return (← g.connect n t .operation).1) g = .ok g1 ∧
        op.outputs.foldlM (fun g n => return (← g.connect t n .operation).1) g1 = .ok g' ∧
        (∀ n ∈ op.inputs.filter (· ≠ t), Stages g o n t) ∧ ∀ n ∈ op.outputs, Stages g o t n) := by
  simp only [drawOperation, bind_eq_ok] at h
  obtain ⟨x, hx, h⟩ := h
  simp only [Graph.trigger, bind_eq_ok, pure_eq_ok] at hx
  obtain ⟨op, hop, hfind⟩ := hx
  have hop' := op?_of_op hop
  refine ⟨op, hop', ?_⟩
  cases x with
  | none =>
    refine .inl ⟨pure_eq_ok.1 h, fun n m hm hd => ?_⟩
    rw [List.find?_eq_none] at hfind
    simpa [hm] using hfind n ((hf.mem_inputs hop').2 ⟨m, hm, hd⟩)
  | some t =>
    obtain ⟨mt, hmt, hdt, htt⟩ := hf.trigger_of_find hop' hfind
    simp only [hop, ok_bind, bind_eq_ok] at h
    obtain ⟨g1, h1, h2⟩ := h
    refine .inr ⟨t, mt, g1, hmt, hdt, htt, h1, h2, fun n hn => ?_, fun n hn => ?_⟩
    · rw [List.mem_filter, decide_eq_true_eq, hf.mem_inputs hop'] at hn
      obtain ⟨⟨m, hm, hd⟩, hne⟩ := hn
      refine ⟨m, mt, hm, hmt, hd, .inl ⟨hdt, ?_, htt⟩⟩
      cases htr : m.isTrigger with
      | false => rfl
      | true => exact absurd (hf.one_trigger hm hmt hd hdt htr htt) hne
    · obtain ⟨m, hm, hd, -⟩ := (hf.mem_outputs hop').1 hn
      exact ⟨mt, m, hmt, hm, hdt, .inr ⟨htt, hd⟩⟩

theorem arc_iff_of_drawOperation (hg : g.Linked) (hf : g.Formed machine)
    (hfresh : g.Fresh) (h : drawOperation g o = .ok g') :
    g'.Linked ∧ g.SameMoves g' ∧ ∀ t h d, g'.Arc t h d ↔
      g.Arc t h d ∨ d = .operation ∧ Stages g o t h := by
  obtain ⟨op, hop, ⟨rfl, hnone⟩ | ⟨t, mt, g1, hmt, hdt, htt, h1, h2, hin, hout⟩⟩ := drawOperation_eq_ok hf h
  · refine ⟨hg, .refl, fun t h d => ⟨.inl, fun hs => hs.resolve_right ?_⟩⟩
    rintro ⟨-, a, b, ha, hb, hd, ⟨hd', -, htr⟩ | ⟨htr, -⟩⟩
    · rw [hnone h b hb hd'] at htr; cases htr
    · rw [hnone t a ha hd] at htr; cases htr
  · obtain ⟨hg1, hs1, ha1⟩ := arc_iff_of_connects (fun n => n) (fun _ => t) hg h1
    obtain ⟨hg2, hs2, ha2⟩ := arc_iff_of_connects (fun _ => t) (fun n => n) hg1 h2
    refine ⟨hg2, hs1.trans hs2, fun x y d => ?_⟩
    rw [ha2, ha1, or_assoc]
    refine or_congr_right ⟨?_, ?_⟩
    · rintro (⟨n, hn, rfl, rfl, rfl⟩ | ⟨n, hn, rfl, rfl, rfl⟩)
      · exact ⟨rfl, hin x hn⟩
      · exact ⟨rfl, hout y hn⟩
    · rintro ⟨rfl, a, b, ha, hb, hd, ⟨hd', hna, htb⟩ | ⟨hta, hd'⟩⟩
      · refine .inl ⟨x, ?_, rfl, hf.one_trigger hb hmt hd' hdt htb htt, rfl⟩
        rw [List.mem_filter, decide_eq_true_eq, hf.mem_inputs hop]
        refine ⟨⟨a, ha, hd⟩, ?_⟩
        rintro rfl
        rw [hmt] at ha
        cases ha
        rw [hna] at htt
        cases htt
      · exact .inr ⟨y, (hf.mem_outputs hop).2 ⟨b, hb, hd', hfresh.live hb⟩,
          hf.one_trigger ha hmt hd hdt hta htt, rfl, rfl⟩

theorem arc_iff_of_drawOperations (hg : g.Linked) (hf : g.Formed machine)
    (hfresh : g.Fresh) (h : os.foldlM drawOperation g = .ok g') :
    g'.Linked ∧ g.SameMoves g' ∧ ∀ t h d, g'.Arc t h d ↔
      g.Arc t h d ∨ d = .operation ∧ ∃ o ∈ os, Stages g o t h := by
  induction os generalizing g with
  | nil =>
    cases pure_eq_ok.1 h
    exact ⟨hg, .refl, by simp⟩
  | cons o os ih =>
    obtain ⟨g1, h1, h⟩ := foldlM_cons_eq_ok.1 h
    have hk := keeps_of_drawOperation h1
    obtain ⟨hg1, hs1, ha1⟩ := arc_iff_of_drawOperation hg hf hfresh h1
    have hfresh1 := hk.fresh hfresh
    obtain ⟨hg', hs', ha'⟩ := ih hg1 (hf.congr hk.toSameShapes) hfresh1 h
    refine ⟨hg', hs1.trans hs', fun t h d => ?_⟩
    rw [ha', ha1, or_assoc]
    refine or_congr_right ?_
    rw [← and_or_left]
    refine and_congr_right fun _ => ?_
    have hback : (∃ o ∈ os, Stages g1 o t h) ↔ ∃ o ∈ os, Stages g o t h :=
      exists_congr fun o => and_congr_right fun _ =>
        ⟨fun hs => hs.congr hs1.symm, fun hs => hs.congr hs1⟩
    simp [hback]

/-- In some operation the move at `i` comes before the one at `j`: an operand before the trigger,
or that before a result. -/
def Precedes (p : Program) (i j : Nat) : Prop :=
  ∃ a b k, p.moves[i]? = some a ∧ p.moves[j]? = some b ∧ a.dstOp = some k ∧
    (b.dstOp = some k ∧ a.dst.isTrigger = false ∧ b.dst.isTrigger ∨
      a.dst.isTrigger ∧ b.srcOp = some k)

/-- The graph of a program: its moves with their marks, the edges that the walk over them finds,
and those that order the moves of an operation. -/
structure Drawn (p : Program) (machine : Machine) (g : Graph) : Prop where
  linked : g.Linked
  move? (n : MoveId) : (g.move? n).map Move.bare = (p.moves[n.val]?).map (p.marked machine)
  size : g.moves.size = p.moves.size
  declared {o : OpId} {op : Operation} : g.op? o = some op → p.Declared machine o op
  arc (t h : MoveId) (d : Dependence) : g.Arc t h d ↔
    (t, h, d) ∈ Flow.edges p.isLoop (p.flow machine) ∨ d = .operation ∧ p.Precedes t.val h.val
  unbroken : g.Unbroken

theorem precedes_iff (hp : Prepared p machine g) (hg : g.Matched machine) :
    p.Precedes t.val h.val ↔ ∃ o ∈ g.opIds, Stages g o t h := by
  constructor
  · rintro ⟨a, b, k, ha, hb, hk, hs⟩
    have hma : g.move? t = some (p.marked machine a) := by rw [hp.move?, ha]; rfl
    have hmb : g.move? h = some (p.marked machine b) := by rw [hp.move?, hb]; rfl
    have hda : (p.marked machine a).dstOp = some ⟨k⟩ := by simp [hk]
    refine ⟨⟨k⟩, mem_opIds.2 (hg.dst_known hma hda), _, _, hma, hmb, hda, ?_⟩
    simpa [map_mk_eq_some] using hs
  · rintro ⟨o, -, ma, mb, hma, hmb, hs⟩
    rw [hp.move?] at hma hmb
    obtain ⟨a, ha, rfl⟩ := Option.map_eq_some_iff.1 hma
    obtain ⟨b, hb, rfl⟩ := Option.map_eq_some_iff.1 hmb
    simp only [dstOp_marked, srcOp_marked, isTrigger_marked, map_mk_eq_some] at hs
    exact ⟨a, b, o.val, ha, hb, hs⟩

/-- The graph before its edges are drawn, after the walk over the moves, and in the end. -/
theorem prepared_of_graph (h : p.graph machine = .ok g) : ∃ g2 g3, Prepared p machine g2 ∧ g2.Matched machine ∧
    g3.Fresh ∧ p.drawFlow g2 = .ok g3 ∧ g3.opIds.foldlM drawOperation g3 = .ok g := by
  obtain ⟨g1, g2, g3, he, -, hmatched, hfresh, h2, h3, h4⟩ := entered_of_graph h
  have hmarks := marks_of_checkOperations hmatched (fun o op ho => he.units_eq ho) h2
  obtain ⟨hk2, -⟩ := keeps_of_checkOperations hmatched h2
  exact ⟨g2, g3, he.toTabled.prepared hmarks, hmatched.congr hk2.toSameShapes,
    (hk2.trans (keeps_of_drawFlow h3)).fresh hfresh, h3, h4⟩

/-- What holds before the edges are drawn, and is kept by every edge that is drawn, holds in the end. -/
theorem holds_of_graph {P : Graph → Prop} (hstart : ∀ g, Prepared p machine g → P g)
    (hconnect : ∀ g g' t h d e, P g → g.connect t h d = .ok (g', e) → P g') (h : p.graph machine = .ok g) : P g := by
  obtain ⟨g2, g3, hp, -, -, h3, h4⟩ := prepared_of_graph h
  exact keeps_drawOperations hconnect (keeps_drawFlow hconnect (hstart g2 hp) h3) h4

theorem forcedFiles_of_graph (h : p.graph machine = .ok g) : g.forcedFiles = machine.forcedFiles :=
  holds_of_graph (P := fun g => g.forcedFiles = machine.forcedFiles) (fun _ hp => hp.forcedFiles)
    (fun g g' _ _ _ _ hg hc => by
      have hrew : g.Rewires g' (fun _ _ _ => True) NoneBack NoneBack := rewires_of_connect hc trivial
      exact hrew.moves.forcedFiles.trans hg) h

theorem graph_drawn (h : p.graph machine = .ok g) : p.Drawn machine g := by
  obtain ⟨hf, -⟩ := graph_formed h
  have hunbroken : g.Unbroken := by
    refine holds_of_graph (fun g hp e l he => ?_) (fun _ _ _ _ _ _ hg hc => unbroken_of_connect hg hc) h
    rw [hp.link?] at he
    cases he
  obtain ⟨g2, g3, hp, hmatched, hfresh3, h3, h4⟩ := prepared_of_graph h
  have hf3 := hf.congr (keeps_of_drawOperations h4).toSameShapes.symm
  obtain ⟨hl3, hs3, ha3⟩ := arc_iff_of_drawFlow hp.linked h3
  obtain ⟨hl, hs4, ha4⟩ := arc_iff_of_drawOperations hl3 hf3 hfresh3 h4
  have hs := hs3.trans hs4
  refine ⟨hl, fun n => ?_, hs.size.trans hp.size, fun ho => hp.declared (hs.op? _ ▸ ho), ?_, hunbroken⟩
  · rw [hs.moves, hp.move?, Option.map_map]
    congr 1
    funext pm
    exact marked_bare p machine pm
  · intro t h d
    rw [ha4, ha3, hp.flowMoves_eq, precedes_iff hp hmatched]
    have hnone : ¬ g2.Arc t h d := by
      rintro ⟨e, he⟩
      rw [hp.link?] at he
      cases he
    have hids : g3.opIds = g2.opIds := by simp only [opIds, hs3.ops]
    have hstages : (∃ o ∈ g3.opIds, Stages g3 o t h) ↔ ∃ o ∈ g2.opIds, Stages g2 o t h := by
      rw [hids]
      exact exists_congr fun o => and_congr_right fun _ =>
        ⟨fun hs => hs.congr hs3.symm, fun hs => hs.congr hs3⟩
    simp only [hnone, false_or, hstages]

end Program

end Transport
