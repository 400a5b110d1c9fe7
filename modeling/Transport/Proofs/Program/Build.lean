import Transport.Program.Graph
import Transport.Proofs.Resource.Accounts

/-!
# Built graphs are well-formed

A graph is built in three stages: operations and moves are entered, the operations are checked,
and the edges are drawn. `Entered` is what holds after the first stage. The other two change no
role, and the second makes sure that every operation has one trigger. The main statement is
`Program.graph_formed`.
-/

namespace Transport

open Transport.Graph

/-- A graph that nothing was done with yet. -/
structure Graph.Fresh (g : Graph) : Prop where
  live {n : MoveId} {m : Move} : g.move? n = some m → m.live
  pending {n : MoveId} {m : Move} : g.move? n = some m → m.placement = none
  unbound {o : OpId} {op : Operation} : g.op? o = some op → op.unit? = none

namespace Program

variable {machine : Machine} {g g' : Graph} {n : MoveId} {pm : ProgramMove} {dep : Dependence} {o : OpId}
  {p : Program}

/-! ## Entering operations and moves -/

/-- Operations without moves. -/
structure Blank (machine : Machine) (g : Graph) : Prop where
  moves : g.moves = #[]
  ops {o : OpId} {op : Operation} : g.op? o = some op →
    op.inputs = [] ∧ op.outputs = [] ∧ op.unit? = none ∧ op.units = machine.unitsWith op.opcode

theorem op?_addOperation {op : Operation} : (g.addOperation op).1.op? o =
    if o.val = g.ops.size then some op else g.op? o := by
  simp only [Graph.addOperation, Graph.op?, Array.getElem?_push]

theorem enterOperations_blank (p : Program) (h : Blank machine g) :
    Blank machine (p.enterOperations machine g) := by
  unfold enterOperations
  generalize p.operations.toList = ds
  induction ds generalizing g with
  | nil => exact h
  | cons d ds ih =>
    refine ih ⟨h.moves, ?_⟩
    intro o op ho
    rw [op?_addOperation] at ho
    split at ho
    · cases ho; exact ⟨rfl, rfl, rfl, rfl⟩
    · exact h.ops ho

theorem Blank.matched (h : Blank machine g) : g.Matched machine := by
  have hnone : ∀ n, g.move? n = none := by
    intro n
    simp [Graph.move?, h.moves]
  constructor
  case mem_inputs => intro o op n ho; simp [h.ops ho, hnone]
  case mem_outputs => intro o op n ho; simp [h.ops ho, hnone]
  case units => intro o op v ho hv; rwa [(h.ops ho).2.2.2] at hv
  case outputs_nodup => intro o op ho; simp [h.ops ho]
  all_goals simp [hnone]

theorem Blank.fresh (h : Blank machine g) : g.Fresh where
  live := by simp [Graph.move?, h.moves]
  pending := by simp [Graph.move?, h.moves]
  unbound ho := (h.ops ho).2.2.1

/-- Move `n` is given its operations, each of which lists it. -/
structure Links (g : Graph) (n : MoveId) (dst src : Option Nat) (g' : Graph) : Prop where
  move? (x : MoveId) : g'.move? x = if x = n then (g.move? x).map fun m =>
    { m with dstOp := dst.map Id.mk <|> m.dstOp, srcOp := src.map Id.mk <|> m.srcOp } else g.move? x
  op? (o : OpId) : g'.op? o = (g.op? o).map fun op =>
    { op with inputs := op.inputs ++ (if dst = some o.val then [n] else [])
              outputs := op.outputs ++ (if src = some o.val then [n] else []) }
  size : g'.moves.size = g.moves.size
  edges : g'.links = g.links
  forcedFiles : g'.forcedFiles = g.forcedFiles

theorem Links.refl : Links g n none none g where
  move? x := by
    split
    · cases g.move? x <;> rfl
    · rfl
  op? o := by cases g.op? o <;> simp
  size := rfl
  edges := rfl
  forcedFiles := rfl

theorem Links.size_ops {dst src : Option Nat} (l : Links g n dst src g') : g'.ops.size = g.ops.size := by
  have hnone : ∀ k, g'.ops.size ≤ k ↔ g.ops.size ≤ k := by
    intro k
    rw [← Array.getElem?_eq_none_iff, ← Array.getElem?_eq_none_iff]
    show g'.op? ⟨k⟩ = none ↔ g.op? ⟨k⟩ = none
    rw [l.op?, Option.map_eq_none_iff]
  exact Nat.le_antisymm ((hnone _).2 (Nat.le_refl _)) ((hnone _).1 (Nat.le_refl _))

/-- What is wrong with the operation given for an end of a move, of `size` that are declared. -/
def endDefect (size : Nat) (given : Option Nat) (atUnit : Bool) (stray missing : Defect) : Option Defect :=
  match given with
  | some k => if size ≤ k then some .unknownOperation else if atUnit then none else some stray
  | none => if atUnit then some missing else none

def destDefect (size : Nat) (pm : ProgramMove) : Option Defect :=
  endDefect size pm.dstOp pm.dst.isInput .operandNotAtUnit .operandWithoutOperation

def sourceDefect (size : Nat) (pm : ProgramMove) : Option Defect :=
  endDefect size pm.srcOp pm.src.isOutput .resultNotAtUnit .resultWithoutOperation

theorem endDefect_eq_none {size : Nat} {given : Option Nat} {atUnit : Bool} {stray missing : Defect} :
    endDefect size given atUnit stray missing = none ↔
      given.isSome = atUnit ∧ ∀ k, given = some k → k < size := by
  cases given with
  | none => cases atUnit <;> simp [endDefect]
  | some k =>
    by_cases hk : size ≤ k
    · simp [endDefect, hk, Nat.not_lt.2 hk]
    · cases atUnit <;> simp [endDefect, hk, Nat.not_le.1 hk]

theorem linkDest_eq : linkDest g n pm = (destDefect g.ops.size pm).elim
    (pm.dstOp.elim (pure g) fun k => liftM (g.addInput ⟨k⟩ n)) (invalid · n) := by
  unfold linkDest destDefect endDefect
  cases pm.dstOp with
  | none => cases pm.dst.isInput <;> rfl
  | some k => by_cases hk : g.ops.size ≤ k <;> cases pm.dst.isInput <;> simp only [hk] <;> rfl

theorem linkSource_eq : linkSource g n pm = (sourceDefect g.ops.size pm).elim
    (pm.srcOp.elim (pure g) fun k => liftM (g.addOutput ⟨k⟩ n)) (invalid · n) := by
  unfold linkSource sourceDefect endDefect
  cases pm.srcOp with
  | none => cases pm.src.isOutput <;> rfl
  | some k => by_cases hk : g.ops.size ≤ k <;> cases pm.src.isOutput <;> simp only [hk] <;> rfl

/-- Move `n` is given operation `k`, which lists it. -/
theorem Links.modify {dst src : Option Nat} {k : Nat} {f : Move → Move} {q : Operation → Operation}
    (hf : ∀ m, f m = { m with dstOp := dst.map Id.mk <|> m.dstOp, srcOp := src.map Id.mk <|> m.srcOp })
    (hq : ∀ (o : OpId) op, (if k = o.val then q op else op) =
      { op with inputs := op.inputs ++ (if dst = some o.val then [n] else [])
                outputs := op.outputs ++ (if src = some o.val then [n] else []) }) :
    Links g n dst src ((g.modifyMove n f).modifyOp ⟨k⟩ q) where
  move? x := by simp only [move?_modifyOp, move?_modifyMove, ← hf]
  op? o := by
    rw [op?_modifyOp, op?_modifyMove]
    simp only [← hq, ← Id.val_inj, eq_comm (a := o.val)]
    split
    · rfl
    · exact Option.map_id'.symm
  size := by simp [modifyMove, modifyOp]
  edges := rfl
  forcedFiles := rfl

theorem links_of_linkDest (h : linkDest g n pm = .ok g') :
    pm.dstOp.isSome = pm.dst.isInput ∧ (∀ k, pm.dstOp = some k → ∃ op, g.op? ⟨k⟩ = some op) ∧
      Links g n pm.dstOp none g' := by
  rw [linkDest_eq] at h
  cases hd : destDefect g.ops.size pm with
  | some d => simp [hd, invalid] at h
  | none =>
    refine ⟨(endDefect_eq_none.1 hd).1, fun k hk => mem_opIds.1 (Id.mem_below.2 ((endDefect_eq_none.1 hd).2 k hk)), ?_⟩
    rw [hd, Option.elim_none] at h
    cases hk : pm.dstOp with
    | none => exact pure_eq_ok.1 (hk ▸ h) ▸ .refl
    | some k =>
      simp only [hk, Option.elim_some, liftM_eq_ok, addInput, bind_eq_ok] at h
      obtain ⟨m, -, h⟩ := h
      split at h
      · simp [bind_eq_ok] at h
      simp only [bind_eq_ok, pure_eq_ok] at h
      obtain ⟨op, -, rfl⟩ := h
      exact .modify (fun _ => rfl) fun o op => by by_cases ho : k = o.val <;> simp [ho]

theorem links_of_linkSource (h : linkSource g n pm = .ok g') :
    pm.srcOp.isSome = pm.src.isOutput ∧ (∀ k, pm.srcOp = some k → ∃ op, g.op? ⟨k⟩ = some op) ∧
      Links g n none pm.srcOp g' := by
  rw [linkSource_eq] at h
  cases hd : sourceDefect g.ops.size pm with
  | some d => simp [hd, invalid] at h
  | none =>
    refine ⟨(endDefect_eq_none.1 hd).1, fun k hk => mem_opIds.1 (Id.mem_below.2 ((endDefect_eq_none.1 hd).2 k hk)), ?_⟩
    rw [hd, Option.elim_none] at h
    cases hk : pm.srcOp with
    | none => exact pure_eq_ok.1 (hk ▸ h) ▸ .refl
    | some k =>
      simp only [hk, Option.elim_some, liftM_eq_ok, addOutput, bind_eq_ok, pure_eq_ok] at h
      obtain ⟨m, -, op, -, rfl⟩ := h
      exact .modify (fun _ => rfl) fun o op => by by_cases ho : k = o.val <;> simp [ho]

/-- The entry of a program's move. -/
def entry (pm : ProgramMove) : Move :=
  { src := pm.src, dst := pm.dst, guard := pm.guard, block := pm.block,
    dstOp := pm.dstOp.map Id.mk, srcOp := pm.srcOp.map Id.mk }

/-- A move is entered at the end of the table, and its operations list it. -/
structure Enters (g : Graph) (pm : ProgramMove) (g' : Graph) : Prop where
  dst_input : pm.dstOp.isSome = pm.dst.isInput
  src_output : pm.srcOp.isSome = pm.src.isOutput
  dst_known {k : Nat} : pm.dstOp = some k → ∃ op, g.op? ⟨k⟩ = some op
  src_known {k : Nat} : pm.srcOp = some k → ∃ op, g.op? ⟨k⟩ = some op
  move? (x : MoveId) : g'.move? x = if x.val = g.moves.size then some (entry pm) else g.move? x
  op? (o : OpId) : g'.op? o = (g.op? o).map fun op =>
    { op with inputs := op.inputs ++ (if pm.dstOp = some o.val then [⟨g.moves.size⟩] else [])
              outputs := op.outputs ++ (if pm.srcOp = some o.val then [⟨g.moves.size⟩] else []) }
  size : g'.moves.size = g.moves.size + 1
  edges : g'.links = g.links
  forcedFiles : g'.forcedFiles = g.forcedFiles

/-- The graph with the move, before this is given its operations. -/
def append (g : Graph) (pm : ProgramMove) : Graph :=
  (g.addMove { src := pm.src, dst := pm.dst, guard := pm.guard, block := pm.block }).1

theorem move?_append (x : MoveId) : (append g pm).move? x = if x.val = g.moves.size
    then some { src := pm.src, dst := pm.dst, guard := pm.guard, block := pm.block } else g.move? x := by
  simp only [append, Graph.addMove, Graph.move?, Array.getElem?_push]

theorem enterMove_eq : enterMove g pm = linkDest (append g pm) ⟨g.moves.size⟩ pm >>=
    fun g' => linkSource g' ⟨g.moves.size⟩ pm := rfl

theorem enters_of_enterMove (h : enterMove g pm = .ok g') : Enters g pm g' := by
  rw [enterMove_eq, bind_eq_ok] at h
  obtain ⟨g1, h1, h2⟩ := h
  obtain ⟨hin, hk, l1⟩ := links_of_linkDest h1
  obtain ⟨hout, hk', l2⟩ := links_of_linkSource h2
  refine ⟨hin, hout, @hk, ?_, ?_, ?_, ?_, l2.edges.trans l1.edges, l2.forcedFiles.trans l1.forcedFiles⟩
  · intro k hk
    obtain ⟨op, hop⟩ := hk' k hk
    rw [l1.op?] at hop
    obtain ⟨op', hop', -⟩ := Option.map_eq_some_iff.1 hop
    exact ⟨op', hop'⟩
  · intro x
    rw [l2.move?, l1.move?, move?_append]
    by_cases hx : x.val = g.moves.size
    · have hx' : x = ⟨g.moves.size⟩ := Id.ext_val hx
      simp only [hx', if_true, Option.map_some, entry]
      cases pm.dstOp <;> cases pm.srcOp <;> rfl
    · have hx' : x ≠ ⟨g.moves.size⟩ := fun h => hx (congrArg Id.val h)
      simp only [hx', hx, if_false]
  · intro o
    rw [l2.op?, l1.op?]
    show Option.map _ (Option.map _ (g.op? o)) = _
    cases g.op? o <;> simp
  · rw [l2.size, l1.size]
    exact Array.size_push ..

theorem map_mk_eq_some {k : Option Nat} : k.map Id.mk = some o ↔ k = some o.val := by
  cases k with
  | none => simp
  | some k => simp [← Id.val_inj]

namespace Enters

variable (h : Enters g pm g')
include h

theorem cases_move {x : MoveId} {m : Move} (hm : g'.move? x = some m) :
    x = ⟨g.moves.size⟩ ∧ m = entry pm ∨ g.move? x = some m := by
  rw [h.move?] at hm
  split at hm
  · rename_i hx; cases hm; exact .inl ⟨Id.ext_val hx, rfl⟩
  · exact .inr hm

theorem cases_op {op' : Operation} (ho : g'.op? o = some op') :
    ∃ op, g.op? o = some op ∧ op' =
      { op with inputs := op.inputs ++ (if pm.dstOp = some o.val then [⟨g.moves.size⟩] else [])
                outputs := op.outputs ++
                  (if pm.srcOp = some o.val then [⟨g.moves.size⟩] else []) } := by
  rw [h.op?] at ho
  obtain ⟨op, hop, rfl⟩ := Option.map_eq_some_iff.1 ho
  exact ⟨op, hop, rfl⟩

theorem op_known (ho : ∃ op, g.op? o = some op) : ∃ op', g'.op? o = some op' := by
  obtain ⟨op, hop⟩ := ho
  exact ⟨_, by rw [h.op?, hop]; rfl⟩

/-- The list of an operation has the new move if this is one of `P`. -/
theorem mem_listed {P : Move → Prop} {ns : List MoveId} {k : Option Nat} {x : MoveId}
    (hns : x ∈ ns ↔ ∃ m, g.move? x = some m ∧ P m) (hnew : P (entry pm) ↔ k = some o.val) :
    x ∈ ns ++ (if k = some o.val then [⟨g.moves.size⟩] else []) ↔ ∃ m, g'.move? x = some m ∧ P m := by
  rw [List.mem_append, hns]
  constructor
  · rintro (⟨m, hm, hP⟩ | hx)
    · exact ⟨m, by rw [h.move?, if_neg (Nat.ne_of_lt (lt_of_move? hm)), hm], hP⟩
    · split at hx
      · rename_i hk
        rw [List.mem_singleton.1 hx]
        exact ⟨entry pm, by rw [h.move?, if_pos rfl], hnew.2 hk⟩
      · cases hx
  · rintro ⟨m, hm, hP⟩
    obtain ⟨rfl, rfl⟩ | hm := h.cases_move hm
    · right
      rw [if_pos (hnew.1 hP)]
      exact .head _
    · exact .inl ⟨m, hm, hP⟩

theorem matched (hg : g.Matched machine) : g'.Matched machine := by
  constructor
  case mem_inputs =>
    intro o op' x ho
    obtain ⟨op, hop, rfl⟩ := h.cases_op ho
    exact h.mem_listed (hg.mem_inputs hop) map_mk_eq_some
  case mem_outputs =>
    intro o op' x ho
    obtain ⟨op, hop, rfl⟩ := h.cases_op ho
    exact h.mem_listed (hg.mem_outputs hop) ((and_iff_left rfl).trans map_mk_eq_some)
  case dst_known =>
    intro x m o hm hd
    obtain ⟨rfl, rfl⟩ | hm := h.cases_move hm
    · exact h.op_known (h.dst_known (map_mk_eq_some.1 hd))
    · exact h.op_known (hg.dst_known hm hd)
  case src_known =>
    intro x m o hm hd
    obtain ⟨rfl, rfl⟩ | hm := h.cases_move hm
    · exact h.op_known (h.src_known (map_mk_eq_some.1 hd))
    · exact h.op_known (hg.src_known hm hd)
  case dst_input =>
    intro x m hm
    obtain ⟨rfl, rfl⟩ | hm := h.cases_move hm
    · simpa [entry] using h.dst_input
    · exact hg.dst_input hm
  case src_output =>
    intro x m hm
    obtain ⟨rfl, rfl⟩ | hm := h.cases_move hm
    · simpa [entry] using h.src_output
    · exact hg.src_output hm
  case units =>
    intro o op' v ho hv
    obtain ⟨op, hop, rfl⟩ := h.cases_op ho
    have hunits := hg.units hop hv
    exact hunits
  case outputs_nodup =>
    intro o op' ho
    obtain ⟨op, hop, rfl⟩ := h.cases_op ho
    have hold : ∀ x ∈ op.outputs, x ≠ ⟨g.moves.size⟩ := by
      rintro x hx rfl
      obtain ⟨m, hm, -⟩ := (hg.mem_outputs hop).1 hx
      exact Nat.lt_irrefl _ (lt_of_move? hm)
    rw [List.nodup_append]
    refine ⟨hg.outputs_nodup hop, by split <;> simp, fun x hx y hy => ?_⟩
    split at hy
    · rw [List.mem_singleton.1 hy]; exact hold x hx
    · cases hy

theorem fresh (hg : g.Fresh) : g'.Fresh := by
  constructor
  case live =>
    intro x m hm
    obtain ⟨rfl, rfl⟩ | hm := h.cases_move hm
    · rfl
    · exact hg.live hm
  case pending =>
    intro x m hm
    obtain ⟨rfl, rfl⟩ | hm := h.cases_move hm
    · rfl
    · exact hg.pending hm
  case unbound =>
    intro o op' ho
    obtain ⟨op, hop, rfl⟩ := h.cases_op ho
    have hunit := hg.unbound hop
    exact hunit

end Enters

/-! ## Checking operations -/

/-- The moves and operations are the same but for marks and edges. -/
structure Keeps (g g' : Graph) : Prop extends g.SameShapes g' where
  fresh : g.Fresh → g'.Fresh

theorem Keeps.refl : Keeps g g := ⟨.refl, id⟩

theorem Keeps.trans {g'' : Graph} (h : Keeps g g') (h' : Keeps g' g'') : Keeps g g'' :=
  ⟨h.toSameShapes.trans h'.toSameShapes, h'.fresh ∘ h.fresh⟩

/-- A change of one move that touches neither its role nor its place. -/
theorem Keeps.modifyMove {f : Move → Move} (hshape : ∀ m, (f m).shape = m.shape)
    (hplace : ∀ m, (f m).placement = m.placement) : Keeps g (g.modifyMove n f) := by
  refine ⟨⟨fun x => ?_, fun _ => rfl⟩, fun hg => ⟨?_, ?_, fun ho => hg.unbound ho⟩⟩
  · rw [move?_modifyMove]
    split
    · cases g.move? x with
      | none => rfl
      | some m => simp [hshape]
    · rfl
  · intro x m hm
    rw [move?_modifyMove] at hm
    split at hm
    · obtain ⟨m0, hm0, rfl⟩ := Option.map_eq_some_iff.1 hm
      exact (Move.Shape.mk.inj (hshape m0)).2.2.2.2.2.trans (hg.live hm0)
    · exact hg.live hm
  · intro x m hm
    rw [move?_modifyMove] at hm
    split at hm
    · obtain ⟨m0, hm0, rfl⟩ := Option.map_eq_some_iff.1 hm
      exact (hplace m0).trans (hg.pending hm0)
    · exact hg.pending hm

/-- At most one move triggers `o`. -/
def OneTrigger (g : Graph) (o : OpId) : Prop :=
  ∀ n n' m m', g.move? n = some m → g.move? n' = some m' → m.dstOp = some o → m'.dstOp = some o →
    m.isTrigger → m'.isTrigger → n = n'

theorem eq_of_countP_le_one {α : Type} {p : α → Bool} {xs : List α} (h : xs.countP p ≤ 1) {x y : α}
    (hx : x ∈ xs) (hy : y ∈ xs) (hpx : p x) (hpy : p y) : x = y := by
  rw [List.countP_eq_length_filter] at h
  have hx : x ∈ xs.filter p := List.mem_filter.2 ⟨hx, hpx⟩
  have hy : y ∈ xs.filter p := List.mem_filter.2 ⟨hy, hpy⟩
  generalize xs.filter p = ys at *
  match ys with
  | [z] => rw [List.mem_singleton.1 hx, List.mem_singleton.1 hy]
  | z :: z' :: zs => simp at h

/-- A checked operation that is given operands is triggered by one of them. -/
theorem checkOperation_eq_ok (h : checkOperation machine g o = .ok g') : ∃ op control t, g.op o = .ok op ∧
    op.units ≠ [] ∧ (op.inputs ≠ [] → op.inputs.countP (fun n => (g.move? n).any Move.isTrigger) = 1) ∧
    op.units.allM (fun u => return (← machine.unit u).control) = .ok control ∧ g.trigger o = .ok t ∧
    (match control, t with
      | true, some t => pure (g.modifyMove t fun m => { m with controlFlow := true, call := op.opcode = "call" })
      | _, _ => pure g) = (.ok g' : Built Graph) := by
  simp only [checkOperation, bind_eq_ok, liftM_eq_ok] at h
  obtain ⟨op, hop, h⟩ := h
  split at h
  · simp [invalid, bind_eq_ok] at h
  rename_i hunits
  split at h
  · simp [invalid, bind_eq_ok] at h
  rename_i hcount
  simp only [bind_eq_ok, liftM_eq_ok] at h
  obtain ⟨control, hcontrol, t, ht, h⟩ := h
  refine ⟨op, control, t, hop, by simpa using hunits, fun hne => ?_, hcontrol, ht, h⟩
  simpa [hne] using hcount

/-- A checked operation has one trigger at most, and only marks are set. -/
theorem keeps_of_checkOperation (hg : g.Matched machine) (h : checkOperation machine g o = .ok g') :
    Keeps g g' ∧ o ≠ .invalid ∧ OneTrigger g o := by
  obtain ⟨op, control, t, hop, -, hcount, -, -, h⟩ := checkOperation_eq_ok h
  have hop' := op?_of_op hop
  have hone : OneTrigger g o := by
    intro n n' m m' hm hm' hd hd' ht ht'
    have hn := (hg.mem_inputs hop').2 ⟨m, hm, hd⟩
    have hn' := (hg.mem_inputs hop').2 ⟨m', hm', hd'⟩
    exact eq_of_countP_le_one (Nat.le_of_eq (hcount (List.ne_nil_of_mem hn))) hn hn' (by simp [hm, ht]) (by simp [hm', ht'])
  refine ⟨?_, (op_eq_ok.1 hop).1, hone⟩
  split at h
  · cases pure_eq_ok.1 h
    exact Keeps.modifyMove (fun _ => rfl) (fun _ => rfl)
  · cases pure_eq_ok.1 h
    exact Keeps.refl

theorem OneTrigger.congr (h : OneTrigger g' o) (hshapes : g.SameShapes g') : OneTrigger g o := by
  intro n n' m m' hm hm' hd hd' ht ht'
  obtain ⟨k, hk, he⟩ := exists_of_map_eq (hshapes.moves n).symm hm
  obtain ⟨k', hk', he'⟩ := exists_of_map_eq (hshapes.moves n').symm hm'
  obtain ⟨-, hdst, -, -, htr, -⟩ := Move.Shape.mk.inj he
  obtain ⟨-, hdst', -, -, htr', -⟩ := Move.Shape.mk.inj he'
  exact h n n' k k' hk hk' (hdst.trans hd) (hdst'.trans hd') (htr.trans ht) (htr'.trans ht')

theorem keeps_of_checkOperations {os : List OpId} (hg : g.Matched machine)
    (h : os.foldlM (checkOperation machine) g = .ok g') :
    Keeps g g' ∧ ∀ o ∈ os, o ≠ .invalid ∧ OneTrigger g o := by
  induction os generalizing g with
  | nil =>
    cases pure_eq_ok.1 h
    exact ⟨Keeps.refl, by simp⟩
  | cons o os ih =>
    obtain ⟨g1, h1, h⟩ := foldlM_cons_eq_ok.1 h
    obtain ⟨hk1, hvalid, hone⟩ := keeps_of_checkOperation hg h1
    obtain ⟨hk, hall⟩ := ih (hg.congr hk1.toSameShapes) h
    refine ⟨hk1.trans hk, ?_⟩
    intro o' ho'
    rcases List.mem_cons.1 ho' with rfl | ho'
    · exact ⟨hvalid, hone⟩
    · exact ⟨(hall o' ho').1, (hall o' ho').2.congr hk1.toSameShapes⟩

/-! ## Drawing edges -/

theorem keeps_of_connect {tail head : MoveId} {e : EdgeId}
    (h : g.connect tail head dep = .ok (g', e)) : Keeps g g' := by
  obtain ⟨-, -, rfl, rfl⟩ := connect_eq_ok h
  have hpush : Keeps g { g with links := g.links.push { tail, head, dep } } :=
    ⟨⟨fun _ => rfl, fun _ => rfl⟩, fun hg => ⟨fun h => hg.live h, fun h => hg.pending h,
      fun h => hg.unbound h⟩⟩
  have htail := hpush.trans (Keeps.modifyMove (n := tail)
    (f := fun m => { m with outs := m.outs ++ [⟨g.links.size⟩] }) (fun _ => rfl) (fun _ => rfl))
  have hhead := htail.trans (Keeps.modifyMove (n := head)
    (f := fun m => { m with ins := m.ins ++ [⟨g.links.size⟩] }) (fun _ => rfl) (fun _ => rfl))
  exact ⟨⟨hhead.moves, hhead.ops⟩, fun hg => ⟨(hhead.fresh hg).live, (hhead.fresh hg).pending,
    (hhead.fresh hg).unbound⟩⟩

section

variable {P : Graph → Prop} (hconnect : ∀ g g' t h d e, P g → g.connect t h d = .ok (g', e) → P g')
include hconnect

theorem keeps_drawOperation (hg : P g) (h : drawOperation g o = .ok g') : P g' := by
  have hconnects {tail head : MoveId → MoveId} {ns : List MoveId} {g g' : Graph} (hg : P g)
      (h : ns.foldlM (fun g n => return (← g.connect (tail n) (head n) .operation).1) g =
        (.ok g' : Checked Graph)) : P g' := by
    refine foldlM_keeps (P := P) (fun n _ g g' hg h => ?_) hg h
    simp only [bind_eq_ok, pure_eq_ok, Prod.exists] at h
    obtain ⟨_, e, h, rfl⟩ := h
    exact hconnect _ _ _ _ _ _ hg h
  simp only [drawOperation, bind_eq_ok] at h
  obtain ⟨x, -, h⟩ := h
  cases x with
  | none => exact pure_eq_ok.1 h ▸ hg
  | some t =>
    simp only [bind_eq_ok] at h
    obtain ⟨op, -, g1, h1, h2⟩ := h
    exact hconnects (hconnects hg h1) h2

theorem keeps_drawOperations {os : List OpId} (hg : P g) (h : os.foldlM drawOperation g = .ok g') : P g' :=
  foldlM_keeps (P := P) (fun _ _ _ _ hg h => keeps_drawOperation hconnect hg h) hg h

theorem keeps_drawFlow (hg : P g) (h : p.drawFlow g = .ok g') : P g' := by
  refine foldlM_keeps (P := P) (fun e _ g g' hg h => ?_) hg h
  simp only [bind_eq_ok, pure_eq_ok, Prod.exists] at h
  obtain ⟨_, x, h, rfl⟩ := h
  obtain ⟨rfl, -⟩ | ⟨e, -, hc⟩ := ensureEdge_eq_ok h
  · exact hg
  · exact hconnect _ _ _ _ _ _ hg hc

end

theorem keeps_of_drawFlow (h : p.drawFlow g = .ok g') : Keeps g g' :=
  keeps_drawFlow (fun _ _ _ _ _ _ hk h => hk.trans (keeps_of_connect h)) Keeps.refl h

theorem keeps_of_drawOperation (h : drawOperation g o = .ok g') : Keeps g g' :=
  keeps_drawOperation (fun _ _ _ _ _ _ hk h => hk.trans (keeps_of_connect h)) Keeps.refl h

theorem keeps_of_drawOperations {os : List OpId} (h : os.foldlM drawOperation g = .ok g') : Keeps g g' :=
  keeps_drawOperations (fun _ _ _ _ _ _ hk h => hk.trans (keeps_of_connect h)) Keeps.refl h

/-! ## The whole graph -/

theorem blank_of_ofMachine (h : Graph.ofMachine machine = .ok g) : Blank machine g := by
  simp only [Graph.ofMachine, bind_eq_ok, pure_eq_ok] at h
  obtain ⟨latencies, -, rfl⟩ := h
  exact ⟨rfl, by simp [Graph.op?]⟩

/-- The graph with the operations of the program and nothing else. -/
def start (p : Program) (machine : Machine) (g : Graph) : Graph :=
  p.enterOperations machine { g with liveIn := p.liveIn, liveOut := p.liveOut }

theorem start_blank (h : Graph.ofMachine machine = .ok g) : Blank machine (p.start machine g) :=
  enterOperations_blank p ⟨(blank_of_ofMachine h).moves, (blank_of_ofMachine h).ops⟩

theorem matched_of_enterMoves {ms : List ProgramMove} (h0 : Graph.ofMachine machine = .ok g)
    (h1 : ms.foldlM enterMove (p.start machine g) = .ok g') : g'.Matched machine ∧ g'.Fresh := by
  refine foldlM_keeps (P := fun g => g.Matched machine ∧ g.Fresh) ?_
    ⟨(start_blank h0).matched, (start_blank h0).fresh⟩ h1
  rintro pm - g g' ⟨hm, hf⟩ h
  exact ⟨(enters_of_enterMove h).matched hm, (enters_of_enterMove h).fresh hf⟩

/-- A graph is built from one in which moves and operations match, by checking every operation and
drawing edges. -/
theorem stages_of_graph (h : p.graph machine = .ok g) : ∃ g1 g2, g1.Matched machine ∧ g1.Fresh ∧
    g1.opIds.foldlM (checkOperation machine) g1 = .ok g2 ∧ Keeps g1 g := by
  simp only [graph, bind_eq_ok, liftM_eq_ok] at h
  obtain ⟨g0, h0, g1, h1, g2, h2, g3, h3, h4⟩ := h
  obtain ⟨hmatched, hfresh⟩ := matched_of_enterMoves h0 h1
  have hk3 := (keeps_of_checkOperations hmatched h2).1.trans (keeps_of_drawFlow h3)
  exact ⟨g1, g2, hmatched, hfresh, h2, hk3.trans (keeps_of_drawOperations h4)⟩

/-- A built graph is well-formed, and no move of it is placed. -/
theorem graph_formed (h : p.graph machine = .ok g) : g.Formed machine ∧ g.Fresh := by
  obtain ⟨g1, g2, hmatched, hfresh, hchecked, hk⟩ := stages_of_graph h
  have hops := (keeps_of_checkOperations hmatched hchecked).2
  have hmatched' := hmatched.congr hk.toSameShapes
  have hknown : ∀ {o op}, g.op? o = some op → o ≠ .invalid ∧ OneTrigger g o := by
    intro o op ho
    obtain ⟨op1, hop1, -⟩ := exists_of_map_eq (hk.ops o) ho
    obtain ⟨hvalid, hone⟩ := hops o (mem_opIds.2 ⟨op1, hop1⟩)
    exact ⟨hvalid, hone.congr hk.toSameShapes.symm⟩
  refine ⟨⟨hmatched', ?_, fun ho => (hknown ho).1, ?_⟩, hk.fresh hfresh⟩
  · intro n n' m m' o hm hm' hd hd' ht ht'
    obtain ⟨op, hop⟩ := hmatched'.dst_known hm hd
    exact (hknown hop).2 n n' m m' hm hm' hd hd' ht ht'
  · intro n m hm _
    exact (hk.fresh hfresh).live hm

theorem triggered_of_checkOperation {m : Move} (hg : g.Matched machine)
    (h : checkOperation machine g o = .ok g') (hm : g.move? n = some m) (hd : m.dstOp = some o) :
    ∃ n' m', g.move? n' = some m' ∧ m'.dstOp = some o ∧ m'.isTrigger := by
  obtain ⟨op, control, t, hop, -, hcount, -⟩ := checkOperation_eq_ok h
  have hop := op?_of_op hop
  have hone := hcount (List.ne_nil_of_mem ((hg.mem_inputs hop).2 ⟨m, hm, hd⟩))
  obtain ⟨n', hn', htrigger⟩ := List.countP_pos_iff.1 (hone ▸ Nat.one_pos)
  obtain ⟨m', hm', hd'⟩ := (hg.mem_inputs hop).1 hn'
  exact ⟨n', m', hm', hd', by simpa [hm'] using htrigger⟩

/-- An operation that is given operands is triggered by one of them. -/
theorem graph_triggered {m : Move} (h : p.graph machine = .ok g)
    (hm : g.move? n = some m) (hd : m.dstOp = some o) :
    ∃ n' m', g.move? n' = some m' ∧ m'.dstOp = some o ∧ m'.isTrigger := by
  obtain ⟨g1, g2, hmatched, -, hchecked, hk⟩ := stages_of_graph h
  have hback {x y : Graph} (hxy : x.SameShapes y) {n : MoveId} {m : Move} (hm : x.move? n = some m) :
      ∃ m', y.move? n = some m' ∧ m'.dstOp = m.dstOp ∧ m'.isTrigger = m.isTrigger := by
    obtain ⟨m', hm', he⟩ := exists_of_map_eq (hxy.moves n).symm hm
    obtain ⟨-, hdst, -, -, htr, -⟩ := Move.Shape.mk.inj he
    exact ⟨m', hm', hdst, htr⟩
  obtain ⟨m1, hm1, hd1, -⟩ := hback hk.toSameShapes.symm hm
  obtain ⟨op, hop⟩ := hmatched.dst_known hm1 (hd1.trans hd)
  -- The operation is checked in a graph of the same shapes.
  obtain ⟨n', m', hm', hd', htr'⟩ : ∃ n' m', g1.move? n' = some m' ∧ m'.dstOp = some o ∧ m'.isTrigger := by
    refine foldlM_reaches (P := Keeps g1)
      (Q := fun _ => ∃ n' m', g1.move? n' = some m' ∧ m'.dstOp = some o ∧ m'.isTrigger) ?_
      (mem_opIds.2 ⟨op, hop⟩) ?_ Keeps.refl hchecked
    · intro o' _ b b' hb h
      exact ⟨hb.trans (keeps_of_checkOperation (hmatched.congr hb.toSameShapes) h).1, id⟩
    · intro b b' hb h
      obtain ⟨mb, hmb, hdb, -⟩ := hback hb.toSameShapes hm1
      obtain ⟨n', m', hm', hd', htr'⟩ := triggered_of_checkOperation (hmatched.congr hb.toSameShapes) h hmb
        ((hdb.trans hd1).trans hd)
      obtain ⟨k, hk, hdk, htk⟩ := hback hb.toSameShapes.symm hm'
      exact ⟨n', k, hk, hdk.trans hd', htk.trans htr'⟩
  obtain ⟨k, hk', hdk, htk⟩ := hback hk.toSameShapes hm'
  exact ⟨n', k, hk', hdk.trans hd', htk.trans htr'⟩

end Program

/-- Before any move is placed, nothing is taken up. -/
theorem Sound.of_fresh {machine : Machine} {g : Graph} (hg : g.Formed machine) (hf : g.Fresh) :
    Sound machine {} g := by
  have hcycle : ∀ {n m c}, g.move? n = some m → m.cycle? ≠ some c := by
    intro n m c hm
    simp [Move.cycle?, hf.pending hm]
  have hbound : ∀ o, Usage.boundUnit {} o = none := by
    intro o
    simp [Usage.boundUnit]
  have hzero : ∀ o, g.bonds o = 0 := by
    intro o
    have hnone : ∀ m ∈ g.moves.toList, m.isPlaced = false := by
      intro m hm
      obtain ⟨i, hi⟩ := Array.mem_iff_getElem?.1 (Array.mem_toList_iff.1 hm)
      have hm : g.move? ⟨i⟩ = some m := hi
      simp [Move.isPlaced, hf.pending hm]
    simp only [Graph.bonds, Nat.add_eq_zero_iff, List.countP_eq_zero, Bool.and_eq_true, not_and]
    exact ⟨fun m hm hp => absurd hp (by simp [hnone m hm]),
      fun m hm hp => absurd hp (by simp [hnone m hm])⟩
  refine ⟨hg, ?_, ?_, ?_⟩
  · constructor
    case assigned => intro n m p hm hp; rw [hf.pending hm] at hp; cases hp
    case carries => intro n m p hm hp; rw [hf.pending hm] at hp; cases hp
    case triggered => rintro o n t v ⟨m, hm, -, -, hc⟩; exact absurd hc (hcycle hm)
    case bonds => intro o; rw [hzero]; simp [Usage.bonds]
    case bonds_pos => intro o v k hk; simp at hk
    case unit => intro o op ho; rw [hbound, hf.unbound ho]
    case unit_mem => intro o op v _ hv; rw [hbound] at hv; cases hv
  · constructor
    · rintro o o' v n n' t t' - - - ⟨m, hm, -, -, hc⟩; exact absurd hc (hcycle hm)
    · rintro o o' v n w w' k t c c' - - - ⟨m, hm, -, -, hc⟩; exact absurd hc (hcycle hm)
    · rintro o o' v op n n' w t t' r - - - - ⟨m, hm, -, -, hc⟩; exact absurd hc (hcycle hm)
  · intro n m p hm hp
    rw [hf.pending hm] at hp
    cases hp

end Transport
