import Transport.Proofs.Program.Edges
import Transport.Proofs.Program.Walk

/-!
# The programs that have a graph

What the builder asks of each move (`Fits`) and of each operation (`Passes`), and that it asks for
nothing else: a program is `Buildable` if its graph could be built, and then the graph of every
program that is `Buildable` and of which all moves and operations have identifiers can be built
(`buildable_of_graph`, `exists_graph`).
-/

namespace Transport

open Transport.Graph

namespace Program

variable {machine : Machine} {p : Program} {g g' : Graph} {n t h : MoveId} {o : OpId} {op : Operation}
  {pm : ProgramMove} {ms ms' : List ProgramMove} {d : Dependence}

/-! ## Moves -/

theorem exists_linkDest (hn : ∃ m, g.move n = .ok m ∧ m.dstOp = none) (hfit : destDefect g.ops.size pm = none)
    (hsize : g.ops.size ≤ 4294967295) : ∃ g', linkDest g n pm = .ok g' := by
  obtain ⟨m, hm, hnone⟩ := hn
  rw [linkDest_eq, hfit, Option.elim_none]
  cases hk : pm.dstOp with
  | none => exact ⟨g, rfl⟩
  | some k =>
    have hop : g.op ⟨k⟩ = .ok _ := fetch_ok hsize (Array.getElem?_eq_getElem ((endDefect_eq_none.1 hfit).2 k hk))
    simp only [Option.elim_some, liftM_eq_ok]
    simp [addInput, hm, hop, Move.isOperand, hnone]

theorem exists_linkSource (hn : ∃ m, g.move n = .ok m) (hfit : sourceDefect g.ops.size pm = none)
    (hsize : g.ops.size ≤ 4294967295) : ∃ g', linkSource g n pm = .ok g' := by
  obtain ⟨m, hm⟩ := hn
  rw [linkSource_eq, hfit, Option.elim_none]
  cases hk : pm.srcOp with
  | none => exact ⟨g, rfl⟩
  | some k =>
    have hop : g.op ⟨k⟩ = .ok _ := fetch_ok hsize (Array.getElem?_eq_getElem ((endDefect_eq_none.1 hfit).2 k hk))
    simp only [Option.elim_some, liftM_eq_ok]
    simp [addOutput, hm, hop]

theorem move_append (hsize : g.moves.size < 4294967295) : ∃ m, (append g pm).move ⟨g.moves.size⟩ = .ok m ∧
    m.dstOp = none :=
  ⟨_, move_eq_ok.2 ⟨Id.ne_invalid hsize (Nat.lt_succ_self _), by rw [move?_append, if_pos rfl]⟩, rfl⟩

theorem exists_enterMove (hsize : g.moves.size < 4294967295) (hops : g.ops.size ≤ 4294967295)
    (hdst : destDefect g.ops.size pm = none) (hsrc : sourceDefect g.ops.size pm = none) :
    ∃ g', enterMove g pm = .ok g' := by
  obtain ⟨g1, h1⟩ := exists_linkDest (move_append hsize) hdst hops
  obtain ⟨-, -, l⟩ := links_of_linkDest h1
  have hm := l.move? ⟨g.moves.size⟩
  rw [if_pos rfl, move?_append, if_pos rfl] at hm
  obtain ⟨g2, h2⟩ := exists_linkSource ⟨_, move_eq_ok.2 ⟨Id.ne_invalid hsize (Nat.lt_succ_self _), hm⟩⟩
    (l.size_ops ▸ hsrc) (l.size_ops ▸ hops)
  exact ⟨g2, bind_eq_ok.2 ⟨g1, h1, h2⟩⟩

theorem fits_iff : p.Fits pm ↔
    destDefect p.operations.size pm = none ∧ sourceDefect p.operations.size pm = none := by
  simp only [destDefect, sourceDefect, endDefect_eq_none]
  constructor
  · rintro ⟨hin, hout, hdst, hsrc⟩
    exact ⟨⟨hin, @hdst⟩, hout, @hsrc⟩
  · rintro ⟨⟨hin, hdst⟩, hout, hsrc⟩
    exact ⟨hin, hout, hdst _, hsrc _⟩

theorem feeding_ne_nil {k : Nat} : feeding ms k ≠ [] ↔ ∃ pm ∈ ms, pm.dstOp = some k := by
  simp only [feeding, ne_eq, List.map_eq_nil_iff, List.filter_eq_nil_iff, decide_eq_true_eq, not_forall, not_not]
  constructor
  · rintro ⟨x, hx, hk⟩
    exact ⟨x.1, List.mem_of_getElem? (List.mem_zipIdx_iff_getElem?.1 hx), hk⟩
  · rintro ⟨pm, hpm, hk⟩
    obtain ⟨i, hi⟩ := List.mem_iff_getElem?.1 hpm
    exact ⟨(pm, i), List.mem_zipIdx_iff_getElem?.2 hi, hk⟩

theorem feeding_nodup (ms : List ProgramMove) (k : Nat) : (feeding ms k).Nodup := by
  have hsub : (feeding ms k).Sublist (ms.zipIdx.map fun x => (⟨x.2⟩ : MoveId)) :=
    List.Sublist.map _ List.filter_sublist
  refine hsub.nodup ?_
  have hids : (ms.zipIdx.map fun x => (⟨x.2⟩ : MoveId)) = Id.below ms.length := by
    rw [Id.below, List.range_eq_range', ← List.zipIdx_map_snd 0 ms, List.map_map]
    rfl
  exact hids ▸ Id.nodup_below

section

variable (he : Entered p machine ms g)
include he

theorem Entered.size_ops : g.ops.size = p.operations.size := by
  refine Nat.le_antisymm (Nat.le_of_not_lt fun hlt => ?_) (Nat.le_of_not_lt fun hlt => ?_)
  · exact Nat.lt_irrefl _ (he.lt_of_op? (o := ⟨_⟩) (Array.getElem?_eq_getElem hlt))
  · obtain ⟨op, hop⟩ := he.known (o := ⟨_⟩) (Array.getElem?_eq_getElem hlt)
    exact Nat.lt_irrefl _ (Graph.lt_of_op? hop)

theorem exists_enterMoves (hfits : ∀ pm ∈ ms', p.Fits pm)
    (hmoves : (ms ++ ms').length ≤ 4294967295) (hops : p.operations.size ≤ 4294967295) :
    ∃ g', ms'.foldlM enterMove g = .ok g' := by
  induction ms' generalizing g ms with
  | nil => exact ⟨g, rfl⟩
  | cons pm ms' ih =>
    have hlen : g.moves.size < 4294967295 := by
      rw [he.size]
      simp only [List.length_append, List.length_cons] at hmoves
      omega
    obtain ⟨hdst, hsrc⟩ := fits_iff.1 (hfits pm (.head _))
    rw [← he.size_ops] at hdst hsrc
    obtain ⟨g1, h1⟩ := exists_enterMove hlen (he.size_ops ▸ hops) hdst hsrc
    obtain ⟨g', h⟩ := ih (he.enters (enters_of_enterMove h1)) (fun x hx => hfits x (.tail _ hx))
      (by rwa [List.append_assoc])
    exact ⟨g', foldlM_cons_eq_ok.2 ⟨g1, h1, h⟩⟩

end

/-! ## Operations -/

/-- The operation has a unit, one trigger if it has operands, and units that can be looked up. -/
structure Passes (machine : Machine) (g : Graph) (op : Operation) : Prop where
  units : op.units ≠ []
  one_trigger : op.inputs ≠ [] →
    op.inputs.countP (fun n => (g.move? n).any Move.isTrigger) = 1
  control : ∃ b, (op.units.allM fun u => return (← machine.unit u).control : Checked Bool) = .ok b

theorem exists_checkOperation (hop : g.op o = .ok op) (h : Passes machine g op) :
    ∃ g', checkOperation machine g o = .ok g' := by
  obtain ⟨b, hb⟩ := h.control
  have hunits : op.units.isEmpty = false := by simpa using h.units
  have hcount : (!op.inputs.isEmpty &&
      decide (op.inputs.countP (fun n => (g.move? n).any Move.isTrigger) ≠ 1)) = false := by
    cases hin : op.inputs with
    | nil => rfl
    | cons x xs => simp [← hin, h.one_trigger (by simp [hin])]
  have htrigger : ∃ t, g.trigger o = .ok t := by
    simp [Graph.trigger, hop]
  obtain ⟨t, ht⟩ := htrigger
  have hlift : ∀ {α : Type} {x : Checked α} {a : α}, x = .ok a → (liftM x : Except Halt α) = .ok a :=
    fun h => liftM_eq_ok.2 h
  simp only [checkOperation, hlift hop, ok_bind, hunits, hcount, hlift hb, hlift ht]
  cases b with
  | false => exact ⟨g, rfl⟩
  | true => cases t <;> exact ⟨_, rfl⟩

theorem any_isTrigger_congr (h : g.SameShapes g') (n : MoveId) :
    (g'.move? n).any Move.isTrigger = (g.move? n).any Move.isTrigger := by
  have htrigger : ∀ x : Option Move, x.any Move.isTrigger = (x.map Move.shape).any Move.Shape.trigger := by
    rintro (_ | m) <;> rfl
  rw [htrigger, htrigger, h.moves]

theorem Passes.congr (hp : Passes machine g op) (h : g.SameShapes g') : Passes machine g' op where
  units := hp.units
  one_trigger hne := by
    simp only [any_isTrigger_congr h]
    exact hp.one_trigger hne
  control := hp.control

section Checks

variable (hg : g.Matched machine)
  (hunits : ∀ o op, g.op? o = some op → op.units = machine.unitsWith op.opcode) {os : List OpId}
include hg hunits

theorem same_of_checkOperation (h : checkOperation machine g o = .ok g') :
    g.SameShapes g' ∧ g'.Matched machine ∧ g'.ops = g.ops := by
  have hk := (keeps_of_checkOperation hg h).1.toSameShapes
  exact ⟨hk, hg.congr hk, (marks_of_checkOperation hg (hunits o) h).ops⟩

theorem passes_of_checkOperations (h : os.foldlM (checkOperation machine) g = .ok g') :
    ∀ o ∈ os, ∃ op, g.op? o = some op ∧ Passes machine g op := by
  induction os generalizing g with
  | nil => simp
  | cons o os ih =>
    obtain ⟨g1, h1, h⟩ := foldlM_cons_eq_ok.1 h
    obtain ⟨hsame, hg1, hops⟩ := same_of_checkOperation hg hunits h1
    have hop : ∀ o, g1.op? o = g.op? o := fun o => by simp only [Graph.op?, hops]
    obtain ⟨op, b, t, ho, hne, hcount, hb, -⟩ := checkOperation_eq_ok h1
    refine List.forall_mem_cons.2 ⟨⟨op, op?_of_op ho, hne, hcount, b, hb⟩, fun o' ho' => ?_⟩
    obtain ⟨op', hop', hp'⟩ := ih hg1 (fun o op ho => hunits o op (hop o ▸ ho)) h o' ho'
    exact ⟨op', hop o' ▸ hop', hp'.congr hsame.symm⟩

theorem exists_checkOperations (h : ∀ o ∈ os, ∃ op, g.op o = .ok op ∧ Passes machine g op) :
    ∃ g', os.foldlM (checkOperation machine) g = .ok g' := by
  induction os generalizing g with
  | nil => exact ⟨g, rfl⟩
  | cons o os ih =>
    obtain ⟨op, hop, hp⟩ := h o (.head _)
    obtain ⟨g1, h1⟩ := exists_checkOperation hop hp
    obtain ⟨hsame, hg1, hops⟩ := same_of_checkOperation hg hunits h1
    obtain ⟨g', h'⟩ := ih hg1 (fun o op ho => hunits o op (by simpa only [Graph.op?, hops] using ho))
      (fun o' ho' => by
        obtain ⟨op', hop', hp'⟩ := h o' (.tail _ ho')
        exact ⟨op', by simpa only [Graph.op, hops] using hop', hp'.congr hsame⟩)
    exact ⟨g', foldlM_cons_eq_ok.2 ⟨g1, h1, h'⟩⟩

end Checks

/-- The moves that trigger operation `k`. -/
def triggers (ms : List ProgramMove) (k : Nat) : Nat :=
  ms.countP fun pm => pm.dstOp = some k && pm.dst.isTrigger

theorem Tabled.countP_feeding (ht : Tabled p machine ms g) (k : Nat) :
    (feeding ms k).countP (fun n => (g.move? n).any Move.isTrigger) = triggers ms k := by
  have hzip : ms.zipIdx.map Prod.fst = ms := by simp
  rw [feeding, List.countP_map, List.countP_filter, triggers]
  conv => rhs; rw [← hzip, List.countP_map]
  apply List.countP_congr
  rintro ⟨pm, i⟩ hx
  have hpm : ms[i]? = some pm := List.mem_zipIdx_iff_getElem?.1 hx
  simp [ht.move?, hpm, entry, Move.isTrigger, and_comm]

/-- Each move fits, and each operation can be executed and is triggered once if it has operands. -/
structure WellFormed (p : Program) (machine : Machine) : Prop where
  fits {pm : ProgramMove} : pm ∈ p.moves.toList → p.Fits pm
  units {d : OperationDecl} : d ∈ p.operations.toList → machine.unitsWith d.opcode ≠ []
  one_trigger {pm : ProgramMove} {k : Nat} : pm ∈ p.moves.toList → pm.dstOp = some k →
    triggers p.moves.toList k = 1

/-- Nothing stands in the way of a graph for the program but its size. -/
structure Buildable (p : Program) (machine : Machine) : Prop extends WellFormed p machine where
  latencies : ∃ g, Graph.ofMachine machine = .ok g
  control {d : OperationDecl} : d ∈ p.operations.toList → ∃ b, ((machine.unitsWith d.opcode).allM
    fun u => return (← machine.unit u).control : Checked Bool) = .ok b

theorem Entered.passes (he : Entered p machine p.moves.toList g) (hp : p.Buildable machine)
    (hop : g.op? o = some op) : Passes machine g op := by
  obtain ⟨d, hd, -, hunits, -⟩ := he.declared hop
  have hmem : d ∈ p.operations.toList := Array.mem_toList_iff.2 (Array.mem_of_getElem? hd)
  refine ⟨hunits ▸ hp.units hmem, fun hne => ?_, hunits ▸ hp.control hmem⟩
  rw [he.inputs hop] at hne ⊢
  rw [he.countP_feeding]
  obtain ⟨pm, hpm, hk⟩ := feeding_ne_nil.1 hne
  exact hp.one_trigger hpm hk

/-! ## Edges -/

/-- The move is in the graph and has an identifier. -/
def Ready (g : Graph) (n : MoveId) : Prop := ∃ m, g.move n = .ok m ∧ m.live

theorem Ready.keeps (hn : Ready g n) (h : Keeps g g') : Ready g' n := by
  obtain ⟨m, hm, hl⟩ := hn
  obtain ⟨hvalid, hm⟩ := move_eq_ok.1 hm
  obtain ⟨m', hm', he⟩ := exists_of_map_eq (h.moves n).symm hm
  exact ⟨m', move_eq_ok.2 ⟨hvalid, hm'⟩, (Move.Shape.mk.inj he).2.2.2.2.2.trans hl⟩

theorem exists_connect (ht : Ready g t) (hh : Ready g h) :
    ∃ g' e, g.connect t h d = .ok (g', e) ∧ Keeps g g' := by
  obtain ⟨m, hm, hl⟩ := ht
  obtain ⟨m', hm', hl'⟩ := hh
  have hc : ∃ r, g.connect t h d = .ok r := by
    simp [connect, isLive, hm, hm', hl, hl']
  obtain ⟨⟨g', e⟩, hc⟩ := hc
  exact ⟨g', e, hc, keeps_of_connect hc⟩

theorem exists_ensureEdge (ht : Ready g t) (hh : Ready g h) :
    ∃ g' x, g.ensureEdge t h d = .ok (g', x) ∧ Keeps g g' := by
  obtain ⟨m, hm, -⟩ := id ht
  have hb : ∃ b, g.hasEdge t h d = .ok b := by simp [hasEdge, hm]
  obtain ⟨b, hb⟩ := hb
  cases b with
  | true => exact ⟨g, none, by simp [ensureEdge, hb], .refl⟩
  | false =>
    obtain ⟨g', e, hc, hk⟩ := exists_connect (d := d) ht hh
    exact ⟨g', some e, by simp [ensureEdge, hb, hc], hk⟩

theorem exists_connects {ns : List MoveId} (tail head : MoveId → MoveId)
    (hready : ∀ n ∈ ns, Ready g (tail n) ∧ Ready g (head n)) :
    ∃ g', ns.foldlM (fun g n => return (← g.connect (tail n) (head n) d).1) g =
      (.ok g' : Checked Graph) ∧ Keeps g g' := by
  refine exists_foldlM_eq_ok (P := Keeps g) (fun n hn g1 hk => ?_) .refl
  obtain ⟨ht, hh⟩ := hready n hn
  obtain ⟨g2, e, hc, hk'⟩ := exists_connect (d := d) (ht.keeps hk) (hh.keeps hk)
  exact ⟨g2, by simp [hc], hk.trans hk'⟩

theorem exists_drawOperation (hop : g.op o = .ok op) (hin : ∀ n ∈ op.inputs, Ready g n)
    (hout : ∀ n ∈ op.outputs, Ready g n) : ∃ g', drawOperation g o = .ok g' ∧ Keeps g g' := by
  simp only [drawOperation, Graph.trigger, hop, ok_bind]
  cases hf : op.inputs.find? fun n => (g.move? n).any Move.isTrigger with
  | none => exact ⟨g, rfl, .refl⟩
  | some t =>
    have ht := hin t (List.mem_of_find?_eq_some hf)
    obtain ⟨g1, h1, hk1⟩ := exists_connects (d := .operation) (fun n => n) (fun _ => t)
      fun n (hn : n ∈ op.inputs.filter (· ≠ t)) => ⟨hin n (List.mem_filter.1 hn).1, ht⟩
    obtain ⟨g2, h2, hk2⟩ := exists_connects (d := .operation) (fun _ => t) (fun n => n)
      fun n (hn : n ∈ op.outputs) => ⟨ht.keeps hk1, (hout n hn).keeps hk1⟩
    exact ⟨g2, bind_eq_ok.2 ⟨some t, rfl, bind_eq_ok.2 ⟨g1, h1, h2⟩⟩, hk1.trans hk2⟩

theorem Ready.of_fresh (hg : g.Fresh) (hsize : g.moves.size ≤ 4294967295) {m : Move}
    (hm : g.move? n = some m) : Ready g n := by
  exact ⟨m, fetch_ok hsize hm, hg.live hm⟩

/-! ## Whole programs -/

theorem buildable_of_graph (h : p.graph machine = .ok g) : p.Buildable machine := by
  have hlatencies : ∃ g, Graph.ofMachine machine = .ok g := by
    simp only [graph, bind_eq_ok, liftM_eq_ok] at h
    exact h.imp fun _ h => h.1
  obtain ⟨g1, g2, -, he, hfits, hmatched, -, h2, -⟩ := entered_of_graph h
  have hpasses := passes_of_checkOperations hmatched (fun o op ho => he.units_eq ho) h2
  have hop : ∀ {k d}, p.operations[k]? = some d → ∃ op, g1.op? ⟨k⟩ = some op ∧
      op.units = machine.unitsWith d.opcode ∧ Passes machine g1 op := by
    intro k d hk
    obtain ⟨hdecl, -⟩ | ⟨d', op, hdecl, hop, -, hunits, -⟩ := op?_cases he.declared he.known (k := k)
    · rw [hk] at hdecl
      cases hdecl
    obtain rfl := Option.some.inj (hk.symm.trans hdecl)
    obtain ⟨op', hop', hp⟩ := hpasses ⟨k⟩ (mem_opIds.2 ⟨op, hop⟩)
    obtain rfl := Option.some.inj (hop.symm.trans hop')
    exact ⟨op, hop, hunits, hp⟩
  refine ⟨⟨fun hpm => hfits _ hpm, fun hd => ?_, fun {pm k} hpm hk => ?_⟩, hlatencies, fun hd => ?_⟩
  · obtain ⟨k, hk⟩ := Array.mem_iff_getElem?.1 (Array.mem_toList_iff.1 hd)
    obtain ⟨op, -, hunits, hp⟩ := hop hk
    exact hunits ▸ hp.units
  · obtain ⟨op, hop, -, hp⟩ := hop (Array.getElem?_eq_getElem ((hfits pm hpm).dst_known hk))
    have hin := he.inputs hop
    rw [← he.countP_feeding, ← hin]
    exact hp.one_trigger (hin ▸ feeding_ne_nil.2 ⟨pm, hpm, hk⟩)
  · obtain ⟨k, hk⟩ := Array.mem_iff_getElem?.1 (Array.mem_toList_iff.1 hd)
    obtain ⟨op, -, hunits, hp⟩ := hop hk
    exact hunits ▸ hp.control

/-- Each operation has the moves that feed it as its inputs, in program order. -/
theorem inputs_of_graph (h : p.graph machine = .ok g) (ho : g.op? o = some op) :
    op.inputs = feeding p.moves.toList o.val := by
  obtain ⟨g1, g2, g3, he, -, hmatched, -, h2, h3, h4⟩ := entered_of_graph h
  have hk3 := (keeps_of_checkOperations hmatched h2).1.trans (keeps_of_drawFlow h3)
  obtain ⟨op1, hop1, heq⟩ := exists_of_map_eq ((hk3.trans (keeps_of_drawOperations h4)).ops o) ho
  rw [← (Operation.Shape.mk.inj heq).2.1, he.inputs hop1]

section

variable (hp : p.Buildable machine) (hmoves : p.moves.size ≤ 4294967295)
  (hops : p.operations.size ≤ 4294967295)
include hp hmoves hops

/-- The graph before its edges are drawn. -/
theorem exists_prepared : ∃ g0 g1 g2, Graph.ofMachine machine = .ok g0 ∧
      p.moves.toList.foldlM enterMove (p.start machine g0) = .ok g1 ∧
      g1.opIds.foldlM (checkOperation machine) g1 = .ok g2 := by
  obtain ⟨g0, h0⟩ := hp.latencies
  obtain ⟨g1, h1⟩ := exists_enterMoves (start_entered (p := p) h0) (fun pm hpm => hp.fits hpm)
    (by simpa using hmoves) hops
  obtain ⟨he, -⟩ := entered_of_enterMoves (start_entered (p := p) h0) h1
  rw [List.nil_append] at he
  obtain ⟨g2, h2⟩ := exists_checkOperations (matched_of_enterMoves h0 h1).1
    (fun o op ho => he.units_eq ho) fun o (ho : o ∈ g1.opIds) => by
      obtain ⟨op, hop⟩ := mem_opIds.1 ho
      exact ⟨op, fetch_ok (he.size_ops ▸ hops) hop, he.passes hp hop⟩
  exact ⟨g0, g1, g2, h0, h1, h2⟩

theorem exists_graph : ∃ g, p.graph machine = .ok g := by
  obtain ⟨g0, g1, g2, h0, h1, h2⟩ := exists_prepared hp hmoves hops
  obtain ⟨he, -⟩ := entered_of_enterMoves (start_entered (p := p) h0) h1
  rw [List.nil_append] at he
  obtain ⟨hmatched, hfresh⟩ := matched_of_enterMoves h0 h1
  have hk2 := (keeps_of_checkOperations hmatched h2).1
  have hmarks := marks_of_checkOperations hmatched (fun o op ho => he.units_eq ho) h2
  have hprepared : Prepared p machine g2 := he.toTabled.prepared hmarks
  have hready : ∀ n m, g2.move? n = some m → Ready g2 n := by
    intro n m hm
    exact .of_fresh (hk2.fresh hfresh) (hprepared.size ▸ hmoves) hm
  -- Every edge joins two accesses of the walk, and these are by moves of the program.
  have hflow : ∀ e ∈ Flow.edges p.isLoop (flowMoves g2), Ready g2 e.1 ∧ Ready g2 e.2.1 := by
    rintro ⟨t, h, d⟩ hd
    rw [Flow.mem_edges] at hd
    obtain ⟨pre, a, e, post, w, e', heq, hw, rfl, rfl, -⟩ := Flow.exists_of_draws hd
    have hevent : ∀ {x : Flow.Access} {e : Flow.Effect} {pass : Nat},
        (x, e) ∈ Flow.events pass (flowMoves g2) → Ready g2 x.move := by
      intro x e pass hx
      simp only [Flow.events, List.mem_flatMap, List.mem_map] at hx
      obtain ⟨y, hy, e', -, hxe⟩ := hx
      obtain ⟨rfl, rfl⟩ := Prod.mk.inj hxe
      simp only [flowMoves, List.mem_map, Prod.exists] at hy
      obtain ⟨m, i, hmi, rfl⟩ := hy
      have hm := List.mem_zipIdx_iff_getElem?.1 hmi
      rw [Array.getElem?_toList] at hm
      exact hready ⟨i⟩ m hm
    have hline : ∀ {x : Flow.Access} {e : Flow.Effect},
        (x, e) ∈ Flow.timeline p.isLoop (flowMoves g2) → Ready g2 x.move := by
      intro x e hx
      unfold Flow.timeline at hx
      rcases List.mem_append.1 hx with hx | hx
      · exact hevent hx
      · split at hx
        · exact hevent hx
        · cases hx
    exact ⟨hline (e := e') (heq ▸ List.mem_append_left _ hw), hline (e := e) (heq ▸ by simp)⟩
  obtain ⟨g3, h3, hk3⟩ : ∃ g3, p.drawFlow g2 = .ok g3 ∧ Keeps g2 g3 := by
    refine exists_foldlM_eq_ok (P := Keeps g2) ?_ .refl
    rintro ⟨t, h, d⟩ hd g hk
    obtain ⟨ht, hh⟩ := hflow _ hd
    obtain ⟨g', x, hx, hk'⟩ := exists_ensureEdge (d := d) (ht.keeps hk) (hh.keeps hk)
    exact ⟨g', by simp [hx], hk.trans hk'⟩
  obtain ⟨g, h4, -⟩ : ∃ g, g3.opIds.foldlM drawOperation g3 = .ok g ∧ Keeps g3 g := by
    refine exists_foldlM_eq_ok (P := Keeps g3) ?_ .refl
    intro o ho g hk
    obtain ⟨op3, hop3⟩ := mem_opIds.1 ho
    have hk' := (hk2.trans hk3).trans hk
    obtain ⟨op, hop, -⟩ := exists_of_map_eq (hk.ops o).symm hop3
    obtain ⟨op1, hop1, -⟩ := exists_of_map_eq (hk'.ops o) hop
    have hmatched' := hmatched.congr hk'.toSameShapes
    have hready' : ∀ n m, g.move? n = some m → Ready g n := by
      intro n m hm
      obtain ⟨m', hm', -⟩ := exists_of_map_eq ((hk3.trans hk).moves n) hm
      exact (hready n m' hm').keeps (hk3.trans hk)
    obtain ⟨g', h', hk''⟩ := exists_drawOperation (op_eq_ok.2 ⟨Id.ne_invalid hops (he.lt_of_op? hop1), hop⟩)
      (fun n hn => by
        obtain ⟨m, hm, -⟩ := (hmatched'.mem_inputs hop).1 hn
        exact hready' n m hm)
      (fun n hn => by
        obtain ⟨m, hm, -⟩ := (hmatched'.mem_outputs hop).1 hn
        exact hready' n m hm)
    exact ⟨g', h', hk.trans hk''⟩
  refine ⟨g, ?_⟩
  simp only [graph, bind_eq_ok, liftM_eq_ok]
  exact ⟨g0, h0, g1, h1, g2, h2, g3, h3, h4⟩

end

end Program

end Transport
