import Mathlib.Data.List.Forall2
import Mathlib.Data.List.Nodup
import Mathlib.Data.Option.Defs
import Transport.Dependence.Subgraph
import Transport.Proofs.Program.Acceptance
import Transport.Proofs.Program.Order
import Transport.Proofs.Resource.Agreement

/-!
# Extracted blocks

`Extracts` says what the graph of one block is, without the tables that renumber moves and operations: its
moves stand for the moves of the block, in order; operations and edges are those of the block between the moves
that stand for theirs; and edges with one end outside are noted with the move they lead to. The main statement is
that every built graph, with any of its moves placed, is extracted in this way.
-/

namespace Transport

variable {g g' : Graph} {op : Operation} {u : Usage}

open Transport.Graph

/-- A walk over a list that can always go on, with what the part behind it has brought about. -/
theorem foldlM_builds {ε α β : Type} {f : β → α → Except ε β} {P : List α → β → Prop} {l : List α} {b : β}
    (step : ∀ xs x b, xs ++ [x] <+: l → P xs b → ∃ b', f b x = .ok b' ∧ P (xs ++ [x]) b') (hb : P [] b) :
    ∃ c, l.foldlM f b = .ok c ∧ P l c := by
  suffices h : ∀ zs xs b, xs ++ zs = l → P xs b → ∃ c, zs.foldlM f b = .ok c ∧ P l c from h l [] b rfl hb
  intro zs
  induction zs with
  | nil =>
    rintro xs b rfl hb
    exact ⟨b, rfl, by simpa using hb⟩
  | cons z zs ih =>
    intro xs b heq hb
    obtain ⟨b', hstep, hb'⟩ := step xs z b ⟨zs, by simpa using heq⟩ hb
    obtain ⟨c, hrest, hc⟩ := ih (xs ++ [z]) b' (by simpa using heq) hb'
    exact ⟨c, foldlM_cons_eq_ok.2 ⟨b', hstep, hrest⟩, hc⟩

/-- A move without what ties it to other moves. -/
def Move.alone (m : Move) : Move := { m with ins := [], outs := [], srcOp := none, dstOp := none }

namespace Graph

variable {machine : Machine} {g'' s s' : Graph} {b : BlockId} {n i : MoveId} {m : Move} {o : OpId}
  {ns ins outs : List MoveId} {k : Nat}

/-! ## The block and its image -/

/-- Is `n` in the graph and in block `b`? -/
def inBlock (g : Graph) (b : BlockId) (n : MoveId) : Bool := (g.move? n).any fun m => m.live && m.block = b

/-- The operations with a move in block `b`, in order. -/
def blockOps (g : Graph) (b : BlockId) : List OpId :=
  g.opIds.filter fun o => (g.op? o).any (·.moves.any (g.inBlock b))

/-- The edges in the graph, in order. -/
def liveLinks (g : Graph) : List Link := g.edgeIds.filterMap g.link?

/-- Move `i` of an extracted graph stands for `n`. -/
def StandsFor (s : Graph) (i n : MoveId) : Prop := s.parents[i.val]? = some n

/-- `op` is operation `o` of `g` with those of its moves that are in block `b`. -/
def CopiesOp (g : Graph) (b : BlockId) (s : Graph) (o : OpId) (op : Operation) : Prop :=
  ∃ inputs outputs, g.op? o = some { op with inputs, outputs } ∧
    List.Forall₂ s.StandsFor op.inputs (inputs.filter (g.inBlock b)) ∧
    List.Forall₂ s.StandsFor op.outputs (outputs.filter (g.inBlock b))

/-- `l'` leads between the moves that stand for the ends of `l`. -/
def CopiesLink (s : Graph) (l' l : Link) : Prop :=
  s.StandsFor l'.tail l.tail ∧ s.StandsFor l'.head l.head ∧ l'.dep = l.dep ∧ l'.live

/-- `x` is a note of the edge `l`, which leads into or out of the block. -/
def NotesLink (s : Graph) (x : BoundaryEdge) (l : Link) : Prop :=
  x.dep = l.dep ∧ match x.incoming with
    | true => s.StandsFor x.inner l.head ∧ x.outer = l.tail
    | false => s.StandsFor x.inner l.tail ∧ x.outer = l.head

/-- Every move lists its edges, each once, in order of creation. -/
def Listed (s : Graph) : Prop :=
  ∀ i m, s.move? i = some m → m.ins = (s.edgeIds.filter fun e => (s.link? e).any (·.head = i)) ∧
    m.outs = s.edgeIds.filter fun e => (s.link? e).any (·.tail = i)

/-- `s` is block `b` of `g`. -/
structure Extracts (g : Graph) (b : BlockId) (s : Graph) : Prop where
  ascending : s.parents.toList.Pairwise fun n n' => n.val < n'.val
  stands (n : MoveId) : (∃ i, s.StandsFor i n) ↔ g.inBlock b n
  parent {i n : MoveId} : s.StandsFor i n → s.parent i = .ok n
  size : s.moves.size = s.parents.size
  move {i n : MoveId} : s.StandsFor i n → ∃ m m', g.move? n = some m ∧ s.move? i = some m' ∧ m'.alone = m.alone ∧
    Option.Rel (fun o' o => (g.blockOps b)[o'.val]? = some o) m'.srcOp m.srcOp ∧
    Option.Rel (fun o' o => (g.blockOps b)[o'.val]? = some o) m'.dstOp m.dstOp
  ops : List.Forall₂ (g.CopiesOp b s) (g.blockOps b) s.ops.toList
  links : List.Forall₂ s.CopiesLink s.links.toList
    (g.liveLinks.filter fun l => g.inBlock b l.tail && g.inBlock b l.head)
  listed : s.Listed
  boundary : List.Forall₂ s.NotesLink s.boundary
    (g.liveLinks.filter fun l => g.inBlock b l.tail ^^ g.inBlock b l.head)
  forcedFiles : s.forcedFiles = g.forcedFiles
  guardLatencies : s.guardLatencies = g.guardLatencies
  liveIn : s.liveIn = g.liveIn
  liveOut : s.liveOut = g.liveOut

theorem mem_blockMoves : n ∈ g.blockMoves b ↔ g.inBlock b n := by
  simp only [blockMoves, List.mem_filter, mem_moveIds, inBlock, Option.any_eq_true, Bool.and_eq_true, decide_eq_true_eq]
  constructor
  · rintro ⟨⟨m, hm, hlive⟩, m', hm', hb⟩
    rw [hm] at hm'
    cases hm'
    exact ⟨m, hm, hlive, hb⟩
  · rintro ⟨m, hm, hlive, hb⟩
    exact ⟨⟨m, hm, hlive⟩, m, hm, hb⟩

theorem below_ascending {k : Kind} (n : Nat) : (Id.below n : List (Id k)).Pairwise fun i j => i.val < j.val := by
  simp only [Id.below, List.pairwise_map]
  exact List.pairwise_lt_range

theorem blockMoves_ascending : (g.blockMoves b).Pairwise fun n n' => n.val < n'.val :=
  ((below_ascending _).filter _).filter _

theorem blockMoves_nodup : (g.blockMoves b).Nodup :=
  blockMoves_ascending.imp fun h => by
    rintro rfl
    omega

/-- The move of the extracted graph that stands for `n`. -/
def image (g : Graph) (b : BlockId) (n : MoveId) : Option MoveId := ((g.blockMoves b).idxOf? n).map Id.mk

theorem image_eq_some : g.image b n = some i ↔ (g.blockMoves b)[i.val]? = some n := by
  simp only [image, Option.map_eq_some_iff, List.idxOf?_eq_some_iff, List.getElem?_eq_some_iff]
  constructor
  · rintro ⟨k, ⟨hk, hn, -⟩, rfl⟩
    exact ⟨hk, hn⟩
  · rintro ⟨hk, hn⟩
    refine ⟨i.val, ⟨hk, hn, fun j hj heq => ?_⟩, rfl⟩
    have := (List.Nodup.getElem_inj_iff blockMoves_nodup).1 (heq.trans hn.symm)
    omega

theorem image_isSome : (g.image b n).isSome = g.inBlock b n := by
  cases hn : g.inBlock b n with
  | false =>
    have : (g.blockMoves b).idxOf? n = none := List.idxOf?_eq_none_iff.2 (by simp [mem_blockMoves, hn])
    simp [image, this]
  | true =>
    obtain ⟨k, hk⟩ := List.mem_iff_getElem?.1 (mem_blockMoves.2 hn)
    have : g.image b n = some ⟨k⟩ := image_eq_some.2 hk
    rw [this, Option.isSome_some]

theorem image_eq_none : g.image b n = none ↔ g.inBlock b n = false := by
  rw [← image_isSome, Option.isSome_eq_false_iff, Option.isNone_iff_eq_none]

theorem mem_filterMap_image (hi : (g.blockMoves b)[i.val]? = some n) : i ∈ ns.filterMap (g.image b) ↔ n ∈ ns := by
  simp only [List.mem_filterMap, image_eq_some]
  constructor
  · rintro ⟨x, hx, hix⟩
    rw [hi] at hix
    cases hix
    exact hx
  · exact fun hn => ⟨n, hn, hi⟩

theorem forall₂_filterMap_image (hs : s.parents = (g.blockMoves b).toArray) (ns : List MoveId) :
    List.Forall₂ s.StandsFor (ns.filterMap (g.image b)) (ns.filter (g.inBlock b)) := by
  induction ns with
  | nil => exact .nil
  | cons n ns ih =>
    cases hi : g.image b n with
    | none => simpa [List.filterMap_cons, hi, List.filter_cons, image_eq_none.1 hi] using ih
    | some i =>
      have hn : g.inBlock b n := by rw [← image_isSome, hi]; rfl
      rw [List.filterMap_cons_some hi, List.filter_cons_of_pos hn]
      refine .cons ?_ ih
      simpa [StandsFor, hs] using image_eq_some.1 hi

/-! ## Operations -/

/-- Operation `o` has got further inputs and outputs, and these moves know. -/
structure Tied (g : Graph) (o : OpId) (ins outs : List MoveId) (g' : Graph) : Prop where
  move? (x : MoveId) : g'.move? x = (g.move? x).map fun m =>
    { m with dstOp := if x ∈ ins then some o else m.dstOp, srcOp := if x ∈ outs then some o else m.srcOp }
  ops : g'.ops = g.ops.modify o.val fun op =>
    { op with inputs := op.inputs ++ ins, outputs := op.outputs ++ outs }
  size : g'.moves.size = g.moves.size
  rest : g' = { g with moves := g'.moves, ops := g'.ops }

theorem Tied.refl : g.Tied o [] [] g where
  move? x := by cases g.move? x <;> simp
  ops := by
    refine Array.ext_getElem? fun j => ?_
    rw [Array.getElem?_modify]
    split
    · simp
    · rfl
  size := rfl
  rest := rfl

theorem Tied.trans {ins' outs' : List MoveId} (h : g.Tied o ins outs g') (h' : g'.Tied o ins' outs' g'') :
    g.Tied o (ins ++ ins') (outs ++ outs') g'' where
  move? x := by
    rw [h'.move?, h.move?, Option.map_map]
    congr 1
    funext m
    by_cases hi : x ∈ ins <;> by_cases hi' : x ∈ ins' <;> by_cases ho : x ∈ outs <;> by_cases ho' : x ∈ outs' <;>
      simp [hi, hi', ho, ho']
  ops := by
    rw [h'.ops, h.ops]
    refine Array.ext_getElem? fun j => ?_
    simp only [Array.getElem?_modify]
    split
    · rw [Option.map_map]
      congr 1
      funext op
      simp
    · rfl
  size := h'.size.trans h.size
  rest := by
    have := h'.rest
    rw [h.rest] at this
    exact this

theorem exists_addInput (hm : g.move n = .ok m) (hno : m.dstOp = none) (ho : g.op o = .ok op) :
    ∃ g', g.addInput o n = .ok g' ∧ g.Tied o [n] [] g' := by
  refine ⟨(g.modifyMove n fun m => { m with dstOp := some o }).modifyOp o fun op =>
    { op with inputs := op.inputs ++ [n] }, ?_, fun x => ?_, ?_, ?_, rfl⟩
  · simp only [addInput, hm, ok_bind, Move.isOperand, hno, Option.isSome_none, ho]
    rfl
  · by_cases hx : x = n
    · subst hx
      simp
    · cases h : g.move? x <;> simp [hx, h]
  · simp [modifyOp, modifyMove]
  · simp [modifyOp, modifyMove]

theorem exists_addOutput (hm : g.move n = .ok m) (ho : g.op o = .ok op) :
    ∃ g', g.addOutput o n = .ok g' ∧ g.Tied o [] [n] g' := by
  refine ⟨(g.modifyMove n fun m => { m with srcOp := some o }).modifyOp o fun op =>
    { op with outputs := op.outputs ++ [n] }, ?_, fun x => ?_, ?_, ?_, rfl⟩
  · simp only [addOutput, hm, ok_bind, ho]
    rfl
  · by_cases hx : x = n
    · subst hx
      simp
    · cases h : g.move? x <;> simp [hx, h]
  · simp [modifyOp, modifyMove]
  · simp [modifyOp, modifyMove]

theorem Tied.exists_op (h : g.Tied o ins outs g') (ho : ∃ op, g.op o = .ok op) : ∃ op, g'.op o = .ok op := by
  obtain ⟨op, ho⟩ := ho
  obtain ⟨hvalid, ho⟩ := op_eq_ok.1 ho
  refine ⟨{ op with inputs := op.inputs ++ ins, outputs := op.outputs ++ outs }, op_eq_ok.2 ⟨hvalid, ?_⟩⟩
  rw [op?] at ho ⊢
  rw [h.ops, Array.getElem?_modify, if_pos rfl, ho, Option.map_some]

theorem exists_addInputs (hnodup : ns.Nodup)
    (hmoves : ∀ n ∈ ns, ∃ m, g.move n = .ok m ∧ m.dstOp = none) (ho : ∃ op, g.op o = .ok op) :
    ∃ g', ns.foldlM (·.addInput o) g = .ok g' ∧ g.Tied o ns [] g' := by
  refine foldlM_builds (P := fun ns g' => g.Tied o ns [] g') (fun xs x g1 hpre h => ?_) .refl
  obtain ⟨m, hm, hno⟩ := hmoves x (hpre.subset (by simp))
  obtain ⟨op, ho⟩ := h.exists_op ho
  have hx : x ∉ xs := fun hx => by
    have := hpre.sublist.nodup hnodup
    simp only [List.nodup_append, List.mem_singleton, forall_eq] at this
    exact this.2.2 x hx rfl
  obtain ⟨hvalid, hm⟩ := move_eq_ok.1 hm
  have hm1 : g1.move x = .ok m := move_eq_ok.2 ⟨hvalid, by rw [h.move?, hm]; simp [hx]⟩
  obtain ⟨g2, hadd, ht⟩ := exists_addInput hm1 hno ho
  exact ⟨g2, hadd, h.trans ht⟩

theorem exists_addOutputs (hmoves : ∀ n ∈ ns, ∃ m, g.move n = .ok m) (ho : ∃ op, g.op o = .ok op) :
    ∃ g', ns.foldlM (·.addOutput o) g = .ok g' ∧ g.Tied o [] ns g' := by
  refine foldlM_builds (P := fun ns g' => g.Tied o [] ns g') (fun xs x g1 hpre h => ?_) .refl
  obtain ⟨m, hm⟩ := hmoves x (hpre.subset (by simp))
  obtain ⟨op, ho⟩ := h.exists_op ho
  obtain ⟨hvalid, hm⟩ := move_eq_ok.1 hm
  obtain ⟨g2, hadd, ht⟩ := exists_addOutput (move_eq_ok.2 ⟨hvalid, (h.move? x).trans (by rw [hm]; rfl)⟩) ho
  exact ⟨g2, hadd, h.trans ht⟩

/-- The extracted moves of an operation and what else is to be said about it. -/
def cutOp (g : Graph) (b : BlockId) (op : Operation) : Operation :=
  { op with inputs := op.inputs.filterMap (g.image b), outputs := op.outputs.filterMap (g.image b) }

/-- The first `k` operations, those with a move in block `b`. -/
def firstOps (g : Graph) (b : BlockId) (k : Nat) : List OpId :=
  (Id.below k).filter fun o => (g.op? o).any (·.moves.any (g.inBlock b))

/-- The moves of the block with the first `k` operations. -/
structure Gathers (g : Graph) (b : BlockId) (k : Nat) (s : Graph) : Prop where
  parents : s.parents = (g.blockMoves b).toArray
  size : s.moves.size = (g.blockMoves b).length
  move? {i n : MoveId} {m : Move} : (g.blockMoves b)[i.val]? = some n → g.move? n = some m → s.move? i = some
    { m with ins := [], outs := [],
             srcOp := m.srcOp.bind fun o => ((g.firstOps b k).idxOf? o).map Id.mk
             dstOp := m.dstOp.bind fun o => ((g.firstOps b k).idxOf? o).map Id.mk }
  ops : List.Forall₂ (fun o op => (g.op? o).map (g.cutOp b) = some op) (g.firstOps b k) s.ops.toList
  links : s.links = #[]
  boundary : s.boundary = []
  forcedFiles : s.forcedFiles = g.forcedFiles
  guardLatencies : s.guardLatencies = g.guardLatencies
  liveIn : s.liveIn = g.liveIn
  liveOut : s.liveOut = g.liveOut

theorem firstOps_succ (ho : g.op? ⟨k⟩ = some op) : g.firstOps b (k + 1) =
    g.firstOps b k ++ if op.moves.any (g.inBlock b) then [⟨k⟩] else [] := by
  simp only [firstOps, Id.below, List.range_succ, List.map_append, List.filter_append, List.map_cons, List.map_nil]
  congr 1
  simp [List.filter_cons, ho]

theorem idxOf?_append_singleton {xs : List OpId} {o' : OpId} (ho : o ∉ xs) : (xs ++ [o]).idxOf? o' =
    if o' = o then some xs.length else xs.idxOf? o' := by
  simp only [List.idxOf?, List.findIdx?_append]
  split
  · rename_i h
    subst h
    have : xs.findIdx? (· == o') = none := List.idxOf?_eq_none_iff.2 ho
    simp [this]
  · rename_i h
    simp [List.findIdx?_cons, Ne.symm h]

theorem not_mem_firstOps : (⟨k⟩ : OpId) ∉ g.firstOps b k := by
  simp [firstOps]

theorem length_firstOps : (g.firstOps b k).length ≤ k :=
  Nat.le_trans (List.length_filter_le _ _) (by simp [Id.below])

namespace Gathers

theorem ops_size (h : g.Gathers b k s) : s.ops.size = (g.firstOps b k).length := by
  rw [← Array.length_toList, h.ops.length_eq]

theorem exists_move (h : g.Gathers b k s) (hi : g.image b n = some i) : ∃ m, g.move? n = some m ∧ m.live ∧
    s.move? i = some { m with
      ins := [], outs := []
      srcOp := m.srcOp.bind fun o => ((g.firstOps b k).idxOf? o).map Id.mk
      dstOp := m.dstOp.bind fun o => ((g.firstOps b k).idxOf? o).map Id.mk } := by
  have hn : g.inBlock b n := by rw [← image_isSome, hi]; rfl
  simp only [inBlock, Option.any_eq_true, Bool.and_eq_true] at hn
  obtain ⟨m, hm, hlive, -⟩ := hn
  exact ⟨m, hm, hlive, h.move? (image_eq_some.1 hi) hm⟩

theorem valid (hfew : (g.blockMoves b).length ≤ 4294967295) (hi : g.image b n = some i) : i ≠ .invalid :=
  Id.ne_invalid hfew (List.getElem?_eq_some_iff.1 (image_eq_some.1 hi)).1

/-- An operation without a move in the block is left out. -/
theorem skip (h : g.Gathers b k s) (ho : g.op? ⟨k⟩ = some op) (hno : op.moves.any (g.inBlock b) = false) :
    g.Gathers b (k + 1) s := by
  have hsame : g.firstOps b (k + 1) = g.firstOps b k := by simp [firstOps_succ ho, hno]
  exact ⟨h.parents, h.size, hsame ▸ h.move?, hsame ▸ h.ops, h.links, h.boundary, h.forcedFiles, h.guardLatencies,
    h.liveIn, h.liveOut⟩

/-- A move gets the new operation as its own exactly if it belongs to it. -/
theorem bind_idxOf? {x : Option OpId} {c : Prop} [Decidable c] (hc : c ↔ x = some ⟨k⟩) :
    (if c then some ⟨(g.firstOps b k).length⟩ else x.bind fun o => ((g.firstOps b k).idxOf? o).map Id.mk) =
      (x.bind fun o => ((g.firstOps b k ++ [(⟨k⟩ : OpId)]).idxOf? o).map Id.mk : Option OpId) := by
  cases x with
  | none =>
    rw [if_neg fun hx => by cases hc.1 hx]
    rfl
  | some o =>
    rw [Option.bind_some, Option.bind_some, idxOf?_append_singleton not_mem_firstOps]
    by_cases ho : o = ⟨k⟩
    · subst ho
      rw [if_pos (hc.2 rfl), if_pos rfl]
      rfl
    · rw [if_neg fun hx => ho (Option.some.inj (hc.1 hx)), if_neg ho]

theorem push {s1 : Graph} (h : g.Gathers b k s) (hmatched : g.Matched machine) (ho : g.op? ⟨k⟩ = some op)
    (hyes : op.moves.any (g.inBlock b))
    (ht : (s.addOperation { op with inputs := [], outputs := [] }).1.Tied ⟨s.ops.size⟩
      (op.inputs.filterMap (g.image b)) (op.outputs.filterMap (g.image b)) s1) : g.Gathers b (k + 1) s1 where
  parents := by rw [ht.rest]; exact h.parents
  size := ht.size.trans h.size
  move? {i n m} hi hm := by
    have hs := h.move? hi hm
    have hn : g.inBlock b n := mem_blockMoves.1 (List.mem_of_getElem? hi)
    have hlive : m.live := by
      simp only [inBlock, hm, Option.any_some, Bool.and_eq_true] at hn
      exact hn.1
    rw [ht.move?, show (s.addOperation { op with inputs := [], outputs := [] }).1.move? i = s.move? i from rfl, hs,
      Option.map_some, firstOps_succ ho, if_pos hyes, h.ops_size]
    congr 2
    · refine bind_idxOf? ?_
      rw [mem_filterMap_image hi, hmatched.mem_outputs ho]
      exact ⟨fun ⟨m', hm', hsrc, _⟩ => by rw [hm] at hm'; cases hm'; exact hsrc, fun hsrc => ⟨m, hm, hsrc, hlive⟩⟩
    · refine bind_idxOf? ?_
      rw [mem_filterMap_image hi, hmatched.mem_inputs ho]
      exact ⟨fun ⟨m', hm', hdst⟩ => by rw [hm] at hm'; cases hm'; exact hdst, fun hdst => ⟨m, hm, hdst⟩⟩
  ops := by
    have hops : s1.ops = s.ops.push (g.cutOp b op) := by
      rw [ht.ops]
      refine Array.ext_getElem? fun j => ?_
      simp only [addOperation, Array.getElem?_modify, Array.getElem?_push]
      split
      · rename_i hj
        subst hj
        simp [cutOp]
      · rename_i hj
        rw [if_neg (Ne.symm hj), if_neg (Ne.symm hj)]
    rw [hops, Array.toList_push, firstOps_succ ho, if_pos hyes]
    exact List.rel_append h.ops (.cons (by rw [ho, Option.map_some]) .nil)
  links := by rw [ht.rest]; exact h.links
  boundary := by rw [ht.rest]; exact h.boundary
  forcedFiles := by rw [ht.rest]; exact h.forcedFiles
  guardLatencies := by rw [ht.rest]; exact h.guardLatencies
  liveIn := by rw [ht.rest]; exact h.liveIn
  liveOut := by rw [ht.rest]; exact h.liveOut

theorem extractOp (h : g.Gathers b k s) (hmatched : g.Matched machine) (ho : g.op? ⟨k⟩ = some op)
    (hnodup : op.inputs.Nodup) (hk : k < 4294967295) (hfew : (g.blockMoves b).length ≤ 4294967295) :
    ∃ s', s.extractOp (g.image b) op = .ok s' ∧ g.Gathers b (k + 1) s' := by
  cases hhas : op.moves.any (g.inBlock b) with
  | false =>
    have hnone (n) (hn : n ∈ op.moves) : g.image b n = none := by
      simp only [List.any_eq_false] at hhas
      exact image_eq_none.2 (by simpa using hhas n hn)
    have hins : op.inputs.filterMap (g.image b) = [] :=
      List.filterMap_eq_nil_iff.2 fun n hn => hnone n (List.mem_append_left _ hn)
    have houts : op.outputs.filterMap (g.image b) = [] :=
      List.filterMap_eq_nil_iff.2 fun n hn => hnone n (List.mem_append_right _ hn)
    refine ⟨s, ?_, h.skip ho hhas⟩
    simp [Graph.extractOp, hins, houts]
  | true =>
    have hsome : ((op.inputs.filterMap (g.image b)).isEmpty && (op.outputs.filterMap (g.image b)).isEmpty) = false := by
      obtain ⟨n, hn, hin⟩ := List.any_eq_true.1 hhas
      obtain ⟨i, hi⟩ := Option.isSome_iff_exists.1 (image_isSome.trans hin)
      rw [Bool.and_eq_false_iff, List.isEmpty_eq_false_iff, List.isEmpty_eq_false_iff]
      rcases List.mem_append.1 hn with hn | hn
      · exact .inl (List.ne_nil_of_mem (List.mem_filterMap.2 ⟨n, hn, hi⟩))
      · exact .inr (List.ne_nil_of_mem (List.mem_filterMap.2 ⟨n, hn, hi⟩))
    have hop : ∃ op', (s.addOperation { op with inputs := [], outputs := [] }).1.op ⟨s.ops.size⟩ = .ok op' := by
      refine ⟨{ op with inputs := [], outputs := [] }, op_eq_ok.2 ⟨?_, by simp [Graph.op?, addOperation]⟩⟩
      intro heq
      have := (Id.mk.inj heq).symm.trans h.ops_size
      have := length_firstOps (g := g) (b := b) (k := k)
      omega
    have hinputs : (op.inputs.filterMap (g.image b)).Nodup := by
      refine hnodup.filterMap fun n n' i hi hi' => ?_
      have := (image_eq_some.1 hi).symm.trans (image_eq_some.1 hi')
      exact Option.some.inj this
    have hfree (i) (hi : i ∈ op.inputs.filterMap (g.image b)) : ∃ m,
        (s.addOperation { op with inputs := [], outputs := [] }).1.move i = .ok m ∧ m.dstOp = none := by
      obtain ⟨n, hn, hi⟩ := List.mem_filterMap.1 hi
      obtain ⟨m, hm, -, hs⟩ := h.exists_move hi
      refine ⟨_, move_eq_ok.2 ⟨valid hfew hi, hs⟩, ?_⟩
      have hdst := of_some ((hmatched.mem_inputs ho).1 hn) hm
      simp [hdst, List.idxOf?_eq_none_iff.2 not_mem_firstOps]
    obtain ⟨s1, hadd1, ht1⟩ := exists_addInputs hinputs hfree hop
    have hknown (i) (hi : i ∈ op.outputs.filterMap (g.image b)) : ∃ m, s1.move i = .ok m := by
      obtain ⟨n, -, hi⟩ := List.mem_filterMap.1 hi
      obtain ⟨m, -, -, hs⟩ := h.exists_move hi
      exact ⟨_, move_eq_ok.2 ⟨valid hfew hi, (ht1.move? i).trans (congrArg _ hs)⟩⟩
    obtain ⟨s2, hadd2, ht2⟩ := exists_addOutputs hknown (ht1.exists_op hop)
    refine ⟨s2, ?_, h.push hmatched ho hhas (by simpa using ht1.trans ht2)⟩
    simp only [Graph.extractOp, hsome, Bool.false_eq_true, if_false]
    exact bind_eq_ok.2 ⟨s1, hadd1, hadd2⟩

end Gathers

/-! ## Edges -/

theorem copiesLink_congr (h : s'.parents = s.parents) : s'.CopiesLink = s.CopiesLink := by
  funext l' l
  simp only [CopiesLink, StandsFor, h]

theorem notesLink_congr (h : s'.parents = s.parents) : s'.NotesLink = s.NotesLink := by
  funext x l
  simp only [NotesLink, StandsFor, h]

theorem edgeIds_pushLink {l : Link} (hl : l.live) (hs : s'.links = s.links.push l) :
    s'.edgeIds = s.edgeIds ++ [⟨s.links.size⟩] := by
  have hold {e : EdgeId} (he : e.val < s.links.size) : s'.link? e = s.link? e := by
    rw [link?, link?, hs, Array.getElem?_push, if_neg (by omega)]
  have hnew : s'.link? ⟨s.links.size⟩ = some l := by
    rw [link?, hs, Array.getElem?_push, if_pos rfl]
  simp only [edgeIds, hs, Array.size_push, Id.below, List.range_succ, List.map_append, List.filter_append, List.map_cons,
    List.map_nil]
  congr 1
  · refine List.filter_congr fun e he => ?_
    rw [hold (Id.mem_below.1 he)]
  · simp [hnew, hl]

theorem Listed.connect {t h : MoveId} {d : Dependence} {e : EdgeId} (hs : s.Listed)
    (hc : s.connect t h d = .ok (s', e)) : s'.Listed := by
  obtain ⟨-, -, rfl, hs'⟩ := connect_eq_ok hc
  have hlinks : s'.links = s.links.push ⟨t, h, d, true⟩ := by rw [hs']; rfl
  have hlink (e : EdgeId) : s'.link? e = if e.val = s.links.size then some ⟨t, h, d, true⟩ else s.link? e := by
    rw [link?, hlinks, Array.getElem?_push]
    rfl
  have hsame (f : Link → Bool) :
      (s.edgeIds.filter fun e => (s'.link? e).any f) = s.edgeIds.filter fun e => (s.link? e).any f := by
    refine List.filter_congr fun e he => ?_
    obtain ⟨l, hl, -⟩ := mem_edgeIds.1 he
    rw [hlink, if_neg (Nat.ne_of_lt (lt_of_link? hl))]
  intro i m' hm'
  rw [hs', move?_forgetDistances, move?_attach] at hm'
  obtain ⟨m, hm, rfl⟩ := Option.map_eq_some_iff.1 hm'
  obtain ⟨hins, houts⟩ := hs i m hm
  rw [edgeIds_pushLink rfl hlinks, List.filter_append, List.filter_append, hsame, hsame]
  constructor
  · by_cases hi : i = h
    · simp [hi, hlink, hins]
    · simp [hi, hlink, hins, Ne.symm hi]
  · by_cases hi : i = t
    · simp [hi, hlink, houts]
    · simp [hi, hlink, houts, Ne.symm hi]

/-- The moves of the block, with the edges of `ls`. -/
structure Joins (g : Graph) (b : BlockId) (s : Graph) (ls : List Link) (s' : Graph) : Prop where
  same : s.SameMoves s'
  parents : s'.parents = s.parents
  liveIn : s'.liveIn = s.liveIn
  links : List.Forall₂ s.CopiesLink s'.links.toList (ls.filter fun l => g.inBlock b l.tail && g.inBlock b l.head)
  boundary : List.Forall₂ s.NotesLink s'.boundary (ls.filter fun l => g.inBlock b l.tail ^^ g.inBlock b l.head)
  listed : s'.Listed

theorem Joins.extractLink {ls : List Link} (hs : g.Gathers b k s) (h : g.Joins b s ls s')
    (hfew : (g.blockMoves b).length ≤ 4294967295) (l : Link) :
    ∃ s'', s'.extractLink (g.image b) l = .ok s'' ∧ g.Joins b s (ls ++ [l]) s'' := by
  have hin {n i : MoveId} (hi : g.image b n = some i) : g.inBlock b n = true ∧ s.StandsFor i n :=
    ⟨by rw [← image_isSome, hi]; rfl, by simpa [StandsFor, hs.parents] using image_eq_some.1 hi⟩
  have hready {n i : MoveId} (hi : g.image b n = some i) : Program.Ready s' i := by
    obtain ⟨m, -, hlive, hm⟩ := hs.exists_move hi
    obtain ⟨m', hm', hbare⟩ := h.same.move? hm
    exact ⟨m', move_eq_ok.2 ⟨Gathers.valid hfew hi, hm'⟩, (congrArg Move.live hbare).trans hlive⟩
  cases ht : g.image b l.tail with
  | none =>
    have htail := image_eq_none.1 ht
    cases hh : g.image b l.head with
    | none =>
      refine ⟨s', by simp [Graph.extractLink, ht, hh], h.same, h.parents, h.liveIn, ?_, ?_, h.listed⟩
      · simpa [List.filter_append, htail] using h.links
      · simpa [List.filter_append, htail, image_eq_none.1 hh] using h.boundary
    | some i =>
      obtain ⟨hhead, hstands⟩ := hin hh
      refine ⟨{ s' with boundary := s'.boundary ++ [⟨i, l.tail, l.dep, true⟩] }, by simp [Graph.extractLink, ht, hh],
        ⟨h.same.moves, h.same.size, h.same.ops, h.same.guardLatencies, h.same.forcedFiles, h.same.liveOut⟩, h.parents,
        h.liveIn, ?_, ?_, h.listed⟩
      · simpa [List.filter_append, htail] using h.links
      · simp only [List.filter_append, List.filter_singleton, htail, hhead, Bool.false_xor]
        exact List.rel_append h.boundary (.cons ⟨rfl, hstands, rfl⟩ .nil)
  | some i =>
    obtain ⟨htail, hstands⟩ := hin ht
    cases hh : g.image b l.head with
    | none =>
      have hhead := image_eq_none.1 hh
      refine ⟨{ s' with boundary := s'.boundary ++ [⟨i, l.head, l.dep, false⟩] }, by simp [Graph.extractLink, ht, hh],
        ⟨h.same.moves, h.same.size, h.same.ops, h.same.guardLatencies, h.same.forcedFiles, h.same.liveOut⟩, h.parents,
        h.liveIn, ?_, ?_, h.listed⟩
      · simpa [List.filter_append, hhead] using h.links
      · simp only [List.filter_append, List.filter_singleton, htail, hhead, Bool.xor_false]
        exact List.rel_append h.boundary (.cons ⟨rfl, hstands, rfl⟩ .nil)
    | some j =>
      obtain ⟨hhead, hstands'⟩ := hin hh
      obtain ⟨s'', e, hc, -⟩ := Program.exists_connect (d := l.dep) (hready ht) (hready hh)
      obtain ⟨-, -, rfl, hs''⟩ := connect_eq_ok hc
      refine ⟨s'', by simp [Graph.extractLink, ht, hh, hc], h.same.trans ?_, ?_, ?_, ?_, ?_, h.listed.connect hc⟩
      · have hrewires : Graph.Rewires _ s'' (fun _ _ _ => True) (fun _ => True) fun _ => True :=
          rewires_of_connect hc trivial
        exact hrewires.moves
      · rw [hs'']
        exact h.parents
      · rw [hs'']
        exact h.liveIn
      · have : s''.links = s'.links.push ⟨i, j, l.dep, true⟩ := by rw [hs'']; rfl
        simp only [this, Array.toList_push, List.filter_append, List.filter_singleton, htail, hhead, Bool.and_self]
        exact List.rel_append h.links (.cons ⟨hstands, hstands', rfl, rfl⟩ .nil)
      · have : s''.boundary = s'.boundary := by rw [hs'']; rfl
        simpa [this, List.filter_append, htail, hhead] using h.boundary

/-! ## The whole block -/

/-- The moves of the block alone. -/
def blockStart (g : Graph) (b : BlockId) : Graph where
  moves := (((g.blockMoves b).filterMap g.move?).map Move.alone).toArray
  parents := (g.blockMoves b).toArray
  forcedFiles := g.forcedFiles
  guardLatencies := g.guardLatencies
  liveOut := g.liveOut
  liveIn := g.liveIn

theorem subgraph_eq : g.subgraph b =
    g.ops.toList.foldlM (fun s o => s.extractOp (g.image b) o) (g.blockStart b) >>= fun s =>
      g.liveLinks.foldlM (fun s l => s.extractLink (g.image b) l) s := rfl

theorem forall₂_filterMap_move? (ns : List MoveId) (hns : ∀ n ∈ ns, ∃ m, g.move? n = some m) :
    List.Forall₂ (fun n m => g.move? n = some m) ns (ns.filterMap g.move?) := by
  induction ns with
  | nil => exact .nil
  | cons n ns ih =>
    obtain ⟨m, hm⟩ := hns n (.head _)
    rw [List.filterMap_cons_some hm]
    exact .cons hm (ih fun n hn => hns n (.tail _ hn))

theorem gathers_start : g.Gathers b 0 (g.blockStart b) := by
  have hmoves := forall₂_filterMap_move? (g := g) (g.blockMoves b) fun n hn => by
    have hn := mem_blockMoves.1 hn
    simp only [inBlock, Option.any_eq_true] at hn
    exact ⟨hn.choose, hn.choose_spec.1⟩
  refine ⟨rfl, ?_, fun {i n m} hi hm => ?_, .nil, rfl, rfl, rfl, rfl, rfl, rfl⟩
  · simp [blockStart, hmoves.length_eq]
  · obtain ⟨hlt, hi⟩ := List.getElem?_eq_some_iff.1 hi
    have hm' := (List.forall₂_iff_get.1 hmoves).2 i.val hlt (hmoves.length_eq ▸ hlt)
    simp only [List.get_eq_getElem, hi, hm, Option.some.injEq] at hm'
    rw [Graph.move?, blockStart, List.getElem?_toArray, List.getElem?_map, List.getElem?_eq_getElem (hmoves.length_eq ▸ hlt),
      ← hm', Option.map_some]
    have hnil : g.firstOps b 0 = [] := rfl
    simp [Move.alone, hnil]

theorem Gathers.listed (h : g.Gathers b k s) : s.Listed := by
  intro i m' hm'
  have hlt := lt_of_move? hm'
  rw [h.size] at hlt
  obtain ⟨m, hm, -, hs⟩ := h.exists_move (image_eq_some.2 (List.getElem?_eq_getElem hlt))
  rw [hs] at hm'
  cases hm'
  simp [edgeIds, h.links, Id.below]

/-- With all operations there, a move has the operation that stands for the one it had. -/
theorem rel_idxOf?_blockOps {x : Option OpId} (hx : ∀ o, x = some o → o ∈ g.blockOps b) :
    Option.Rel (fun o' o => (g.blockOps b)[o'.val]? = some o)
      (x.bind fun o => ((g.blockOps b).idxOf? o).map Id.mk : Option OpId) x := by
  cases x with
  | none => exact .none
  | some o =>
    rw [Option.bind_some]
    cases hj : (g.blockOps b).idxOf? o with
    | none => exact absurd (hx o rfl) (List.idxOf?_eq_none_iff.1 hj)
    | some j =>
      obtain ⟨hlt, heq, -⟩ := List.idxOf?_eq_some_iff.1 hj
      exact .some (by rw [List.getElem?_eq_getElem hlt, heq])

theorem mem_blockOps (ho : g.op? o = some op) (hn : n ∈ op.moves) (hb : g.inBlock b n) : o ∈ g.blockOps b :=
  List.mem_filter.2 ⟨mem_opIds.2 ⟨op, ho⟩, by
    rw [ho, Option.any_some]
    exact List.any_eq_true.2 ⟨n, hn, hb⟩⟩

theorem Joins.extracts (hs : g.Gathers b g.ops.size s) (h : g.Joins b s g.liveLinks s') (hmatched : g.Matched machine)
    (hfew : (g.blockMoves b).length ≤ 4294967295) : g.Extracts b s' := by
  have hparents := h.parents.trans hs.parents
  have hstands {i n : MoveId} : s'.StandsFor i n ↔ g.image b n = some i := by
    simp [StandsFor, hparents, image_eq_some]
  exact {
    ascending := by simpa [hparents] using blockMoves_ascending
    stands := fun n => by
      rw [← image_isSome, Option.isSome_iff_exists]
      simp only [hstands]
    parent := fun {i n} hi => by
      have hvalid := Gathers.valid hfew (hstands.1 hi)
      simp only [StandsFor] at hi
      simp [Graph.parent, Id.index, hvalid, hi]
    size := by rw [h.same.size, hs.size, hparents, List.size_toArray]
    move := fun {i n} hi => by
      have himage := hstands.1 hi
      obtain ⟨m, hm, hlive, hs⟩ := hs.exists_move himage
      obtain ⟨m', hm', hbare⟩ := h.same.move? hs
      have hn : g.inBlock b n := by rw [← image_isSome, himage]; rfl
      refine ⟨m, m', hm, hm', ?_, ?_, ?_⟩
      · have := congrArg Move.alone hbare
        simpa [Move.alone, Move.bare] using this
      · have hsrc := congrArg Move.srcOp hbare
        simp only [Move.bare] at hsrc
        rw [hsrc]
        refine rel_idxOf?_blockOps fun o ho => ?_
        obtain ⟨op, hop⟩ := hmatched.src_known hm ho
        exact mem_blockOps hop (List.mem_append_right _ ((hmatched.mem_outputs hop).2 ⟨m, hm, ho, hlive⟩)) hn
      · have hdst := congrArg Move.dstOp hbare
        simp only [Move.bare] at hdst
        rw [hdst]
        refine rel_idxOf?_blockOps fun o ho => ?_
        obtain ⟨op, hop⟩ := hmatched.dst_known hm ho
        exact mem_blockOps hop (List.mem_append_left _ ((hmatched.mem_inputs hop).2 ⟨m, hm, ho⟩)) hn
    ops := by
      rw [h.same.ops]
      refine hs.ops.imp fun o op' ho => ?_
      obtain ⟨op, hop, rfl⟩ := Option.map_eq_some_iff.1 ho
      exact ⟨op.inputs, op.outputs, hop, forall₂_filterMap_image hparents _, forall₂_filterMap_image hparents _⟩
    links := by
      rw [copiesLink_congr h.parents]
      exact h.links
    listed := h.listed
    boundary := by
      rw [notesLink_congr h.parents]
      exact h.boundary
    forcedFiles := h.same.forcedFiles.trans hs.forcedFiles
    guardLatencies := h.same.guardLatencies.trans hs.guardLatencies
    liveIn := h.liveIn.trans hs.liveIn
    liveOut := h.same.liveOut.trans hs.liveOut }

/-- Every block of a graph whose moves and operations know each other can be extracted. -/
theorem exists_subgraph (hmatched : g.Matched machine) (hnodup : ∀ o op, g.op? o = some op → op.inputs.Nodup)
    (hops : g.ops.size ≤ 4294967295) (hfew : (g.blockMoves b).length ≤ 4294967295) :
    ∃ s, g.subgraph b = .ok s ∧ g.Extracts b s := by
  obtain ⟨s1, hrun1, hs1⟩ := foldlM_builds (f := fun s o => Graph.extractOp s (g.image b) o) (l := g.ops.toList)
    (P := fun xs s => g.Gathers b xs.length s) (fun xs op s hpre hs => by
      have hlt := hpre.length_le
      have hop : g.op? ⟨xs.length⟩ = some op := by
        obtain ⟨ys, hys⟩ := hpre
        rw [op?, ← Array.getElem?_toList, ← hys]
        simp
      simp only [List.length_append, List.length_singleton, Array.length_toList] at hlt ⊢
      exact hs.extractOp hmatched hop (hnodup _ _ hop) (by omega) hfew) gathers_start
  obtain ⟨s2, hrun2, hs2⟩ := foldlM_builds (f := fun s l => Graph.extractLink s (g.image b) l) (l := g.liveLinks)
    (P := fun ls s => g.Joins b s1 ls s) (fun ls l s _ hs => hs.extractLink hs1 hfew l) (b := s1)
    ⟨.refl, rfl, rfl, by rw [hs1.links]; exact .nil, by rw [hs1.boundary]; exact .nil, hs1.listed⟩
  exact ⟨s2, subgraph_eq.trans (bind_eq_ok.2 ⟨s1, hrun1, hrun2⟩), hs2.extracts hs1 hmatched hfew⟩

end Graph

/-! ## Built graphs -/

theorem Usage.Shift.inputs {u' : Usage} {n : MoveId} {m : Move} {p : Option Placement}
    (h : u.Shift g n m p u' g') {o : OpId} (ho : g'.op? o = some op) :
    ∃ op0, g.op? o = some op0 ∧ op.inputs = op0.inputs := by
  rw [h.op?] at ho
  obtain ⟨op0, ho0, rfl⟩ := Option.map_eq_some_iff.1 ho
  exact ⟨op0, ho0, rfl⟩

/-- Placing moves leaves the inputs of operations as they are. -/
theorem Request.inputs_of_runAll {p : Program} {machine : Machine} {rs : List Request}
    (hbuild : p.graph machine = .ok g) (hrun : runAll machine g rs = .ok (u, g')) {o : OpId}
    (ho : g'.op? o = some op) : ∃ op0, g.op? o = some op0 ∧ op.inputs = op0.inputs := by
  obtain ⟨hformed, hfresh⟩ := Program.graph_formed hbuild
  refine (foldlM_keeps (P := fun s => Kept machine g.moves.size s ∧
    ∀ o op, s.2.op? o = some op → ∃ op0, g.op? o = some op0 ∧ op.inputs = op0.inputs) ?_
    ⟨⟨Sound.of_fresh hformed hfresh, rfl⟩, fun o op ho => ⟨op, ho, rfl⟩⟩ hrun).2 o op ho
  rintro r - ⟨u, g1⟩ ⟨u', g2⟩ ⟨hk, hinputs⟩ hstep
  refine ⟨hk.step hstep, fun o op ho => ?_⟩
  obtain ⟨op1, ho1, heq⟩ : ∃ op1, g1.op? o = some op1 ∧ op.inputs = op1.inputs := by
    cases r with
    | assign c n =>
      obtain ⟨m, a, ha⟩ := Usage.assigns_of_assign hk.sound.accounts hstep
      exact ha.toShift.inputs ho
    | unassign n =>
      obtain ⟨m, a, ha⟩ := Usage.unassigns_of_unassign hk.sound.accounts hstep
      exact ha.toShift.inputs ho
  obtain ⟨op0, ho0, heq0⟩ := hinputs o op1 ho1
  exact ⟨op0, ho0, heq.trans heq0⟩

namespace Program

variable {p : Program} {machine : Machine} {g g' : Graph} {u : Usage} {rs : List Request}

theorem exists_extract (hbuild : p.graph machine = .ok g) (hsize : g.moves.size ≤ 4294967295)
    (hrun : Request.runAll machine g rs = .ok (u, g')) (b : BlockId) : ∃ s, g'.subgraph b = .ok s ∧ g'.Extracts b s := by
  have hk := Request.Kept.of_runAll hbuild hrun
  refine exists_subgraph hk.sound.formed.toMatched (fun o op ho => ?_) ?_ ?_
  · obtain ⟨op0, ho0, heq⟩ := Request.inputs_of_runAll hbuild hrun ho
    rw [heq, inputs_of_graph hbuild ho0]
    exact feeding_nodup _ _
  · by_contra hlt
    obtain ⟨op, hop⟩ : ∃ op, g'.op? .invalid = some op := ⟨_, Array.getElem?_eq_getElem (Nat.lt_of_not_le hlt)⟩
    exact hk.sound.formed.op_valid hop rfl
  · refine Nat.le_trans ?_ (hk.size_eq ▸ hsize)
    refine Nat.le_trans (List.length_filter_le _ _) (Nat.le_trans (List.length_filter_le _ _) ?_)
    simp [Id.below]

/-- Each block of a built graph can be extracted, whichever of its moves are placed, and what comes out is that
block. -/
theorem subgraph_extracts (hbuild : p.graph machine = .ok g) (hsize : g.moves.size ≤ 4294967295)
    (hrun : Request.runAll machine g rs = .ok (u, g')) (b : BlockId) : ∃ s, g'.subgraph b = .ok s ∧ g'.Extracts b s :=
  exists_extract hbuild hsize hrun b

/-! ### An operation in two blocks -/

/-- `r0` is added to; the sum goes to `r1` in the same block, and in the next one to `r3`, where `r1` is copied
to `r2`. Nothing is live out. -/
def acrossBlocks : Program where
  operations := #[{ opcode := "add" }]
  moves := #[{ src := .register ⟨⟨0⟩, 0⟩, dst := .input 1 true, dstOp := some 0 },
    { src := .output 2, dst := .register ⟨⟨0⟩, 1⟩, srcOp := some 0 },
    { src := .register ⟨⟨0⟩, 1⟩, dst := .register ⟨⟨0⟩, 2⟩, block := ⟨1⟩ },
    { src := .output 2, dst := .register ⟨⟨0⟩, 3⟩, srcOp := some 0, block := ⟨1⟩ }]
  liveOut := some ∅

theorem subgraph_extracts_acrossBlocks : ∃ g u g' s, acrossBlocks.graph adder = .ok g ∧
    Request.runAll adder g [.assign 0 ⟨0⟩, .assign 2 ⟨3⟩] = .ok (u, g') ∧ g'.subgraph ⟨1⟩ = .ok s ∧
      g'.Extracts ⟨1⟩ s := by
  obtain ⟨g, hg, hrun⟩ := exists_ok_of_any (x := acrossBlocks.graph adder)
    (p := fun g => g.moves.size ≤ 4 && (Request.runAll adder g [.assign 0 ⟨0⟩, .assign 2 ⟨3⟩]).toOption.any fun _ => true)
    (by decide +kernel)
  simp only [Bool.and_eq_true, decide_eq_true_eq] at hrun
  obtain ⟨⟨u, g'⟩, hu, -⟩ := exists_ok_of_any hrun.2
  obtain ⟨s, hs, hex⟩ := subgraph_extracts hg (by omega) hu ⟨1⟩
  exact ⟨g, u, g', s, hg, hu, hs, hex⟩

end Program

end Transport
