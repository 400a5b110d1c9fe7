import Mathlib.Data.List.Pairwise
import Transport.Proofs.Program.Build
import Transport.Proofs.Resource.Check

/-!
# What a clean check says about the units

A built graph is given any places and units, and the check reports nothing. Then no operand is
overwritten after the cycle of its write, and no result is replaced by an operation that starts later.
That leaves two gaps: two writes of one input in one cycle, and an operation that started earlier but
takes longer. The main statement is `Program.units_keep_iff_of_check`.
-/

namespace Transport

/-- The graph with other places and units. -/
def Graph.furnish (g : Graph) (place : MoveId → Option Placement) (unit : OpId → Option UnitId) : Graph :=
  { g with
    moves := g.moves.mapIdx fun i m => { m with placement := place ⟨i⟩ }
    ops := g.ops.mapIdx fun i op => { op with unit? := unit ⟨i⟩ } }

/-! ## Sorted starts -/

section

variable {α : Type} {le : α → α → Bool}

theorem insertBy_pairwise (total : ∀ a b, le a b ∨ le b a) (trans : ∀ a b c, le a b → le b c → le a c)
    {x : α} {xs : List α} (h : xs.Pairwise fun a b => le a b) :
    (insertBy le x xs).Pairwise fun a b => le a b := by
  induction xs with
  | nil => simp [insertBy]
  | cons y ys ih =>
    obtain ⟨hy, hys⟩ := List.pairwise_cons.1 h
    unfold insertBy
    split
    · rename_i hxy
      refine List.pairwise_cons.2 ⟨fun z hz => ?_, h⟩
      rcases List.mem_cons.1 hz with rfl | hz
      · exact hxy
      · exact trans x y z hxy (hy z hz)
    · rename_i hxy
      refine List.pairwise_cons.2 ⟨fun z hz => ?_, ih hys⟩
      rcases List.mem_cons.1 ((insertBy_perm le x ys).mem_iff.1 hz) with rfl | hz
      · exact (total z y).resolve_left hxy
      · exact hy z hz

theorem sortBy_pairwise (total : ∀ a b, le a b ∨ le b a) (trans : ∀ a b c, le a b → le b c → le a c)
    (xs : List α) : (sortBy le xs).Pairwise fun a b => le a b := by
  induction xs with
  | nil => exact .nil
  | cons x xs ih => exact insertBy_pairwise total trans ih

end

namespace Graph

theorem startLe_iff {a b : Start} : startLe a b ↔ a.unit.val < b.unit.val ∨ a.unit.val = b.unit.val ∧
    (a.cycle < b.cycle ∨ a.cycle = b.cycle ∧ a.op.val ≤ b.op.val) := by
  simp [startLe, Id.val_inj]

theorem starts_sorted (g : Graph) : g.starts.Pairwise fun a b => startLe a b := by
  refine sortBy_pairwise (fun a b => ?_) (fun a b c => ?_) _
  · simp only [startLe_iff]
    lia
  · simp only [startLe_iff]
    lia

/-- In a sorted list two starts in one cycle on one unit are next to others like them. -/
theorem apart_of_triggerConflicts {ss : List Start} (hs : ss.Pairwise fun a b => startLe a b)
    (h : triggerConflicts ss = []) :
    ss.Pairwise fun a b => ¬ (a.unit = b.unit ∧ a.cycle = b.cycle) := by
  induction ss with
  | nil => exact .nil
  | cons a ss ih =>
    cases ss with
    | nil => simp
    | cons b ss =>
      obtain ⟨ha, hss⟩ := List.pairwise_cons.1 hs
      rw [triggerConflicts, List.append_eq_nil_iff] at h
      have hrest := ih hss h.2
      have hab : ¬ (a.unit = b.unit ∧ a.cycle = b.cycle) := by
        intro hsame
        simp [hsame] at h
      refine List.pairwise_cons.2 ⟨fun c hc hac => ?_, hrest⟩
      rcases List.mem_cons.1 hc with rfl | hc
      · exact hab hac
      · have h1 := startLe_iff.1 (ha b List.mem_cons_self)
        have h2 := startLe_iff.1 ((List.pairwise_cons.1 hss).1 c hc)
        have hunit := congrArg Id.val hac.1
        exact hab ⟨Id.ext_val (by lia), by lia⟩

/-! ## Furnished graphs -/

variable {g : Graph} {place : MoveId → Option Placement} {unit : OpId → Option UnitId}

theorem move?_furnish (n : MoveId) :
    (g.furnish place unit).move? n = (g.move? n).map fun m => { m with placement := place n } := by
  simp only [furnish, move?, Array.getElem?_mapIdx]

theorem op?_furnish (o : OpId) :
    (g.furnish place unit).op? o = (g.op? o).map fun op => { op with unit? := unit o } := by
  simp only [furnish, op?, Array.getElem?_mapIdx]

theorem sameShapes_furnish : g.SameShapes (g.furnish place unit) where
  moves n := by
    rw [move?_furnish, Option.map_map]
    rfl
  ops o := by
    rw [op?_furnish, Option.map_map]
    rfl

/-! ## Checks that report nothing -/

variable {machine : Machine} {n : MoveId} {o o' : OpId} {s : Start}

theorem placed_of_checkMoves {earlier ns : List MoveId} (h : g.checkMoves machine earlier ns = .ok [])
    (hn : n ∈ ns) : ∃ m, g.move? n = some m ∧ m.isPlaced := by
  induction ns generalizing earlier with
  | nil => cases hn
  | cons k ns ih =>
    simp only [checkMoves, bind_eq_ok, pure_eq_ok, List.append_eq_nil_iff] at h
    obtain ⟨found, hfound, rest, hrest, rfl, rfl⟩ := h
    rcases List.mem_cons.1 hn with rfl | hn
    · simp only [checkMove, bind_eq_ok] at hfound
      obtain ⟨m, hm, hfound⟩ := hfound
      cases hp : m.placement with
      | none => simp [hp] at hfound
      | some p => exact ⟨m, move?_of_move hm, by simp [Move.isPlaced, hp]⟩
    · exact ih hrest hn

/-- A clean check: every move has a place, no two starts meet, and no start is hurt by another one. -/
theorem clean_of_check (h : g.check machine = .ok []) :
    (∀ n ∈ g.moveIds, ∃ m, g.move? n = some m ∧ m.isPlaced) ∧ triggerConflicts g.starts = [] ∧
      ∀ s ∈ g.starts, g.checkStart g.starts s = .ok [] := by
  simp only [check, bind_eq_ok, pure_eq_ok, List.append_eq_nil_iff] at h
  obtain ⟨moves, hmoves, links, hlinks, ops, hops, units, hunits, ⟨⟨⟨rfl, -⟩, -⟩, hapart⟩, hflat⟩ := h
  refine ⟨fun n hn => placed_of_checkMoves hmoves hn, hapart, fun s hs => ?_⟩
  obtain ⟨vs, hvs⟩ := ok_of_mapM_eq_ok hunits hs
  have hmem := (mem_of_mapM_eq_ok hunits).2 ⟨s, hs, hvs⟩
  rw [hvs, List.flatten_eq_nil_iff.1 hflat vs hmem]

/-- Two operations start on one unit, `o` in cycle `t` and `o'` in cycle `t'`. -/
structure Shares (g : Graph) (o o' : OpId) (t t' : Cycle) : Prop where
  ne : o ≠ o'
  unit : ∃ v, g.RunsOn o v ∧ g.RunsOn o' v
  start : ∃ n, g.StartsAt o n t
  start' : ∃ n, g.StartsAt o' n t'

section

variable {t t' : Cycle} (hg : g.Formed machine) (hshares : g.Shares o o' t t')
include hg hshares

/-- The starts of the two as the check sees them. -/
theorem Shares.mem_starts : ∃ v, ⟨v, t, o⟩ ∈ g.starts ∧
    ⟨v, t', o'⟩ ∈ g.starts.filter fun other => other.unit = v && other.op ≠ o := by
  obtain ⟨v, hv, hv'⟩ := hshares.unit
  refine ⟨v, (Graph.mem_starts hg).2 ⟨hv, hshares.start⟩, List.mem_filter.2 ⟨?_, ?_⟩⟩
  · exact (Graph.mem_starts hg).2 ⟨hv', hshares.start'⟩
  · simp [hshares.ne.symm]

theorem Shares.ne_of_check (h : g.check machine = .ok []) : t ≠ t' := by
  obtain ⟨v, hs, hs'⟩ := hshares.mem_starts hg
  have hapart := apart_of_triggerConflicts g.starts_sorted (clean_of_check h).2.1
  rintro rfl
  have : Std.Symm fun a b : Start => ¬ (a.unit = b.unit ∧ a.cycle = b.cycle) :=
    ⟨fun _ _ h hba => h ⟨hba.1.symm, hba.2.symm⟩⟩
  refine hapart.forall hs (List.mem_filter.1 hs').1 ?_ ⟨rfl, rfl⟩
  exact fun heq => hshares.ne (congrArg Start.op heq)

/-- No write of the other operation falls after an operand's write and not after the trigger. -/
theorem Shares.operand_of_check (h : g.check machine = .ok []) {w w' : MoveId} {k : Nat} {c c' : Cycle}
    (hw : g.WritesAt o w k c) (hw' : g.WritesAt o' w' k c') : ¬ (c < c' ∧ c' ≤ t) := by
  obtain ⟨v, hs, hs'⟩ := hshares.mem_starts hg
  have hclean := (clean_of_check h).2.2 _ hs
  simp only [checkStart, bind_eq_ok, pure_eq_ok, List.append_eq_nil_iff] at hclean
  obtain ⟨_, -, hoperands, -⟩ := hclean
  rw [overwrittenOperands, List.flatMap_eq_nil_iff] at hoperands
  have hothers := List.flatMap_eq_nil_iff.1 (hoperands _ ((mem_operandWrites hg).2 hw)) _ hs'
  rw [List.map_eq_nil_iff, List.filter_eq_nil_iff] at hothers
  simpa using hothers _ ((mem_operandWrites hg).2 hw')

/-- The result of an operation that starts later arrives after the other one's result is read. -/
theorem Shares.result_of_check (h : g.check machine = .ok []) {w : MoveId} {r : Cycle} {op' : Operation}
    (hread : g.TakesAt o w r) (hop' : g.op? o' = some op') (hlt : t < t') :
    r < t' + Cycle.ofLatency op'.latency := by
  obtain ⟨v, hs, hs'⟩ := hshares.mem_starts hg
  have hclean := (clean_of_check h).2.2 _ hs
  simp only [checkStart, bind_eq_ok, pure_eq_ok, List.append_eq_nil_iff] at hclean
  obtain ⟨_, hresults, -, rfl⟩ := hclean
  obtain ⟨y, hy⟩ := arrivesBefore_ok hg hresults hread hs'
  cases y with
  | true => exact absurd ((mem_overwrittenResults hg hresults).2 ⟨w, r, _, hread, hs', hy, rfl⟩) List.not_mem_nil
  | false =>
    have hafter : Usage.ArrivesAfter op' t' r := Classical.byContradiction fun hnot =>
      Bool.false_ne_true ((arrivesBefore_eq hop' hy).2 ⟨hlt, hnot⟩)
    obtain ⟨sum, hsum, hr⟩ := hafter
    rwa [Usage.check_of_add hsum] at hr

end

/-! ## Operands and results stay -/

/-- From the write of an operand to the trigger no other operation on the unit writes the input. -/
def KeepsOperands (g : Graph) : Prop :=
  ∀ o o' v n t w w' k c c', o ≠ o' → g.RunsOn o v → g.RunsOn o' v → g.StartsAt o n t →
    g.WritesAt o w k c → c ≤ t → g.WritesAt o' w' k c' → ¬ (c ≤ c' ∧ c' ≤ t)

/-- The operation starts in cycle `t`, and its results arrive in cycle `d`. -/
def Delivers (g : Graph) (o : OpId) (t d : Cycle) : Prop :=
  ∃ op n, g.op? o = some op ∧ g.StartsAt o n t ∧ d = t + Cycle.ofLatency op.latency

/-- The operation has results on the unit. -/
def HasResults (machine : Machine) (g : Graph) (o : OpId) (v : UnitId) : Prop :=
  ∃ op desc, g.op? o = some op ∧ machine.operation v op.opcode = .ok (some desc) ∧ 0 < desc.outputs

/-- From the arrival of a result to its read no result of another operation arrives on the unit. -/
def KeepsResults (machine : Machine) (g : Graph) : Prop :=
  ∀ o o' v t t' d d' w r, o ≠ o' → g.RunsOn o v → g.RunsOn o' v → g.HasResults machine o' v →
    g.Delivers o t d → g.Delivers o' t' d' → g.ReadsAt o w r → ¬ (d < d' ∧ d' ≤ r)

/-- Two operations write one input of their unit in one cycle, not after one of them starts. -/
def WritesAtOnce (g : Graph) : Prop :=
  ∃ o o' v n t w w' k c, o ≠ o' ∧ g.RunsOn o v ∧ g.RunsOn o' v ∧ g.StartsAt o n t ∧ c ≤ t ∧
    g.WritesAt o w k c ∧ g.WritesAt o' w' k c

/-- An operation starts before another one on the unit, and its result arrives between the other's result
and the read of that. -/
def Overtaken (machine : Machine) (g : Graph) : Prop :=
  ∃ o o' v t t' d d' w r, o ≠ o' ∧ g.RunsOn o v ∧ g.RunsOn o' v ∧ g.HasResults machine o' v ∧
    g.Delivers o t d ∧ g.Delivers o' t' d' ∧ g.ReadsAt o w r ∧ t' < t ∧ d < d' ∧ d' ≤ r

/-- Operations on one unit take equally long. -/
def EvenLatencies (g : Graph) : Prop :=
  ∀ o o' v op op', g.RunsOn o v → g.RunsOn o' v → g.op? o = some op → g.op? o' = some op' →
    op.latency = op'.latency

end Graph

namespace Program

open Transport.Graph

variable {p : Program} {machine : Machine} {g : Graph} {place : MoveId → Option Placement}
  {unit : OpId → Option UnitId}

theorem furnish_formed (h : p.graph machine = .ok g) : (g.furnish place unit).Formed machine :=
  (graph_formed h).1.congr sameShapes_furnish

/-- No move of a built graph has been taken out. -/
theorem takesAt_of_readsAt (h : p.graph machine = .ok g) {o : OpId} {w : MoveId} {r : Cycle}
    (hread : (g.furnish place unit).ReadsAt o w r) : (g.furnish place unit).TakesAt o w r := by
  obtain ⟨m, hm, ho, hr⟩ := hread
  have hfound := hm
  rw [move?_furnish] at hfound
  obtain ⟨m0, hm0, rfl⟩ := Option.map_eq_some_iff.1 hfound
  have hlive : m0.live := (graph_formed h).2.live hm0
  exact ⟨_, hm, hlive, ho, hr⟩

/-- With every move placed, an operation that is given operands is started. -/
theorem starts_of_writes (h : p.graph machine = .ok g)
    (hcheck : (g.furnish place unit).check machine = .ok []) {o : OpId} {w : MoveId} {k : Nat} {c : Cycle}
    (hw : (g.furnish place unit).WritesAt o w k c) : ∃ n t, (g.furnish place unit).StartsAt o n t := by
  obtain ⟨m, _, hm, hd, -⟩ := hw
  rw [move?_furnish] at hm
  obtain ⟨m0, hm0, rfl⟩ := Option.map_eq_some_iff.1 hm
  obtain ⟨n, m', hm', hd', htrigger⟩ := graph_triggered h hm0 hd
  have hn : (g.furnish place unit).move? n = some { m' with placement := place n } := by
    rw [move?_furnish, hm', Option.map_some]
  have hlive : m'.live := (graph_formed h).2.live hm'
  have hp := of_some ((clean_of_check hcheck).1 n (mem_moveIds.2 ⟨_, hn, hlive⟩)) hn
  obtain ⟨p, hp⟩ := Option.isSome_iff_exists.1 hp
  exact ⟨n, p.cycle, _, hn, hd', htrigger, congrArg (Option.map Placement.cycle) hp⟩

/-- If the check of a built graph with any places and units reports nothing, operands stay exactly if no
two operations write an input at once, and results stay exactly if no operation is overtaken, as none is
on units whose operations take equally long. -/
theorem units_keep_iff_of_check (h : p.graph machine = .ok g)
    (hcheck : (g.furnish place unit).check machine = .ok []) :
    ((g.furnish place unit).KeepsOperands ↔ ¬ (g.furnish place unit).WritesAtOnce) ∧
    ((g.furnish place unit).KeepsResults machine ↔ ¬ (g.furnish place unit).Overtaken machine) ∧
    ((g.furnish place unit).EvenLatencies → (g.furnish place unit).KeepsResults machine) := by
  have hg : (g.furnish place unit).Formed machine := furnish_formed h
  have hresults : (g.furnish place unit).KeepsResults machine ↔ ¬ (g.furnish place unit).Overtaken machine := by
    constructor
    · rintro hkeeps ⟨o, o', v, t, t', d, d', w, r, hne, hv, hv', hout, hd, hd', hread, -, hlate⟩
      exact hkeeps o o' v t t' d d' w r hne hv hv' hout hd hd' hread hlate
    · intro hnot o o' v t t' d d' w r hne hv hv' hout hd hd' hread hlate
      obtain ⟨op', n', hop', hn', hsum⟩ := id hd'
      obtain ⟨_, n, _, hn, -⟩ := id hd
      have hshares : (g.furnish place unit).Shares o o' t t' := ⟨hne, ⟨v, hv, hv'⟩, ⟨n, hn⟩, ⟨n', hn'⟩⟩
      have hapart := hshares.ne_of_check hg hcheck
      rcases Int.lt_or_gt_of_ne hapart with hlt | hlt
      · have := hshares.result_of_check hg hcheck (takesAt_of_readsAt h hread) hop' hlt
        lia
      · exact hnot ⟨o, o', v, t, t', d, d', w, r, hne, hv, hv', hout, hd, hd', hread, hlt, hlate⟩
  refine ⟨⟨?_, ?_⟩, hresults, fun heven => hresults.2 ?_⟩
  · rintro hkeeps ⟨o, o', v, n, t, w, w', k, c, hne, hv, hv', hn, hc, hw, hw'⟩
    exact hkeeps o o' v n t w w' k c c hne hv hv' hn hw hc hw' ⟨Int.le_refl c, hc⟩
  · intro hnot o o' v n t w w' k c c' hne hv hv' hn hw hc hw' hbetween
    obtain ⟨n', t', hn'⟩ := starts_of_writes h hcheck hw'
    have hshares : (g.furnish place unit).Shares o o' t t' := ⟨hne, ⟨v, hv, hv'⟩, ⟨n, hn⟩, ⟨n', hn'⟩⟩
    have hlate := hshares.operand_of_check hg hcheck hw hw'
    have hsame : c' = c := by lia
    subst hsame
    exact hnot ⟨o, o', v, n, t, w, w', k, c', hne, hv, hv', hn, hc, hw, hw'⟩
  · rintro ⟨o, o', v, t, t', d, d', w, r, -, hv, hv', -, ⟨op, _, hop, -, hd⟩, ⟨op', _, hop', -, hd'⟩, -, hlt,
      hlate⟩
    rw [heven o o' v op op' hv hv' hop hop'] at hd
    lia

/-! ## One unit for additions and products -/

/-- Three buses around one unit. An addition takes one cycle on it, a product three. -/
def mixer : Machine where
  name := "m"
  files := #[{ name := "r", size := 4, readPorts := 2, writePorts := 2 }]
  units := #[⟨"alu", [⟨"mul", 3, 2, 1⟩, ⟨"add", 1, 2, 1⟩], 1, false⟩]
  buses := #[⟨"b0", 8, [.fileWrite ⟨0⟩, .unitIn ⟨0⟩ 0, .unitIn ⟨0⟩ 1, .unitOut ⟨0⟩ 2]⟩,
    ⟨"b1", 8, [.unitIn ⟨0⟩ 1]⟩, ⟨"b2", 8, [.unitIn ⟨0⟩ 0]⟩]

/-- Two operations on immediates; the result of the second goes to `r1`. -/
def pairOf (first second : String) : Program where
  operations := #[{ opcode := first }, { opcode := second }]
  moves := #[{ src := .immediate 1, dst := .input 0 false, dstOp := some 0 },
    { src := .immediate 2, dst := .input 1 true, dstOp := some 0 },
    { src := .immediate 3, dst := .input 0 false, dstOp := some 1 },
    { src := .immediate 4, dst := .input 1 true, dstOp := some 1 },
    { src := .output 2, dst := .register ⟨⟨0⟩, 1⟩, srcOp := some 1 }]

/-- Both operands are written in cycle 0, the triggers come in cycles 0 and 1, the read in cycle 3. -/
def crowded (n : MoveId) : Option Placement :=
  #[(⟨0, ⟨0⟩⟩ : Placement), ⟨0, ⟨1⟩⟩, ⟨0, ⟨2⟩⟩, ⟨1, ⟨0⟩⟩, ⟨3, ⟨0⟩⟩][n.val]?

def pairOn (g : Graph) : Graph := g.furnish crowded fun _ => some ⟨0⟩

/-- The check of the graph reports nothing. -/
def isClean (g : Graph) : Bool := (g.check mixer).toOption.any List.isEmpty

theorem check_of_isClean (h : isClean g) : g.check mixer = .ok [] := by
  obtain ⟨vs, hvs, hempty⟩ := exists_ok_of_any h
  rw [hvs, List.isEmpty_iff.1 hempty]

/-- Two additions, where the check reports nothing and results stay. -/
theorem units_keep_iff_of_check_sums : ∃ g, (pairOf "add" "add").graph mixer = .ok g ∧
    (pairOn g).check mixer = .ok [] ∧ (pairOn g).KeepsResults mixer := by
  obtain ⟨g, hg, hrun⟩ := exists_ok_of_any (p := fun g => isClean (pairOn g) &&
      (pairOn g).ops.all fun op => op.latency = 1)
    (show ((pairOf "add" "add").graph mixer).toOption.any _ by decide +kernel)
  obtain ⟨hclean, hlatency⟩ := Bool.and_eq_true_iff.1 hrun
  have hcheck := check_of_isClean hclean
  have hone : ∀ o op, (pairOn g).op? o = some op → op.latency = 1 := fun o op hop =>
    of_decide_eq_true (Array.all_eq_true_iff_forall_mem.1 hlatency op (Array.mem_of_getElem? hop))
  refine ⟨g, hg, hcheck, (units_keep_iff_of_check hg hcheck).2.2 fun o o' v op op' _ _ hop hop' => ?_⟩
  rw [hone o op hop, hone o' op' hop']

/-- A product and an addition. The check reports nothing, but both write input 0 in cycle 0, and the
product arrives before the sum is read. -/
theorem crowded_keeps_nothing : ∃ g, (pairOf "mul" "add").graph mixer = .ok g ∧
    (pairOn g).check mixer = .ok [] ∧ ¬ (pairOn g).KeepsOperands ∧ ¬ (pairOn g).KeepsResults mixer := by
  let role (g : Graph) (n : MoveId) := ((pairOn g).move? n).map fun m => (m.srcOp, m.dst, m.dstOp, m.cycle?)
  let kind (g : Graph) (o : OpId) := ((pairOn g).op? o).map fun op => (op.opcode, op.latency, op.unit?)
  obtain ⟨g, hg, hrun⟩ := exists_ok_of_any (p := fun g => isClean (pairOn g) &&
      role g ⟨0⟩ = some (none, .input 0 false, some ⟨0⟩, some 0) &&
      role g ⟨1⟩ = some (none, .input 1 true, some ⟨0⟩, some 0) &&
      role g ⟨2⟩ = some (none, .input 0 false, some ⟨1⟩, some 0) &&
      role g ⟨3⟩ = some (none, .input 1 true, some ⟨1⟩, some 1) &&
      role g ⟨4⟩ = some (some ⟨1⟩, .register ⟨⟨0⟩, 1⟩, none, some 3) &&
      kind g ⟨0⟩ = some ("mul", 3, some ⟨0⟩) && kind g ⟨1⟩ = some ("add", 1, some ⟨0⟩))
    (show ((pairOf "mul" "add").graph mixer).toOption.any _ by decide +kernel)
  simp only [role, kind, Bool.and_eq_true, decide_eq_true_eq, Option.map_eq_some_iff, Prod.mk.injEq] at hrun
  obtain ⟨⟨⟨⟨⟨⟨⟨hclean, m₀, hm₀, -, hd₀, ho₀, hc₀⟩, m₁, hm₁, -, hd₁, ho₁, hc₁⟩, m₂, hm₂, -, hd₂, ho₂, hc₂⟩,
    m₃, hm₃, -, hd₃, ho₃, hc₃⟩, m₄, hm₄, hs₄, -, -, hc₄⟩, mul, hmul, hopcode, hlat, hunit⟩, add, hadd, -, hlat',
    hunit'⟩ := hrun
  have hv : (pairOn g).RunsOn ⟨0⟩ ⟨0⟩ := by simp [RunsOn, boundUnit, hmul, hunit]
  have hv' : (pairOn g).RunsOn ⟨1⟩ ⟨0⟩ := by simp [RunsOn, boundUnit, hadd, hunit']
  have hstart : (pairOn g).StartsAt ⟨0⟩ ⟨1⟩ 0 := ⟨m₁, hm₁, ho₁, by simp [Move.isTrigger, hd₁, Terminal.isTrigger], hc₁⟩
  have hstart' : (pairOn g).StartsAt ⟨1⟩ ⟨3⟩ 1 := ⟨m₃, hm₃, ho₃, by simp [Move.isTrigger, hd₃, Terminal.isTrigger], hc₃⟩
  refine ⟨g, hg, check_of_isClean hclean, fun hkeeps => ?_, fun hkeeps => ?_⟩
  · exact hkeeps ⟨0⟩ ⟨1⟩ ⟨0⟩ ⟨1⟩ 0 ⟨0⟩ ⟨2⟩ 0 0 0 (by decide) hv hv' hstart ⟨m₀, false, hm₀, ho₀, hd₀, hc₀⟩ (by decide)
      ⟨m₂, false, hm₂, ho₂, hd₂, hc₂⟩ (by decide)
  · have hresults : (pairOn g).HasResults mixer ⟨0⟩ ⟨0⟩ := ⟨mul, ⟨"mul", 3, 2, 1⟩, hmul, by rw [hopcode]; rfl, by decide⟩
    exact hkeeps ⟨1⟩ ⟨0⟩ ⟨0⟩ 1 0 2 3 ⟨4⟩ 3 (by decide) hv' hv hresults ⟨add, ⟨3⟩, hadd, hstart', by rw [hlat']; rfl⟩
      ⟨mul, ⟨1⟩, hmul, hstart, by rw [hlat]; rfl⟩ ⟨m₄, hm₄, hs₄, hc₄⟩ (by decide)

end Program

end Transport
