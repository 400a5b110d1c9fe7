import Transport.Proofs.Resource.Undo
import Transport.Proofs.Reversal.Attempts
import Transport.Proofs.Scheduling.Graphs

/-!
# A rolled-back attempt leaves no trace

The changes of a region are made through attempts, and an attempt is taken back change by change. From
any region that changes have led to from a built graph, taking back gives the graph, the usage and the
renamer of before, as long as every change that was made is `Safe`. Two kinds of changes may not be:
a move that leaves its cycle is put back by looking for a place again, which need not be the one it had,
and a renamed range is given back the register of its write, which need not be the one of its reads.
The main statement is `Program.undoAll_of_trial`.
-/

namespace Transport

open Transport.Graph

/-! ## What the changes keep -/

namespace Graph

variable {g g' : Graph} {n x w : MoveId} {range : LiveRange} {r : Reg}
  {New : MoveId → MoveId → Dependence → Prop} {Cut : EdgeId → Prop}

theorem Rewires.overwritesItself (h : g.Rewires g' New NoneBack Cut) (hnew : ∀ t d, New t t d → d.hazard ≠ .waw)
    (hx : g'.OverwritesItself x) : g.OverwritesItself x := by
  obtain ⟨e, l, hl, hlive, htail, hhead, hstorage, hwaw⟩ := hx
  rcases h.live_or_new hl hlive with hold | hl
  · exact ⟨e, l, hold, hlive, htail, hhead, hstorage, hwaw⟩
  · rw [htail, hhead] at hl
    exact absurd hwaw (hnew _ _ hl)

/-- Edges and operations are in order, whatever the usage. -/
structure InOrder (g : Graph) : Prop where
  consistent : g.Consistent
  once (w : MoveId) : ¬ g.OverwritesItself w

namespace InOrder

variable (hg : g.InOrder)
include hg

theorem rewires (h : g.Rewires g' New NoneBack Cut) (hnew : ∀ t d, New t t d → d.hazard ≠ .waw)
    (hc : g'.Consistent) : g'.InOrder :=
  ⟨hc, fun w hw => hg.once w (h.overwritesItself hnew hw)⟩

theorem alters {f : Move → Move} {k : OpId → Operation → Operation} (h : g.Alters n f k g')
    (hins : ∀ m, (f m).ins = m.ins) (houts : ∀ m, (f m).outs = m.outs) : g'.InOrder :=
  ⟨h.consistent hins houts hg.consistent, fun w ⟨e, l, hl, hrest⟩ =>
    hg.once w ⟨e, l, h.link? e ▸ hl, hrest⟩⟩

theorem resembles (h : g.Resembles g') : g'.InOrder := by
  refine ⟨h.consistent, fun w ⟨e, l, hl, hlive, hrest⟩ => hg.once w ⟨e, l, h.toExtends.live hl hlive, hlive, hrest⟩⟩

end InOrder

theorem Alike.resembles (h : g.Alike g') (hg : g.Consistent) : g.Resembles g' := by
  obtain ⟨d, rfl⟩ := h
  exact ⟨⟨fun _ => rfl, rfl, rfl, rfl, rfl, rfl⟩, rfl, id,
    fun hnone hl => (Option.some_ne_none _ (hl.symm.trans hnone)).elim,
    ⟨⟨hg.mem_ins, hg.mem_outs, hg.tail_known, hg.head_known⟩, hg.ins_nodup, hg.outs_nodup⟩⟩

/-- A change of the graph that moves nothing leaves it in order. -/
structure Settles (g g' : Graph) : Prop where
  inOrder : g'.InOrder
  places : g.KeepsPlaces g'

section

variable {source dest tail head : MoveId} {e : EdgeId} {dep : Dependence} (hg : g.InOrder)
include hg

theorem settles_of_redirect {red : Redirection} (h : g.redirect source dest = .ok (g', red)) : g.Settles g' := by
  obtain ⟨s, d, f, -, -, -, halters, hf⟩ := alters_of_redirect h
  have hkeep {α : Type} (k : Move → α) := keeps_of_redirected hf k
  exact ⟨hg.alters halters (hkeep Move.ins fun _ _ _ _ => rfl) (hkeep Move.outs fun _ _ _ _ => rfl),
    .of_alters halters (hkeep Move.placement fun _ _ _ _ => rfl) fun _ _ => rfl⟩

theorem settles_of_mergeEdges {force : Bool} {u : EdgeRecord}
    (h : g.mergeEdges source dest force = .ok (some (g', u))) : g.Settles g' := by
  obtain ⟨New, hnew, hrec⟩ := recording_of_mergeEdges hg.consistent.toLinked h
  refine ⟨hg.rewires hrec.rewires (fun t d ht => ?_) (hrec.records.consistent hg.consistent),
    .of_sameMoves hrec.rewires.moves⟩
  rcases hnew t t d ht with ⟨r, hin⟩ | ⟨rfl, hdefers⟩
  · exact absurd hin.head hin.tail
  · exact absurd rfl hdefers.head

theorem settles_of_removeEdge (h : g.removeEdge e = .ok g') : g.Settles g' := by
  have hrew : g.Rewires g' NoneNew NoneBack fun _ => True := rewires_of_removeEdge h trivial
  exact ⟨hg.rewires hrew (fun _ _ => False.elim) ((records_of_removeEdge h).consistent hg.consistent),
    .of_sameMoves hrew.moves⟩

theorem settles_of_connect (hne : tail ≠ head) (h : g.connect tail head dep = .ok (g', e)) : g.Settles g' := by
  have hrew : g.Rewires g' (fun t hd _ => t ≠ hd) NoneBack NoneBack := rewires_of_connect h hne
  exact ⟨hg.rewires hrew (fun _ _ ht => absurd rfl ht) ((Records.refl.grow h).consistent hg.consistent),
    .of_sameMoves hrew.moves⟩

theorem settles_of_removeMove {rm : RemovedMove} (h : g.removeMove n = .ok (g', rm)) : g.Settles g' := by
  obtain ⟨m, g1, -, -, -, hcut, -, halters, -⟩ := removeMove_eq_ok h
  have hrew : g.Rewires g1 NoneNew NoneBack fun _ => True := rewires_of_removeEdges (fun _ _ => trivial) hcut
  have hg1 : g1.InOrder := hg.rewires hrew (fun _ _ => False.elim)
    ((Records.refl.removeEdges rfl hcut).consistent hg.consistent)
  refine ⟨hg1.alters halters (fun _ => rfl) fun _ => rfl, (KeepsPlaces.of_sameMoves hrew.moves).trans
    (.of_alters halters (fun _ => rfl) fun o op => ?_)⟩
  rw [dropSlot_eq]

theorem settles_of_rename {rn rn' : Renamer} {mode : RenameMode} {u : RenameRecord}
    (h : rn.rename g range r mode = .ok (some (u, rn', g'))) : g.Settles g' := by
  obtain ⟨w, old, planned, needed, us, hmov, -, -, hneeded, happly, -, -⟩ := Renamer.rename_eq_some h
  obtain ⟨hw, -⟩ := movable_eq_some hmov
  have hne : ∀ t hd d, (t, hd, d) ∈ needed → t ≠ hd := fun _ _ _ hx => (mem_of_neededEdges hneeded hx).2
  have hlinked := hg.consistent.toLinked
  obtain ⟨k, hset, hall⟩ := recordsAll_of_applyRename hlinked hw (hg.once w) hne happly
  refine ⟨⟨(consistent_of_applyRename hg.consistent hw (hg.once w) hne happly).1, fun x hx =>
    hg.once x (overwritesItself_of_applyRename hlinked hw hne happly hx)⟩, ?_⟩
  have hregs : g.KeepsPlaces k := by
    have hreg := reregisters_of_setRegs hset
    refine ⟨fun x => ?_, fun o => by rw [hreg.op?]⟩
    rw [hreg.move?, Option.map_map]
    rfl
  exact hregs.trans (.of_sameMoves hall.rearranges.moves)

end

end Graph

/-! ## One change -/

/-- The region with another usage, renamer and graph. Notes, the selector and the kept distances do not count. -/
structure Region.Turns (r : Region) (u : Usage) (rn : Option Renamer) (g : Graph) (r' : Region) : Prop where
  machine : r'.machine = r.machine
  usage : r'.usage = u
  renamer : r'.renamer = rn
  graph : g.Alike r'.graph

/-- What a change that applies does to the usage, the renamer and the graph. -/
inductive Region.Makes (r : Region) : Change → ChangeRecord → Usage → Option Renamer → Graph → Prop
  | assign {n : MoveId} {c : Cycle} {u : Usage} {g : Graph} (h : r.usage.assign r.machine r.graph c n = .ok (u, g)) :
      Makes r (.assign n c) (.assigned n) u r.renamer g
  | unassign {n : MoveId} {m : Move} {p : Placement} {u : Usage} {g : Graph} (hm : r.graph.move? n = some m)
      (hp : m.placement = some p) (h : r.usage.unassign r.graph n = .ok (u, g)) :
      Makes r (.unassign n) (.unassigned n p.cycle) u r.renamer g
  | redirect {source dest : MoveId} {red : Redirection} {g : Graph} (h : r.graph.redirect source dest = .ok (g, red)) :
      Makes r (.redirect source dest) (.redirected red) r.usage r.renamer g
  | mergeEdges {source dest : MoveId} {force : Bool} {edges : EdgeRecord} {g : Graph}
      (h : r.graph.mergeEdges source dest force = .ok (some (g, edges))) :
      Makes r (.mergeEdges source dest force) (.edgesMerged edges) r.usage r.renamer g
  | removeEdge {e : EdgeId} {g : Graph} (h : r.graph.removeEdge e = .ok g) :
      Makes r (.removeEdge e) (.edgeRemoved e) r.usage r.renamer g
  | connect {tail head : MoveId} {dep : Dependence} {e : EdgeId} {g : Graph} (hne : tail ≠ head)
      (h : r.graph.connect tail head dep = .ok (g, e)) :
      Makes r (.connect tail head dep) (.connected (some e)) r.usage r.renamer g
  | skip {tail head : MoveId} {dep : Dependence} :
      Makes r (.connect tail head dep) (.connected none) r.usage r.renamer r.graph
  | rename {n : MoveId} {dest : Bool} {cycle : Cycle} {direction : Direction} {rn rn' : Renamer} {u : RenameRecord}
      {g : Graph} (hrn : r.renamer = some rn)
      (h : rn.renameAt r.machine r.graph n dest cycle direction = .ok (some (u, rn', g))) :
      Makes r (.rename n dest cycle direction) (.renamed u) r.usage (some rn') g
  | removePending {n : MoveId} {m : Move} {rm : RemovedMove} {g : Graph} (hm : r.graph.move? n = some m)
      (hlive : m.live) (hp : m.placement = none) (h : r.graph.removeMove n = .ok (g, rm)) :
      Makes r (.removeDead n) (.deadRemoved rm none) r.usage r.renamer g
  | removePlaced {n : MoveId} {m : Move} {p : Placement} {rm : RemovedMove} {u : Usage} {g₁ g : Graph}
      (hm : r.graph.move? n = some m) (hlive : m.live) (hp : m.placement = some p)
      (hoff : r.usage.unassign r.graph n = .ok (u, g₁)) (h : g₁.removeMove n = .ok (g, rm)) :
      Makes r (.removeDead n) (.deadRemoved rm (some p.cycle)) u r.renamer g

namespace RegionM

variable {r r' : Region} {change : Change} {record : ChangeRecord}

theorem turns_reconsider {ns : List MoveId} {v : Unit} (h : reconsider ns r = .ok v r') :
    r.Turns r.usage r.renamer r.graph r' := by
  obtain ⟨s, -, rfl, hq⟩ := leads_reconsider (j := ⟨.topDown, [], []⟩) (s := { toRegion := r }) h
  exact ⟨hq.machine, hq.usage, hq.renamer, hq.graph⟩

theorem makes_rename {n : MoveId} {dest : Bool} {cycle : Cycle} {direction : Direction} {x : Option RenameRecord}
    (h : rename n dest cycle direction r = .ok x r') : (x = none ∧ r' = r) ∨ ∃ u rn g, x = some u ∧
      r.Makes (.rename n dest cycle direction) (.renamed u) r.usage rn g ∧ r.Turns r.usage rn g r' := by
  rcases rename_ok h with hnone | ⟨rn, u, rn', g, ns, hx, hrn, hy, hre⟩
  · exact .inl hnone
  obtain ⟨machine, usage, renamer, graph⟩ := turns_reconsider hre
  exact .inr ⟨u, some rn', g, hx, .rename hrn hy, machine, usage, renamer, graph⟩

theorem makes_removeDead {n : MoveId} {x : Option (RemovedMove × Option Cycle)} (h : removeDead n r = .ok x r') :
    (x = none ∧ r' = r) ∨ ∃ rm c u g, x = some (rm, c) ∧
      r.Makes (.removeDead n) (.deadRemoved rm c) u r.renamer g ∧ r.Turns u r.renamer g r' := by
  obtain ⟨m, needed, hm, -, ⟨hx, hr, -⟩ | ⟨hlive, -, -, u, g, g', rm, ns, hoff, hremove, hx, hre⟩⟩ := removeDead_ok h
  · exact .inl ⟨hx, hr⟩
  obtain ⟨machine, usage, renamer, graph⟩ := turns_reconsider hre
  refine .inr ⟨rm, m.cycle?, u, g', hx, ?_, machine, usage, renamer, graph⟩
  cases hp : m.placement with
  | some p =>
    simp only [Move.isPlaced, hp, Option.isSome_some, Bool.true_eq_false, false_and, false_or, true_and] at hoff
    rw [Move.cycle?, hp]
    exact .removePlaced hm hlive hp hoff hremove
  | none =>
    simp only [Move.isPlaced, hp, Option.isSome_none, Bool.false_eq_true, false_and, or_false, true_and] at hoff
    obtain ⟨rfl, rfl⟩ := hoff
    rw [Move.cycle?, hp]
    exact .removePending hm hlive hp hremove

/-- A change that does not apply changes nothing; one that applies does what it is meant to. -/
theorem makes_of_applyChange : Gives r (applyChange change) fun x r' => (x = none ∧ r' = r) ∨
    ∃ record u rn g, x = some record ∧ r.Makes change record u rn g ∧ r.Turns u rn g r' := by
  cases change with
  | assign n c =>
    refine .get (.lift fun can _ => .ite (fun _ => .bind fun _ _ hassign => ?_) fun _ => .pure (.inl ⟨rfl, rfl⟩))
    obtain ⟨u, g, htake, rfl⟩ := assign_ok hassign
    exact .pure (.inr ⟨_, u, _, g, rfl, .assign htake, rfl, rfl, rfl, .refl⟩)
  | unassign n =>
    refine .move fun m hm => ?_
    cases hp : m.placement with
    | none =>
      simp only [Move.cycle?, hp, Option.map_none]
      exact .pure (.inl ⟨rfl, rfl⟩)
    | some p =>
      simp only [Move.cycle?, hp, Option.map_some]
      refine .bind fun _ _ hun => ?_
      obtain ⟨u, g, hleave, rfl⟩ := unassign_ok hun
      exact .pure (.inr ⟨_, u, _, g, rfl, .unassign (move?_of_move hm) hp hleave, rfl, rfl, rfl, .refl⟩)
  | redirect source dest =>
    exact .ask fun y hred => .setGraph (.pure (.inr ⟨_, _, _, y.1, rfl, .redirect hred, rfl, rfl, rfl, .refl⟩))
  | mergeEdges source dest force =>
    refine .ask fun y hy => ?_
    rcases y with _ | ⟨g, edges⟩
    · exact .pure (.inl ⟨rfl, rfl⟩)
    · exact .setGraph (.pure (.inr ⟨_, _, _, g, rfl, .mergeEdges hy, rfl, rfl, rfl, .refl⟩))
  | removeEdge e =>
    refine .ask fun l _ => .ite (fun _ => .ask fun g hremove => .setGraph ?_) fun _ => .pure (.inl ⟨rfl, rfl⟩)
    refine .bind fun _ _ hre => .pure (.inr ⟨_, _, _, g, rfl, .removeEdge hremove, ?_⟩)
    obtain ⟨machine, usage, renamer, graph⟩ := turns_reconsider hre
    exact ⟨machine, usage, renamer, graph⟩
  | connect tail head dep =>
    refine .ite (fun _ => .pure (.inl ⟨rfl, rfl⟩)) fun hne => ?_
    have hensure : Gives r (do
        let y ← ask (·.ensureEdge tail head dep)
        setGraph y.1
        return some (.connected y.2)) fun x r' => (x = none ∧ r' = r) ∨ ∃ record u rn g, x = some record ∧
          r.Makes (.connect tail head dep) record u rn g ∧ r.Turns u rn g r' := by
      refine .ask fun y hy => .setGraph (.pure (.inr ?_))
      rcases ensureEdge_eq_ok hy with ⟨hg, he, -⟩ | ⟨e, he, hc⟩
      · exact ⟨_, _, _, r.graph, by rw [he], .skip, rfl, rfl, rfl, by rw [hg]; exact .refl⟩
      · exact ⟨_, _, _, y.1, by rw [he], .connect hne hc, rfl, rfl, rfl, .refl⟩
    refine .ite (fun _ => .ask fun path _ => ?_) fun _ => hensure
    exact .ite (fun _ => .pure (.inl ⟨rfl, rfl⟩)) fun _ => hensure
  | rename n dest cycle direction =>
    refine .bind fun _ _ hy => .pure ?_
    obtain ⟨rfl, rfl⟩ | ⟨u, rn, g, rfl, hmakes, hturns⟩ := makes_rename hy
    · exact .inl ⟨rfl, rfl⟩
    · exact .inr ⟨_, _, rn, g, rfl, hmakes, hturns⟩
  | removeDead n =>
    refine .bind fun _ _ hy => .pure ?_
    obtain ⟨rfl, rfl⟩ | ⟨rm, c, u, g, rfl, hmakes, hturns⟩ := makes_removeDead hy
    · exact .inl ⟨rfl, rfl⟩
    · exact .inr ⟨_, u, _, g, rfl, hmakes, hturns⟩

end RegionM

/-! ## Regions in order -/

/-- The books agree with the graph, and the edges are in order. -/
structure Region.InOrder (r : Region) : Prop where
  graph : r.graph.InOrder
  usage : r.usage.Orderly r.graph

/-- What counts of a region is the same. -/
structure Region.Resembles (r r' : Region) : Prop where
  machine : r'.machine = r.machine
  usage : r'.usage = r.usage
  renamer : r'.renamer = r.renamer
  graph : r.graph.Resembles r'.graph

namespace Region

variable {r r' r'' : Region} {change : Change} {record : ChangeRecord} {u : Usage} {rn : Option Renamer} {g : Graph}

theorem Resembles.refl (hr : r.InOrder) : r.Resembles r := ⟨rfl, rfl, rfl, .refl hr.graph.consistent⟩

theorem Resembles.trans (h : r.Resembles r') (h' : r'.Resembles r'') : r.Resembles r'' :=
  ⟨h'.machine.trans h.machine, h'.usage.trans h.usage, h'.renamer.trans h.renamer, h.graph.trans h'.graph⟩

theorem InOrder.resembles (hr : r.InOrder) (h : r.Resembles r') : r'.InOrder :=
  ⟨hr.graph.resembles h.graph, h.usage ▸ hr.usage.congr (.of_sameMoves h.graph.moves)⟩

theorem Makes.inOrder (hr : r.InOrder) (h : r.Makes change record u rn g) : g.InOrder ∧ u.Orderly g := by
  have hsettles {g' : Graph} (h : r.graph.Settles g') : g'.InOrder ∧ r.usage.Orderly g' :=
    ⟨h.inOrder, hr.usage.congr h.places⟩
  have hreplaces {n : MoveId} {p : Option Placement} {u' : Usage} {g' : Graph}
      (h : Usage.Replaces r.graph n p u' g') : g'.InOrder := hr.graph.alters h.toAlters (fun _ => rfl) fun _ => rfl
  cases h with
  | assign h =>
    obtain ⟨m, a, htakes⟩ := Usage.takes_of_assign hr.usage h
    exact ⟨hreplaces htakes.replaces, htakes.orderly hr.usage⟩
  | unassign hm hp h =>
    obtain ⟨m, a, hleaves⟩ := Usage.leaves_of_unassign hr.usage h
    exact ⟨hreplaces hleaves.replaces, hleaves.orderly hr.usage⟩
  | redirect h => exact hsettles (settles_of_redirect hr.graph h)
  | mergeEdges h => exact hsettles (settles_of_mergeEdges hr.graph h)
  | removeEdge h => exact hsettles (settles_of_removeEdge hr.graph h)
  | connect hne h => exact hsettles (settles_of_connect hr.graph hne h)
  | skip => exact ⟨hr.graph, hr.usage⟩
  | rename hrn h =>
    obtain ⟨range, w, files, new, mode, -, -, -, -, -, hrename⟩ := rename_of_renameAt h
    exact hsettles (settles_of_rename hr.graph hrename)
  | removePending hm hlive hp h => exact hsettles (settles_of_removeMove hr.graph h)
  | removePlaced hm hlive hp hoff h =>
    obtain ⟨m, a, hleaves⟩ := Usage.leaves_of_unassign hr.usage hoff
    have hsettled := settles_of_removeMove (hreplaces hleaves.replaces) h
    exact ⟨hsettled.inOrder, (hleaves.orderly hr.usage).congr hsettled.places⟩

theorem Turns.inOrder (h : r.Turns u rn g r') (hg : g.InOrder) (hu : u.Orderly g) : r'.InOrder := by
  have hr := h.graph.resembles hg.consistent
  exact ⟨hg.resembles hr, h.usage ▸ hu.congr (.of_sameMoves hr.moves)⟩

/-- A change that can be taken back where it is made. -/
def Safe (change : Change) (r : Region) : Prop :=
  (∀ x r', RegionM.applyChange change r = .ok x r' → r'.graph.EdgesFit) ∧
    match change with
    | .unassign n | .removeDead n => Usage.Regains r.machine r.usage r.graph n
    | .rename n dest _ _ =>
      ∀ range, r.graph.liveRange n (if dest then .dest else .source) = .ok range → r.graph.Uniform range
    | _ => True

section

variable {s : Region} {k : Graph} {n : MoveId}

theorem exists_setGraph {query : Graph → Checked Graph} (hk : query s.graph = .ok k) :
    (do RegionM.setGraph (← RegionM.ask query) : RegionM Unit) s = .ok () { s with graph := k } :=
  run_bind_ok.2 ⟨k, s, RegionM.ask_ok.2 ⟨hk, rfl⟩, RegionM.setGraph_ok.2 rfl⟩

theorem exists_undo {k' : Graph} {surgery : Surgery} {x : SurgeryRecord} (hk : k.Performs surgery k' (some x))
    (hc : k.Consistent) (hlive : ∀ n, surgery = .remove n → n ∈ k.moveIds) (hr : k'.Resembles s.graph)
    (hfit : k'.EdgesFit) : ∃ k'', x.undo s.graph = .ok k'' ∧ k.Resembles k'' := by
  obtain ⟨k'', hundo, hres⟩ := hk.undo hc hlive hr hfit
  rcases undoAll_toList hundo with ⟨hnone, -⟩ | ⟨_, ⟨⟩, hundo⟩
  · cases hnone
  · exact ⟨k'', hundo, hres⟩

theorem assign_eq {c : Cycle} (h : s.usage.assign s.machine s.graph c n = .ok (u, k)) :
    RegionM.assign n c s = .ok () { s with usage := u, graph := k } :=
  run_bind_ok.2 ⟨s, s, run_get_ok.2 ⟨rfl, rfl⟩, run_bind_ok.2 ⟨_, s, RegionM.lift_ok.2 ⟨h, rfl⟩, rfl⟩⟩

theorem exists_assign_back {m : Move} {p : Placement} (hr : r.InOrder)
    (hregains : Usage.Regains r.machine r.usage r.graph n) (hm : r.graph.move? n = some m)
    (hp : m.placement = some p) (hoff : r.usage.unassign r.graph n = .ok (u, g)) (hmachine : s.machine = r.machine)
    (husage : s.usage = u) (hrenamer : s.renamer = r.renamer) (hg : g.Resembles s.graph) :
    ∃ s', RegionM.assign n p.cycle s = .ok () s' ∧ r.Resembles s' := by
  obtain ⟨m', a, hleaves⟩ := Usage.leaves_of_unassign hr.usage hoff
  cases hm.symm.trans (move?_of_move hleaves.move)
  obtain ⟨k, hk, hres⟩ := Usage.assign_of_leaves hr.usage hleaves hp (hregains m p u g hm hp hoff) hg
  rw [← hmachine, ← husage] at hk
  exact ⟨_, assign_eq hk, hmachine, rfl, hrenamer, hres⟩

theorem Makes.revert (hr : r.InOrder) (hsafe : Safe change r) (h : r.Makes change record u rn g) (hfit : g.EdgesFit)
    (hmachine : s.machine = r.machine) (husage : s.usage = u) (hrenamer : s.renamer = rn) (hg : g.Resembles s.graph) :
    ∃ s', RegionM.revertChange record s = .ok () s' ∧ r.Resembles s' := by
  cases h with
  | @assign n c _ _ h =>
    obtain ⟨m, a, htakes⟩ := Usage.takes_of_assign hr.usage h
    obtain ⟨k, hk, hres⟩ := Usage.unassign_of_takes hr.usage htakes hg
    rw [← husage] at hk
    obtain ⟨m', hm', hbare⟩ := hg.moves.move? (n := n) (by
      rw [htakes.replaces.move?, if_pos rfl, move?_of_move htakes.move, Option.map_some])
    have hplaced : s.graph.isPlaced n = .ok true :=
      bind_eq_ok.2 ⟨m', move_eq_ok.2 ⟨(move_eq_ok.1 htakes.move).1, hm'⟩, by rw [Move.eq_of_bare hbare]; rfl⟩
    refine ⟨{ s with usage := r.usage, graph := k }, ?_, hmachine, rfl, hrenamer, hres⟩
    refine run_bind_ok.2 ⟨true, s, RegionM.ask_ok.2 ⟨hplaced, rfl⟩, ?_⟩
    exact run_bind_ok.2 ⟨s, s, run_get_ok.2 ⟨rfl, rfl⟩, run_bind_ok.2 ⟨_, s, RegionM.lift_ok.2 ⟨hk, rfl⟩, rfl⟩⟩
  | unassign hm hp h => exact exists_assign_back hr hsafe.2 hm hp h hmachine husage hrenamer hg
  | redirect h =>
    obtain ⟨k, hk, hres⟩ := undoRedirect_of_redirect h hg
    exact ⟨_, exists_setGraph hk, hmachine, husage, hrenamer, hres⟩
  | mergeEdges h =>
    obtain ⟨k, hk, hres⟩ := (records_of_mergeEdges hr.graph.consistent.toLinked h).undo hg hfit
    exact ⟨_, exists_setGraph hk, hmachine, husage, hrenamer, hres⟩
  | removeEdge h =>
    obtain ⟨k, hk, hres⟩ := exists_undo (.cut h) hr.graph.consistent (by simp) hg hfit
    exact ⟨_, exists_setGraph hk, hmachine, husage, hrenamer, hres⟩
  | connect hne h =>
    obtain ⟨k, hk, hres⟩ := exists_undo (.connected h) hr.graph.consistent (by simp) hg hfit
    exact ⟨_, exists_setGraph hk, hmachine, husage, hrenamer, hres⟩
  | skip => exact ⟨s, rfl, hmachine, husage, hrenamer, hg⟩
  | @rename n dest cycle direction rn rn' u _ hrn h =>
    obtain ⟨range, w, files, new, mode, hrange, -, -, -, -, hrename⟩ := rename_of_renameAt h
    obtain ⟨k, hk, hres⟩ := Renamer.undo_of_uniform hr.graph.consistent (fun w _ => hr.graph.once w)
      (hsafe.2 range hrange) hrename hg hfit
    refine ⟨{ s with renamer := some rn, graph := k }, ?_, hmachine, husage, hrn.symm, hres⟩
    refine run_bind_ok.2 ⟨s, s, run_get_ok.2 ⟨rfl, rfl⟩, ?_⟩
    simp only [hrenamer]
    exact run_bind_ok.2 ⟨_, s, RegionM.lift_ok.2 ⟨hk, rfl⟩, rfl⟩
  | removePending hm hlive hp h =>
    obtain ⟨k, hk, hres⟩ := restoreMove_of_removeMove hm hlive h hg hfit
    refine ⟨{ s with graph := k }, ?_, hmachine, husage, hrenamer, hres⟩
    exact run_bind_ok.2 ⟨k, s, RegionM.ask_ok.2 ⟨hk, rfl⟩, run_bind_ok.2 ⟨(), _, RegionM.setGraph_ok.2 rfl, rfl⟩⟩
  | @removePlaced n m p rm u g1 _ hm hlive hp hoff h =>
    obtain ⟨m', a, hleaves⟩ := Usage.leaves_of_unassign hr.usage hoff
    have hm1 : g1.move? n = some { m with placement := none } := by
      rw [hleaves.replaces.move?, if_pos rfl, hm, Option.map_some]
    obtain ⟨k, hk, hres⟩ := restoreMove_of_removeMove hm1 hlive h hg hfit
    obtain ⟨s', hassign, hlike⟩ := exists_assign_back (s := { s with graph := k }) hr hsafe.2 hm hp hoff hmachine husage
      hrenamer hres
    refine ⟨s', run_bind_ok.2 ⟨k, s, RegionM.ask_ok.2 ⟨hk, rfl⟩, run_bind_ok.2
      ⟨(), _, RegionM.setGraph_ok.2 rfl, ?_⟩⟩, hlike⟩
    rw [move_of_removeMove h]
    exact hassign

end

/-- Changes are made and taken back in regions that are in order. -/
theorem reversal_dependable : RegionM.reversal.Dependable Region.Resembles Region.InOrder Region.Safe where
  refl := Resembles.refl
  trans := Resembles.trans
  inv_of_like := InOrder.resembles
  inv_of_apply hr _ h := by
    obtain ⟨hnone, -⟩ | ⟨record, u, rn, g, -, hmakes, hturns⟩ := RegionM.makes_of_applyChange h
    · cases hnone
    · exact hturns.inOrder (hmakes.inOrder hr).1 (hmakes.inOrder hr).2
  refused hr _ h := by
    obtain ⟨-, rfl⟩ | ⟨record, u, rn, g, hsome, -⟩ := RegionM.makes_of_applyChange h
    · exact .refl hr
    · cases hsome
  made {change record r y} hr hsafe h y' hy := by
    obtain ⟨hnone, -⟩ | ⟨record, u, rn, g, ⟨⟩, hmakes, hturns⟩ := RegionM.makes_of_applyChange h
    · cases hnone
    have halike := hturns.graph.resembles (hmakes.inOrder hr).1.consistent
    have hfit : g.EdgesFit := by
      have := hsafe.1 _ _ h
      obtain ⟨d, hd⟩ := hturns.graph
      rw [hd] at this
      exact this
    exact hmakes.revert hr hsafe hfit (hy.machine.trans hturns.machine) (hy.usage.trans hturns.usage)
      (hy.renamer.trans hturns.renamer) (halike.trans hy.graph)

/-- A move that left its cycle has its place again after the change is taken back, if it regains it. -/
theorem revert_unassign_iff {n : MoveId} {s : Region}
    (h : RegionM.applyChange (.unassign n) r = .ok (some record) s) :
    (∃ s', RegionM.revertChange record s = .ok () s' ∧ s'.usage = r.usage) ↔
      Usage.Regains r.machine r.usage r.graph n := by
  simp only [RegionM.applyChange, run_bind_ok, RegionM.move_ok] at h
  obtain ⟨m, _, ⟨hm, rfl⟩, h⟩ := h
  have hm := move?_of_move hm
  cases hp : m.placement with
  | none =>
    simp only [Move.cycle?, hp, Option.map_none] at h
    cases (run_pure_ok.1 h).1
  | some p =>
    simp only [Move.cycle?, hp, Option.map_some, run_bind_ok, run_pure_ok, Option.some.injEq] at h
    obtain ⟨⟨⟩, _, hun, rfl, rfl⟩ := h
    obtain ⟨u, g, hleave, rfl⟩ := RegionM.unassign_ok hun
    constructor
    · rintro ⟨s', hback, husage⟩ m' p' u' g' hm' hp' hleave'
      cases hm.symm.trans hm'
      cases hp.symm.trans hp'
      cases hleave.symm.trans hleave'
      obtain ⟨u', g', hassign, rfl⟩ := RegionM.assign_ok hback
      exact ⟨g', husage ▸ hassign⟩
    · intro hregains
      obtain ⟨g', hassign⟩ := hregains m p u g hm hp hleave
      exact ⟨_, assign_eq hassign, rfl⟩

/-- The regions that calls and changes lead to. -/
inductive Reached (r₀ : Region) : Region → Prop
  | start : Reached r₀ r₀
  | assign {r r' : Region} {n : MoveId} {c : Cycle} (h : Reached r₀ r) (run : RegionM.assign n c r = .ok () r') :
      Reached r₀ r'
  | unassign {r r' : Region} {n : MoveId} (h : Reached r₀ r) (run : RegionM.unassign n r = .ok () r') : Reached r₀ r'
  | change {r r' : Region} {change : Change} {record : ChangeRecord} (h : Reached r₀ r)
      (run : RegionM.applyChange change r = .ok (some record) r') : Reached r₀ r'

theorem Reached.inOrder {r0 : Region} (h : Reached r0 r) (hr0 : r0.InOrder) : r.InOrder := by
  induction h with
  | start => exact hr0
  | assign h run ih =>
    obtain ⟨u, g, hassign, rfl⟩ := RegionM.assign_ok run
    obtain ⟨hg, hu⟩ := (Makes.assign hassign).inOrder ih
    exact ⟨hg, hu⟩
  | unassign h run ih =>
    obtain ⟨u, g, hun, rfl⟩ := RegionM.unassign_ok run
    obtain ⟨m, a, hleaves⟩ := Usage.leaves_of_unassign ih.usage hun
    exact ⟨ih.graph.alters hleaves.replaces.toAlters (fun _ => rfl) fun _ => rfl, hleaves.orderly ih.usage⟩
  | change h run ih =>
    obtain ⟨hnone, -⟩ | ⟨record, u, rn, g, -, hmakes, hturns⟩ := RegionM.makes_of_applyChange run
    · cases hnone
    · exact hturns.inOrder (hmakes.inOrder ih).1 (hmakes.inOrder ih).2

end Region

/-! ## From a built graph on -/

namespace Program

variable {p : Program} {machine : Machine} {g : Graph}

theorem consistent_of_graph (h : p.graph machine = .ok g) : g.Consistent := by
  refine holds_of_graph (fun g hp => ?_) (fun _ _ _ _ _ _ hg hc => (Records.refl.grow hc).consistent hg) h
  refine consistent_of_no_links hp.edges fun m hm => ?_
  obtain ⟨i, hi⟩ := Array.mem_iff_getElem?.1 hm
  have hm : g.move? ⟨i⟩ = some m := hi
  rw [hp.move?] at hm
  obtain ⟨pm, -, rfl⟩ := Option.map_eq_some_iff.1 hm
  rw [← marked_bare]
  exact ⟨rfl, rfl⟩

theorem inOrder_of_graph {r : Region} (h : p.graph r.machine = .ok r.graph) (hempty : r.usage = {}) : r.InOrder := by
  obtain ⟨-, hfresh⟩ := graph_formed h
  refine ⟨⟨consistent_of_graph h, (truthful_of_graph h).not_overwritesItself⟩, ?_⟩
  rw [hempty]
  refine ⟨⟨?_, ?_, ?_, ?_, ?_⟩, fun ho => ?_, fun hm => ?_⟩
  case refine_6 => simp [hfresh.unbound ho, Usage.boundUnit]
  case refine_7 => simp [hfresh.pending hm]
  all_goals simp [Counted, Owned]

/-- From a built graph, placing and changing may lead to any region; attempts are made there, some of their
steps apply and others do not. The attempt under way is taken back without a fault, and the graph, the usage
and the renamer are those of where it began. A placed move must not be taken off its cycle unless it would
regain its place, and that is needed: otherwise the usage is another one after the change is taken back. -/
theorem undoAll_of_trial {r₀ r₁ r r' : Region} {kept a : Attempt ChangeRecord}
    (hbuilt : p.graph r₀.machine = .ok r₀.graph) (hempty : r₀.usage = {}) (hreached : r₀.Reached r₁)
    (htrial : RegionM.reversal.Trial Region.Resembles Region.Safe r₁ kept r a r') :
    (∃ s, RegionM.reversal.undoAll a r' = .ok () s ∧ r.graph.Restores s.graph ∧ s.usage = r.usage ∧
      s.renamer = r.renamer) ∧
    ∀ n record s, RegionM.applyChange (.unassign n) r' = .ok (some record) s →
      ((∃ s', RegionM.revertChange record s = .ok () s' ∧ s'.usage = r'.usage) ↔
        Usage.Regains r'.machine r'.usage r'.graph n) := by
  obtain ⟨hr', hr, hback, -⟩ :=
    htrial.leadsBack Region.reversal_dependable (hreached.inOrder (inOrder_of_graph hbuilt hempty))
  obtain ⟨s, hundo, hlike⟩ := hback r' (.refl hr')
  exact ⟨⟨s, hundo, hlike.graph.restores hr.graph.consistent, hlike.usage, hlike.renamer⟩,
    fun n record s h => Region.revert_unassign_iff h⟩

/-! ### Two constants on two buses -/

def twoBuses : Machine where
  name := "m"
  files := #[{ name := "r", size := 4, readPorts := 2, writePorts := 2 }]
  units := #[]
  buses := #[⟨"b0", 8, [.fileRead ⟨0⟩, .fileWrite ⟨0⟩]⟩, ⟨"b1", 8, [.fileRead ⟨0⟩, .fileWrite ⟨0⟩]⟩]

def twoConstants : Program where
  operations := #[]
  moves := #[{ src := .immediate 5, dst := .register ⟨⟨0⟩, 0⟩ }, { src := .immediate 6, dst := .register ⟨⟨0⟩, 1⟩ }]

/-- A computation on the constants is run to see what it gives. -/
theorem exists_run {α : Type} [DecidableEq α] (x : RegionM α) (out : α)
    (h : (twoConstants.graph twoBuses).toOption.any fun g =>
      x.run' { machine := twoBuses, graph := g } = some out) :
    ∃ g, twoConstants.graph twoBuses = .ok g ∧ ∃ r', x { machine := twoBuses, graph := g } = .ok out r' := by
  obtain ⟨g, hg, hrun⟩ := exists_ok_of_any h
  exact ⟨g, hg, exists_of_run'_eq_some (of_decide_eq_true hrun)⟩

/-- Both constants are loaded in cycle 0; then the second one is moved to cycle 1. -/
def moveSecond : RegionM Bool := do
  RegionM.assign ⟨0⟩ 0
  RegionM.assign ⟨1⟩ 0
  let (left, a) ← Attempt.tryStep RegionM.reversal [] (.single (.unassign ⟨1⟩))
  let g ← RegionM.graph
  let (placed, _) ← Attempt.tryStep RegionM.reversal a (.single (.assign ⟨1⟩ 1))
  let g' ← RegionM.graph
  return left && placed && decide g.EdgesFit && decide g'.EdgesFit && decide (g'.cycleOf ⟨1⟩ = some 1)

theorem undoAll_of_trial_moveSecond : ∃ (r₀ r₁ r' s : Region) (a : Attempt ChangeRecord),
    twoConstants.graph r₀.machine = .ok r₀.graph ∧ r₀.Reached r₁ ∧
      RegionM.reversal.Trial Region.Resembles Region.Safe r₁ [] r₁ a r' ∧ r'.graph.cycleOf ⟨1⟩ = some 1 ∧
      RegionM.reversal.undoAll a r' = .ok () s ∧ r₁.graph.Restores s.graph ∧ s.usage = r₁.usage := by
  obtain ⟨g, hg, r', hrun⟩ := exists_run moveSecond true (by decide +kernel)
  generalize hr₀ : ({ machine := twoBuses, graph := g } : Region) = r₀ at hrun
  have hbuilt : twoConstants.graph r₀.machine = .ok r₀.graph := by rw [← hr₀]; exact hg
  have hempty : r₀.usage = {} := by rw [← hr₀]
  simp only [moveSecond, run_bind_ok, run_pure_ok, RegionM.graph_ok, Bool.and_eq_true, decide_eq_true_eq] at hrun
  obtain ⟨⟨⟩, r₁, h₁, ⟨⟩, r₂, h₂, ⟨b, a⟩, r₃, hleave, _, _, ⟨rfl, rfl⟩, ⟨b', a'⟩, r₄, hplace, _, _, ⟨rfl, rfl⟩,
    ⟨⟨⟨-, hfit⟩, hfit'⟩, hcycle⟩, rfl⟩ := hrun
  have hreached : Region.Reached r₀ r₂ := .assign (.assign .start h₁) h₂
  have hr₁ : r₁.InOrder := (Region.Reached.assign .start h₁).inOrder (inOrder_of_graph hbuilt hempty)
  have hsafe : Region.Safe (.unassign ⟨1⟩) r₂ := by
    refine ⟨fun x r' h => ?_, ?_⟩
    · obtain ⟨y, hy, -⟩ := RegionM.tryStep_single_ok hleave
      cases hy.symm.trans h
      exact hfit
    · obtain ⟨u, g₂, hassign, rfl⟩ := RegionM.assign_ok h₂
      exact Usage.regains_of_assign hr₁.usage hr₁.graph.consistent hassign
  have hsafe' : Region.Safe (.assign ⟨1⟩ 1) r₃ := by
    refine ⟨fun x r' h => ?_, trivial⟩
    obtain ⟨y, hy, -⟩ := RegionM.tryStep_single_ok hplace
    cases hy.symm.trans h
    exact hfit'
  have htrial : RegionM.reversal.Trial Region.Resembles Region.Safe r₂ [] r₂ a' r₄ :=
    .tryStep (.tryStep .start (fun h => Reversal.slips_single.1 h hsafe) hleave)
      (fun h => Reversal.slips_single.1 h hsafe') hplace
  obtain ⟨⟨s, hundo, hgraph, husage, -⟩, -⟩ := undoAll_of_trial hbuilt hempty hreached htrial
  exact ⟨r₀, r₂, r₄, s, a', hbuilt, hreached, htrial, hcycle, hundo, hgraph, husage⟩

/-- Both constants are loaded in cycle 0 and the first one leaves; then the second one is taken off its cycle and
put back. -/
def leaveBoth : RegionM (Bool × Option Placement × Option Placement) := do
  RegionM.assign ⟨0⟩ 0
  RegionM.assign ⟨1⟩ 0
  RegionM.unassign ⟨0⟩
  let g ← RegionM.graph
  let (left, a) ← Attempt.tryStep RegionM.reversal [] (.single (.unassign ⟨1⟩))
  RegionM.reversal.undoAll a
  let g' ← RegionM.graph
  return (left, (g.move? ⟨1⟩).bind Move.placement, (g'.move? ⟨1⟩).bind Move.placement)

theorem undoAll_takes_other_bus : ∃ (r₀ r r' s : Region) (a : Attempt ChangeRecord),
    twoConstants.graph r₀.machine = .ok r₀.graph ∧ r₀.usage = {} ∧ r₀.Reached r ∧
      Attempt.tryStep RegionM.reversal [] (.single (.unassign ⟨1⟩)) r = .ok (true, a) r' ∧
      RegionM.reversal.undoAll a r' = .ok () s ∧
      (r.graph.move? ⟨1⟩).bind Move.placement = some ⟨0, ⟨1⟩⟩ ∧
      (s.graph.move? ⟨1⟩).bind Move.placement = some ⟨0, ⟨0⟩⟩ := by
  obtain ⟨g, hg, r', hrun⟩ := exists_run leaveBoth (true, some ⟨0, ⟨1⟩⟩, some ⟨0, ⟨0⟩⟩) (by decide +kernel)
  generalize hr₀ : ({ machine := twoBuses, graph := g } : Region) = r₀ at hrun
  simp only [leaveBoth, run_bind_ok, run_pure_ok, RegionM.graph_ok, Prod.mk.injEq] at hrun
  obtain ⟨⟨⟩, r₁, h₁, ⟨⟩, r₂, h₂, ⟨⟩, r₃, h₃, _, _, ⟨rfl, rfl⟩, ⟨b, a⟩, r₄, htry, ⟨⟩, s, hundo, _, _, ⟨rfl, rfl⟩,
    ⟨rfl, hbefore, hafter⟩, rfl⟩ := hrun
  exact ⟨r₀, r₃, r₄, s, a, by rw [← hr₀]; exact hg, by rw [← hr₀], .unassign (.assign (.assign .start h₁) h₂) h₃, htry,
    hundo, hbefore, hafter⟩

end Program

end Transport
