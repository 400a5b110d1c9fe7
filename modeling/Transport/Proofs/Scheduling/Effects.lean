import Transport.Proofs.Scheduling.Acts

/-!
# What an act does to moves and edges

Seen from the edges, and from the registers that moves name, most acts do nothing. `Effect` lists what
the others do: bypasses and their reversal, removals and their reversal, renamings, and the end of a unit.
-/

namespace Transport

open Transport.Graph

variable {j : Job} {g0 g g' g'' : Graph} {s s' : Moment} {n : MoveId}

/-- The edges are the same, and so is what moves read and write. -/
structure Graph.Still (g g' : Graph) : Prop where
  link? (e : EdgeId) : g'.link? e = g.link? e
  retains : g.Retains g' fun _ => False
  live (x : MoveId) : (g'.move? x).map Move.live = (g.move? x).map Move.live
  guard (x : MoveId) : (g'.move? x).map Move.guard = (g.move? x).map Move.guard

namespace Graph.Still

theorem refl : g.Still g :=
  ⟨fun _ => rfl, Alike.refl.retains, fun _ => rfl, fun _ => rfl⟩

theorem trans (h : g.Still g') (h' : g'.Still g'') : g.Still g'' :=
  ⟨fun e => (h'.link? e).trans (h.link? e), h.retains.trans h'.retains, fun x => (h'.live x).trans (h.live x),
    fun x => (h'.guard x).trans (h.guard x)⟩

theorem of_alike (h : g.Alike g') : g.Still g' := by
  refine ⟨fun e => ?_, h.retains, fun x => ?_, fun x => ?_⟩
  all_goals
    obtain ⟨d, rfl⟩ := h
    rfl

theorem of_places {p : Option Placement} (h : g.Places n p g') : g.Still g' :=
  ⟨h.link?, h.retains, h.map_eq fun _ _ => rfl, h.map_eq fun _ _ => rfl⟩

theorem of_assign {machine : Machine} {u u' : Usage} {c : Cycle}
    (h : u.assign machine g c n = .ok (u', g')) : g.Still g' := by
  obtain ⟨_, _, -, -, hp⟩ := places_of_assign h
  exact .of_places hp

theorem of_unassign {u u' : Usage} (h : u.unassign g n = .ok (u', g')) : g.Still g' := by
  obtain ⟨_, -, -, hp⟩ := places_of_unassign h
  exact .of_places hp

end Graph.Still

/-- What an act does to the edges and to what moves read and write. -/
inductive Effect (j : Job) (g₀ : Graph) (s s' : Moment) : Prop
  | still (graph : s.graph.Still s'.graph) (opened : s'.opened = s.opened)
      (dead : ∀ n ∈ s.bypasser.deadCandidates, n ∈ s'.bypasser.deadCandidates)
      (checked : s'.checked → s.checked ∨ ∀ n ∈ j.operands, ∀ m, s'.graph.move? n = some m →
        m.src.reg?.any s'.graph.isForced = false)
  | divert {g g₁ g' : Graph} {source dest : MoveId} {r : Reg} {ms md : Move} {u : EdgeRecord}
      {red : Redirection} (enabled : s.bypasser.isEnabled) (mem : dest ∈ j.operands)
      (before : s.graph.Still g) (upheld : Upheld s.machine g₀ g)
      (diverts : g.Diverts source dest r ms md u red g₁ g') (after : g'.Still s'.graph)
      (opened : s'.opened = .merged source dest u red :: s.opened)
      (dead : s'.bypasser = s.bypasser) (checked : s'.checked = false) (reaches : j.Reaches s.graph source dest)
  | undivert {g₁ : Graph} {source dest : MoveId} {r : Reg} {u : EdgeRecord} {red : Redirection}
      (opened : s.opened = .merged source dest u red :: s'.opened)
      (back : Unbypassable g₀ s.graph source dest r u red) (undo : s.graph.undoRedirect red = .ok g₁)
      (restore : g₁.undoEdges u = .ok s'.graph) (dead : s'.bypasser = s.bypasser)
      (checked : s'.checked = false)
  | drop {n : MoveId} {m : Move} {rm : RemovedMove} (way : j.way = .bottomUp)
      (move : s.graph.move? n = some m) (live : m.live) (result : m.isResult)
      (unneeded : s.graph.resultNeeded n = .ok false) (remove : s.graph.removeMove n = .ok (s'.graph, rm))
      (opened : s'.opened = .removed rm :: s.opened) (dead : s'.bypasser = s.bypasser)
      (checked : s'.checked = s.checked)
  | restore {rm : RemovedMove} (opened : s.opened = .removed rm :: s'.opened)
      (back : s.graph.Restorable rm) (restore : s.graph.restoreMove rm = .ok s'.graph)
      (dead : s'.bypasser = s.bypasser) (checked : s'.checked = s.checked)
  | rename {n : MoveId} {start : MoveId × Role} {range : LiveRange} {w : MoveId} {old new : Reg}
      (may : s.MayRename j n)
      (at_ : start = (n, if j.way = .topDown then .dest else .source)) (renamer : s.renamer ≠ none)
      (renamed : ∃ (rn rn' : Renamer) (c : Cycle) (u : RenameRecord), rn.renameAt s.machine s.graph n
        (decide (j.way = .topDown)) c j.way = .ok (some (u, rn', s'.graph)))
      (relocates : s.graph.Relocates j.way start range w old new s'.graph)
      (file : new.file = old.file ∨ new.file ∉ s.machine.forcedFiles) (opened : s'.opened = s.opened)
      (dead : s'.bypasser = s.bypasser) (checked : s'.checked = s.checked)
  | commit (graph : s'.graph = s.graph) (opened : s'.opened = [])
      (kept : ∀ source dest edges red, .merged source dest edges red ∈ s.opened →
        source ∈ s.bypasser.deadCandidates ∨ ∃ rm, .removed rm ∈ s.opened ∧ rm.move = source)
      (dead : s'.bypasser = s.bypasser) (checked : s'.checked = s.checked)

theorem Bypasser.mem_keep {b : Bypasser} {e : Bypass} (h : n ∈ b.deadCandidates) :
    n ∈ (b.keep e).deadCandidates := by
  simp only [keep]
  split
  · exact h
  · exact List.mem_append_left _ h

theorem Steady.effect (h : Steady j g0 s) (ha : Act j s s') : Effect j g0 s s' := by
  cases ha with
  | tell => exact .still .refl rfl (fun _ => id) .inl
  | offer _ offer => exact .still (.of_alike (Selector.alike_of_offer offer)) rfl (fun _ => id) .inl
  | place _ _ assign => exact .still (.of_assign assign) rfl (fun _ => id) .inl
  | unplace _ unassign => exact .still (.of_unassign unassign) rfl (fun _ => id) .inl
  | replace _ _ _ assign => exact .still (.of_assign assign) rfl (fun _ => id) .inl
  | tidy => exact .still .refl rfl (fun _ => id) .inl
  | advance _ _ _ _ unassign _ assign =>
    exact .still ((Still.of_unassign unassign).trans (.of_assign assign)) rfl (fun _ => id) .inl
  | settle _ _ _ _ _ _ _ _ _ _ _ unassign _ assign =>
    exact .still ((Still.of_unassign unassign).trans (.of_assign assign)) rfl (fun _ => id) .inl
  | merge enabled mem reaches bypasses =>
    obtain ⟨r, ms, md, g1, hd⟩ := h.upheld.diverted bypasses
    exact .divert enabled mem .refl h.upheld hd .refl rfl rfl rfl reaches
  | @bypass source dest old c edges red u u' g g' g'' enabled way _ mem _ unassign reaches bypasses _ _ assign =>
    have h1 := h.unassign unassign
    obtain ⟨r, ms, md, g1, hd⟩ := h1.upheld.diverted bypasses
    have hreaches : j.Reaches s.graph source dest := by
      obtain ⟨-, -, -, hp⟩ := places_of_unassign unassign
      rw [Job.Reaches, way] at reaches ⊢
      rwa [hp.cycleOf, if_neg hd.merges.ne] at reaches
    exact .divert enabled mem (.of_unassign unassign) h1.upheld hd (.of_assign assign) rfl rfl rfl hreaches
  | unmerge opened _ undo restore =>
    obtain ⟨⟨r, hback⟩, -⟩ := h.frames (opened ▸ List.mem_cons_self)
    exact .undivert opened hback undo restore rfl rfl
  | drop way move live result unneeded remove => exact .drop way move live result unneeded remove rfl rfl rfl
  | @restore rm fs g opened restore =>
    obtain ⟨hback, -⟩ := h.frames (f := .removed rm) (opened ▸ List.mem_cons_self)
    exact .restore opened hback restore rfl rfl
  | @rename n cycle undo rn rn' g may renamer rename =>
    obtain ⟨range, w, old, new, hr, hfile⟩ := relocates_of_renameAt h.upheld.linked h.upheld.tagged rename
    exact .rename may (by simp) (by simp [renamer]) ⟨rn, rn', cycle, undo, rename⟩ hr hfile
      rfl rfl rfl
  | keep => exact .still .refl rfl (fun _ => Bypasser.mem_keep) .inl
  | forget => exact .still .refl rfl (fun _ => id) .inl
  | check free => exact .still .refl rfl (fun _ => id) fun _ => .inr free
  | commit _ _ _ kept => exact .commit rfl rfl kept rfl rfl

end Transport
