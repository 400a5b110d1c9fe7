import Transport.Proofs.Dependence.LiveRange
import Transport.Proofs.Dependence.Retag
import Transport.Renaming.Rename

/-!
# What a renaming does to a graph

A renaming adds the edges that keep the range apart from the other lifetimes of its new register,
writes the register into the moves of the range and repairs the edges around them. `Renames` puts
the three steps together. The range is closed (`Ranging`), so that all its moves and no others are
connected by the values that travel in it.
-/

namespace Transport

variable {roles : List (MoveId × Role)} {m : Move} {x : MoveId} {r : Reg} {role : Role}

/-- The move with a register in the roles that a list gives it. -/
def Move.setRegs (m : Move) (r : Reg) (roles : List (MoveId × Role)) (x : MoveId) : Move :=
  { m with
    dst := if (x, .dest) ∈ roles then .register r else m.dst
    src := if (x, .source) ∈ roles then .register r else m.src
    guard := if (x, .guard) ∈ roles then m.guard.map fun g => { g with reg := r } else m.guard }

theorem Move.setRegs_nil : m.setRegs r [] x = m := by
  simp [Move.setRegs]

theorem Move.setRegs_cons_self : (m.setReg r role).setRegs r roles x = m.setRegs r ((x, role) :: roles) x := by
  cases role with
  | dest => simp [Move.setRegs, Move.setReg]
  | source => simp [Move.setRegs, Move.setReg]
  | guard =>
    cases hg : m.guard with
    | none => simp [Move.setRegs, Move.setReg, hg]
    | some guard => simp [Move.setRegs, Move.setReg, hg]

theorem Move.setRegs_cons_other {n : MoveId} (h : x ≠ n) :
    m.setRegs r roles x = m.setRegs r ((n, role) :: roles) x := by
  simp [Move.setRegs, h]

namespace Graph

/-- Moves are given a register in some of their roles; nothing else changes. -/
structure Reregisters (g : Graph) (r : Reg) (roles : List (MoveId × Role)) (g' : Graph) : Prop where
  move? (x : MoveId) : g'.move? x = (g.move? x).map (·.setRegs r roles x)
  link? (e : EdgeId) : g'.link? e = g.link? e
  op? (o : OpId) : g'.op? o = g.op? o
  size : g'.moves.size = g.moves.size
  guardLatencies : g'.guardLatencies = g.guardLatencies
  forcedFiles : g'.forcedFiles = g.forcedFiles
  liveOut : g'.liveOut = g.liveOut

variable {g g' : Graph} {n w : MoveId} {range : LiveRange}

theorem reregisters_of_setRegs (h : g.setRegs r roles = .ok g') : g.Reregisters r roles g' := by
  induction roles generalizing g with
  | nil =>
    cases pure_eq_ok.1 h
    exact ⟨fun x => by cases g'.move? x <;> simp [Move.setRegs_nil], fun _ => rfl, fun _ => rfl, rfl,
      rfl, rfl, rfl⟩
  | cons nr roles ih =>
    obtain ⟨n, role⟩ := nr
    simp only [setRegs, List.foldlM_cons, bind_eq_ok, pure_eq_ok] at h
    obtain ⟨_, ⟨m, -, rfl⟩, h⟩ := h
    have hrest := ih h
    refine ⟨fun x => ?_, hrest.link?, hrest.op?, ?_, hrest.guardLatencies, hrest.forcedFiles,
      hrest.liveOut⟩
    · rw [hrest.move?, move?_modifyMove]
      split
      · rename_i hx
        subst hx
        rw [Option.map_map]
        congr 1
        funext m
        exact Move.setRegs_cons_self
      · rename_i hx
        congr 1
        funext m
        exact Move.setRegs_cons_other hx
    · rw [hrest.size]
      simp [modifyMove]

theorem Reregisters.sameEdges (h : g.Reregisters r roles g') : g.SameEdges g' := by
  refine ⟨fun n => ?_, h.link?⟩
  rw [h.move?, Option.map_map]
  rfl

theorem Reregisters.linked (h : g.Reregisters r roles g') (hg : g.Linked) : g'.Linked := h.sameEdges.linked hg

theorem mem_roles : (x, role) ∈ range.roles ↔ x ∈ range.inRole role := by
  cases role <;> simp [LiveRange.roles, LiveRange.inRole]

/-- The edges that a renaming of a range with the write `w` to `r` may touch. -/
def RangeOrder (g : Graph) (range : LiveRange) (w : MoveId) (r : Reg) : Touching := fun gone t h d =>
  g.WriteOrder w r gone t h d ∨ d.reason = .register ∧ d.hazard = .war ∧
    t ∈ range.inRole (if d.guardUse then .guard else .source)

/-- An edge of a list. -/
def Planned (edges : List (MoveId × MoveId × Dependence)) (t h : MoveId) (d : Dependence) : Prop :=
  (t, h, d) ∈ edges

/-- The values that `w` passes on are tagged with `r`. -/
def PassesOn (g : Graph) (w : MoveId) (r : Reg) : Prop :=
  ∀ e l, g.link? e = some l → l.live → l.tail = w → l.dep.isRaw → l.dep.isPseudo = false →
    l.dep.reg? = some r

/-- The range with the write `w` is moved to register `r`, apart by `edges`. -/
def Renames (g : Graph) (range : LiveRange) (w : MoveId) (r : Reg)
    (edges : List (MoveId × MoveId × Dependence)) (g' : Graph) : Prop :=
  ∃ g₁ g₂, g.Rewires g₁ (Planned edges) NoneBack NoneBack ∧ g₁.Reregisters r range.roles g₂ ∧
    g₂.Retags g' r (g₂.Bridges w) (g₂.RangeOrder range w r) ∧ g'.PassesOn w r

theorem Reregisters.regAt {g2 : Graph}
    (h : g.Reregisters r range.roles g2) (hn : n ∈ range.inRole role) (hm : g2.move? n = some m)
    {r' : Reg} (hr : m.regAt? role = some r') : r' = r := by
  rw [h.move?] at hm
  obtain ⟨m1, -, rfl⟩ := Option.map_eq_some_iff.1 hm
  have hmem := mem_roles.2 hn
  cases role with
  | dest => simpa [Move.regAt?, Move.setRegs, hmem, Terminal.reg?, eq_comm] using hr
  | source => simpa [Move.regAt?, Move.setRegs, hmem, Terminal.reg?, eq_comm] using hr
  | guard =>
    simp only [Move.regAt?, Move.setRegs, hmem, if_true, Option.map_map, Option.map_eq_some_iff,
      Function.comp_apply] at hr
    obtain ⟨_, -, rfl⟩ := hr
    rfl

theorem regAt?_bare {m' : Move} (h : m'.bare = m.bare) (role : Role) : m'.regAt? role = m.regAt? role := by
  rw [Move.eq_of_bare h]
  cases role <;> rfl

variable {edges : List (MoveId × MoveId × Dependence)} {us : List EdgeRecord}

/-- A renaming adds edges, writes the register, and repairs the edges at the write and then at the reads. -/
theorem applyRename_eq_ok (hg : g.Linked) (hw : range.writes.toList = [w])
    (h : g.applyRename range r edges = .ok (g', us)) : ∃ g1 added g2 s,
      edges.foldlM (fun x y => x.1.growEdge x.2 y.1 y.2.1 y.2.2) (g, ({} : EdgeRecord)) = .ok (g1, added) ∧
      g.Rewires g1 (Planned edges) NoneBack NoneBack ∧ g1.setRegs r range.roles = .ok g2 ∧ g2.Linked ∧
      w ∈ range.inRole .dest ∧ g2.retagDest w = .ok s ∧
      (range.reads.toList.map (·, Role.source) ++ range.guards.toList.map (·, Role.guard)).foldlM (fun x p => do
        let (g, u) ← x.1.renamedAt p.1 p.2
        return (g, x.2 ++ [u])) (s.1, [added, s.2]) = .ok (g', us) := by
  simp only [applyRename, bind_eq_ok] at h
  obtain ⟨⟨g1, added⟩, hgrow, g2, hset, h⟩ := h
  obtain ⟨hrew, -⟩ : g.Rewires g1 (Planned edges) NoneBack NoneBack ∧ _ :=
    rewires_of_grows (fun x : MoveId × MoveId × Dependence => x.1) (fun x => x.2.1)
      (fun x => x.2.2) (s := (g, {})) (fun _ _ => rfl) (fun x hx => hx) hgrow
  have hroles : range.roles = (w, .dest) :: (range.reads.toList.map (·, Role.source) ++
      range.guards.toList.map (·, Role.guard)) := by
    simp [LiveRange.roles, hw]
  have hwrite : w ∈ range.writes.toList := by rw [hw]; exact .head _
  rw [hroles] at h
  obtain ⟨_, h1, h⟩ := foldlM_cons_eq_ok.1 h
  simp only [bind_eq_ok, pure_eq_ok, renamedAt] at h1
  obtain ⟨s, hs, rfl⟩ := h1
  exact ⟨g1, added, g2, s, hgrow, hrew, hset, (reregisters_of_setRegs hset).linked (hrew.linked hg),
    Std.ExtTreeSet.mem_toList.1 hwrite, hs, h⟩

theorem bare_setRegs {n : MoveId} {y : Option Move} : (y.map (·.setRegs r roles n)).map Move.bare =
    (y.map Move.bare).map (·.setRegs r roles n) := by
  cases y <;> rfl

/-- The moves of the range have the new register; all else about moves is as before. -/
theorem Renames.bare (h : g.Renames range w r edges g') (n : MoveId) :
    (g'.move? n).map Move.bare = (g.move? n).map fun m => (m.setRegs r range.roles n).bare := by
  obtain ⟨g1, g2, hrew, hreg, hret, -⟩ := h
  rw [hret.moves.moves, hreg.move?, bare_setRegs, hrew.moves.moves, ← bare_setRegs, Option.map_map]
  rfl

end Graph

end Transport
