import Transport.Proofs.Scheduling.Effects

/-!
# Which moves are there, and where

Surgery and renamings leave every move in its cycle, and only removals take moves out. So a move
outside the unit at hand stays where it is, and an operand stays in the graph, whatever acts follow.
-/

namespace Transport

open Transport.Graph
open Relation (ReflTransGen)

/-- Where a move is placed, and whether it is in the graph. -/
def Move.presence (m : Move) : Option Placement × Bool := (m.placement, m.live)

namespace Graph

variable {g0 g g1 g' g'' : Graph} {source dest n x w : MoveId} {r old new : Reg}
  {s d m : Move} {u : EdgeRecord} {red : Redirection} {rm : RemovedMove} {f : Move → Bool}

section

variable (h : (g'.move? x).map Move.presence = (g.move? x).map fun m => (m.placement, f m))
include h

theorem cycleOf_of_presence : g'.cycleOf x = g.cycleOf x := by
  have hx := congrArg (Option.bind · fun p => p.1.map Placement.cycle) h
  rwa [Option.bind_map, Option.bind_map] at hx

theorem move_of_presence (hm : g.move? x = some m) :
    ∃ m', g'.move? x = some m' ∧ m'.placement = m.placement ∧ m'.live = f m := by
  obtain ⟨m', hm', hp⟩ := exists_of_map_eq h.symm hm
  exact ⟨m', hm', congrArg Prod.fst hp, congrArg Prod.snd hp⟩

end

/-- Every move is where it was. -/
def SamePresence (g g' : Graph) : Prop :=
  ∀ x, (g'.move? x).map Move.presence = (g.move? x).map Move.presence

/-- The move is in the graph. -/
def Has (g : Graph) (x : MoveId) : Prop := ∃ m, g.move? x = some m ∧ m.live

theorem has_of_presence (h : (g'.move? x).map Move.presence = (g.move? x).map fun m => (m.placement, f m)) :
    g'.Has x ↔ ∃ m, g.move? x = some m ∧ f m := by
  constructor
  · rintro ⟨m', hm', hlive⟩
    obtain ⟨m, hm, hp⟩ := exists_of_map_eq h hm'
    exact ⟨m, hm, (congrArg Prod.snd hp).trans hlive⟩
  · rintro ⟨m, hm, hf⟩
    obtain ⟨m', hm', -, hlive⟩ := move_of_presence h hm
    exact ⟨m', hm', hlive.trans hf⟩

namespace SamePresence

section

variable (h : g.SamePresence g')
include h

theorem has_iff (x : MoveId) : g'.Has x ↔ g.Has x :=
  has_of_presence (h x)

theorem trans (h' : g'.SamePresence g'') : g.SamePresence g'' :=
  fun x => (h' x).trans (h x)

theorem cycleOf (x : MoveId) : g'.cycleOf x = g.cycleOf x :=
  cycleOf_of_presence (h x)

end

end SamePresence

theorem Alike.samePresence (h : g.Alike g') : g.SamePresence g' := by
  obtain ⟨d, rfl⟩ := h
  exact fun _ => rfl

theorem SameMoves.samePresence (h : g.SameMoves g') : g.SamePresence g' := fun _ => h.map_eq fun _ => rfl

theorem Alters.samePresence {f : Move → Move} {k : OpId → Operation → Operation} (h : g.Alters n f k g')
    (hf : ∀ m, (f m).presence = m.presence) : g.SamePresence g' :=
  h.keeps (q := Option.map _) fun m _ => congrArg some (hf m)

theorem Still.has_iff (h : g.Still g') (x : MoveId) : g'.Has x ↔ g.Has x := by
  have hlive (k : Graph) : k.Has x ↔ (k.move? x).map Move.live = some true := by
    simp [Has]
  rw [hlive, hlive, h.live]

theorem Relocates.samePresence {direction : Direction} {start : MoveId × Role} {range : LiveRange}
    (h : g.Relocates direction start range w old new g') : g.SamePresence g' :=
  fun _ => h.map_eq (fun _ => rfl) fun _ _ => rfl

theorem Diverts.samePresence (h : g.Diverts source dest r s d u red g1 g') : g.SamePresence g' := by
  obtain ⟨f, ha, hf⟩ := h.redirects
  refine h.merges.rewires.moves.samePresence.trans (ha.samePresence fun m => ?_)
  obtain ⟨units, hm⟩ := hf m
  rw [hm]
  rfl

theorem Unbypassable.samePresence_of_undo (h : Unbypassable g0 g source dest r u red)
    (hred : g.undoRedirect red = .ok g1) (hundo : g1.undoEdges u = .ok g') : g.SamePresence g' := by
  obtain ⟨ha, hrew⟩ := h.alters_of_undo hred hundo
  exact SamePresence.trans (ha.samePresence fun _ => rfl) hrew.moves.samePresence

theorem presence_of_removeMove (h : g.removeMove n = .ok (g', rm)) (x : MoveId) :
    (g'.move? x).map Move.presence = (g.move? x).map fun m => (m.placement, m.live && x != n) := by
  obtain ⟨g1, hrew, ha⟩ := rewires_of_removeMove h
  have hsame := hrew.moves.samePresence x
  rw [ha.move? x]
  by_cases hx : x = n
  · have hplace := congrArg (Option.map fun p : Option Placement × Bool => (p.1, false)) hsame
    simpa [hx, Option.map_map, Function.comp_def, Move.presence] using hplace
  · rw [if_neg hx, hsame]
    cases g.move? x <;> simp [hx, Move.presence]

theorem has_of_removeMove (h : g.removeMove n = .ok (g', rm)) (x : MoveId) : g'.Has x ↔ g.Has x ∧ x ≠ n := by
  rw [has_of_presence (presence_of_removeMove h x)]
  simp only [Bool.and_eq_true, bne_iff_ne, ← and_assoc, exists_and_right]
  exact Iff.rfl

theorem Restorable.presence_of_restore (h : g.Restorable rm) (hrm : g.restoreMove rm = .ok g') (x : MoveId) :
    (g'.move? x).map Move.presence = (g.move? x).map fun m => (m.placement, m.live || x == rm.move) := by
  obtain ⟨o, pos, g1, ha, hrew⟩ := h.alters_of_restore hrm
  rw [hrew.moves.samePresence x, ha.move? x]
  by_cases hx : x = rm.move
  · simp [hx, Function.comp_def, Move.presence]
  · cases g.move? x <;> simp [hx, Move.presence]

theorem Restorable.has_of_restore (h : g.Restorable rm) (hrm : g.restoreMove rm = .ok g') (hne : x ≠ rm.move) :
    g'.Has x ↔ g.Has x := by
  rw [has_of_presence (h.presence_of_restore hrm x)]
  simp [hne, Graph.Has]

end Graph

theorem Upheld.isOperand {machine : Machine} {g0 g : Graph} {x : MoveId} {m m0 : Move}
    (h : Upheld machine g0 g) (hm : g.move? x = some m) (hm0 : g0.move? x = some m0) :
    m.isOperand = m0.isOperand := by
  have hfixed := of_some (h.framed.move? hm0) hm
  exact congrArg (Option.isSome ∘ Move.Fixed.dstOp) hfixed

theorem Graph.Framed.isForced {g g' : Graph} (h : g.Framed g') : g'.isForced = g.isForced := by
  funext r
  simp [Graph.isForced, h.forcedFiles]

/-- Operands stay in the graph, and top-down every move does. -/
theorem Effect.has {j : Job} {g0 : Graph} {s s' : Moment} {x : MoveId} {m0 : Move} (he : Effect j g0 s s')
    (h : Steady j g0 s) (hm0 : g0.move? x = some m0) (hstay : m0.isOperand ∨ j.way = .topDown)
    (hx : s.graph.Has x) : s'.graph.Has x := by
  cases he with
  | still graph => rwa [graph.has_iff]
  | divert _ _ before _ diverts after => rwa [after.has_iff, diverts.samePresence.has_iff, before.has_iff]
  | undivert _ back undo restore => rwa [(back.samePresence_of_undo undo restore).has_iff]
  | drop way move _ _ unneeded remove =>
    refine (has_of_removeMove remove x).2 ⟨hx, ?_⟩
    rintro rfl
    have hop := (h.upheld.of_not_resultNeeded move unneeded).1
    rw [← h.upheld.isOperand move hm0, hop, way] at hstay
    simp at hstay
  | restore _ back restore =>
    obtain ⟨m, hm, hlive⟩ := hx
    exact (has_of_presence (back.presence_of_restore restore x)).2 ⟨m, hm, by simp [hlive]⟩
  | rename _ _ _ _ relocates => rwa [relocates.samePresence.has_iff]
  | commit graph => rwa [graph]

namespace Steady

variable {j : Job} {g0 : Graph} {s s' : Moment} {x : MoveId} {m : Move}

section

variable (h : Steady j g0 s) (hsub : ∀ n ∈ j.operands, n ∈ j.moves)
include h hsub

theorem cycleOf_act (ha : Act j s s') (hx : x ∉ j.moves) : s'.graph.cycleOf x = s.graph.cycleOf x := by
  have hoff {n : MoveId} {u u' : Usage} {g g' : Graph} (mem : n ∈ j.moves) (h : u.unassign g n = .ok (u', g')) :
      g'.cycleOf x = g.cycleOf x := by
    obtain ⟨-, -, -, hp⟩ := places_of_unassign h
    rw [hp.cycleOf, if_neg]
    rintro rfl
    exact hx mem
  have hon {n : MoveId} {c : Cycle} {u u' : Usage} {g g' : Graph} (mem : n ∈ j.moves)
      (h : u.assign s.machine g c n = .ok (u', g')) : g'.cycleOf x = g.cycleOf x := by
    obtain ⟨-, b, -, -, hp⟩ := places_of_assign h
    rw [hp.cycleOf, if_neg]
    rintro rfl
    exact hx mem
  cases ha with
  | offer _ offer => exact (Selector.alike_of_offer offer).samePresence.cycleOf x
  | place mem _ assign => exact hon mem assign
  | unplace mem unassign => exact hoff mem unassign
  | replace mem _ _ assign => exact hon (hsub _ mem) assign
  | advance _ _ mem _ unassign _ assign => exact (hon (hsub _ mem) assign).trans (hoff (hsub _ mem) unassign)
  | settle _ _ mem _ _ _ _ _ _ _ _ unassign _ assign =>
    exact (hon (hsub _ mem) assign).trans (hoff (hsub _ mem) unassign)
  | merge _ mem _ bypasses =>
    obtain ⟨r, ms, md, g1, hd⟩ := h.upheld.diverted bypasses
    exact hd.samePresence.cycleOf x
  | @bypass source dest old c edges red u u' g g' g'' _ _ _ mem _ unassign _ bypasses _ _ assign =>
    have h1 := h.unassign unassign
    obtain ⟨r, ms, md, g1, hd⟩ := h1.upheld.diverted bypasses
    exact (hon (hsub _ mem) assign).trans ((hd.samePresence.cycleOf x).trans (hoff (hsub _ mem) unassign))
  | unmerge opened _ undo restore =>
    obtain ⟨⟨r, hback⟩, -⟩ := h.frames (opened ▸ List.mem_cons_self)
    exact (hback.samePresence_of_undo undo restore).cycleOf x
  | drop _ _ _ _ _ remove => exact cycleOf_of_presence (presence_of_removeMove remove x)
  | @restore rm fs g opened restore =>
    obtain ⟨hback, -⟩ := h.frames (f := .removed rm) (opened ▸ List.mem_cons_self)
    exact cycleOf_of_presence (hback.presence_of_restore restore x)
  | rename _ _ rename =>
    obtain ⟨range, w, old, new, hr, -⟩ := relocates_of_renameAt h.upheld.linked h.upheld.tagged rename
    exact hr.samePresence.cycleOf x
  | _ => rfl

theorem cycleOf (ha : Acts j s s') (hx : x ∉ j.moves) : s'.graph.cycleOf x = s.graph.cycleOf x := by
  induction ha with
  | refl => rfl
  | tail hacts hact ih => exact ((h.acts hacts).cycleOf_act hsub hact hx).trans ih

/-- A move that is taken out is in no cycle, unless it belongs to the unit. -/
theorem gone (ha : Acts j s s')
    (hs : ∀ n ∈ s.opened.filterMap Frame.gone?, n ∈ j.moves ∨ s.graph.cycleOf n = none) :
    ∀ n ∈ s'.opened.filterMap Frame.gone?, n ∈ j.moves ∨ s'.graph.cycleOf n = none := by
  induction ha with
  | refl => exact hs
  | @tail s1 s2 hacts hact ih =>
    have hs1 := h.acts hacts
    have hnew : ∀ n ∈ s2.opened.filterMap Frame.gone?,
        n ∈ s1.opened.filterMap Frame.gone? ∨ s1.graph.cycleOf n = none := by
      intro n hn
      cases hact with
      | unmerge opened => exact .inl (by rw [opened]; exact hn)
      | @drop x m rm g way move live result unneeded remove =>
        rcases List.mem_cons.1 hn with rfl | hn
        · rw [move_of_removeMove remove]
          exact .inr (by simp [Graph.cycleOf, move, Move.cycle?, placement_of_removeMove move remove])
        · exact .inl hn
      | restore opened => exact .inl (by rw [opened]; exact List.mem_cons_of_mem _ hn)
      | commit => cases hn
      | _ => exact .inl hn
    intro n hn
    by_cases hmem : n ∈ j.moves
    · exact .inl hmem
    refine .inr ((hs1.cycleOf_act hsub hact hmem).trans ?_)
    exact (hnew n hn).elim (fun hn => (ih n hn).resolve_left hmem) id

end

theorem has {m0 : Move} (h : Steady j g0 s) (ha : Acts j s s')
    (hm0 : g0.move? x = some m0) (hstay : m0.isOperand ∨ j.way = .topDown) (hx : s.graph.Has x) :
    s'.graph.Has x := by
  induction ha with
  | refl => exact hx
  | tail hacts hact ih => exact ((h.acts hacts).effect hact).has (h.acts hacts) hm0 hstay ih

end Steady

end Transport
