import Mathlib.Logic.Relation
import Transport.Proofs.Bypass.Graph
import Transport.Proofs.Selection.Offers
import Transport.Scheduling.Placing

/-!
# What the scheduler does to a region

Placing one unit of a group is a series of small acts: a move is placed or taken off its cycle, an
operand is bypassed, a bypass is taken back, and so on. `Act` lists them, each with what the
scheduler has made sure of before. Whatever every act keeps, a whole run keeps.

A `Moment` is a region together with what the run knows about the unit at hand: the bypasses that it
may still take back, newest first, the moves that are in their cycles only until they are taken off
again, and whether the operands have been found free of forced-bypass registers.
-/

namespace Transport

open Relation (ReflTransGen)

/-- A change that can still be taken back. -/
inductive Frame
  | merged (source dest : MoveId) (edges : EdgeRecord) (redirection : Redirection)
  | removed (move : RemovedMove)

structure Moment extends Region where
  opened : List Frame := []
  loose : List MoveId := []
  checked : Bool := false

/-- The unit that is being placed. -/
structure Job where
  way : Direction
  moves : List MoveId
  operands : List MoveId

/-- The part a move plays in its unit: operands come first, then the trigger, then the results. -/
def Move.stage (m : Move) : Nat := if m.isOperand then if m.isTrigger then 1 else 0 else 2

/-- Of the unit, only moves that come before `n` are placed. -/
def Job.InOrder (j : Job) (g : Graph) (n : MoveId) : Prop := ∀ x mx m, x ∈ j.moves →
  g.move? x = some mx → mx.isPlaced → g.move? n = some m →
  mx.stage ≤ m.stage ∧ (mx.stage = m.stage → m.stage = 2 → x.val < n.val)

/-- The cycle `c` is one that the placed neighbours of `n` allow. -/
structure Job.Admits (j : Job) (g : Graph) (n : MoveId) (c : Cycle) : Prop where
  nonneg : 0 ≤ c
  small : c < 2147483648
  earliest : ∃ e, g.earliest n = .ok e ∧ e ≤ c
  latest : j.way = .bottomUp → ∃ x, g.latest n = .ok x ∧ ∀ l, x = some l → c ≤ l
  order : j.way = .topDown → j.InOrder g n

/-- When `source` may be bypassed into an operand of the unit: top-down it is placed already, and
outside the unit; bottom-up it is not placed yet, and read in the same iteration. -/
def Job.Reaches (j : Job) (g : Graph) (source dest : MoveId) : Prop :=
  match j.way with
  | .topDown => source ∉ j.moves ∧ ∃ c, g.cycleOf source = some c
  | .bottomUp => g.cycleOf source = none ∧ g.mergesAcrossLoop source dest = .ok false

/-- When the live range of a move may be renamed. Bottom-up, that is only when nothing is bypassed. -/
structure Moment.MayRename (j : Job) (s : Moment) (n : MoveId) : Prop where
  mem : n ∈ j.moves
  single : n ∉ j.operands
  off : s.graph.cycleOf n = none
  closed : j.way = .bottomUp → s.opened = []
  loose : s.loose = []
  order : j.way = .topDown → j.InOrder s.graph n

/-- One act of placing the unit. -/
inductive Act (j : Job) : Moment → Moment → Prop
  | tell {s : Moment} (notes : List Note) (stats : Stats) : Act j s { s with notes, stats }
  | offer {s : Moment} {x x' : Selector} {n : MoveId} {b : Bool} {g : Graph} {notes : List Note}
      (selector : s.selector = some x) (offer : x.offer s.graph n s.notes = .ok (b, x', g) notes) :
      Act j s { s with graph := g, selector := some x', notes }
  | place {s : Moment} {n : MoveId} {c : Cycle} {u : Usage} {g : Graph} (mem : n ∈ j.moves)
      (admits : j.Admits s.graph n c) (assign : s.usage.assign s.machine s.graph c n = .ok (u, g)) :
      Act j s { s with usage := u, graph := g }
  | unplace {s : Moment} {n : MoveId} {u : Usage} {g : Graph} (mem : n ∈ j.moves)
      (unassign : s.usage.unassign s.graph n = .ok (u, g)) : Act j s { s with usage := u, graph := g }
  /-- An operand goes back to the cycle it had, to be taken off again. -/
  | replace {s : Moment} {n : MoveId} {c : Cycle} {u : Usage} {g : Graph} (mem : n ∈ j.operands)
      (nonneg : 0 ≤ c) (small : c < 2147483648)
      (assign : s.usage.assign s.machine s.graph c n = .ok (u, g)) :
      Act j s { s with usage := u, graph := g, loose := n :: s.loose }
  /-- Moves that are off their cycles are no matter. -/
  | tidy {s : Moment} : Act j s { s with loose := s.loose.filter fun n => (s.graph.cycleOf n).isSome }
  /-- An operand moves to an earlier cycle, or stays where it is. -/
  | advance {s : Moment} {n : MoveId} {old c : Cycle} {u u' : Usage} {g g' : Graph}
      (way : j.way = .topDown) (loose : s.loose = [])
      (mem : n ∈ j.operands) (was : s.graph.cycleOf n = some old)
      (unassign : s.usage.unassign s.graph n = .ok (u, g))
      (cycle : c = old ∨ c ≤ old ∧ ∃ e, g.earliest n = .ok e ∧ e ≤ c)
      (assign : u.assign s.machine g c n = .ok (u', g')) : Act j s { s with usage := u', graph := g' }
  /-- A trigger that is before another operand moves. -/
  | settle {s : Moment} {n x : MoveId} {old last c : Cycle} {m mx : Move} {u u' : Usage} {g g' : Graph}
      (way : j.way = .topDown) (loose : s.loose = []) (mem : n ∈ j.operands)
      (trigger : s.graph.move? n = some m) (isTrigger : m.isTrigger)
      (was : m.cycle? = some old)
      (other : x ∈ j.operands) (operand : s.graph.move? x = some mx) (same : mx.dstOp = m.dstOp)
      (late : mx.cycle? = some last) (before : old < last)
      (unassign : s.usage.unassign s.graph n = .ok (u, g))
      (cycle : c = old ∨ 0 ≤ c ∧ c < 2147483648)
      (assign : u.assign s.machine g c n = .ok (u', g')) : Act j s { s with usage := u', graph := g' }
  /-- An operand without a place is bypassed. -/
  | merge {s : Moment} {source dest : MoveId} {edges : EdgeRecord} {red : Redirection} {g : Graph}
      (enabled : s.bypasser.isEnabled) (mem : dest ∈ j.operands) (reaches : j.Reaches s.graph source dest)
      (bypasses : s.graph.Bypasses source dest edges red g) :
      Act j s { s with
        graph := g, opened := .merged source dest edges red :: s.opened, checked := false }
  /-- A placed operand is bypassed and moves to an earlier cycle. -/
  | bypass {s : Moment} {source dest : MoveId} {old c : Cycle} {edges : EdgeRecord} {red : Redirection}
      {u u' : Usage} {g g' g'' : Graph} (enabled : s.bypasser.isEnabled) (way : j.way = .topDown)
      (loose : s.loose = []) (mem : dest ∈ j.operands) (was : s.graph.cycleOf dest = some old)
      (unassign : s.usage.unassign s.graph dest = .ok (u, g)) (reaches : j.Reaches g source dest)
      (bypasses : g.Bypasses source dest edges red g') (le : c ≤ old)
      (earliest : ∃ e, g'.earliest dest = .ok e ∧ e ≤ c)
      (assign : u.assign s.machine g' c dest = .ok (u', g'')) :
      Act j s { s with usage := u', graph := g'', opened := .merged source dest edges red :: s.opened,
                       checked := false }
  | unmerge {s : Moment} {source dest : MoveId} {edges : EdgeRecord} {red : Redirection}
      {fs : List Frame} {g g' : Graph} (opened : s.opened = .merged source dest edges red :: fs)
      (off : s.graph.cycleOf dest = none) (undo : s.graph.undoRedirect red = .ok g)
      (restore : g.undoEdges edges = .ok g') :
      Act j s { s with graph := g', opened := fs, checked := false }
  /-- Bottom-up, a producer without readers goes. -/
  | drop {s : Moment} {n : MoveId} {m : Move} {rm : RemovedMove} {g : Graph} (way : j.way = .bottomUp)
      (move : s.graph.move? n = some m) (live : m.live) (result : m.isResult)
      (unneeded : s.graph.resultNeeded n = .ok false) (remove : s.graph.removeMove n = .ok (g, rm)) :
      Act j s { s with graph := g, opened := .removed rm :: s.opened }
  /-- The producer comes back. Should it be in a cycle, it is taken off again. -/
  | restore {s : Moment} {rm : RemovedMove} {fs : List Frame} {g : Graph}
      (opened : s.opened = .removed rm :: fs) (restore : s.graph.restoreMove rm = .ok g) :
      Act j s { s with graph := g, opened := fs, loose := rm.move :: s.loose }
  | rename {s : Moment} {n : MoveId} {cycle : Cycle} {undo : RenameRecord} {rn rn' : Renamer} {g : Graph}
      (may : s.MayRename j n) (renamer : s.renamer = some rn)
      (rename : rn.renameAt s.machine s.graph n (decide (j.way = .topDown)) cycle j.way =
        .ok (some (undo, rn', g))) : Act j s { s with renamer := some rn', graph := g }
  | keep {s : Moment} {b : Bypass} (mem : b.dest ∈ j.operands) :
      Act j s { s with bypasser := s.bypasser.keep b }
  | forget {s : Moment} : Act j s { s with bypasser := { s.bypasser with
      log := s.bypasser.log.filter fun b => !j.operands.contains b.dest } }
  | check {s : Moment} (free : ∀ n ∈ j.operands, ∀ m, s.graph.move? n = some m →
      m.src.reg?.any s.graph.isForced = false) : Act j s { s with checked := true }
  /-- The unit is placed: its bypasses stay. -/
  | commit {s : Moment} (loose : s.loose = []) (checked : j.operands = [] ∨ s.checked)
      (placed : ∀ n ∈ j.moves, ∃ c, s.graph.cycleOf n = some c)
      (kept : ∀ source dest edges red, .merged source dest edges red ∈ s.opened →
        source ∈ s.bypasser.deadCandidates ∨ ∃ rm, .removed rm ∈ s.opened ∧ rm.move = source) :
      Act j s { s with opened := [] }

/-- Any number of acts. -/
abbrev Acts (j : Job) : Moment → Moment → Prop := ReflTransGen (Act j)

/-! ## What every act keeps -/

/-- The move that a frame redirects. -/
def Frame.dest? : Frame → Option MoveId
  | .merged _ dest _ _ => some dest
  | .removed _ => none

/-- The move that a frame has taken out. -/
def Frame.gone? : Frame → Option MoveId
  | .merged .. => none
  | .removed rm => some rm.move

/-- What it takes to take a change back. -/
def Frame.Revertible (j : Job) (g₀ g : Graph) : Frame → Prop
  | .merged source dest edges red =>
    (∃ r, Graph.Unbypassable g₀ g source dest r edges red) ∧ (j.way = .topDown → source ∉ j.moves)
  | .removed rm => g.Restorable rm ∧ j.way = .bottomUp

/-- The graph is in order, and what is still open can be taken back. -/
structure Steady (j : Job) (g₀ : Graph) (s : Moment) : Prop where
  upheld : Upheld s.machine g₀ s.graph
  frames {f : Frame} : f ∈ s.opened → f.Revertible j g₀ s.graph
  apart : s.opened.Pairwise fun f f' => ∀ dest, f.dest? = some dest → f'.dest? ≠ some dest

open Transport.Graph

variable {j : Job} {g0 g g' : Graph} {s s' : Moment} {f : Frame} {X : MoveId → Prop}

theorem Frame.Revertible.retains (h : f.Revertible j g0 g) (hr : g.Retains g' X)
    (hdest : ∀ dest, f.dest? = some dest → ¬ X dest) (hrm : ∀ n m, X n → g.move? n = some m → m.isOperand) :
    f.Revertible j g0 g' := by
  cases f with
  | merged source dest edges red =>
    obtain ⟨⟨r, hu⟩, hway⟩ := h
    exact ⟨⟨r, hu.retains hr (hdest dest rfl)⟩, hway⟩
  | removed rm =>
    obtain ⟨hres, hway⟩ := h
    refine ⟨hres.retains hr fun hx => ?_, hway⟩
    obtain ⟨o, pos, m, -, hm, -, hop⟩ := hres.move
    rw [hrm _ m hx hm] at hop
    cases hop

theorem Graph.Alike.retains (h : g.Alike g') : g.Retains g' X := by
  obtain ⟨d, rfl⟩ := h
  exact ⟨fun _ => rfl, fun {e l} hl => ⟨l.live, hl⟩, fun {x m} hm => ⟨m, hm, rfl, fun _ => ⟨rfl, rfl⟩⟩⟩

theorem Upheld.alike {machine : Machine} (h : Upheld machine g0 g) (ha : g.Alike g') :
    Upheld machine g0 g' := by
  obtain ⟨d, rfl⟩ := ha
  exact ⟨h.matched.congr ⟨fun _ => rfl, fun _ => rfl⟩,
    ⟨h.linked.mem_ins, h.linked.mem_outs, h.linked.tail_known, h.linked.head_known⟩,
    ⟨h.tagged.ok, h.tagged.raw⟩, ⟨h.framed.moves, h.framed.size, h.framed.latencies,
      h.framed.guardLatencies, h.framed.forcedFiles⟩, h.loopless, h.bounded, h.valid, h.ownEdge, h.result⟩

namespace Steady

variable {n : MoveId} {u u' : Usage}

section

variable (h : Steady j g0 s)
include h

/-- The graph changes in a way that leaves alone what is open. -/
theorem retains (hu : Upheld s.machine g0 s'.graph) (hr : s.graph.Retains s'.graph fun _ => False)
    (hmachine : s'.machine = s.machine) (hopened : s'.opened = s.opened) : Steady j g0 s' := by
  refine ⟨hmachine ▸ hu, fun hf => ?_, hopened ▸ h.apart⟩
  exact (h.frames (hopened ▸ hf)).retains hr (fun _ _ => id) fun _ _ hx => hx.elim

theorem places {p : Option Placement} (hp : s.graph.Places n p s'.graph)
    (hbound : ∀ q, p = some q → 0 ≤ q.cycle ∧ q.cycle < 2147483648)
    (hmachine : s'.machine = s.machine) (hopened : s'.opened = s.opened) : Steady j g0 s' :=
  h.retains (h.upheld.places hp hbound) hp.retains hmachine hopened

theorem assign {c : Cycle} (h0 : 0 ≤ c)
    (hmax : c < 2147483648) (ha : u.assign s.machine s.graph c n = .ok (u', s'.graph))
    (hmachine : s'.machine = s.machine) (hopened : s'.opened = s.opened) : Steady j g0 s' := by
  obtain ⟨m, b, -, -, hp⟩ := places_of_assign ha
  refine h.places hp ?_ hmachine hopened
  rintro _ ⟨⟩
  exact ⟨h0, hmax⟩

theorem unassign (ha : u.unassign s.graph n = .ok (u', g)) : Steady j g0 { s with usage := u', graph := g } := by
  obtain ⟨m, -, -, hp⟩ := places_of_unassign ha
  exact h.places hp (by simp) rfl rfl

/-- A bypass is one more change that can be taken back. -/
theorem bypasses {source dest : MoveId} {edges : EdgeRecord} {red : Redirection}
    (hreach : j.Reaches s.graph source dest) (hb : s.graph.Bypasses source dest edges red s'.graph)
    (hmachine : s'.machine = s.machine)
    (hopened : s'.opened = .merged source dest edges red :: s.opened) : Steady j g0 s' := by
  obtain ⟨r, ms, md, g1, hd⟩ := h.upheld.diverted hb
  obtain ⟨hu, hback⟩ := h.upheld.diverts hd
  -- The bypassed operands read no register, `dest` does.
  have hother {f : Frame} (hf : f ∈ s.opened) (x : MoveId) (hx : f.dest? = some x) : x ≠ dest := by
    rintro rfl
    cases f with
    | removed rm => cases hx
    | merged source' dest' edges' red' =>
      cases hx
      obtain ⟨⟨r', hu'⟩, -⟩ := h.frames hf
      obtain ⟨d, hd', -, hfree, -⟩ := hu'.consumer
      rw [hd.consumer] at hd'
      cases hd'
      simp [hd.reads, Terminal.reg?] at hfree
  refine ⟨hmachine ▸ hu, fun hf => ?_, ?_⟩
  · rw [hopened] at hf
    rcases List.mem_cons.1 hf with rfl | hf
    · refine ⟨⟨r, hback⟩, fun hway => ?_⟩
      rw [Job.Reaches, hway] at hreach
      exact hreach.1
    · refine (h.frames hf).retains hd.retains (hother hf) ?_
      rintro n m rfl hm
      rw [hd.consumer] at hm
      cases hm
      exact hd.operand
  · rw [hopened]
    refine List.pairwise_cons.2 ⟨fun f hf x hx => ?_, h.apart⟩
    cases hx
    exact fun hx => hother hf _ hx rfl

/-- What is left open after the newest change was taken back. -/
theorem pop {fs : List Frame} (hopen : s.opened = f :: fs)
    (hu : Upheld s.machine g0 s'.graph) (hr : s.graph.Retains s'.graph X) (hX : ∀ n, X n → f.dest? = some n)
    (hop : ∀ n m, X n → s.graph.move? n = some m → m.isOperand) (hmachine : s'.machine = s.machine)
    (hopened : s'.opened = fs) : Steady j g0 s' := by
  have hmem {f' : Frame} (hf : f' ∈ fs) : f' ∈ s.opened := hopen ▸ List.mem_cons_of_mem _ hf
  obtain ⟨hne, hapart⟩ := List.pairwise_cons.1 (hopen ▸ h.apart)
  refine ⟨hmachine ▸ hu, fun hf => ?_, hopened ▸ hapart⟩
  rw [hopened] at hf
  exact (h.frames (hmem hf)).retains hr (fun x hx hXx => hne _ hf x (hX x hXx) hx) hop

/-- Every act leaves the graph in order. -/
theorem act (ha : Act j s s') : Steady j g0 s' := by
  cases ha with
  | tell => exact ⟨h.upheld, h.frames, h.apart⟩
  | offer _ offer =>
    have halike := Selector.alike_of_offer offer
    exact h.retains (h.upheld.alike halike) halike.retains rfl rfl
  | place _ admits assign => exact h.assign admits.nonneg admits.small assign rfl rfl
  | unplace _ unassign => exact h.unassign unassign
  | replace _ nonneg small assign => exact h.assign nonneg small assign rfl rfl
  | tidy => exact ⟨h.upheld, h.frames, h.apart⟩
  | @advance n old c u u' g g' _ _ _ was unassign cycle assign =>
    have h1 := h.unassign unassign
    have hc : 0 ≤ c ∧ c < 2147483648 := by
      have hold := h.upheld.bounded _ _ was
      rcases cycle with rfl | ⟨hle, e, he, hec⟩
      · exact hold
      · have := (earliest_le h1.upheld.linked he).1
        lia
    exact h1.assign hc.1 hc.2 assign rfl rfl
  | @settle n x old last c m mx u u' g g' _ _ _ trigger _ was _ _ _ _ _ unassign cycle assign =>
    have h1 := h.unassign unassign
    have hc : 0 ≤ c ∧ c < 2147483648 := by
      rcases cycle with rfl | hc
      · exact h.upheld.bounded n _ (cycleOf_eq_some.2 ⟨m, trigger, was⟩)
      · exact hc
    exact h1.assign hc.1 hc.2 assign rfl rfl
  | merge _ _ reaches bypasses => exact h.bypasses reaches bypasses rfl rfl
  | @bypass source dest old c edges red u u' g g' g'' _ way _ _ was unassign reaches bypasses le earliest assign =>
    have h1 := h.unassign unassign
    have h2 : Steady j g0 { s with usage := u, graph := g', opened := .merged source dest edges red :: s.opened } :=
      h1.bypasses reaches bypasses rfl rfl
    obtain ⟨e, he, hec⟩ := earliest
    have hold := h.upheld.bounded _ _ was
    have he0 := (earliest_le h2.upheld.linked he).1
    exact h2.assign (by lia) (by lia) assign rfl rfl
  | unmerge opened _ undo restore =>
    obtain ⟨⟨r, hback⟩, -⟩ := h.frames (opened ▸ List.mem_cons_self)
    obtain ⟨d, hd, hop, -⟩ := hback.consumer
    refine h.pop opened (h.upheld.unbypass hback undo restore) (hback.retains_of_undo undo restore) ?_ ?_
      rfl rfl
    · rintro n rfl
      rfl
    · rintro n m rfl hm
      rw [hd] at hm
      cases hm
      exact hop
  | @drop n m rm g way move live result unneeded remove =>
    obtain ⟨hu, hback⟩ := h.upheld.removes move live result unneeded remove
    have hr : s.graph.Retains g fun _ => False :=
      retains_of_removeMove remove
    refine ⟨hu, fun hf => ?_, List.pairwise_cons.2 ⟨fun _ _ _ hx => (nomatch hx), h.apart⟩⟩
    rcases List.mem_cons.1 hf with rfl | hf
    · exact ⟨hback, way⟩
    · exact (h.frames hf).retains hr (fun _ _ => id) fun _ _ hx => hx.elim
  | @restore rm fs g opened restore =>
    obtain ⟨hback, -⟩ := h.frames (f := .removed rm) (opened ▸ List.mem_cons_self)
    exact h.pop opened (h.upheld.restores hback restore)
      (hback.retains_of_restore (X := fun _ => False) restore) (fun _ hx => hx.elim)
      (fun _ _ hx => hx.elim) rfl rfl
  | @rename n cycle undo rn rn' g may _ rename =>
    obtain ⟨range, w, old, new, hr, -⟩ := relocates_of_renameAt h.upheld.linked h.upheld.tagged rename
    refine ⟨h.upheld.relocates hr, fun {f} hf => ?_, h.apart⟩
    cases hway : j.way with
    | bottomUp =>
      rw [may.closed hway] at hf
      cases hf
    | topDown =>
      -- The renamed write is the move itself, which is not yet placed.
      have hw : w = n := by
        simp only [hway, decide_true, if_true] at hr
        exact (hr.mem_writes.1 hr.ranging.begins).symm
      cases f with
      | merged source dest edges red =>
        obtain ⟨⟨r, hback⟩, hout⟩ := h.frames hf
        refine ⟨⟨r, hback.relocates h.upheld hr ?_⟩, hout⟩
        rintro rfl
        exact hout hway (hw ▸ may.mem)
      | removed rm =>
        obtain ⟨-, hup⟩ := h.frames hf
        rw [hway] at hup
        cases hup
  | keep => exact ⟨h.upheld, h.frames, h.apart⟩
  | forget => exact ⟨h.upheld, h.frames, h.apart⟩
  | check => exact ⟨h.upheld, h.frames, h.apart⟩
  | commit => exact ⟨h.upheld, fun hf => absurd hf List.not_mem_nil, .nil⟩

theorem acts (ha : Acts j s s') : Steady j g0 s' := by
  induction ha with
  | refl => exact h
  | tail _ hact ih => exact ih.act hact

end

end Steady

/-- Whether operands are bypassed at all is not up to the acts, nor which machine it is. -/
theorem fixed_of_acts (h : Acts j s s') : s'.bypasser.isEnabled = s.bypasser.isEnabled ∧ s'.machine = s.machine := by
  induction h with
  | refl => exact ⟨rfl, rfl⟩
  | tail _ hact ih =>
    rw [← ih.1, ← ih.2]
    cases hact <;> exact ⟨rfl, rfl⟩

theorem renamer_of_acts (h : Acts j s s') (hs : s.renamer = none) : s'.renamer = none := by
  induction h with
  | refl => exact hs
  | tail _ hact ih =>
    cases hact with
    | rename _ renamer => rw [ih] at renamer; cases renamer
    | _ => exact ih

end Transport
