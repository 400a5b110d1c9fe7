import Mathlib.Data.List.Induction
import Mathlib.Data.List.InsertIdx
import Transport.Proofs.Dependence.Replay

/-!
# Surgery is taken back

Bypasses, removals of moves and single edges, in any order, are taken back by their records in
reverse order. The graph one ends with is the one the surgery began with, unless a move was taken
out that was not in the graph: bringing it back puts it there.
-/

namespace Transport

namespace Graph

variable {g g' g₁ h h' h0 : Graph} {u : EdgeRecord} {e : EdgeId} {l : Link} {n source dest : MoveId}
  {m : Move} {New : MoveId → MoveId → Dependence → Prop} {s s' : Graph × EdgeRecord} {force : Bool}
  {f : Move → Move} {k : OpId → Operation → Operation} {rm : RemovedMove} {α : Type}

/-! ## Bypasses -/

/-- An edge that a bypass of `source` into `dest` adds behind `dest`: a write that waits for the read of `source`
waits for that of `dest` too, unless it comes before `dest`. -/
structure Defers (g : Graph) (source dest h : MoveId) (d : Dependence) : Prop where
  head : h ≠ dest
  clear : g.hasPath h dest = .ok false
  origin : ∃ e l, g.link? e = some l ∧ l.live ∧ l.tail = source ∧ l.head = h ∧ l.dep = d

theorem recording_of_inheritIns {r : Reg} (hg : s.1.Linked) (hs : g.Recording New s)
    (hnew : ∀ t hd d, s.1.Inherits source dest r t hd d → New t hd d)
    (h : s.1.inheritIns s.2 source dest r = .ok s') : g.Recording New s' := by
  refine ⟨?_, hs.rewires.trans' ((rewires_of_inheritIns hg h).1.mono hnew (fun _ => id) fun _ => False.elim)⟩
  unfold inheritIns at h
  refine foldlM_keeps (P := fun x => g.Records x.2 x.1) ?_ hs.records h
  exact fun _ _ _ _ hrec hgrow => hrec.growEdge hgrow

theorem recording_of_inheritOverwrites {read : Reg} (hs : g.Recording New s)
    (hnew : ∀ e l, (e, l) ∈ overwrites read (s.1.leaving source) → l.head ≠ dest →
      g.excluding dest l.head = .ok false → New dest l.head l.dep)
    (h : s.1.inheritOverwrites s.2 source dest read = .ok s') : g.Recording New s' := by
  unfold inheritOverwrites at h
  refine foldlM_keeps (P := g.Recording New) ?_ hs h
  rintro ⟨e, l⟩ hx s1 s2 hs1 hstep
  obtain ⟨b, hb, hstep⟩ := bind_eq_ok.1 hstep
  split at hstep
  · cases pure_eq_ok.1 hstep
    exact hs1
  · rename_i hne
    simp only [Bool.or_eq_true, decide_eq_true_eq, not_or, Bool.not_eq_true] at hne
    rw [excluding_congr hs1.rewires.moves, hne.2] at hb
    exact hs1.growEdge hstep (hnew e l hx hne.1 hb)

theorem recording_of_dropOverwrites {r : Reg} (hg : s.1.Linked) (hs : g.Recording New s)
    (hold : ∀ t d, d.carries .war r → ¬ New dest t d)
    (h : s.1.dropOverwrites s.2 dest r = .ok s') : g.Recording New s' := by
  unfold dropOverwrites at h
  have hkeeps : g.Recording New s' ∧ s.1.Rewires s'.1 NoneNew NoneBack (fun _ => True) := by
    refine foldlM_keeps (P := fun x => g.Recording New x ∧
      s.1.Rewires x.1 NoneNew NoneBack (fun _ => True)) ?_ ⟨hs, .refl⟩ h
    rintro ⟨e, l⟩ hx s1 s2 ⟨hs1, hrew⟩ hcut
    simp only [List.mem_filter, hg.mem_leaving, Bool.and_eq_true] at hx
    obtain ⟨⟨hl, hlive, rfl⟩, hwar, -⟩ := hx
    obtain ⟨b, hb, -⟩ := hrew.kept hl
    have hnot : ¬ New l.tail l.head l.dep := hold _ _ hwar
    exact ⟨hs1.cutEdge hcut hb hnot, hrew.trans' (rewires_of_removeEdge (cutEdge_eq_ok hcut).1 trivial)⟩
  exact hkeeps.1

/-- The record of a bypass tells how the edges changed. -/
theorem recording_of_mergeEdges (hg : g.Linked) (h : g.mergeEdges source dest force = .ok (some (g', u))) :
    ∃ New, (∀ t hd d, New t hd d → (∃ r, g.Inherits source dest r t hd d) ∨ t = dest ∧ g.Defers source dest hd d) ∧
      g.Recording New (g', u) := by
  unfold mergeEdges at h
  simp only [bind_eq_ok] at h
  obtain ⟨b, hb, h⟩ := h
  split at h
  case isFalse => simp at h
  rename_i hcan
  rw [hcan] at hb
  obtain ⟨-, m, d, r, xs, hm, -, -, -, hr, hxs, -, hopen⟩ := canMerge_eq_true hb
  simp only [bind_eq_ok, hm, Except.ok.injEq, exists_eq_left', hr, hxs] at h
  obtain ⟨s1, hcut, s2, hins, h⟩ := h
  -- No new edge looks like one that is dropped as stale in the end, if any are.
  let New : MoveId → MoveId → Dependence → Prop := fun t hd d => g.Inherits source dest r t hd d ∨
    t = dest ∧ g.Defers source dest hd d ∧ ∃ read, m.src.reg? = some read ∧ d.carries .war read
  refine ⟨New, fun t hd d hnew => hnew.imp (fun hi => ⟨r, hi⟩) fun hf => ⟨hf.1, hf.2.1⟩, ?_⟩
  have hcuts {New} : g.Recording New s1 := by
    refine foldlM_keeps (P := g.Recording New) ?_ .refl hcut
    rintro ⟨e, l⟩ hx x x' hrec hstep
    obtain ⟨hl, -, -⟩ := (mem_bypassedEdges hg hxs).1 hx
    exact ⟨hrec.records.cutEdge hstep ⟨l, hl⟩,
      hrec.rewires.trans' (rewires_of_removeEdge (cutEdge_eq_ok hstep).1 trivial)⟩
  have hcuts0 : g.Recording NoneNew s1 := hcuts
  have hg1 := hcuts0.rewires.linked hg
  have hgrown {New} (hnew : ∀ t hd d, g.Inherits source dest r t hd d → New t hd d) : g.Recording New s2 :=
    recording_of_inheritIns hg1 hcuts (fun t hd d hi => hnew t hd d (hi.of_rewires hcuts.rewires)) hins
  have hfull : g.Recording New s2 := hgrown fun _ _ _ => .inl
  cases hread : m.src.reg? with
  | none =>
    simp only [hread, pure_eq_ok, bind_eq_ok, exists_eq_left', reduceCtorEq, if_false,
      Option.some.injEq] at h
    obtain ⟨s3, hdrop, rfl⟩ := h
    refine recording_of_dropOverwrites (hfull.rewires.linked hg) hfull ?_ hdrop
    rintro t d hwar (hin | ⟨-, -, read, hread', -⟩)
    · exact hin.tail rfl
    · cases hread.symm.trans hread'
  | some read =>
    simp only [hread, bind_eq_ok] at h
    obtain ⟨s3, hover, h⟩ := h
    have hover : g.Recording New s3 := by
      refine recording_of_inheritOverwrites hfull (fun e l hl hne hex => .inr ⟨rfl, ?_⟩) hover
      simp only [overwrites, List.mem_filter, (hfull.rewires.linked hg).mem_leaving] at hl
      obtain ⟨⟨hl, hlive, htail⟩, hcarries⟩ := hl
      -- The edges that were added so far end in `dest`.
      have hold := ((hgrown fun _ _ _ hin => hin.head).rewires.live_or_new hl hlive).resolve_right hne
      have hmem : (e, l) ∈ overwrites read (g.leaving source) :=
        List.mem_filter.2 ⟨hg.mem_leaving.2 ⟨hold, hlive, htail⟩, hcarries⟩
      rw [Bool.and_eq_true] at hcarries
      exact ⟨⟨hne, hopen read hread e l hmem hne hex, e, l, hold, hlive, htail, rfl, rfl⟩, read, hread, hcarries.1⟩
    split at h
    · simp only [pure_eq_ok, Option.some.injEq, Prod.mk.injEq] at h
      obtain ⟨rfl, rfl⟩ := h
      exact hover
    · rename_i hne
      simp only [bind_eq_ok, pure_eq_ok, Option.some.injEq] at h
      obtain ⟨s4, hdrop, rfl⟩ := h
      refine recording_of_dropOverwrites (hover.rewires.linked hg) hover ?_ hdrop
      rintro t d hwar (hin | ⟨-, -, read', hread', hwar'⟩)
      · exact hin.tail rfl
      · cases hread.symm.trans hread'
        rw [Dependence.carries_iff] at hwar hwar'
        exact hne (hwar'.2.symm.trans hwar.2)

theorem records_of_mergeEdges (hg : g.Linked)
    (h : g.mergeEdges source dest force = .ok (some (g', u))) : g.Records u g' := by
  obtain ⟨New, -, hrec⟩ := recording_of_mergeEdges hg h
  exact hrec.records

/-! ## Changed moves -/

theorem Alters.consistent
    (ha : g.Alters n f k g') (hins : ∀ m, (f m).ins = m.ins) (houts : ∀ m, (f m).outs = m.outs)
    (hg : g.Consistent) : g'.Consistent :=
  (ha.sameEdges hins houts).consistent hg

theorem Alters.size_le (ha : g.Alters n f k g') : g.links.size ≤ g'.links.size :=
  links_size_le fun e l hl => ⟨l, by rw [ha.link?, hl]⟩

theorem Alters.mem_moveIds {x : MoveId} (ha : g.Alters n f k g') (hf : ∀ m, m.live → (f m).live)
    (hx : x ∈ g.moveIds) : x ∈ g'.moveIds := by
  obtain ⟨m, hm, hlive⟩ := Graph.mem_moveIds.1 hx
  have hmove := ha.move? x
  rw [hm] at hmove
  refine Graph.mem_moveIds.2 ?_
  split at hmove
  · exact ⟨_, hmove, hf m hlive⟩
  · exact ⟨m, hmove, hlive⟩

/-- A move and its operations are changed in one graph and changed back in one that looks like
it. -/
theorem Alters.undo {f' : Move → Move} {k' : OpId → Operation → Operation}
    (ha : g.Alters n f k g') (hr : g'.Resembles h') (hb : h'.Alters n f' k' h)
    (hmove : ∀ m m', g.move? n = some m → m'.bare = (f m).bare → (f' m').bare = m.bare)
    (hop : ∀ o op, g.op? o = some op → k' o (k o op) = op)
    (hins : ∀ m, (f' m).ins = m.ins) (houts : ∀ m, (f' m).outs = m.outs)
    (hframe : g'.frame = g.frame) (hframe' : h.frame = h'.frame) : g.Resembles h := by
  refine ⟨⟨fun x => ?_, ?_, ?_, ?_, ?_, ?_⟩, hframe'.trans (hr.frame.trans hframe), ?_, ?_,
    hb.consistent hins houts hr.consistent⟩
  · have hx := hr.moves.moves x
    rw [ha.move?] at hx
    rw [hb.move?]
    by_cases heq : x = n
    · subst heq
      rw [if_pos rfl] at hx ⊢
      cases hm : g.move? x with
      | none =>
        rw [hm] at hx
        simp only [Option.map_none, Option.map_eq_none_iff] at hx
        rw [hx]
        rfl
      | some m =>
        rw [hm] at hx
        obtain ⟨m', hm', hbare⟩ := Option.map_eq_some_iff.1 hx
        rw [hm', Option.map_some, Option.map_some, hmove m m' hm hbare]
        rfl
    · rw [if_neg heq] at hx ⊢
      exact hx
  · rw [hb.size, hr.moves.size, ha.size]
  · refine Array.ext_getElem? fun i => ?_
    have hi : h.op? ⟨i⟩ = g.op? ⟨i⟩ := by
      rw [hb.op?, hr.moves.op?, ha.op?]
      cases ho : g.op? ⟨i⟩ with
      | none => rfl
      | some op => simp only [Option.map_some, hop ⟨i⟩ op ho]
    exact hi
  · rw [hb.guardLatencies, hr.moves.guardLatencies, ha.guardLatencies]
  · rw [hb.forcedFiles, hr.moves.forcedFiles, ha.forcedFiles]
  · rw [hb.liveOut, hr.moves.liveOut, ha.liveOut]
  · intro x l hl
    rw [hb.link?]
    exact hr.links (by rw [ha.link?]; exact hl)
  · intro x l hnone hl
    rw [hb.link?] at hl
    exact hr.spare (by rw [ha.link?]; exact hnone) hl

theorem eraseLast_concat [DecidableEq α] {x : α} {xs : List α} : eraseLast x (xs ++ [x]) = some xs := by
  simp [eraseLast]

theorem undoRedirect_of_redirect {red : Redirection} (hred : g.redirect source dest = .ok (g', red))
    (hr : g'.Resembles h') : ∃ h, h'.undoRedirect red = .ok h ∧ g.Resembles h := by
  obtain ⟨s, d, f, hs, hd, hrec, halters, hf⟩ := alters_of_redirect hred
  simp only [redirect, bind_eq_ok, pure_eq_ok, Prod.mk.injEq] at hred
  obtain ⟨s', hs', d', hd', units, hunits, hg', -⟩ := hred
  rw [move?_of_move hs'] at hs
  cases hs
  rw [move?_of_move hd'] at hd
  cases hd
  have hframe : g'.frame = g.frame := by
    subst hg'
    cases s.srcOp <;> rfl
  obtain ⟨m', hm', -⟩ := hr.moves.move? (n := dest) (m := f d)
    (by rw [halters.move?, if_pos rfl, move?_of_move hd']; rfl)
  have hmove' : h'.move dest = .ok m' := move_eq_ok.2 ⟨(move_eq_ok.1 hd').1, hm'⟩
  have hok : ∃ h, h'.undoRedirect red = .ok h ∧ h.frame = h'.frame := by
    unfold undoRedirect
    rw [hrec]
    cases ho : s.srcOp with
    | none =>
      simp only [hmove', pure_eq_ok, bind_eq_ok, exists_eq_left']
      exact ⟨_, ⟨m', rfl, rfl⟩, rfl⟩
    | some o =>
      simp only [sourceUnits, ho, bind_eq_ok] at hunits
      obtain ⟨op, hop, -⟩ := hunits
      have hop' : h'.op o = .ok (addOutputTo s.srcOp dest o op) := by
        refine op_eq_ok.2 ⟨(op_eq_ok.1 hop).1, ?_⟩
        rw [hr.moves.op?, halters.op?, op?_of_op hop, Option.map_some]
      have houts : (addOutputTo s.srcOp dest o op).outputs = op.outputs ++ [dest] := by
        simp [addOutputTo, ho]
      have hmove'' {k : Operation → Operation} : (h'.modifyOp o k).move dest = .ok m' := hmove'
      simp only [hop', houts, eraseLast_concat, hmove'', ok_bind, pure_eq_ok, bind_eq_ok,
        exists_eq_left']
      exact ⟨_, ⟨m', rfl, rfl⟩, rfl⟩
  obtain ⟨h, hundo, hframe'⟩ := hok
  have hback := (alters_of_undoRedirect hundo).2
  rw [hrec] at hback
  refine ⟨h, hundo, halters.undo hr hback ?_ ?_ (fun _ => rfl) (fun _ => rfl) hframe hframe'⟩
  · intro m m' hm hbare
    rw [move?_of_move hd'] at hm
    cases hm
    obtain ⟨us, hfd⟩ := hf d
    rw [hfd] at hbare
    cases m'
    cases d
    simp_all [Move.bare]
  · intro o op hop
    by_cases ho : s.srcOp = some o <;> simp [addOutputTo, dropOutputFrom, ho]

theorem merge_eq_some {u : MergeRecord} (h : g.merge source dest force = .ok (some (g', u))) :
    ∃ g₁, g.mergeEdges source dest force = .ok (some (g₁, u.edges)) ∧
      g₁.redirect source dest = .ok (g', u.redirection) := by
  simp only [merge, bind_eq_ok] at h
  obtain ⟨x, hx, h⟩ := h
  split at h
  case h_2 => simp at h
  simp only [bind_eq_ok, pure_eq_ok, Option.some.injEq, Prod.mk.injEq, Prod.exists] at h
  obtain ⟨g2, red, hred, rfl, rfl⟩ := h
  exact ⟨_, hx, hred⟩

theorem undoMerge_of_merge {u : MergeRecord} (hg : g.Consistent)
    (h : g.merge source dest force = .ok (some (g', u))) (hr : g'.Resembles h')
    (hfit : g'.EdgesFit) : ∃ h, h'.undoMerge u = .ok h ∧ g.Resembles h := by
  obtain ⟨g₁, hedges, hred⟩ := merge_eq_some h
  obtain ⟨h1, hundo1, hr1⟩ := undoRedirect_of_redirect hred hr
  obtain ⟨s, d, f, -, -, -, halters, -⟩ := alters_of_redirect hred
  have hfit1 : g₁.EdgesFit := Nat.le_trans halters.size_le hfit
  obtain ⟨h, hundo, hres⟩ := (records_of_mergeEdges hg.toLinked hedges).undo hr1 hfit1
  exact ⟨h, by rw [undoMerge, hundo1, ok_bind, hundo], hres⟩

theorem resembles_of_undoMerge {u : MergeRecord} (hg : g.Linked)
    (h : g.merge source dest force = .ok (some (g', u))) (hr : g'.Resembles h')
    (hundo : h'.undoMerge u = .ok h0) : g.Resembles h0 := by
  obtain ⟨g₁, hedges, hred⟩ := merge_eq_some h
  obtain ⟨h1, hundo1, hr1⟩ := undoRedirect_of_redirect hred hr
  rw [undoMerge, hundo1, ok_bind] at hundo
  exact (records_of_mergeEdges hg hedges).resembles_of_undoEdges hr1 hundo

/-! ## Removed moves -/

/-- Edges cut one after another, in a change that has added none. -/
theorem Records.removeEdges {g'' : Graph} {es : List EdgeId} (hu : g.Records u g')
    (hadded : u.added = []) (h : es.foldlM removeEdge g' = .ok g'') :
    g.Records { u with removed := u.removed ++ es } g'' := by
  induction es generalizing u g' with
  | nil =>
    cases pure_eq_ok.1 h
    simpa using hu
  | cons e es ih =>
    obtain ⟨g₁, hcut, hrest⟩ := foldlM_cons_eq_ok.1 h
    have hold : ∃ l, g.link? e = some l := by
      obtain ⟨l, hl, -⟩ := live_of_removeEdge hcut
      cases hg : g.link? e with
      | none =>
        have := hu.fresh hg hl
        rw [hadded] at this
        cases this
      | some l0 => exact ⟨l0, rfl⟩
    simpa using ih (hu.cut hcut hold) hadded hrest

theorem outputSlot_eq_some {o : OpId} {pos : Nat} (h : g.outputSlot m n = .ok (some (o, pos))) :
    ∃ op, g.op o = .ok op ∧ op.outputs[pos]? = some n := by
  unfold outputSlot at h
  split at h
  case h_2 => cases pure_eq_ok.1 h
  simp only [bind_eq_ok, pure_eq_ok, Option.map_eq_some_iff, Prod.mk.injEq] at h
  obtain ⟨op, hop, pos, hpos, rfl, rfl⟩ := h
  refine ⟨op, hop, ?_⟩
  rw [List.idxOf?, List.findIdx?_eq_some_iff_getElem] at hpos
  obtain ⟨hlt, heq, -⟩ := hpos
  rw [List.getElem?_eq_getElem hlt, eq_of_beq heq]

section

variable (hm : g.move? n = some m) (hlive : m.live) (hcut : g.removeMove n = .ok (g', rm))
  (hr : g'.Resembles h')
include hm hlive hcut hr

/-- The removal of a move that is in the graph is undone by putting the move back into its operation
and then replaying the record of its edges. -/
theorem exists_undoEdges_of_removeMove : ∃ g₁ h1,
    g.Records { removed := rm.edges } g₁ ∧ g₁.Resembles h1 ∧ (∀ e, g'.link? e = g₁.link? e) ∧
    h'.restoreMove rm = h1.undoEdges { removed := rm.edges } := by
  obtain ⟨m0, g₁, hm0, rfl, hedges, hgone1, hslot, halters, hframe, -⟩ := removeMove_eq_ok hcut
  rw [move?_of_move hm0] at hm
  cases hm
  have hrec : g.Records { removed := rm.edges } g₁ := by
    simpa using (Records.refl (g := g)).removeEdges rfl hgone1
  obtain ⟨m1, hm1, hbare1⟩ := hrec.moves.move? (move?_of_move hm0)
  have hlive1 : m1.live = true := (congrArg Move.live hbare1).trans hlive
  have hgone : g'.move? rm.move = some { m1 with live := false } := by
    rw [halters.move?, if_pos rfl, hm1]
    rfl
  obtain ⟨m', hm', hbare⟩ := hr.moves.move? hgone
  have hmove' : h'.move rm.move = .ok m' := move_eq_ok.2 ⟨(move_eq_ok.1 hm0).1, hm'⟩
  have hplace : ∀ o pos, rm.slot = some (o, pos) →
      ∃ op, h'.op o = .ok op ∧ pos ≤ op.outputs.length := by
    intro o pos hs
    rw [hs] at hslot
    obtain ⟨op, hop, hpos⟩ := outputSlot_eq_some hslot
    obtain ⟨hlt, -⟩ := List.getElem?_eq_some_iff.1 hpos
    refine ⟨dropSlot rm.slot o op, op_eq_ok.2 ⟨(op_eq_ok.1 hop).1, ?_⟩, ?_⟩
    · rw [hr.moves.op?, halters.op?, op?_of_op hop, Option.map_some]
    · simp only [hs, dropSlot, if_true, List.length_eraseIdx_of_lt hlt]
      omega
  obtain ⟨h1, hback, hframe', hrestore⟩ := restoreMove_eq hmove' (congrArg Move.live hbare) hplace
  have hr1 : g₁.Resembles h1 := by
    refine halters.undo hr hback ?_ ?_ (fun _ => rfl) (fun _ => rfl) hframe hframe'
    · intro m m' hm hbare
      rw [hm1] at hm
      cases hm
      cases m'
      cases m1
      simp_all [Move.bare]
    · intro o op hop
      cases hs : rm.slot with
      | none => rfl
      | some p =>
        rw [hs] at hslot
        obtain ⟨op', hop', hpos⟩ := outputSlot_eq_some hslot
        by_cases ho : o = p.1
        · rw [ho, op?_of_op hop'] at hop
          cases hop
          obtain ⟨hlt, hget⟩ := List.getElem?_eq_some_iff.1 hpos
          simp [dropSlot, fillSlot, ho, ← hget, List.insertIdx_eraseIdx_getElem hlt]
        · simp [dropSlot, fillSlot, ho]
  exact ⟨g₁, h1, hrec, hr1, halters.link?, hrestore.trans (by simp [undoEdges])⟩

theorem restoreMove_of_removeMove (hfit : g'.EdgesFit) :
    ∃ h, h'.restoreMove rm = .ok h ∧ g.Resembles h := by
  obtain ⟨g₁, h1, hrec, hr1, hlinks, hrestore⟩ := exists_undoEdges_of_removeMove hm hlive hcut hr
  have hfit1 : g₁.EdgesFit :=
    Nat.le_trans (links_size_le fun e l hl => ⟨l, by rw [hlinks, hl]⟩) hfit
  obtain ⟨h, hundo, hres⟩ := hrec.undo hr1 hfit1
  exact ⟨h, hrestore.trans hundo, hres⟩

theorem resembles_of_restoreMove (hundo : h'.restoreMove rm = .ok h0) : g.Resembles h0 := by
  obtain ⟨g₁, h1, hrec, hr1, -, hrestore⟩ := exists_undoEdges_of_removeMove hm hlive hcut hr
  exact hrec.resembles_of_undoEdges hr1 (hrestore.symm.trans hundo)

end

end Graph

/-! ## Any sequence of changes -/

/-- A change of the graph that leaves a record. -/
inductive Surgery
  | merge (source dest : MoveId) (force : Bool)
  | remove (n : MoveId)
  | connect (tail head : MoveId) (dep : Dependence)
  | cut (e : EdgeId)

inductive SurgeryRecord
  | merged (u : MergeRecord)
  | removed (r : RemovedMove)
  | connected (e : EdgeId)
  | cut (e : EdgeId)

/-- The changed graph and the record. A bypass that is not allowed leaves neither. -/
def Surgery.perform (g : Graph) : Surgery → Checked (Graph × Option SurgeryRecord)
  | .merge source dest force => do
    match ← g.merge source dest force with
    | some (g', u) => return (g', some (.merged u))
    | none => return (g, none)
  | .remove n => do
    let (g, r) ← g.removeMove n
    return (g, some (.removed r))
  | .connect tail head dep => do
    let (g, e) ← g.connect tail head dep
    return (g, some (.connected e))
  | .cut e => return (← g.removeEdge e, some (.cut e))

def SurgeryRecord.undo (g : Graph) : SurgeryRecord → Checked Graph
  | .merged u => g.undoMerge u
  | .removed r => g.restoreMove r
  | .connected e => g.removeEdge e
  | .cut e => g.restoreEdge e

namespace Graph

variable {g g' h h' : Graph} {n : MoveId} {s : Surgery} {ss : List Surgery} {us : List SurgeryRecord}
  {force : Bool} {source dest : MoveId} {u? : Option SurgeryRecord} {rm : RemovedMove}

/-- One change after another, with the records, the last one first. -/
def operate (g : Graph) (ss : List Surgery) : Checked (Graph × List SurgeryRecord) :=
  ss.foldlM (fun x s => do
    let (g, u?) ← s.perform x.1
    return (g, u?.toList ++ x.2)) (g, [])

def undoAll (g : Graph) (us : List SurgeryRecord) : Checked Graph :=
  us.foldlM SurgeryRecord.undo g

/-- `h` is the graph `g` again: the same moves in all but the order of their edge lists, the same
operations, the same edges under the same identifiers, and nothing beyond these but entries of
removed edges. -/
structure Restores (g h : Graph) : Prop where
  moves (n : MoveId) : (h.move? n).map Move.bare = (g.move? n).map Move.bare
  ins {n : MoveId} {m m' : Move} : g.move? n = some m → h.move? n = some m' → m'.ins.Perm m.ins
  outs {n : MoveId} {m m' : Move} : g.move? n = some m → h.move? n = some m' → m'.outs.Perm m.outs
  ops : h.ops = g.ops
  links {e : EdgeId} {l : Link} : g.link? e = some l → h.link? e = some l
  spare {e : EdgeId} {l : Link} : g.link? e = none → h.link? e = some l → l.live = false
  frame : h.frame = g.frame

theorem Resembles.restores (hr : g.Resembles h) (hg : g.Consistent) : g.Restores h :=
  ⟨hr.moves.moves, hr.ins_perm hg, hr.outs_perm hg, hr.moves.ops, hr.links, hr.spare, hr.frame⟩

theorem operate_concat {x : Graph × List SurgeryRecord} (h : g.operate (ss ++ [s]) = .ok x) :
    ∃ y z, g.operate ss = .ok y ∧ s.perform y.1 = .ok z ∧ x = (z.1, z.2.toList ++ y.2) := by
  simp only [operate, List.foldlM_append, List.foldlM_cons, List.foldlM_nil, bind_eq_ok, pure_eq_ok] at h
  obtain ⟨y, hy, _, ⟨z, hz, rfl⟩, rfl⟩ := h
  exact ⟨y, z, hy, hz, rfl⟩

/-! ### One change -/

/-- What a change can come to. -/
inductive Performs (g : Graph) : Surgery → Graph → Option SurgeryRecord → Prop
  | refused {source dest : MoveId} {force : Bool} : Performs g (.merge source dest force) g none
  | merged {source dest : MoveId} {force : Bool} {g' : Graph} {u : MergeRecord}
      (h : g.merge source dest force = .ok (some (g', u))) :
      Performs g (.merge source dest force) g' (some (.merged u))
  | removed {n : MoveId} {g' : Graph} {r : RemovedMove} (h : g.removeMove n = .ok (g', r)) :
      Performs g (.remove n) g' (some (.removed r))
  | connected {tail head : MoveId} {dep : Dependence} {g' : Graph} {e : EdgeId}
      (h : g.connect tail head dep = .ok (g', e)) :
      Performs g (.connect tail head dep) g' (some (.connected e))
  | cut {e : EdgeId} {g' : Graph} (h : g.removeEdge e = .ok g') :
      Performs g (.cut e) g' (some (.cut e))

theorem performs_of_perform (h : s.perform g = .ok (g', u?)) : g.Performs s g' u? := by
  cases s with
  | merge source dest force =>
    simp only [Surgery.perform, bind_eq_ok] at h
    obtain ⟨x, hx, h⟩ := h
    split at h
    · cases pure_eq_ok.1 h
      exact .merged hx
    · cases pure_eq_ok.1 h
      exact .refused
  | remove n =>
    simp only [Surgery.perform, bind_eq_ok] at h
    obtain ⟨x, hx, h⟩ := h
    cases pure_eq_ok.1 h
    exact .removed hx
  | connect tail head dep =>
    simp only [Surgery.perform, bind_eq_ok] at h
    obtain ⟨x, hx, h⟩ := h
    cases pure_eq_ok.1 h
    exact .connected hx
  | cut e =>
    simp only [Surgery.perform, bind_eq_ok] at h
    obtain ⟨x, hx, h⟩ := h
    cases pure_eq_ok.1 h
    exact .cut hx

theorem records_of_removeMove (h : g.removeMove n = .ok (g', rm)) :
    ∃ g₁, g.Records { removed := rm.edges } g₁ ∧
      g₁.Alters n (fun m => { m with live := false }) (dropSlot rm.slot) g' := by
  obtain ⟨m, g₁, -, -, -, hcut, -, halters, -⟩ := removeMove_eq_ok h
  exact ⟨g₁, by simpa using (Records.refl (g := g)).removeEdges rfl hcut, halters⟩

theorem records_of_removeEdge {e : EdgeId} (h : g.removeEdge e = .ok g') :
    g.Records { removed := [e] } g' := by
  obtain ⟨l, hl, -⟩ := live_of_removeEdge h
  exact Records.refl.cut h ⟨l, hl⟩

section

variable (hstep : g.Performs s g' u?) (hg : g.Consistent)
include hstep hg

theorem Performs.consistent : g'.Consistent := by
  cases hstep with
  | refused => exact hg
  | merged h =>
    obtain ⟨g₁, hedges, hred⟩ := merge_eq_some h
    obtain ⟨ms, md, f, -, -, -, halters, hf⟩ := alters_of_redirect hred
    refine halters.consistent (fun m => ?_) (fun m => ?_)
      ((records_of_mergeEdges hg.toLinked hedges).consistent hg)
    all_goals
      obtain ⟨us, hfm⟩ := hf m
      rw [hfm]
  | removed h =>
    obtain ⟨g₁, hrec, halters⟩ := records_of_removeMove h
    exact halters.consistent (fun _ => rfl) (fun _ => rfl) (hrec.consistent hg)
  | connected h => exact (Records.refl.grow h).consistent hg
  | cut h => exact (records_of_removeEdge h).consistent hg

theorem Performs.size_le : g.links.size ≤ g'.links.size := by
  cases hstep with
  | refused => exact Nat.le_refl _
  | merged h =>
    obtain ⟨g₁, hedges, hred⟩ := merge_eq_some h
    obtain ⟨ms, md, f, -, -, -, halters, -⟩ := alters_of_redirect hred
    exact Nat.le_trans (records_of_mergeEdges hg.toLinked hedges).size_le halters.size_le
  | removed h =>
    obtain ⟨g₁, hrec, halters⟩ := records_of_removeMove h
    exact Nat.le_trans hrec.size_le halters.size_le
  | connected h => exact (Records.refl.grow h).size_le
  | cut h => exact (records_of_removeEdge h).size_le

theorem Performs.undo (hlive : ∀ n, s = .remove n → n ∈ g.moveIds) (hr : g'.Resembles h')
    (hfit : g'.EdgesFit) :
    ∃ h, h'.undoAll u?.toList = .ok h ∧ g.Resembles h := by
  cases hstep with
  | refused => exact ⟨h', rfl, hr⟩
  | merged h =>
    obtain ⟨h1, hundo, hres⟩ := undoMerge_of_merge hg h hr hfit
    exact ⟨h1, by simp [undoAll, SurgeryRecord.undo, hundo], hres⟩
  | removed h =>
    obtain ⟨m, hm, hml⟩ := mem_moveIds.1 (hlive _ rfl)
    obtain ⟨h1, hundo, hres⟩ := restoreMove_of_removeMove hm hml h hr hfit
    exact ⟨h1, by simp [undoAll, SurgeryRecord.undo, hundo], hres⟩
  | connected h =>
    obtain ⟨h1, hundo, hres⟩ := (Records.refl.grow h).undo hr hfit
    exact ⟨h1, by simpa [undoAll, SurgeryRecord.undo, undoEdges] using hundo, hres⟩
  | cut h =>
    obtain ⟨h1, hundo, hres⟩ := (records_of_removeEdge h).undo hr hfit
    exact ⟨h1, by simpa [undoAll, SurgeryRecord.undo, undoEdges] using hundo, hres⟩

end

/-! ### Moves that are not in the graph -/

theorem SameMoves.mem_moveIds (h : g.SameMoves g') : n ∈ g'.moveIds ↔ n ∈ g.moveIds := by
  have hbare := h.moves n
  rw [Graph.mem_moveIds, Graph.mem_moveIds]
  cases hm : g.move? n <;> cases hm' : g'.move? n <;> rw [hm, hm'] at hbare
  case some.some m m' =>
    simp only [Option.map_some, Option.some.injEq] at hbare
    have hlive : m'.live = m.live := show m'.bare.live = m.bare.live by rw [hbare]
    simp [hlive]
  all_goals simp_all

theorem sameMoves_of_restoreEdges {es : List EdgeId} (h : es.foldlM restoreEdge g = .ok g') :
    g.SameMoves g' := by
  refine foldlM_keeps (P := g.SameMoves) ?_ .refl h
  exact fun e _ x x' hx hstep => hx.trans (flips_of_restoreEdge hstep).moves

theorem mem_moveIds_of_restoreMove (h : g.restoreMove rm = .ok g') : rm.move ∈ g'.moveIds := by
  obtain ⟨m, g₁, hm, -, halters, hedges, -⟩ := restoreMove_eq_ok h
  refine (sameMoves_of_restoreEdges hedges).mem_moveIds.2 (mem_moveIds.2 ?_)
  exact ⟨{ m with live := true }, by rw [halters.move?, if_pos rfl, hm]; rfl, rfl⟩

/-- No undoing takes a move out of the graph. -/
theorem mem_moveIds_of_undo {u : SurgeryRecord} (h : u.undo g = .ok g') (hn : n ∈ g.moveIds) :
    n ∈ g'.moveIds := by
  cases u with
  | merged u =>
    simp only [SurgeryRecord.undo, undoMerge, bind_eq_ok] at h
    obtain ⟨g₁, hred, hedges⟩ := h
    rw [(rearranges_of_undoEdges hedges).moves.mem_moveIds]
    exact (alters_of_undoRedirect hred).2.mem_moveIds (fun _ => id) hn
  | removed rm =>
    obtain ⟨m0, g₁, -, -, halters, hedges, -⟩ := restoreMove_eq_ok h
    rw [(sameMoves_of_restoreEdges hedges).mem_moveIds]
    exact halters.mem_moveIds (fun _ _ => rfl) hn
  | connected e => exact (flips_of_removeEdge h).moves.mem_moveIds.2 hn
  | cut e => exact (flips_of_restoreEdge h).moves.mem_moveIds.2 hn

/-- A move leaves the graph by its removal only. -/
theorem Performs.mem_moveIds (h : g.Performs s g' u?) (hg : g.Consistent) (hn : n ∈ g.moveIds) :
    n ∈ g'.moveIds ∨ ∃ rm, u? = some (.removed rm) ∧ rm.move = n := by
  cases h with
  | refused => exact .inl hn
  | merged h =>
    obtain ⟨g₁, hedges, hred⟩ := merge_eq_some h
    obtain ⟨ms, md, f, -, -, -, halters, hf⟩ := alters_of_redirect hred
    have hrec := records_of_mergeEdges hg.toLinked hedges
    refine .inl (halters.mem_moveIds (fun m hlive => ?_) (hrec.moves.mem_moveIds.2 hn))
    obtain ⟨us, hfm⟩ := hf m
    rwa [hfm]
  | removed h =>
    obtain ⟨m0, g₁, -, hmove, -, hcut, -, halters, -⟩ := removeMove_eq_ok h
    rename_i n0 rm
    by_cases heq : n = n0
    · exact .inr ⟨rm, rfl, hmove.trans heq.symm⟩
    · have hrec := (Records.refl (g := g)).removeEdges rfl hcut
      obtain ⟨m, hm, hlive⟩ := Graph.mem_moveIds.1 (hrec.moves.mem_moveIds.2 hn)
      exact .inl (Graph.mem_moveIds.2 ⟨m, by rw [halters.move?, if_neg heq, hm], hlive⟩)
  | connected h => exact .inl ((Records.refl.grow h).moves.mem_moveIds.2 hn)
  | cut h => exact .inl ((records_of_removeEdge h).moves.mem_moveIds.2 hn)

theorem undoAll_append {us' : List SurgeryRecord} :
    h'.undoAll (us' ++ us) = .ok h ↔ ∃ h1, h'.undoAll us' = .ok h1 ∧ h1.undoAll us = .ok h := by
  simp only [undoAll, List.foldlM_append, bind_eq_ok]

theorem undoAll_toList (hundo : h'.undoAll u?.toList = .ok h) :
    (u? = none ∧ h = h') ∨ ∃ u, u? = some u ∧ u.undo h' = .ok h := by
  cases u? with
  | none => exact .inl ⟨rfl, (pure_eq_ok.1 hundo).symm⟩
  | some u =>
    obtain ⟨h1, hu, hnil⟩ := foldlM_cons_eq_ok.1 hundo
    cases pure_eq_ok.1 hnil
    exact .inr ⟨u, rfl, hu⟩

/-! ### All changes -/

theorem consistent_of_operate (hg : g.Consistent) (hrun : g.operate ss = .ok (g', us)) :
    g'.Consistent := by
  refine foldlM_keeps (P := fun x => x.1.Consistent) ?_ hg hrun
  intro s _ x x' hx hstep
  simp only [bind_eq_ok, pure_eq_ok] at hstep
  obtain ⟨z, hz, rfl⟩ := hstep
  exact (performs_of_perform hz).consistent hx

/-- A move that should not be in the graph, but is when the undoing begins, is there at its end,
or another one is. -/
theorem exists_revived (hg : g.Consistent) (hrun : g.operate ss = .ok (g', us))
    (hdead : n ∉ g'.moveIds) (hlive : n ∈ h'.moveIds) (hundo : h'.undoAll us = .ok h) :
    ∃ x, x ∈ h.moveIds ∧ x ∉ g.moveIds := by
  -- The changes are undone from the last one on.
  induction ss using List.reverseRecOn generalizing g' us h' with
  | nil =>
    cases pure_eq_ok.1 hrun
    cases pure_eq_ok.1 hundo
    exact ⟨n, hlive, hdead⟩
  | append_singleton ss s ih =>
    obtain ⟨⟨g₁, us1⟩, ⟨g2, u?⟩, hrun1, hlast, heq⟩ := operate_concat hrun
    cases heq
    obtain ⟨h1, hundo1, hrest⟩ := undoAll_append.1 hundo
    have hstep := performs_of_perform hlast
    rcases undoAll_toList hundo1 with ⟨rfl, rfl⟩ | ⟨u, rfl, hu⟩
    · refine ih hrun1 (fun hn => ?_) hlive hrest
      rcases hstep.mem_moveIds (consistent_of_operate hg hrun1) hn with hn | ⟨rm, hrm, -⟩
      · exact hdead hn
      · cases hrm
    · refine ih hrun1 (fun hn => ?_) (mem_moveIds_of_undo hu hlive) hrest
      rcases hstep.mem_moveIds (consistent_of_operate hg hrun1) hn with hn | ⟨rm, hrm, hmove⟩
      · exact hdead hn
      · cases hrm
        -- Its own removal cannot be undone.
        obtain ⟨m, -, hm, hml, -⟩ := restoreMove_eq_ok hu
        obtain ⟨m', hm', hml'⟩ := mem_moveIds.1 hlive
        rw [hmove, hm'] at hm
        cases hm
        rw [hml] at hml'
        cases hml'

/-- Every removal of the list takes out a move that is in the graph at that time. -/
def RemovesLive (g : Graph) (ss : List Surgery) : Prop :=
  ∀ pre n, pre ++ [.remove n] <+: ss → ∀ g₁ us₁, g.operate pre = .ok (g₁, us₁) → n ∈ g₁.moveIds

theorem removesLive_concat (hrun : g.operate ss = .ok (g', us)) :
    g.RemovesLive (ss ++ [s]) ↔ g.RemovesLive ss ∧ ∀ n, s = .remove n → n ∈ g'.moveIds := by
  constructor
  · exact fun hlive => ⟨fun pre n hpre => hlive pre n (hpre.trans ⟨[s], rfl⟩),
      fun n hn => hlive ss n (hn ▸ List.prefix_rfl) g' us hrun⟩
  · rintro ⟨hlive, hlast⟩ pre n hpre g₁ us1 hrun1
    rcases List.prefix_concat_iff.1 hpre with heq | hpre
    · obtain ⟨rfl, hs⟩ := List.append_inj' heq rfl
      cases hs
      rw [hrun] at hrun1
      cases hrun1
      exact hlast n rfl
    · exact hlive pre n hpre g₁ us1 hrun1

theorem undo_of_operate (hg : g.Consistent) (hrun : g.operate ss = .ok (g', us))
    (hlive : g.RemovesLive ss) (hfit : g'.EdgesFit) (hr : g'.Resembles h') :
    ∃ h, h'.undoAll us = .ok h ∧ g.Resembles h := by
  induction ss using List.reverseRecOn generalizing g' us h' with
  | nil =>
    cases pure_eq_ok.1 hrun
    exact ⟨h', rfl, hr⟩
  | append_singleton ss s ih =>
    obtain ⟨⟨g₁, us1⟩, ⟨g2, u?⟩, hrun1, hlast, heq⟩ := operate_concat hrun
    cases heq
    obtain ⟨hlive1, hs⟩ := (removesLive_concat hrun1).1 hlive
    have hstep := performs_of_perform hlast
    have hg1 := consistent_of_operate hg hrun1
    obtain ⟨h1, hundo1, hr1⟩ := hstep.undo hg1 hs hr hfit
    obtain ⟨h, hrest, hres⟩ := ih hrun1 hlive1 (Nat.le_trans (hstep.size_le hg1) hfit) hr1
    exact ⟨h, undoAll_append.2 ⟨h1, hundo1, hrest⟩, hres⟩

theorem removesLive_of_undo (hg : g.Consistent) (hrun : g.operate ss = .ok (g', us))
    (hfit : g'.EdgesFit) (hr : g'.Resembles h') (hundo : h'.undoAll us = .ok h)
    (hsame : ∀ x ∈ h.moveIds, x ∈ g.moveIds) : g.RemovesLive ss := by
  induction ss using List.reverseRecOn generalizing g' us h' with
  | nil =>
    intro pre n hpre
    simp at hpre
  | append_singleton ss s ih =>
    obtain ⟨⟨g₁, us1⟩, ⟨g2, u?⟩, hrun1, hlast, heq⟩ := operate_concat hrun
    cases heq
    have hstep := performs_of_perform hlast
    have hg1 := consistent_of_operate hg hrun1
    obtain ⟨h1, hundo1, hrest⟩ := undoAll_append.1 hundo
    have hs : ∀ n, s = .remove n → n ∈ g₁.moveIds := by
      rintro n rfl
      by_contra hdead
      -- The undoing brings `n` in, and nothing takes it out again.
      cases hstep with
      | removed hrm =>
        obtain ⟨h2, hu, hnil⟩ := foldlM_cons_eq_ok.1 hundo1
        cases pure_eq_ok.1 hnil
        obtain ⟨-, -, -, hmove, -⟩ := removeMove_eq_ok hrm
        obtain ⟨x, hx, hx'⟩ := exists_revived hg hrun1 hdead (hmove ▸ mem_moveIds_of_restoreMove hu)
          hrest
        exact hx' (hsame x hx)
    obtain ⟨h2, hundo2, hr2⟩ := hstep.undo hg1 hs hr hfit
    rw [hundo1] at hundo2
    cases hundo2
    exact (removesLive_concat hrun1).2
      ⟨ih hrun1 (Nat.le_trans (hstep.size_le hg1) hfit) hr2 hrest, hs⟩

theorem mergeEdges_ne_none
    (h : g.canMerge source dest force = .ok true) : ¬ g.mergeEdges source dest force = .ok none := by
  obtain ⟨-, m, d, r, -, hm, -, -, -, hr, -⟩ := canMerge_eq_true h
  intro hnone
  simp only [mergeEdges, h, hm, ok_bind, if_true, hr, bind_eq_ok] at hnone
  obtain ⟨xs, -, s1, -, s2, -, hnone⟩ := hnone
  split at hnone
  all_goals
    simp only [bind_eq_ok, pure_eq_ok] at hnone
    obtain ⟨s3, -, hnone⟩ := hnone
    split at hnone
    · simp at hnone
    · simp only [bind_eq_ok, pure_eq_ok, reduceCtorEq, and_false, exists_false] at hnone

/-- A bypass is refused exactly if it is not allowed. -/
theorem merge_eq_none_iff : g.merge source dest force = .ok none ↔ g.canMerge source dest force = .ok false := by
  constructor
  · intro h
    simp only [merge, bind_eq_ok] at h
    obtain ⟨x, hx, h⟩ := h
    cases x with
    | some x => simp only [bind_eq_ok, pure_eq_ok, reduceCtorEq, and_false, exists_false] at h
    | none =>
      have hcan := hx
      simp only [mergeEdges, bind_eq_ok] at hcan
      obtain ⟨b, hb, -⟩ := hcan
      cases b with
      | false => exact hb
      | true => exact absurd hx (mergeEdges_ne_none hb)
  · intro h
    simp [merge, mergeEdges, h]

/-- **Surgery is undone exactly.** Changes of any kind and in any order, of which the bypasses that
are not allowed change nothing, are undone by their records in reverse order: the graph is the one
they began with. The removal of a move that is not in the graph at that time is the one exception,
and spoils the undoing: it ends in a fault or with a move too many. -/
theorem undoAll_operate_iff (hg : g.Consistent) (hrun : g.operate ss = .ok (g', us))
    (hfit : g'.EdgesFit) :
    ((∃ h, g'.undoAll us = .ok h ∧ g.Restores h) ↔ g.RemovesLive ss) ∧
      ∀ source dest force x, (Surgery.merge source dest force).perform g' = .ok (x, none) ↔
        g'.canMerge source dest force = .ok false ∧ x = g' := by
  have hr : g'.Resembles g' := .refl (consistent_of_operate hg hrun)
  refine ⟨⟨?_, fun hlive => ?_⟩, fun source dest force x => ?_⟩
  · rintro ⟨h, hundo, hres⟩
    refine removesLive_of_undo hg hrun hfit hr hundo fun x hx => ?_
    obtain ⟨m, hm, hlive⟩ := mem_moveIds.1 hx
    have hbare := hres.moves x
    rw [hm, Option.map_some] at hbare
    obtain ⟨m', hm', heq⟩ := Option.map_eq_some_iff.1 hbare.symm
    exact mem_moveIds.2 ⟨m', hm', (show m'.bare.live = m.bare.live by rw [heq]).trans hlive⟩
  · obtain ⟨h, hundo, hres⟩ := undo_of_operate hg hrun hlive hfit hr
    exact ⟨h, hundo, hres.restores hg⟩
  · rw [← merge_eq_none_iff]
    simp only [Surgery.perform, bind_eq_ok]
    constructor
    · rintro ⟨y, hy, h⟩
      split at h
      · simp at h
      · cases pure_eq_ok.1 h
        exact ⟨hy, rfl⟩
    · rintro ⟨h, rfl⟩
      exact ⟨none, h, rfl⟩

/-! ### Two copies -/

/-- `#5 -> r0` and `r0 -> r1`, not yet connected. -/
def copies : Graph where
  moves := #[{ src := .immediate 5, dst := .register ⟨⟨0⟩, 0⟩, block := ⟨0⟩ },
    { src := .register ⟨⟨0⟩, 0⟩, dst := .register ⟨⟨0⟩, 1⟩, block := ⟨0⟩ }]
  forcedFiles := []
  guardLatencies := #[]

theorem consistent_of_no_links (hlinks : g.links = #[])
    (hmoves : ∀ m ∈ g.moves, m.ins = [] ∧ m.outs = []) : g.Consistent := by
  have hlink (e : EdgeId) : g.link? e = none := by simp [link?, hlinks]
  have hlists {n : MoveId} {m : Move} (hm : g.move? n = some m) : m.ins = [] ∧ m.outs = [] :=
    hmoves m (Array.mem_of_getElem? hm)
  refine ⟨⟨fun hm => ?_, fun hm => ?_, fun hl => ?_, fun hl => ?_⟩, fun hm => ?_, fun hm => ?_⟩
  · simp [(hlists hm).1, hlink]
  · simp [(hlists hm).2, hlink]
  · simp [hlink] at hl
  · simp [hlink] at hl
  · simp [(hlists hm).1]
  · simp [(hlists hm).2]

theorem copies_consistent : copies.Consistent :=
  consistent_of_no_links rfl (by simp [copies])

/-- The copies are connected and the first is bypassed into the second. -/
def bypassCopies : List Surgery :=
  [.connect ⟨0⟩ ⟨1⟩ (.register .raw ⟨⟨0⟩, 0⟩), .merge ⟨0⟩ ⟨1⟩ false]

/-- After the bypass the first copy is taken out. -/
theorem undoAll_operate_copies : ∃ g' us,
    copies.operate (bypassCopies ++ [.remove ⟨0⟩]) = .ok (g', us) ∧
      ∃ h, g'.undoAll us = .ok h ∧ copies.Restores h := by
  obtain ⟨⟨g₁, us₁⟩, hrun₁, hn⟩ := exists_ok_of_any
    (p := fun x : Graph × List SurgeryRecord => decide ((⟨0⟩ : MoveId) ∈ x.1.moveIds))
    (show (copies.operate bypassCopies).toOption.any _ by decide +kernel)
  obtain ⟨⟨g', us⟩, hrun, hfit⟩ := exists_ok_of_any
    (p := fun x : Graph × List SurgeryRecord => decide x.1.EdgesFit)
    (show (copies.operate (bypassCopies ++ [.remove ⟨0⟩])).toOption.any _ by decide +kernel)
  refine ⟨g', us, hrun, (undoAll_operate_iff copies_consistent hrun (of_decide_eq_true hfit)).1.2 ?_⟩
  refine (removesLive_concat hrun₁).2 ⟨fun pre n hpre => ?_, ?_⟩
  · have := hpre.subset (List.mem_append_right pre List.mem_cons_self)
    simp [bypassCopies] at this
  · rintro n ⟨⟩
    exact of_decide_eq_true hn

/-- A move that is taken out twice cannot be brought back. -/
theorem removed_twice_not_undone : copies.Consistent ∧ (∀ e l, copies.link? e = some l → l.tail ≠ l.head) ∧
    ∃ g' us, copies.operate [.remove ⟨0⟩, .remove ⟨0⟩] = .ok (g', us) ∧
      ¬ ∃ h, g'.undoAll us = .ok h := by
  refine ⟨copies_consistent, by simp [copies, link?], ?_⟩
  obtain ⟨⟨g', us⟩, hrun, hno⟩ := exists_ok_of_any
    (p := fun x => (x.1.undoAll x.2).toOption.isNone)
    (show (copies.operate [.remove ⟨0⟩, .remove ⟨0⟩]).toOption.any _ by decide +kernel)
  refine ⟨g', us, hrun, ?_⟩
  rintro ⟨h, hundo⟩
  simp [hundo, Except.toOption] at hno

end Graph

end Transport
