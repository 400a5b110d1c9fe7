import Transport.Proofs.Resource.Agreement
import Transport.Proofs.Reversal.Rollback
import Transport.Proofs.Run.Faults
import Transport.Proofs.Selection.HandOut

/-!
# Edge lists and edge table stay in step

A graph is revised by bypasses, repairs after renamings, edges that are added or cut and moves that are taken
out, and any of this may be taken back, the latest first. Whatever the order, the edge lists of the moves and
the edge table tell the same story, no edge leads to a move that is gone, and every record can be replayed.
An edge leads from a move to itself only where the program has the move start the operation that it reads from,
and taking out such a move is the one revision that finds an edge gone: `Program.revised_in_step`.
-/

namespace Transport

variable {g : Graph} {own : MoveId → Prop}

namespace Graph

variable {g' g₁ h : Graph} {s : Graph × EdgeRecord} {e : EdgeId} {l : Link}
  {n source dest : MoveId} {m : Move} {r : Reg}

/-! ## Graphs in good order -/

/-- The edge lists and the edge table tell the same story, all edges are between moves of the graph, and only
the moves in `own` have an edge to themselves, one within an operation. Nothing has a place. -/
structure Intact (own : MoveId → Prop) (g : Graph) : Prop extends g.Consistent where
  unplaced {n : MoveId} {m : Move} : g.move? n = some m → m.placement = none
  attached {e : EdgeId} {l : Link} : g.link? e = some l → l.live →
    (∃ m, g.move l.tail = .ok m ∧ m.live) ∧ ∃ m, g.move l.head = .ok m ∧ m.live
  selves {e : EdgeId} {l : Link} : g.link? e = some l → l.live → l.tail = l.head →
    l.dep.reason = .operation ∧ own l.tail

theorem SameMoves.exists_live (hs : g.SameMoves g') (hn : ∃ m, g.move n = .ok m ∧ m.live) :
    ∃ m, g'.move n = .ok m ∧ m.live := by
  obtain ⟨m, hm, hlive⟩ := hn
  obtain ⟨m', hm', hbare⟩ := hs.move? (move?_of_move hm)
  exact ⟨m', move_eq_ok.2 ⟨(move_eq_ok.1 hm).1, hm'⟩, (congrArg Move.live hbare).trans hlive⟩

/-- A step of a walk that cuts an edge, tags it or leaves it alone. -/
def Visits (f : Graph × EdgeRecord → EdgeId × Link → Checked (Graph × EdgeRecord)) : Prop :=
  ∀ s x, f s x = .ok s ∨ ∃ r gone, f s x = s.1.cutOrRetag s.2 x.1 r gone

namespace Intact

section

variable (hg : g.Intact own)
include hg

theorem not_overwritesItself : ¬ g.OverwritesItself n := by
  rintro ⟨e, l, hl, hlive, ht, hh, hstorage, -⟩
  rw [(hg.selves hl hlive (ht.trans hh.symm)).1] at hstorage
  cases hstorage

/-- Edges come and go: those that are there were there or are between two moves of the graph. -/
theorem of_sameMoves (hc : g'.Consistent) (hs : g.SameMoves g')
    (hlinks : ∀ e l, g'.link? e = some l → l.live →
      (∃ l0, g.link? e = some l0 ∧ l0.live ∧ l.tail = l0.tail ∧ l.head = l0.head ∧ l.dep.reason = l0.dep.reason) ∨
      l.tail ≠ l.head ∧ (∃ m, g.move l.tail = .ok m ∧ m.live) ∧ ∃ m, g.move l.head = .ok m ∧ m.live) :
    g'.Intact own where
  toConsistent := hc
  unplaced {n m'} hm' := by
    obtain ⟨m, hm, hbare⟩ := hs.symm.move? hm'
    change m'.bare.placement = none
    rw [← hbare]
    exact show m.placement = none from hg.unplaced hm
  attached {e l} hl hlive := by
    rcases hlinks e l hl hlive with ⟨l0, hl0, hlive0, ht, hh, -⟩ | ⟨-, ht, hh⟩
    · rw [ht, hh]
      exact ⟨hs.exists_live (hg.attached hl0 hlive0).1, hs.exists_live (hg.attached hl0 hlive0).2⟩
    · exact ⟨hs.exists_live ht, hs.exists_live hh⟩
  selves {e l} hl hlive hself := by
    rcases hlinks e l hl hlive with ⟨l0, hl0, hlive0, ht, hh, hreason⟩ | ⟨hne, -⟩
    · rw [hreason, ht]
      exact hg.selves hl0 hlive0 (by rw [← ht, ← hh, hself])
    · exact absurd hself hne

theorem connect {tail head : MoveId} {dep : Dependence} (hne : tail ≠ head)
    (h : g.connect tail head dep = .ok (g', e)) : g'.Intact own := by
  have hrew : g.Rewires g' (fun t hd _ => t = tail ∧ hd = head) NoneBack NoneBack :=
    rewires_of_connect h ⟨rfl, rfl⟩
  obtain ⟨htail, hhead, -⟩ := connect_eq_ok h
  refine hg.of_sameMoves ((Records.refl.grow h).consistent hg.toConsistent) hrew.moves fun x l hl hlive => ?_
  rcases hrew.live hl hlive with hold | ⟨hback, -⟩ | ⟨-, rfl, rfl⟩
  · exact .inl ⟨l, hold, hlive, rfl, rfl, rfl⟩
  · exact hback.elim
  · exact .inr ⟨hne, htail, hhead⟩

theorem removeEdge (h : g.removeEdge e = .ok g') : g'.Intact own := by
  have hrew : g.Rewires g' NoneNew NoneBack fun _ => True := rewires_of_removeEdge h trivial
  refine hg.of_sameMoves ((records_of_removeEdge h).consistent hg.toConsistent) hrew.moves fun x l hl hlive => ?_
  exact .inl ⟨l, hrew.live_of_live hl hlive, hlive, rfl, rfl, rfl⟩

theorem tag {r? : Option Reg} : (g.modifyLink e (withTag · r?)).Intact own := by
  have hsame : g.Rearranges (g.modifyLink e (withTag · r?)) :=
    rearranges_modifyLink (fun _ => rfl) (fun _ => rfl) fun _ => rfl
  refine hg.of_sameMoves (hsame.consistent hg.toConsistent) hsame.moves fun x l hl hlive => .inl ?_
  rw [link?_modifyLink] at hl
  split at hl
  · obtain ⟨l0, hl0, rfl⟩ := Option.map_eq_some_iff.1 hl
    exact ⟨l0, hl0, hlive, rfl, rfl, rfl⟩
  · exact ⟨l, hl, hlive, rfl, rfl, rfl⟩

theorem ensureEdge {dep : Dependence} {tail head : MoveId} {x : Option EdgeId} (hne : tail ≠ head)
    (h : g.ensureEdge tail head dep = .ok (g', x)) : g'.Intact own := by
  rcases ensureEdge_eq_ok h with ⟨rfl, -, -⟩ | ⟨e, -, hc⟩
  · exact hg
  · exact hg.connect hne hc

theorem removeEdges {es : List EdgeId} (h : es.foldlM Graph.removeEdge g = .ok g') : g'.Intact own :=
  foldlM_keeps (fun _ _ _ _ hx hstep => hx.removeEdge hstep) hg h

/-- A move may change what it does, and may go if it has no edges. -/
theorem alters {f : Move → Move} {k : OpId → Operation → Operation} (ha : g.Alters n f k g')
    (hins : ∀ m, (f m).ins = m.ins) (houts : ∀ m, (f m).outs = m.outs)
    (hplace : ∀ m, (f m).placement = m.placement)
    (hlive : (∀ m, (f m).live = m.live) ∨ ∀ e l, g.link? e = some l → l.live → l.tail ≠ n ∧ l.head ≠ n) :
    g'.Intact own := by
  refine ⟨ha.consistent hins houts hg.toConsistent, fun {x m'} hm' => ?_, fun {e l} hl hl' => ?_,
    fun {e l} hl => hg.selves (ha.link? e ▸ hl)⟩
  · have hsame := ha.keeps (q := Option.map Move.placement) (fun m _ => congrArg some (hplace m)) x
    obtain ⟨m, hm, heq⟩ := exists_of_map_eq hsame hm'
    exact heq.symm.trans (hg.unplaced hm)
  · rw [ha.link?] at hl
    have hend {x : MoveId} (hx : ∃ m, g.move x = .ok m ∧ m.live) (hne : x = n → ∀ m, (f m).live = m.live) :
        ∃ m, g'.move x = .ok m ∧ m.live := by
      obtain ⟨m, hm, hml⟩ := hx
      obtain ⟨hvalid, hm⟩ := move_eq_ok.1 hm
      by_cases heq : x = n
      · exact ⟨f m, move_eq_ok.2 ⟨hvalid, by rw [ha.move?, if_pos heq, hm]; rfl⟩, (hne heq m).trans hml⟩
      · exact ⟨m, move_eq_ok.2 ⟨hvalid, by rw [ha.move?, if_neg heq, hm]⟩, hml⟩
    refine ⟨hend (hg.attached hl hl').1 fun heq => ?_, hend (hg.attached hl hl').2 fun heq => ?_⟩
    · exact hlive.resolve_right fun hno => (hno e l hl hl').1 heq
    · exact hlive.resolve_right fun hno => (hno e l hl hl').2 heq

theorem redirect {red : Redirection} (h : g.redirect source dest = .ok (g', red)) : g'.Intact own := by
  obtain ⟨s, d, f, -, -, -, halters, hf⟩ := alters_of_redirect h
  have hkeep {α : Type} (k : Move → α) := keeps_of_redirected hf k
  exact hg.alters halters (hkeep Move.ins fun _ _ _ _ => rfl) (hkeep Move.outs fun _ _ _ _ => rfl)
    (hkeep Move.placement fun _ _ _ _ => rfl) (.inl (hkeep Move.live fun _ _ _ _ => rfl))

theorem removeMove {rm : RemovedMove} (h : g.removeMove n = .ok (g', rm)) : g'.Intact own := by
  obtain ⟨m, g₁, hm, -, hedges, hcut, -, halters, -⟩ := removeMove_eq_ok h
  refine (hg.removeEdges hcut).alters halters (fun _ => rfl) (fun _ => rfl) (fun _ => rfl)
    (.inr fun e l hl hlive => ?_)
  -- An edge of the move was in one of its lists and is gone.
  have hrewires : g.Rewires g₁ NoneNew NoneBack fun _ => True := rewires_of_removeEdges (fun _ _ => trivial) hcut
  have hold : g.link? e = some l := hrewires.live_of_live hl hlive
  have hkept : e ∉ rm.edges := by
    intro hmem
    have hdead := of_some (dead_of_removeEdges hcut e hmem) hl
    rw [hlive] at hdead
    cases hdead
  rw [hedges, List.mem_append, hg.mem_ins (move?_of_move hm), hg.mem_outs (move?_of_move hm)] at hkept
  exact ⟨fun ht => hkept (.inr ⟨l, hold, hlive, ht⟩), fun hh => hkept (.inl ⟨l, hold, hlive, hh⟩)⟩

theorem resembles (hr : g.Resembles h) : h.Intact own :=
  hg.of_sameMoves hr.consistent hr.moves fun _ l hl hlive =>
    .inl ⟨l, hr.toExtends.live hl hlive, hlive, rfl, rfl, rfl⟩

end

end Intact

end Graph

/-! ## Faults -/

/-- Faults of an edge or a move that is gone already, or back already. -/
def Fault.OutOfStep : Fault → Prop
  | .removesDeadEdge _ | .restoresLiveEdge _ | .restoresLiveMove _ => True
  | _ => False

abbrev InStep {α : Type} (x : Checked α) : Prop := Avoids Fault.OutOfStep x

/-- The computation finds what should be there, and what it comes to has `Q`. -/
structure Sure {α : Type} (x : Checked α) (Q : α → Prop) : Prop where
  inStep : InStep x
  ok {a : α} : x = .ok a → Q a

namespace Sure

variable {α β : Type} {x y : Checked α} {f : α → Checked β} {Q : α → Prop} {R : β → Prop}

theorem pure {a : α} (h : Q a) : Sure (Pure.pure a : Checked α) Q :=
  ⟨avoids_pure a, fun heq => pure_eq_ok.1 heq ▸ h⟩

theorem bind (hx : Sure x Q) (hf : ∀ a, Q a → Sure (f a) R) : Sure (x >>= f) R := by
  refine ⟨avoids_bind_iff.2 ⟨hx.inStep, fun a ha => (hf a (hx.ok ha)).inStep⟩, fun h => ?_⟩
  obtain ⟨a, ha, h⟩ := bind_eq_ok.1 h
  exact (hf a (hx.ok ha)).ok h

theorem of_inStep (h : InStep x) : Sure x fun _ => True := ⟨h, fun _ => trivial⟩

theorem ite {p : Prop} [Decidable p] (hx : p → Sure x Q) (hy : ¬ p → Sure y Q) :
    Sure (if p then x else y) Q := by
  split
  · exact hx ‹_›
  · exact hy ‹_›

theorem foldlM {f : β → α → Checked β} {xs : List α} {b : β} (hf : ∀ a ∈ xs, ∀ b, R b → Sure (f b a) R)
    (hb : R b) : Sure (xs.foldlM f b) R := by
  induction xs generalizing b with
  | nil => exact pure hb
  | cons a xs ih => exact bind (hf a (.head _) b hb) fun b' hb' => ih (fun x hx => hf x (.tail _ hx)) hb'

end Sure

namespace Graph

variable {e : EdgeId} {l : Link} {n source dest tail head : MoveId} {r : Reg} {dep : Dependence}
  {u : EdgeRecord} {s : Graph × EdgeRecord} {m : Move} {force : Bool}
  {f : Graph × EdgeRecord → EdgeId × Link → Checked (Graph × EdgeRecord)} {xs : List (EdgeId × Link)}
  {a b : MoveId} {α : Type}

@[simp] theorem inStep_fetch {k : Kind} {xs : Array α} {i : Id k} : InStep (i.fetch xs) :=
  avoids_fetch id id

@[simp] theorem inStep_move : InStep (g.move n) := inStep_fetch

@[simp] theorem inStep_op {o : OpId} : InStep (g.op o) := inStep_fetch

@[simp] theorem inStep_connect : InStep (g.connect tail head dep) := by
  simp [connect, isLive, Fault.OutOfStep]

@[simp] theorem inStep_growEdge : InStep (g.growEdge u tail head dep) := by
  simp [growEdge, ensureEdge, hasEdge]

@[simp] theorem inStep_excluding : InStep (g.excluding a b) := by simp [excluding]

@[simp] theorem inStep_bypassedEdges : InStep (g.bypassedEdges source dest r) := by
  simp [bypassedEdges, connecting]

@[simp] theorem inStep_hasPath : InStep (g.hasPath a b) := by simp [hasPath]

@[simp] theorem inStep_canMerge : InStep (g.canMerge source dest force) := by
  unfold canMerge
  refine avoids_ite_iff.2 ⟨fun _ => avoids_pure _, fun _ => avoids_bind inStep_move fun s => ?_⟩
  refine avoids_ite_iff.2 ⟨fun _ => avoids_bind inStep_move fun d => ?_, fun _ => avoids_pure _⟩
  refine avoids_ite_iff.2 ⟨fun _ => ?_, fun _ => avoids_pure _⟩
  split
  case h_2 => exact avoids_pure _
  refine avoids_bind inStep_bypassedEdges fun raw => avoids_ite_iff.2 ⟨fun _ => avoids_pure _, fun _ => ?_⟩
  refine avoids_ite_iff.2 ⟨fun _ => avoids_pure _, fun _ => ?_⟩
  split
  case h_2 => exact avoids_pure _
  refine avoids_bind (avoids_anyM fun x _ => ?_) fun _ => avoids_pure _
  simp

@[simp] theorem inStep_bridge {inc out : Link} : InStep (g.bridge inc out) := by
  unfold bridge
  refine avoids_ite_iff.2 ⟨fun _ => ?_, fun _ => avoids_pure _⟩
  dsimp only
  split <;> simp [addByte, addBelow, Fault.OutOfStep]

/-! ### Walks over edges that are there -/

theorem inStep_removeEdge (hl : ∃ l, g.link? e = some l ∧ l.live) : InStep (g.removeEdge e) := by
  obtain ⟨l, hl, hlive⟩ := hl
  refine avoids_bind_iff.2 ⟨inStep_fetch, fun l' hl' => ?_⟩
  cases hl.symm.trans (link?_of_link hl')
  simp [hlive]

theorem inStep_cutOrRetag {gone : Bool} (hl : ∃ l, g.link? e = some l ∧ l.live) :
    InStep (g.cutOrRetag u e r gone) := by
  refine avoids_ite_iff.2 ⟨fun _ => ?_, fun _ => avoids_pure _⟩
  exact avoids_bind (inStep_removeEdge hl) fun _ => avoids_pure _

/-- Edges that are there, each visited once and touched only by its own visit, are there when visited. -/
theorem inStep_walk {σ : Type} (graph : σ → Graph) (edge : α → EdgeId) {f : σ → α → Checked σ} {xs : List α}
    {s : σ} (hf : ∀ s a, (∃ l, (graph s).link? (edge a) = some l ∧ l.live) → InStep (f s a))
    (hother : ∀ s s' a e, f s a = .ok s' → e ≠ edge a → (graph s').link? e = (graph s).link? e)
    (hnodup : (xs.map edge).Nodup) (hlive : ∀ a ∈ xs, ∃ l, (graph s).link? (edge a) = some l ∧ l.live) :
    InStep (xs.foldlM f s) := by
  refine avoids_walk (fun xs s => (xs.map edge).Nodup ∧ ∀ a ∈ xs, ∃ l, (graph s).link? (edge a) = some l ∧ l.live)
    (fun s a xs hs => ⟨hf s a (hs.2 a List.mem_cons_self), fun s' hs' => ?_⟩) ⟨hnodup, hlive⟩
  obtain ⟨⟨hnot, hnodup⟩, hlive⟩ := And.intro (List.nodup_cons.1 hs.1) hs.2
  refine ⟨hnodup, fun b hb => ?_⟩
  have hne : edge b ≠ edge a := fun heq => hnot (heq ▸ List.mem_map_of_mem hb)
  rw [hother s s' a _ hs' hne]
  exact hlive b (List.mem_cons_of_mem a hb)

theorem edges_entries_sublist (es : List EdgeId) : ((g.entries es).map Prod.fst).Sublist es := by
  induction es with
  | nil => exact .slnil
  | cons e es ih =>
    cases hl : g.link? e with
    | none => simpa [entries, hl] using ih.cons e
    | some l => simpa [entries, hl] using ih.cons_cons e

/-- A walk over some edges into or out of a move. -/
theorem Consistent.inStep_walk (hg : s.1.Consistent)
    (hxs : xs.Sublist (s.1.entering n) ∨ xs.Sublist (s.1.leaving n))
    (hf : ∀ s x, (∃ l, s.1.link? x.1 = some l ∧ l.live) → InStep (f s x))
    (hother : ∀ s s' x e, f s x = .ok s' → e ≠ x.1 → s'.1.link? e = s.1.link? e) : InStep (xs.foldlM f s) := by
  refine Graph.inStep_walk Prod.fst Prod.fst hf hother ?_ fun x hx => ?_
  · cases hm : s.1.move? n with
    | none =>
      simp only [entering, leaving, hm, List.sublist_nil, or_self] at hxs
      simp [hxs]
    | some m =>
      rw [entering_eq hm, leaving_eq hm] at hxs
      rcases hxs with hxs | hxs
      · exact (hg.ins_nodup hm).sublist ((hxs.map _).trans (edges_entries_sublist _))
      · exact (hg.outs_nodup hm).sublist ((hxs.map _).trans (edges_entries_sublist _))
  · rcases hxs with hxs | hxs
    · exact ⟨x.2, (hg.mem_entering.1 (hxs.subset hx)).1, (hg.mem_entering.1 (hxs.subset hx)).2.1⟩
    · exact ⟨x.2, (hg.mem_leaving.1 (hxs.subset hx)).1, (hg.mem_leaving.1 (hxs.subset hx)).2.1⟩

namespace Intact

section

variable (hs : s.1.Intact own)
include hs

theorem growEdge (hne : tail ≠ head) : Sure (s.1.growEdge u tail head dep) (·.1.Intact own) := by
  refine ⟨inStep_growEdge, fun h => ?_⟩
  obtain ⟨x, hx, -⟩ := growEdge_eq_ok h
  exact hs.ensureEdge hne hx

theorem inheritIns : Sure (s.1.inheritIns s.2 source dest r) (·.1.Intact own) := by
  refine .foldlM (fun x hx s1 hs1 => ?_) hs
  simp only [List.mem_filter, Bool.not_eq_true', Bool.or_eq_false_iff, decide_eq_false_iff_not] at hx
  exact hs1.growEdge hx.2.1.1.2

theorem inheritOverwrites : Sure (s.1.inheritOverwrites s.2 source dest r) (·.1.Intact own) := by
  refine .foldlM (fun x _ s1 hs1 => .bind (.of_inStep inStep_excluding) fun b _ => ?_) hs
  refine .ite (fun _ => .pure hs1) fun hne => ?_
  simp only [Bool.or_eq_true, decide_eq_true_eq, not_or] at hne
  exact hs1.growEdge (Ne.symm hne.1)

theorem cutOrRetag {gone : Bool} (h : s.1.cutOrRetag u e r gone = .ok s') : s'.1.Intact own := by
  unfold Graph.cutOrRetag at h
  split at h
  · exact hs.removeEdge (cutEdge_eq_ok h).1
  · cases pure_eq_ok.1 h
    unfold retagEdge
    split
    · split
      · exact hs
      · exact hs.tag
    · exact hs

theorem visits (hf : Visits f) (hxs : xs.Sublist (s.1.entering n) ∨ xs.Sublist (s.1.leaving n)) :
    Sure (xs.foldlM f s) (·.1.Intact own) := by
  refine ⟨hs.inStep_walk hxs (fun s1 x hl => ?_) fun s1 s2 x e h hne => ?_,
    fun h => foldlM_keeps (P := fun x => x.1.Intact own) (fun x _ s1 s2 hs1 hstep => ?_) hs h⟩
  all_goals rcases hf s1 x with hsame | ⟨r, gone, hcut⟩
  · exact hsame ▸ avoids_ok _
  · exact hcut ▸ inStep_cutOrRetag hl
  · cases hsame.symm.trans h
    rfl
  · rw [(act_of_cutOrRetag (hcut.symm.trans h)).2, if_neg hne]
  · cases hsame.symm.trans hstep
    exact hs1
  · exact hs1.cutOrRetag (hcut.symm.trans hstep)

end

section

variable (hg : g.Intact own)
include hg

theorem mergeEdges : Sure (g.mergeEdges source dest force) fun x => ∀ y, x = some y → y.1.Intact own := by
  have hend {s : Graph × EdgeRecord} {src : Option Reg} {r : Reg} (hs : s.1.Intact own) :
      Sure (if src = some r then pure (some s) else do return some (← s.1.dropOverwrites s.2 dest r))
        fun x => ∀ y, x = some y → y.1.Intact own :=
    .ite (fun _ => .pure fun _ hy => Option.some.inj hy ▸ hs) fun _ =>
      .bind (hs.visits (fun _ _ => .inr ⟨r, true, rfl⟩) (.inr List.filter_sublist)) fun _ hs' => .pure fun _ hy => Option.some.inj hy ▸ hs'
  refine .bind (.of_inStep inStep_canMerge) fun b _ => .ite (fun _ => ?_) fun _ => .pure nofun
  refine .bind (.of_inStep inStep_move) fun m _ => ?_
  split
  case h_2 => exact .pure nofun
  rename_i r hr
  refine .bind (Q := fun xs => xs.Sublist (g.leaving source)) ⟨inStep_bypassedEdges, fun hxs => ?_⟩ fun xs hxs => ?_
  · simp only [bypassedEdges, connecting, bind_eq_ok, pure_eq_ok] at hxs
    obtain ⟨_, ⟨m', hm', rfl⟩, rfl⟩ := hxs
    rw [← leaving_eq (move?_of_move hm')]
    exact List.filter_sublist.trans List.filter_sublist
  refine .bind (visits (s := (g, {})) hg (fun _ _ => .inr ⟨r, true, rfl⟩) (.inr hxs)) fun s1 hs1 => ?_
  refine .bind hs1.inheritIns fun s2 hs2 => ?_
  dsimp only
  split
  · exact .bind hs2.inheritOverwrites fun s3 hs3 => hend hs3
  · exact hend hs2

theorem retagReads {guardUse : Bool} : Sure (g.retagReads n r guardUse) (·.1.Intact own) :=
  visits (s := (g, {})) hg (fun _ _ => .inr ⟨_, _, rfl⟩) (.inr List.filter_sublist)

theorem bridgeOver : Sure (g.bridgeOver n) (·.1.Intact own) := by
  refine .foldlM (fun out _ s1 hs1 => .foldlM (fun inc _ s2 hs2 => ?_) hs1) hg
  refine .bind (Q := fun d => d.isSome → inc.2.tail ≠ out.2.head) ⟨inStep_bridge, ?_⟩ fun d hne => ?_
  · rintro (_ | d) hd
    exacts [nofun, fun _ => (bridge_eq_some hd).2.2.1]
  split
  · exact hs2.growEdge (hne rfl)
  · exact .pure hs2

theorem retagDest : Sure (g.retagDest n) (·.1.Intact own) := by
  refine .bind (.of_inStep inStep_move) fun m _ => ?_
  split
  · exact .pure hg
  refine .bind hg.bridgeOver fun s1 hs1 => .bind (hs1.visits (fun _ _ => ?_) (.inl (List.Sublist.refl _)))
    fun s2 hs2 => hs2.visits (fun _ _ => ?_) (.inr (List.Sublist.refl _))
  all_goals
    dsimp only
    split
    · exact .inr ⟨_, _, rfl⟩
    · exact .inl rfl

theorem renamedAt {role : Role} : Sure (g.renamedAt n role) (·.1.Intact own) := by
  cases role with
  | dest => exact hg.retagDest
  | source =>
    refine .bind (.of_inStep inStep_move) fun m _ => ?_
    split
    · exact hg.retagReads
    · exact .pure hg
  | guard =>
    refine .bind (.of_inStep inStep_move) fun m _ => ?_
    split
    · exact hg.retagReads
    · exact ⟨by simp [Fault.OutOfStep], nofun⟩

end

end Intact

end Graph

/-! ## Revisions and their records -/

/-- One change to a graph. Moves are rewritten before the edges around them are repaired. -/
inductive Revision
  | mergeEdges (source dest : MoveId) (force : Bool)
  | redirect (source dest : MoveId)
  | rewrite (n : MoveId) (src dst : Terminal) (guard : Option Guard)
  | repair (n : MoveId) (role : Role)
  | ensure (tail head : MoveId) (dep : Dependence)
  | cut (e : EdgeId)
  | remove (n : MoveId)

inductive RevisionRecord
  | edges (u : EdgeRecord)
  | redirected (r : Redirection)
  | rewritten (n : MoveId) (src dst : Terminal) (guard : Option Guard)
  | removed (r : RemovedMove)

/-- Make a revision. A bypass that is not allowed changes nothing. -/
def Revision.perform (g : Graph) : Revision → Checked (Graph × RevisionRecord)
  | .mergeEdges source dest force => do
    match ← g.mergeEdges source dest force with
    | some (g', u) => return (g', .edges u)
    | none => return (g, .edges {})
  | .redirect source dest => do
    let (g, r) ← g.redirect source dest
    return (g, .redirected r)
  | .rewrite n src dst guard => do
    let m ← g.move n
    return ((g.modifyMove n fun m => { m with src, dst, guard }).forgetDistances,
      .rewritten n m.src m.dst m.guard)
  | .repair n role => do
    let (g, u) ← g.renamedAt n role
    return (g, .edges u)
  | .ensure tail head dep => do
    let (g, e) ← g.ensureEdge tail head dep
    return (g, .edges { added := e.toList })
  | .cut e => return (← g.removeEdge e, .edges { removed := [e] })
  | .remove n => do
    let (g, r) ← g.removeMove n
    return (g, .removed r)

def RevisionRecord.undo (g : Graph) : RevisionRecord → Checked Graph
  | .edges u => g.undoEdges u
  | .redirected r => g.undoRedirect r
  | .rewritten n src dst guard => do
    let _ ← g.move n
    return (g.modifyMove n fun m => { m with src, dst, guard }).forgetDistances
  | .removed r => g.restoreMove r

/-- What the revision is about is there: an edge is added between two moves, and what is cut or taken out is in
the graph. -/
def Revision.Legal (g : Graph) : Revision → Prop
  | .ensure tail head _ => tail ≠ head
  | .cut e => ∃ l, g.link? e = some l ∧ l.live
  | .remove n => n ∈ g.moveIds
  | _ => True

/-- Revisions made from `g₀` on and taken back in reverse order, with the records that are left. -/
inductive Revised (g₀ : Graph) : Graph → List RevisionRecord → Prop
  | refl : Revised g₀ g₀ []
  | perform {g g' : Graph} {us : List RevisionRecord} {c : Revision} {u : RevisionRecord} (before : Revised g₀ g us)
      (legal : c.Legal g) (performs : c.perform g = .ok (g', u)) : Revised g₀ g' (u :: us)
  | undo {g g' : Graph} {us : List RevisionRecord} {u : RevisionRecord} (before : Revised g₀ g (u :: us))
      (undoes : u.undo g = .ok g') : Revised g₀ g' us

namespace Revision

variable {g' h h' : Graph} {c : Revision} {u : RevisionRecord}

/-- What a revision that is made does to the graph. -/
inductive Performs (g : Graph) : Graph → RevisionRecord → Prop
  | redraw {g' : Graph} {u : EdgeRecord} (keeps : ∀ own, g.Intact own → g'.Intact own)
      (records : g.Records u g') : Performs g g' (.edges u)
  | redirect {source dest : MoveId} {g' : Graph} {r : Redirection}
      (redirects : g.redirect source dest = .ok (g', r)) : Performs g g' (.redirected r)
  | rewrite {n : MoveId} {m : Move} {src dst : Terminal} {guard : Option Guard} (move : g.move n = .ok m) :
      Performs g (g.modifyMove n fun m => { m with src, dst, guard }).forgetDistances
        (.rewritten n m.src m.dst m.guard)
  | remove {n : MoveId} {g' : Graph} {r : RemovedMove} (live : n ∈ g.moveIds)
      (removes : g.removeMove n = .ok (g', r)) : Performs g g' (.removed r)

theorem performs_of_perform (hg : g.Intact own) (hlegal : c.Legal g) (h : c.perform g = .ok (g', u)) :
    Performs g g' u := by
  have hlinked := hg.toLinked
  cases c <;> simp only [perform, bind_eq_ok, pure_eq_ok, Prod.mk.injEq] at h
  case mergeEdges source dest force =>
    obtain ⟨x, hx, h⟩ := h
    cases x with
    | none =>
      simp only [pure_eq_ok, Prod.mk.injEq] at h
      obtain ⟨rfl, rfl⟩ := h
      exact .redraw (fun _ => id) .refl
    | some x =>
      simp only [pure_eq_ok, Prod.mk.injEq] at h
      obtain ⟨rfl, rfl⟩ := h
      exact .redraw (fun _ hg => hg.mergeEdges.ok hx _ rfl) (Graph.records_of_mergeEdges hlinked hx)
  case redirect source dest =>
    obtain ⟨x, hx, rfl, rfl⟩ := h
    exact .redirect hx
  case rewrite n src dst guard =>
    obtain ⟨m, hm, rfl, rfl⟩ := h
    exact .rewrite hm
  case repair n role =>
    obtain ⟨x, hx, rfl, rfl⟩ := h
    exact .redraw (fun _ hg => hg.renamedAt.ok hx)
      (Graph.records_of_renamedAt hlinked (fun _ => hg.not_overwritesItself) hx)
  case ensure tail head dep =>
    obtain ⟨x, hx, rfl, rfl⟩ := h
    have hgrow : g.growEdge {} tail head dep = .ok (x.1, { added := x.2.toList }) :=
      bind_eq_ok.2 ⟨x, hx, rfl⟩
    exact .redraw (fun _ hg => hg.ensureEdge hlegal hx) (Graph.Records.refl.growEdge hgrow)
  case cut e =>
    obtain ⟨x, hx, rfl, rfl⟩ := h
    exact .redraw (fun _ hg => hg.removeEdge hx) (Graph.records_of_removeEdge hx)
  case remove n =>
    obtain ⟨x, hx, rfl, rfl⟩ := h
    exact .remove hlegal hx

namespace Performs

theorem intact (hp : Performs g g' u) (hg : g.Intact own) : g'.Intact own := by
  cases hp with
  | redraw hr => exact hr own hg
  | redirect hr => exact hg.redirect hr
  | rewrite hm =>
    exact hg.alters (Graph.alters_of_modifyMove rfl) (fun _ => rfl) (fun _ => rfl) (fun _ => rfl)
      (.inl fun _ => rfl)
  | remove _ hr => exact hg.removeMove hr

theorem resembles_of_undo (hp : Performs g g' u) (hr : g'.Resembles h') (hundo : u.undo h' = .ok h) :
    g.Resembles h := by
  cases hp with
  | redraw _ hu => exact hu.resembles_of_undoEdges hr hundo
  | redirect hred =>
    obtain ⟨h0, hh0, hrel⟩ := Graph.undoRedirect_of_redirect hred hr
    cases hh0.symm.trans hundo
    exact hrel
  | @rewrite n m src dst guard hm =>
    obtain ⟨m', hm', hundo⟩ := bind_eq_ok.1 hundo
    cases pure_eq_ok.1 hundo
    refine (Graph.alters_of_modifyMove rfl).undo hr (Graph.alters_of_modifyMove rfl) (fun x x' hx hx' => ?_)
      (fun _ _ _ => rfl) (fun _ => rfl) (fun _ => rfl) rfl rfl
    cases (Graph.move?_of_move hm).symm.trans hx
    have hback := congrArg (fun x : Move => { x with src := m.src, dst := m.dst, guard := m.guard }) hx'
    exact hback
  | remove hlive hrem =>
    obtain ⟨m, hm, hl⟩ := Graph.mem_moveIds.1 hlive
    exact Graph.resembles_of_restoreMove hm hl hrem hr hundo

theorem exists_undo (hp : Performs g g' u) (hr : g'.Resembles h') (hfit : g'.EdgesFit) :
    ∃ h, u.undo h' = .ok h := by
  cases hp with
  | redraw _ hu =>
    obtain ⟨h, hh, -⟩ := hu.undo hr hfit
    exact ⟨h, hh⟩
  | redirect hred =>
    obtain ⟨h, hh, -⟩ := Graph.undoRedirect_of_redirect hred hr
    exact ⟨h, hh⟩
  | @rewrite n m src dst guard hm =>
    have hknown : (g.modifyMove n fun m => { m with src, dst, guard }).forgetDistances.move? n =
        some { m with src, dst, guard } := by
      simp [Graph.move?_of_move hm]
    obtain ⟨m', hm', -⟩ := hr.moves.move? hknown
    exact ⟨_, bind_eq_ok.2 ⟨m', Graph.move_eq_ok.2 ⟨(Graph.move_eq_ok.1 hm).1, hm'⟩, rfl⟩⟩
  | remove hlive hrem =>
    obtain ⟨m, hm, hl⟩ := Graph.mem_moveIds.1 hlive
    obtain ⟨h, hh, -⟩ := Graph.restoreMove_of_removeMove hm hl hrem hr hfit
    exact ⟨h, hh⟩

end Performs

end Revision

/-! ## Runs -/

/-- Behind the records that are left stand the graphs they were made from, each as good as in order. -/
def Tracked (own : MoveId → Prop) : Graph → List RevisionRecord → Prop
  | g, [] => g.Intact own
  | g, u :: us => ∃ g₁ g₂, Tracked own g₁ us ∧ Revision.Performs g₁ g₂ u ∧ g₂.Resembles g

namespace Tracked

variable {h : Graph} {us : List RevisionRecord}

theorem intact (ht : Tracked own g us) : g.Intact own := by
  induction us generalizing g with
  | nil => exact ht
  | cons u us ih =>
    obtain ⟨g₁, g₂, hbefore, hp, hr⟩ := ht
    exact (hp.intact (ih hbefore)).resembles hr

theorem resembles (ht : Tracked own g us) (hr : g.Resembles h) : Tracked own h us := by
  cases us with
  | nil => exact Graph.Intact.resembles ht hr
  | cons u us =>
    obtain ⟨g₁, g₂, hbefore, hp, hr'⟩ := ht
    exact ⟨g₁, g₂, hbefore, hp, hr'.trans hr⟩

end Tracked

theorem Revised.tracked {g₀ : Graph} {us : List RevisionRecord} (hg : g₀.Intact own)
    (hrun : Revised g₀ g us) : Tracked own g us := by
  induction hrun with
  | refl => exact hg
  | perform _ hlegal hperform ih =>
    have hp := Revision.performs_of_perform ih.intact hlegal hperform
    exact ⟨_, _, ih, hp, .refl (hp.intact ih.intact).toConsistent⟩
  | undo _ hundo ih =>
    obtain ⟨g₁, g₂, hbefore, hp, hr⟩ := ih
    exact hbefore.resembles (hp.resembles_of_undo hr hundo)

namespace Graph

variable {n : MoveId}

/-! ### Moves that are taken out -/

/-- An edge is in both lists of the move. -/
def DependsOnItself (g : Graph) (n : MoveId) : Prop := ∃ m e, g.move n = .ok m ∧ e ∈ m.ins ∧ e ∈ m.outs

/-- Edges that are known can only be gone already, and one that is listed twice is. -/
theorem not_inStep_removeEdges {es : List EdgeId} (hes : ∀ e ∈ es, ∃ l, g.link e = .ok l) (hdup : ¬ es.Nodup) :
    ¬ InStep (es.foldlM removeEdge g) := by
  have hknown : Avoids (fun f => ¬ f.OutOfStep) (es.foldlM removeEdge g) := by
    refine avoids_walk (fun es g => ∀ e ∈ es, ∃ l, g.link e = .ok l) (fun g e es hes => ?_) hes
    obtain ⟨l, hl⟩ := hes e List.mem_cons_self
    refine ⟨avoids_bind_iff.2 ⟨hl ▸ avoids_ok l, fun _ _ => by simp [Fault.OutOfStep]⟩, fun g' hg' x hx => ?_⟩
    obtain ⟨lx, hlx⟩ := hes x (List.mem_cons_of_mem e hx)
    obtain ⟨hvalid, hlx⟩ := link_eq_ok.1 hlx
    have hx' := (flips_of_removeEdge hg').link? x
    rw [hlx] at hx'
    split at hx'
    · exact ⟨_, link_eq_ok.2 ⟨hvalid, hx'⟩⟩
    · exact ⟨_, link_eq_ok.2 ⟨hvalid, hx'⟩⟩
  intro hin
  cases hrun : es.foldlM removeEdge g with
  | ok g' =>
    have hrec := Records.refl.removeEdges rfl hrun
    exact hdup hrec.removed_nodup
  | error f =>
    by_cases hf : f.OutOfStep
    · exact hin f hf hrun
    · exact hknown f hf hrun

theorem Intact.inStep_removeMove_iff (hg : g.Intact own) (hfit : g.EdgesFit) :
    InStep (g.removeMove n) ↔ ¬ g.DependsOnItself n := by
  constructor
  · rintro hin ⟨m, e, hm, hein, heout⟩
    have hopen : m.isPlaced = false := by simp [Move.isPlaced, hg.unplaced (move?_of_move hm)]
    obtain ⟨-, hrest⟩ := avoids_bind_iff.1 hin
    have hrest := hrest m hm
    rw [hopen, if_neg Bool.false_ne_true] at hrest
    refine not_inStep_removeEdges (fun x hx => ?_) (fun hnodup => ?_) (avoids_bind_iff.1 hrest).1
    · have hknown : ∃ l, g.link? x = some l := by
        rcases List.mem_append.1 hx with hx | hx
        · obtain ⟨l, hl, -⟩ := (hg.mem_ins (move?_of_move hm)).1 hx
          exact ⟨l, hl⟩
        · obtain ⟨l, hl, -⟩ := (hg.mem_outs (move?_of_move hm)).1 hx
          exact ⟨l, hl⟩
      obtain ⟨l, hl⟩ := hknown
      exact ⟨l, link_eq_ok.2 ⟨hfit.ne_invalid hl, hl⟩⟩
    · exact List.disjoint_of_nodup_append hnodup hein heout
  · intro hno
    refine avoids_bind_iff.2 ⟨inStep_move, fun m hm => ?_⟩
    refine avoids_ite_iff.2 ⟨fun _ => by simp [Fault.OutOfStep], fun _ => avoids_bind ?_ fun g₁ => ?_⟩
    · refine inStep_walk id id (fun _ _ => inStep_removeEdge) (fun g₁ g₂ e x h hne => ?_) ?_ fun e he => ?_
      · exact (flips_of_removeEdge h).link? x |>.trans (if_neg (by simpa using hne))
      · rw [List.map_id]
        exact (hg.ins_nodup (move?_of_move hm)).append (hg.outs_nodup (move?_of_move hm))
          fun e hin hout => hno ⟨m, e, hm, hin, hout⟩
      · rcases List.mem_append.1 he with he | he
        · obtain ⟨l, hl, hlive, -⟩ := (hg.mem_ins (move?_of_move hm)).1 he
          exact ⟨l, hl, hlive⟩
        · obtain ⟨l, hl, hlive, -⟩ := (hg.mem_outs (move?_of_move hm)).1 he
          exact ⟨l, hl, hlive⟩
    · refine avoids_bind ?_ fun _ => avoids_pure _
      unfold outputSlot
      split <;> simp

end Graph

/-- What is there is found there, but for the edge of a move to itself. -/
theorem Revision.not_inStep_iff {c : Revision} (hg : g.Intact own) (hfit : g.EdgesFit)
    (hlegal : c.Legal g) : ¬ InStep (c.perform g) ↔ ∃ n, c = .remove n ∧ g.DependsOnItself n := by
  cases c with
  | remove n =>
    have hperform : InStep (Revision.perform g (.remove n)) ↔ InStep (g.removeMove n) := by simp [Revision.perform]
    simp [hperform, hg.inStep_removeMove_iff hfit]
  | mergeEdges source dest force =>
    have hin : InStep (Revision.perform g (.mergeEdges source dest force)) := by
      refine avoids_bind hg.mergeEdges.inStep fun x => ?_
      split <;> exact avoids_pure _
    simp [hin]
  | redirect source dest =>
    have hin : InStep (Revision.perform g (.redirect source dest)) := by
      refine avoids_bind (avoids_bind Graph.inStep_move fun s => avoids_bind Graph.inStep_move fun d => ?_)
        fun _ => avoids_pure _
      refine avoids_bind ?_ fun _ => avoids_pure _
      unfold Graph.sourceUnits
      split <;> simp
    simp [hin]
  | rewrite n src dst guard => simp [Revision.perform]
  | repair n role =>
    have hin : InStep (Revision.perform g (.repair n role)) :=
      avoids_bind hg.renamedAt.inStep fun _ => avoids_pure _
    simp [hin]
  | ensure tail head dep => simp [Revision.perform, Graph.ensureEdge, Graph.hasEdge]
  | cut e => simp [Revision.perform, Graph.inStep_removeEdge hlegal]

/-! ## Built graphs -/

namespace Program

variable {p : Program} {machine : Machine} {g₀ g : Graph} {us : List RevisionRecord}

/-- The move at `i` starts the operation that it reads from. -/
def StartsOwnSource (p : Program) (i : Nat) : Prop :=
  ∃ a k, p.moves[i]? = some a ∧ a.dst.isTrigger ∧ a.dstOp = some k ∧ a.srcOp = some k

theorem intact_of_graph (h : p.graph machine = .ok g) : g.Intact fun n => p.StartsOwnSource n.val := by
  have hd := graph_drawn h
  obtain ⟨-, hfresh⟩ := graph_formed h
  refine ⟨consistent_of_graph h, hfresh.pending, fun {e l} hl _ => ?_, fun {e l} hl hlive hself => ?_⟩
  · obtain ⟨-, ht, hh⟩ := hd.unbroken e l hl
    obtain ⟨mt, hmt⟩ := hd.linked.tail_known hl
    obtain ⟨mh, hmh⟩ := hd.linked.head_known hl
    exact ⟨⟨mt, Graph.move_eq_ok.2 ⟨ht, hmt⟩, hfresh.live hmt⟩, ⟨mh, Graph.move_eq_ok.2 ⟨hh, hmh⟩, hfresh.live hmh⟩⟩
  · refine ⟨hd.apart hl hself, ?_⟩
    rcases (hd.arc _ _ _).1 (.of_link hl hlive) with hflow | ⟨-, a, b, k, ha, hb, hk, hstage⟩
    · obtain ⟨_, a, _, _, w, _, -, -, hw, ha, hfollows, -⟩ := Flow.exists_of_draws (Flow.mem_edges.1 hflow)
      simp [Flow.follows, hw, ha, hself] at hfollows
    · rw [← hself, ha] at hb
      cases hb
      rcases hstage with ⟨-, hno, hyes⟩ | ⟨htrigger, hsrc⟩
      · rw [hno] at hyes
        cases hyes
      · exact ⟨a, k, ha, htrigger, hk, hsrc⟩

/-- After any revisions of a built graph, some of them taken back, the edge lists hold the edges of the table, each
once and in its place, and all edges are between moves of the graph. A move with an edge to itself starts the
operation that it reads from. The last revision can be taken back, and of the next ones only taking out a move
with an edge to itself finds an edge gone that should be there. -/
theorem revised_in_step (hbuild : p.graph machine = .ok g₀) (hrun : Revised g₀ g us) (hfit : g.EdgesFit) :
    g.Consistent ∧
    (∀ e l, g.link? e = some l → l.live → l.tail ∈ g.moveIds ∧ l.head ∈ g.moveIds ∧
      (l.tail = l.head → p.StartsOwnSource l.tail.val)) ∧
    (∀ u us', us = u :: us' → ∃ g', u.undo g = .ok g') ∧
    ∀ c : Revision, c.Legal g →
      ((∃ f, c.perform g = .error f ∧ f.OutOfStep) ↔ ∃ n, c = .remove n ∧ g.DependsOnItself n) := by
  have htracked := hrun.tracked (intact_of_graph hbuild)
  have hg := htracked.intact
  refine ⟨hg.toConsistent, fun e l hl hlive => ?_, ?_, fun c hlegal => ?_⟩
  · obtain ⟨⟨mt, hmt, hlt⟩, ⟨mh, hmh, hlh⟩⟩ := hg.attached hl hlive
    exact ⟨Graph.mem_moveIds.2 ⟨mt, Graph.move?_of_move hmt, hlt⟩, Graph.mem_moveIds.2 ⟨mh, Graph.move?_of_move hmh, hlh⟩,
      fun hself => (hg.selves hl hlive hself).2⟩
  · rintro u us' rfl
    obtain ⟨g₁, g₂, -, hp, hr⟩ := htracked
    refine hp.exists_undo hr (Nat.le_trans ?_ hfit)
    exact Graph.links_size_le fun e l hl => ⟨l, hr.links hl⟩
  · rw [← Revision.not_inStep_iff hg hfit hlegal]
    simp only [InStep, Avoids, ne_eq, not_forall, not_not, exists_prop, and_comm]

/-- The sum that is read once is bypassed, its result move is taken out and put back. -/
theorem revised_in_step_entangled : ∃ g₀ g u us, HandsOut.entangled.graph adder = .ok g₀ ∧ Revised g₀ g (u :: us) ∧
    g.EdgesFit ∧ g.Consistent ∧ ∃ g', u.undo g = .ok g' := by
  have hall : (HandsOut.entangled.graph adder).toOption.any fun g₀ =>
      (Revision.perform g₀ (.mergeEdges ⟨2⟩ ⟨3⟩ false)).toOption.any fun x =>
        decide (⟨2⟩ ∈ x.1.moveIds) && (Revision.perform x.1 (.remove ⟨2⟩)).toOption.any fun y =>
          (y.2.undo y.1).toOption.any fun g => decide g.EdgesFit := by decide +kernel
  obtain ⟨g₀, hg₀, h⟩ := exists_ok_of_any hall
  obtain ⟨x, hx, h⟩ := exists_ok_of_any h
  simp only [Bool.and_eq_true, decide_eq_true_eq] at h
  obtain ⟨y, hy, hback⟩ := exists_ok_of_any h.2
  obtain ⟨g, hg, hfit⟩ := exists_ok_of_any hback
  have hmerged : Revised g₀ x.1 [x.2] := .perform (c := .mergeEdges ⟨2⟩ ⟨3⟩ false) .refl trivial hx
  have hrun : Revised g₀ g [x.2] := (hmerged.perform (c := .remove ⟨2⟩) h.1 hy).undo hg
  obtain ⟨hc, -, hundo, -⟩ := revised_in_step hg₀ hrun (of_decide_eq_true hfit)
  exact ⟨g₀, g, x.2, [], hg₀, hrun, of_decide_eq_true hfit, hc, hundo _ _ rfl⟩

/-- The sum of an addition starts the addition. -/
def startsOnItself : Program where
  operations := #[{ opcode := "add" }]
  moves := #[{ src := .output 2, dst := .input 1 true, srcOp := some 0, dstOp := some 0 }]
  liveOut := some ∅

/-- The one edge leads from the move to itself, and the move cannot be taken out. -/
theorem startsOnItself_edge_gone : ∃ g, startsOnItself.graph adder = .ok g ∧
    g.link? ⟨0⟩ = some { tail := ⟨0⟩, head := ⟨0⟩, dep := .operation } ∧
      g.removeMove ⟨0⟩ = .error (.removesDeadEdge ⟨0⟩) := by
  obtain ⟨g, hg, h⟩ := exists_ok_of_any (x := startsOnItself.graph adder)
    (p := fun g => decide (g.link? ⟨0⟩ = some { tail := ⟨0⟩, head := ⟨0⟩, dep := .operation }) &&
      decide ((g.removeMove ⟨0⟩).map (fun _ => ()) = .error (.removesDeadEdge ⟨0⟩))) (by decide +kernel)
  simp only [Bool.and_eq_true, decide_eq_true_eq] at h
  refine ⟨g, hg, h.1, ?_⟩
  cases hrun : g.removeMove ⟨0⟩ with
  | ok x => rw [hrun] at h; cases h.2
  | error f => rw [hrun] at h; cases h.2; rfl

end Program

end Transport
