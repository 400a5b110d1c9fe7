import Transport.Bypassing
import Transport.Proofs.Scheduling.Invariant

/-!
# Bypasses, removals and the way back

A bypass moves the edges of a read and redirects the operand, and a producer without readers is taken
out. Both leave the graph `Upheld`, and both can be taken back later: `Unbypassable` and `Restorable`
say what that takes. The edges that come back have to fit the moves they connect, and these may have
changed in the meantime.
-/

namespace Transport

theorem Dependence.isRaw_of_carries_war {d : Dependence} {r : Reg} (h : d.carries .war r) :
    d.isRaw = false := by
  rw [Dependence.carries_iff] at h
  simp [Dependence.isRaw, h.1.2]

namespace Graph

variable {machine : Machine} {g0 g g1 g' : Graph} {source dest n : MoveId} {r : Reg} {s d m : Move}
  {u : EdgeRecord} {red : Redirection} {rm : RemovedMove} {e : EdgeId} {l : Link} {f : Move → Move}

/-! ## Bypasses -/

/-- A bypass of an operand that has no place. -/
structure Bypasses (g : Graph) (source dest : MoveId) (u : EdgeRecord) (red : Redirection)
    (g' : Graph) : Prop where
  sole : g.soleSource dest = some source
  producer : ∃ s, g.move? source = some s ∧ g.isBypassable s
  consumer : ∃ d, g.move? dest = some d ∧ d.isOperand ∧ d.placement = none
  merges : ∃ g₁, g.mergeEdges source dest false = .ok (some (g₁, u)) ∧
    g₁.redirect source dest = .ok (g', red)

/-- What a bypass of the register `r` does: the edges move, then `dest` reads what `source` reads. -/
structure Diverts (g : Graph) (source dest : MoveId) (r : Reg) (s d : Move) (u : EdgeRecord)
    (red : Redirection) (g₁ g' : Graph) : Prop where
  producer : g.move? source = some s
  consumer : g.move? dest = some d
  bypassable : g.isBypassable s
  free : s.src.reg? = none
  writes : s.dst = .register r
  reads : d.src = .register r
  operand : d.isOperand
  pending : d.placement = none
  live : s.live ∧ d.live
  merges : g.Merges source dest r g₁ u
  /-- No other value reaches the operand. -/
  sole {e : EdgeId} {l : Link} : g.link? e = some l → l.live → l.head = dest → l.dep.isRaw →
    l.dep.guardUse = false → Bypassed source dest r l
  redirection : red = { move := dest, src := d.src, srcOp := d.srcOp, srcUnits := d.srcUnits,
                        linkedOp := s.srcOp }
  redirects : ∃ f, g₁.Alters dest f (addOutputTo s.srcOp dest) g' ∧
    ∀ m, ∃ units, f m = { m with src := s.src, srcOp := s.srcOp, srcUnits := units }

/-- The only producer is at the other end of the only edge that carries the value. -/
theorem edge_of_soleSource (hg : g.Linked) (h : g.soleSource dest = some source) :
    ∃ e0 l0, g.link? e0 = some l0 ∧ l0.live ∧ l0.head = dest ∧ l0.tail = source ∧ l0.dep.isRaw ∧
      l0.dep.guardUse = false ∧ ∀ e l, g.link? e = some l → l.live → l.head = dest → l.dep.isRaw →
        l.dep.guardUse = false → l.dep.headPseudo = false → l = l0 := by
  unfold soleSource at h
  dsimp only at h
  split at h
  case h_2 => cases h
  rename_i e0 l0 hraw
  cases h
  have hmem : (e0, l0) ∈ (g.entering dest).filter fun x =>
      x.2.dep.isRaw && !x.2.dep.guardUse && !x.2.dep.headPseudo := by
    rw [hraw]
    exact List.mem_singleton_self _
  obtain ⟨hin, hdep⟩ := List.mem_filter.1 hmem
  obtain ⟨hl0, hlive0, hhead0⟩ := hg.mem_entering.1 hin
  simp only [Bool.and_eq_true, Bool.not_eq_true'] at hdep
  refine ⟨e0, l0, hl0, hlive0, hhead0, rfl, hdep.1.1, hdep.1.2, fun e l hl hlive hhead hr hu hp => ?_⟩
  have hother : (e, l) ∈ (g.entering dest).filter fun x =>
      x.2.dep.isRaw && !x.2.dep.guardUse && !x.2.dep.headPseudo :=
    List.mem_filter.2 ⟨hg.mem_entering.2 ⟨hl, hlive, hhead⟩, by simp [hr, hu, hp]⟩
  rw [hraw, List.mem_singleton] at hother
  exact congrArg Prod.snd hother

/-- What a bypassable move reads is no register. -/
theorem reg?_of_isBypassable (hg : g.Matched machine) (hs : g.move? source = some s)
    (h : g.isBypassable s) : s.src.reg? = none := by
  have hsrc : s.isResult ∨ s.src.isImmediate := by
    simp only [isBypassable, Bool.and_eq_true, Bool.or_eq_true] at h
    exact h.1
  rcases hsrc with hres | himm
  · have hout : s.src.isOutput := (hg.src_output hs).symm.trans hres
    revert hout
    cases s.src <;> simp [Terminal.isOutput, Terminal.reg?]
  · revert himm
    cases s.src <;> simp [Terminal.isImmediate, Terminal.reg?]

theorem Bypasses.diverts_of_live (h : g.Bypasses source dest u red g') (hm : g.Matched machine)
    (hg : g.Linked) (ht : ∀ e l, g.link? e = some l → l.live → g.RawOk l ∧ l.dep.isPseudo = false) :
    ∃ r s d g1, g.Diverts source dest r s d u red g1 g' := by
  obtain ⟨s, hs, hby⟩ := h.producer
  obtain ⟨d, hd, hop, hpend⟩ := h.consumer
  obtain ⟨g1, hmerge, hred⟩ := h.merges
  have hfree := reg?_of_isBypassable hm hs hby
  obtain ⟨r, hr, hmerges⟩ := merges_of_mergeEdges hg hs hfree hmerge
  obtain ⟨e0, l0, hl0, hlive0, hhead0, htail0, hraw0, huse0, huniq⟩ := edge_of_soleSource hg h.sole
  obtain ⟨r', mt, mh, htag, hmt, hmh, hdst, hsrc, -⟩ := (ht _ _ hl0 hlive0).1 hraw0
  rw [htail0, hs] at hmt
  cases hmt
  rw [hhead0, hd] at hmh
  cases hmh
  have hr' : r' = r := by
    rw [hdst] at hr
    exact Option.some.inj hr
  subst hr'
  obtain ⟨s1, d1, f, hs1, hd1, hrec, hf, hfm⟩ := alters_of_redirect hred
  obtain ⟨s1', hs1', hsb⟩ := hmerges.rewires.moves.move? hs
  obtain ⟨d1', hd1', hdb⟩ := hmerges.rewires.moves.move? hd
  rw [hs1] at hs1'
  cases hs1'
  rw [hd1] at hd1'
  cases hd1'
  have hss : s1.src = s.src ∧ s1.srcOp = s.srcOp := by
    rw [Move.eq_of_bare hsb]
    exact ⟨rfl, rfl⟩
  have hdd : d1.src = d.src ∧ d1.srcOp = d.srcOp ∧ d1.srcUnits = d.srcUnits := by
    rw [Move.eq_of_bare hdb]
    exact ⟨rfl, rfl, rfl⟩
  obtain ⟨s2, d2, hs2, hslive, hd2, hdlive⟩ := hmerges.live
  rw [hs] at hs2
  cases hs2
  rw [hd] at hd2
  cases hd2
  refine ⟨r', s, d, g1, ⟨hs, hd, hby, hfree, hdst, hsrc huse0, hop, hpend, ⟨hslive, hdlive⟩, hmerges, ?_,
    ?_, ?_⟩⟩
  · intro e l hl hlive hhead hraw huse
    have hpseudo := (ht _ _ hl hlive).2
    rw [huniq e l hl hlive hhead hraw huse (by simp_all [Dependence.isPseudo])]
    refine ⟨htail0, hhead0, ?_, huse0⟩
    simp_all [Dependence.carries, Dependence.isRaw]
  · rw [hrec, hss.2, hdd.1, hdd.2.1, hdd.2.2]
  · rw [← hss.1, ← hss.2]
    exact ⟨f, hf, hfm⟩

/-- Redirected to an operation's result, a move is one more of its outputs. -/
theorem Matched.redirects (hg : g.Matched machine) (hs : g.move? source = some s)
    (hd : g.move? dest = some d) (hlive : d.live) (hnone : d.srcOp = none)
    (ha : g.Alters dest f (addOutputTo s.srcOp dest) g')
    (hf : ∃ units, f d = { d with src := s.src, srcOp := s.srcOp, srcUnits := units }) :
    g'.Matched machine := by
  obtain ⟨units, hf⟩ := hf
  have hfresh (o : OpId) (op : Operation) (ho : g.op? o = some op) : dest ∉ op.outputs := by
    intro hmem
    obtain ⟨ho', -⟩ := of_some ((hg.mem_outputs ho).1 hmem) hd
    rw [hnone] at ho'
    cases ho'
  refine ha.matched hg hd (by rw [hf]) (by rw [hf]) ?_ ?_ (fun _ _ => rfl) (P := (s.srcOp = some ·)) ?_
    (fun o op ho => by simp [addOutputTo, ho]) ?_
  · intro o ho
    rw [hf] at ho
    exact hg.src_known hs ho
  · have hout := hg.src_output hs
    rw [hf]
    exact hout
  · intro o ho
    simpa [hf, hnone] using ho
  · intro o op heq ho
    simp only [addOutputTo, heq, if_true, List.nodup_append, hf]
    refine ⟨⟨hg.outputs_nodup ho, by simp, ?_⟩, fun x => ?_⟩
    · rintro x hx y hy rfl
      exact hfresh o op ho (List.mem_singleton.1 hy ▸ hx)
    · by_cases hx : x = dest <;> simp [hx, hlive]

theorem Diverts.matched (h : g.Diverts source dest r s d u red g1 g') (hg : g.Matched machine) :
    g'.Matched machine := by
  obtain ⟨f, ha, hf⟩ := h.redirects
  have hrew := h.merges.rewires
  obtain ⟨d1, hd1, hdb⟩ := hrew.moves.move? h.consumer
  obtain ⟨s1, hs1, hsb⟩ := hrew.moves.move? h.producer
  have hdeq := Move.eq_of_bare hdb
  have hseq := Move.eq_of_bare hsb
  have hlive : d1.live := by rw [hdeq]; exact h.live.2
  have hnone : d1.srcOp = none := by
    have hout := hg.src_output h.consumer
    rw [h.reads] at hout
    rw [hdeq]
    simpa [Terminal.isOutput] using hout
  obtain ⟨units, hfd⟩ := hf d1
  have hfs : s.srcOp = s1.srcOp ∧ s.src = s1.src := by rw [hseq]; exact ⟨rfl, rfl⟩
  rw [hfs.1] at ha
  refine (hg.congr hrew.moves.sameShapes).redirects hs1 hd1 hlive hnone ha ⟨units, ?_⟩
  rw [← hfs.1, ← hfs.2]
  exact hfd

section

variable (hg : g.Matched machine) (hm : g.move? n = some m) (hlive : m.live) (hres : m.isResult)
  (h : g.removeMove n = .ok (g', rm))
include hg hm hlive hres h

/-- A result that is taken out is an output of its operation: its edges go first, then the move. -/
theorem Matched.slot_of_removeMove :
    ∃ o op pos g1, m.srcOp = some o ∧ g.op? o = some op ∧ rm.slot = some (o, pos) ∧
      op.outputs.idxOf? n = some pos ∧ g.Rewires g1 NoneNew NoneBack (· ∈ rm.edges) ∧
      g1.Alters n (fun m => { m with live := false })
        (fun o' op => if o' = o then { op with outputs := op.outputs.eraseIdx pos } else op) g' := by
  obtain ⟨o, ho⟩ := Option.isSome_iff_exists.1 hres
  obtain ⟨op, hop⟩ := hg.src_known hm ho
  obtain ⟨m', g1, hm', -, -, hcut, hslot, halters, -⟩ := removeMove_eq_ok h
  rw [move?_of_move hm'] at hm
  cases hm
  have hrew : g.Rewires g1 NoneNew NoneBack (· ∈ rm.edges) := rewires_of_removeEdges (fun _ => id) hcut
  simp only [outputSlot, ho, bind_eq_ok, pure_eq_ok] at hslot
  obtain ⟨op', hop', hslot⟩ := hslot
  obtain rfl : op' = op := Option.some.inj ((op?_of_op hop').symm.trans ((hrew.moves.op? o).trans hop))
  cases hpos : op'.outputs.idxOf? n with
  | none => exact absurd ((hg.mem_outputs hop).2 ⟨m, move?_of_move hm', ho, hlive⟩) (List.idxOf?_eq_none_iff.1 hpos)
  | some pos =>
    rw [hpos, Option.map_some] at hslot
    rw [← hslot] at halters
    exact ⟨o, op', pos, g1, ho, hop, hslot.symm, hpos, hrew, halters⟩

/-- A result that is taken out is no output any more. -/
theorem matched_of_removeMove : g'.Matched machine := by
  obtain ⟨o, op, pos, g1, ho, hop, -, hpos, hrew, ha⟩ := hg.slot_of_removeMove hm hlive hres h
  obtain ⟨m1, hm1, hmb⟩ := hrew.moves.move? hm
  have hg1 : g1.Matched machine := hg.congr hrew.moves.sameShapes
  have ho1 : m1.srcOp = some o := by rw [Move.eq_of_bare hmb]; exact ho
  have hop1 : g1.op? o = some op := (hrew.moves.op? o).trans hop
  have herase : op.outputs.eraseIdx pos = op.outputs.erase n := by
    rw [List.erase_eq_eraseIdx, hpos]
  have hout := hg1.src_output hm1
  refine ha.matched hg1 hm1 rfl rfl (fun o' ho' => hg1.src_known hm1 ho') hout
    (fun o' op' => by split <;> rfl) (P := (· = o)) (fun o' ho' => ?_) (fun o' op' ho' => by rw [if_neg ho']) ?_
  · exact Option.some.inj ((or_self_iff.1 ho').symm.trans ho1)
  · rintro o' op' rfl hop'
    cases hop1.symm.trans hop'
    rw [if_pos rfl, herase]
    refine ⟨(hg.outputs_nodup hop).erase n, fun x => ?_⟩
    rw [(hg.outputs_nodup hop).mem_erase_iff]
    by_cases hx : x = n <;> simp [hx]

end

/-- What it takes for an edge to come back, given the move that will read a register again. -/
structure Owed (g : Graph) (reader : Option (MoveId × Reg)) (l : Link) : Prop where
  raw : l.dep.isRaw → ∃ r mt mh, l.dep.reg? = some r ∧ g.move? l.tail = some mt ∧
    g.move? l.head = some mh ∧ mt.dst = .register r ∧
    (l.dep.guardUse = false → reader = some (l.head, r)) ∧
    (l.dep.guardUse → mh.guardFile = some r.file)
  self : l.dep.isBack = false → l.tail = l.head → l.dep.reason = .operation

/-- What it takes to take a bypass of the register `r` back. -/
structure Unbypassable (g₀ g : Graph) (source dest : MoveId) (r : Reg) (u : EdgeRecord)
    (red : Redirection) : Prop where
  move : red.move = dest
  src : red.src = .register r
  srcOp : red.srcOp = none
  consumer : ∃ d, g.move? dest = some d ∧ d.isOperand ∧ d.src.reg? = none ∧ d.srcOp = red.linkedOp
  original {m₀ : Move} : g₀.move? dest = some m₀ → m₀.srcOp = none
  removed {e : EdgeId} : e ∈ u.removed → ∃ l, g.link? e = some l ∧ g.Owed (some (dest, r)) l ∧
    (l.dep.isRaw → l.tail = source ∧ l.dep.guardUse = false)
  added {e : EdgeId} : e ∈ u.added → ∃ l, g.link? e = some l ∧ l.dep.isRaw = false ∧ l.tail ≠ l.head
  changed : u.changed = []

/-- What it takes to bring a removed move back. -/
structure Restorable (g : Graph) (rm : RemovedMove) : Prop where
  move : ∃ o pos m, rm.slot = some (o, pos) ∧ g.move? rm.move = some m ∧ m.srcOp = some o ∧
    m.isOperand = false
  edges {e : EdgeId} : e ∈ rm.edges → ∃ l, g.link? e = some l ∧ g.Owed none l

theorem Unbypassable.alters_of_undo (h : Unbypassable g0 g source dest r u red)
    (hred : g.undoRedirect red = .ok g1) (hundo : g1.undoEdges u = .ok g') :
    g.Alters red.move (fun m => { m with src := red.src, srcOp := red.srcOp, srcUnits := red.srcUnits })
        (dropOutputFrom red.linkedOp red.move) g1 ∧
      g1.Rewires g' NoneNew (· ∈ u.removed) (· ∈ u.added) := by
  obtain ⟨-, ha⟩ := alters_of_undoRedirect hred
  refine ⟨ha, rewires_of_undoEdges h.changed (fun e he => ?_) hundo⟩
  obtain ⟨l, hl, -⟩ := h.removed he
  exact ⟨l, (ha.link? e).trans hl⟩

theorem Restorable.alters_of_restore (h : g.Restorable rm) (hrm : g.restoreMove rm = .ok g') :
    ∃ o pos g1, g.Alters rm.move (fun m => { m with live := true })
        (fun o' op => if o' = o then { op with outputs := op.outputs.insertIdx pos rm.move } else op) g1 ∧
      g1.Rewires g' NoneNew (· ∈ rm.edges) NoneBack := by
  obtain ⟨o, pos, m, hslot, -⟩ := h.move
  have hknown : ∀ e ∈ rm.edges, ∃ l, g.link? e = some l := by
    intro e he
    obtain ⟨l, hl, -⟩ := h.edges he
    exact ⟨l, hl⟩
  obtain ⟨-, -, g1, -, -, -, -, ha, hrew⟩ := alters_of_restoreMove hslot hknown hrm
  exact ⟨o, pos, g1, ha, hrew⟩

/-- The destinations and the files of the guards are the same. -/
def SameTargets (g g' : Graph) : Prop :=
  ∀ n, (g'.move? n).map (fun m => (m.dst, m.guardFile)) = (g.move? n).map fun m => (m.dst, m.guardFile)

theorem SameTargets.move? (h : g.SameTargets g') (hm : g.move? n = some m) :
    ∃ m', g'.move? n = some m' ∧ m'.dst = m.dst ∧ m'.guardFile = m.guardFile := by
  obtain ⟨m', hm', he⟩ := exists_of_map_eq (h n).symm hm
  exact ⟨m', hm', congrArg Prod.fst he, congrArg Prod.snd he⟩

theorem SameRegisters.sameTargets (h : g.SameRegisters g') : g.SameTargets g' := by
  intro n
  have hn := h n
  cases hm : g.move? n with
  | none => simp_all
  | some m =>
    obtain ⟨m', hm', -, hd, hgf⟩ := h.move? hm
    simp [hm', hd, hgf]

theorem Alters.sameTargets {k : OpId → Operation → Operation}
    (h : g.Alters n f k g') (hf : ∀ m, (f m).dst = m.dst ∧ (f m).guardFile = m.guardFile) :
    g.SameTargets g' :=
  h.keeps (q := Option.map _) fun m _ => congrArg some (Prod.ext (hf m).1 (hf m).2)

theorem Owed.congr {reader : Option (MoveId × Reg)} (h : g.SameTargets g') (hl : g.Owed reader l) :
    g'.Owed reader l := by
  refine ⟨fun hraw => ?_, hl.self⟩
  obtain ⟨r, mt, mh, htag, hmt, hmh, hd, hread, hgf⟩ := hl.raw hraw
  obtain ⟨mt', hmt', hd', -⟩ := h.move? hmt
  obtain ⟨mh', hmh', -, hgf'⟩ := h.move? hmh
  exact ⟨r, mt', mh', htag, hmt', hmh', hd'.trans hd, hread, fun hu => hgf'.trans (hgf hu)⟩

end Graph

namespace Upheld

open Transport.Graph

variable {machine : Machine} {g0 g g1 g' : Graph} {source dest n : MoveId} {r : Reg} {s d m : Move}
  {u : EdgeRecord} {red : Redirection} {rm : RemovedMove} {e : EdgeId} {l : Link}

section

variable (h : Upheld machine g0 g)
include h

/-- A move that reads no register is reached by no value. -/
theorem guardUse_of_raw (hd : g.move? dest = some d) (hfree : d.src.reg? = none)
    (hl : g.link? e = some l) (hlive : l.live) (hhead : l.head = dest) (hraw : l.dep.isRaw) :
    l.dep.guardUse := by
  obtain ⟨r, mt, mh, -, -, hmh, -, hsrc, -⟩ := h.tagged.raw hl hlive hraw
  rw [hhead, hd] at hmh
  cases hmh
  cases huse : l.dep.guardUse with
  | true => rfl
  | false => simp [hsrc huse, Terminal.reg?] at hfree

/-- The edges that the operand of a bypass inherits are new orders and no values. -/
theorem of_inherits (hs : g.move? source = some s) (hfree : s.src.reg? = none)
    (hi : g.Inherits source dest r l.tail l.head l.dep) :
    g.TagOk l ∧ l.dep.isRaw = false ∧ l.tail ≠ l.head := by
  obtain ⟨e, l0, hl0, hlive0, htail0, hhead0, hdep0⟩ := hi.origin
  refine ⟨?_, ?_, fun heq => hi.tail (heq.trans hi.head)⟩
  · obtain ⟨hpseudo, hguard⟩ := h.tagged.ok hl0
    rw [hdep0] at hpseudo hguard
    refine ⟨hpseudo, fun _ _ huse => ?_⟩
    rw [hi.guardUse] at huse
    cases huse
  · by_contra hraw
    rw [Bool.not_eq_false, ← hdep0] at hraw
    have huse := h.guardUse_of_raw hs hfree hl0 hlive0 hhead0 hraw
    rw [hdep0, hi.guardUse] at huse
    cases huse

theorem merges (hs : g.move? source = some s) (hfree : s.src.reg? = none)
    (hm : g.Merges source dest r g1 u) : Upheld machine g0 g1 := by
  refine h.rewires hm.rewires (fun l hl => h.of_inherits hs hfree hl) (fun _ _ hb => hb.elim) ?_
  intro e l he hl hown
  obtain ⟨-, hcut⟩ := of_some (hm.removed he) hl
  have hreason := hown.reason
  rcases hcut with hcut | hcut
  · exact absurd (hcut.tail.symm.trans (hown.self.trans hcut.head)) hm.ne
  · have hc := hcut.carries
    simp [Dependence.carries, hreason] at hc

theorem diverted (hb : g.Bypasses source dest u red g') : ∃ r s d g1, g.Diverts source dest r s d u red g1 g' :=
  hb.diverts_of_live h.matched h.linked fun _ _ hl hlive => ⟨h.tagged.raw hl hlive, (h.tagged.ok hl).1⟩

/-- A bypass leaves the graph in order, and can be taken back. -/
theorem diverts (hd : g.Diverts source dest r s d u red g1 g') :
    Upheld machine g0 g' ∧ Unbypassable g0 g' source dest r u red := by
  have h1 := h.merges hd.producer hd.free hd.merges
  obtain ⟨f, ha, hf⟩ := hd.redirects
  have hrew := hd.merges.rewires
  obtain ⟨d1, hd1, hdb⟩ := hrew.moves.move? hd.consumer
  obtain ⟨s1, hs1, hsb⟩ := hrew.moves.move? hd.producer
  have hdeq := Move.eq_of_bare hdb
  have hseq := Move.eq_of_bare hsb
  have hs1dst : s1.dst = .register r := by rw [hseq]; exact hd.writes
  have hd1op : d1.isOperand := by rw [hdeq]; exact hd.operand
  have hnone : d.srcOp = none := by
    have hout := h.matched.src_output hd.consumer
    rw [hd.reads] at hout
    simpa [Terminal.isOutput] using hout
  have horiginal {m0 : Move} (hm0 : g0.move? dest = some m0) : m0.srcOp = none := by
    cases ho : m0.srcOp with
    | none => rfl
    | some o =>
      obtain ⟨d', hd', ho'⟩ := h.result hm0 ho
      rw [hd.consumer] at hd'
      cases hd'
      rw [hnone] at ho'
      cases ho'
  obtain ⟨units, hfd⟩ := hf d1
  have hmatched := hd.matched h.matched
  refine ⟨h1.alters ha ?_ hd1 hmatched (fun _ _ => rfl) (.inl hd1op) ?_ ?_, ?_⟩
  · intro m
    obtain ⟨units, hm⟩ := hf m
    exact ⟨_, _, _, m.live, hm⟩
  · intro e l hl hlive hraw huse hhead
    -- The only value that reached the operand has been cut off.
    rcases hrew.live hl hlive with hl0 | ⟨hb, -⟩ | ⟨-, hnew⟩
    · have hcut := hd.merges.cut hl0 hlive (hd.sole hl0 hlive hhead hraw huse)
      rw [hl, Option.some.injEq] at hcut
      have hdead := congrArg Link.live hcut
      rw [hlive] at hdead
      cases hdead
    · exact hb.elim
    · have := (h.of_inherits hd.producer hd.free hnew).2.1
      rw [hraw] at this
      cases this
  · intro m0 o hm0 ho
    rw [horiginal hm0] at ho
    cases ho
  · have hsource : g'.move? source = some s1 := (ha.move_other hd.merges.ne).trans hs1
    have hdest := ha.move_self hd1
    rw [hd.redirection]
    refine ⟨rfl, hd.reads, hnone, ⟨f d1, hdest, ?_, ?_, ?_⟩, horiginal, ?_, ?_, hd.merges.changed⟩
    · rw [hfd]; exact hd1op
    · rw [hfd]; exact hd.free
    · rw [hfd]
    · intro e he
      obtain ⟨l, hl, hlive, hcut⟩ := hd.merges.removed he
      obtain ⟨b, hb, -⟩ := hrew.kept hl
      refine ⟨_, (ha.link? e).trans hb, ⟨fun hraw => ?_, fun hback hself => ?_⟩, fun hraw => ?_⟩
      · rcases hcut with hcut | hcut
        · have hc := hcut.carries
          rw [Dependence.carries_iff] at hc
          refine ⟨r, s1, f d1, hc.2, ?_, ?_, hs1dst, fun _ => ?_, fun huse => ?_⟩
          · exact hcut.tail ▸ hsource
          · exact hcut.head ▸ hdest
          · rw [hcut.head]
          · rw [hcut.guardUse] at huse
            cases huse
        · rw [Dependence.isRaw_of_carries_war hcut.carries] at hraw
          cases hraw
      · rcases hcut with hcut | hcut
        · exact absurd (hcut.tail.symm.trans (hself.trans hcut.head)) hd.merges.ne
        · exact h.loopless e l hl hlive hback hself
      · rcases hcut with hcut | hcut
        · exact ⟨hcut.tail, hcut.guardUse⟩
        · rw [Dependence.isRaw_of_carries_war hcut.carries] at hraw
          cases hraw
    · intro e he
      obtain ⟨l, hl, hi⟩ := hd.merges.added he
      exact ⟨l, (ha.link? e).trans hl, (h.of_inherits hd.producer hd.free hi).2⟩

theorem unbypass (hu : Unbypassable g0 g source dest r u red)
    (hred : g.undoRedirect red = .ok g1) (hundo : g1.undoEdges u = .ok g') : Upheld machine g0 g' := by
  obtain ⟨ha, hrew⟩ := hu.alters_of_undo hred hundo
  obtain ⟨d, hd, hop, hfree, hlinked⟩ := hu.consumer
  rw [hu.move, hu.src, hu.srcOp] at ha
  have hmatched : g1.Matched machine := by
    refine ha.matched h.matched hd rfl rfl (by simp) rfl (fun _ _ => rfl) (P := (red.linkedOp = some ·))
      (fun o ho => by simpa [hlinked] using ho) (fun o op ho => by simp [dropOutputFrom, ho]) fun o op heq ho => ?_
    have hrev : op.outputs.reverse.Nodup := (List.reverse_perm _).nodup_iff.2 (h.matched.outputs_nodup ho)
    simp only [dropOutputFrom, heq, if_true, List.mem_reverse, hrev.mem_erase_iff]
    refine ⟨(List.reverse_perm _).nodup_iff.2 (hrev.erase _), fun x => ?_⟩
    by_cases hx : x = dest <;> simp [hx]
  have h1 : Upheld machine g0 g1 := by
    refine h.alters ha (fun m => ⟨_, _, _, m.live, rfl⟩) hd hmatched (fun _ _ => rfl) (.inl hop) ?_ ?_
    · intro e l hl hlive hraw huse hhead
      have := h.guardUse_of_raw hd hfree hl hlive hhead hraw
      rw [huse] at this
      cases this
    · intro m0 o hm0 ho
      rw [hu.original hm0] at ho
      cases ho
  have hlink {e : EdgeId} {l : Link} (hl : g.link? e = some l) : g1.link? e = some l :=
    (ha.link? e).trans hl
  have htargets : g.SameTargets g1 := ha.sameTargets fun _ => ⟨rfl, rfl⟩
  refine h1.rewires hrew (fun _ hl => hl.elim) ?_ ?_
  · intro e l he hl
    obtain ⟨l', hl', howed, -⟩ := hu.removed he
    rw [hlink hl'] at hl
    cases hl
    refine ⟨fun hraw => ?_, howed.self⟩
    obtain ⟨r', mt, mh, htag, hmt, hmh, hdst, hread, hgf⟩ := (howed.congr htargets).raw hraw
    refine ⟨r', mt, mh, htag, hmt, hmh, hdst, fun huse => ?_, hgf⟩
    obtain ⟨hhead, hr⟩ := Prod.mk.inj (Option.some.inj (hread huse))
    rw [← hhead, ha.move_self hd] at hmh
    cases hmh
    rw [hr]
  · intro e l he hl hown
    obtain ⟨l', hl', -, hne⟩ := hu.added he
    rw [hlink hl'] at hl
    cases hl
    exact hne hown.self

/-! ## Removals -/

/-- A result that nobody needs writes a register, and no value leaves it. -/
theorem of_not_resultNeeded (hm : g.move? n = some m)
    (hneed : g.resultNeeded n = .ok false) : m.isOperand = false ∧
      ∀ e l, g.link? e = some l → l.live → l.tail = n → l.dep.isRaw = false := by
  have hneed := of_move_bind hm hneed
  split at hneed
  case h_2 => simp at hneed
  rename_i r hr
  simp only [pure_eq_ok, Bool.or_eq_false_iff, List.any_eq_false] at hneed
  refine ⟨?_, fun e l hl hlive htail => ?_⟩
  · rw [Move.isOperand, h.matched.dst_input hm, Terminal.reg?_eq_some.1 hr]
    rfl
  · have hmem : (e, l) ∈ g.entries m.outs :=
      mem_entries.2 ⟨(h.linked.mem_outs hm).2 ⟨l, hl, hlive, htail⟩, hl⟩
    have huse := hneed.1 (e, l) hmem
    by_contra hraw
    simp only [Bool.not_eq_false, Dependence.isRaw, Bool.and_eq_true, decide_eq_true_eq] at hraw
    simp [showsUse, hraw.1, hraw.2] at huse

/-- A dead result leaves the graph in order, and can be brought back. -/
theorem removes (hm : g.move? n = some m) (hlive : m.live)
    (hres : m.isResult) (hneed : g.resultNeeded n = .ok false) (hrm : g.removeMove n = .ok (g', rm)) :
    Upheld machine g0 g' ∧ g'.Restorable rm := by
  obtain ⟨hnop, hunread⟩ := h.of_not_resultNeeded hm hneed
  obtain ⟨o, op, pos, g1, ho, hop, hslot, hpos, hrew, ha⟩ := h.matched.slot_of_removeMove hm hlive hres hrm
  have hmove := move_of_removeMove hrm
  -- The edges of the move: none is a value it produced, none its own.
  have hedge {e : EdgeId} (he : e ∈ rm.edges) := (mem_edges_of_removeMove h.linked hrm).1 he
  have h1 : Upheld machine g0 g1 := by
    refine h.rewires hrew (fun _ hl => hl.elim) (fun _ _ hb => hb.elim) fun e l he hl hown => ?_
    obtain ⟨-, hend⟩ := of_some (hedge he) hl
    obtain ⟨m0, hm0, hop0⟩ := hown.operand
    have htail : l.tail = n := hend.elim id (hown.self.trans ·)
    obtain ⟨m', hm', hfix⟩ := h.framed.move? hm0
    rw [htail, hm] at hm'
    cases hm'
    have hd : m.dstOp = m0.dstOp := congrArg Move.Fixed.dstOp hfix
    rw [Move.isOperand, hd] at hnop
    rw [Move.isOperand, hnop] at hop0
    cases hop0
  obtain ⟨m1, hm1, hmb⟩ := hrew.moves.move? hm
  have hmeq := Move.eq_of_bare hmb
  have ho1 : m1.srcOp = some o := by rw [hmeq]; exact ho
  have hk (o' : OpId) (op' : Operation) :
      (if o' = o then { op' with outputs := op'.outputs.eraseIdx pos } else op') =
        { op' with outputs := (if o' = o then { op' with outputs := op'.outputs.eraseIdx pos }
          else op').outputs } := by
    split <;> rfl
  have hmatched := matched_of_removeMove h.matched hm hlive hres hrm
  refine ⟨h1.alters ha (fun m => ⟨_, _, _, _, rfl⟩) hm1 hmatched hk (.inr rfl)
    (fun _ _ _ _ _ _ _ => rfl) ?_, ?_⟩
  · intro m0 o' hm0 ho'
    have hko := of_some (h1.result hm0 ho') hm1
    exact hko
  · have htargets : g.SameTargets g' := by
      intro x
      rw [ha.sameTargets (fun _ => ⟨rfl, rfl⟩) x]
      exact hrew.moves.sameRegisters.sameTargets x
    refine ⟨⟨o, pos, { m1 with live := false }, hslot, hmove ▸ ha.move_self hm1, ho1, ?_⟩,
      fun {e} he => ?_⟩
    · rw [hmeq]
      exact hnop
    · obtain ⟨l, hl, hl', hend⟩ := hedge he
      obtain ⟨b, hb, -⟩ := hrew.kept hl
      refine ⟨_, (ha.link? e).trans hb, Owed.congr htargets ⟨fun hraw => ?_, ?_⟩⟩
      · obtain ⟨r, mt, mh, htag, hmt, hmh, hd, -, hgf⟩ := h.tagged.raw hl hl' hraw
        have hhead : l.head = n := by
          rcases hend with hend | hend
          · have := hunread e l hl hl' hend
            rw [show l.dep.isRaw = true from hraw] at this
            cases this
          · exact hend
        have hfree : m.src.reg? = none := by
          have hout : m.src.isOutput := (h.matched.src_output hm).symm.trans hres
          revert hout
          cases m.src <;> simp [Terminal.isOutput, Terminal.reg?]
        have huse := h.guardUse_of_raw hm hfree hl hl' hhead hraw
        refine ⟨r, mt, mh, htag, hmt, hmh, hd, fun hno => ?_, hgf⟩
        rw [show l.dep.guardUse = true from huse] at hno
        cases hno
      · exact fun hback hself => h.loopless e l hl hl' hback hself

theorem restores (hr : g.Restorable rm) (hrm : g.restoreMove rm = .ok g') : Upheld machine g0 g' := by
  obtain ⟨o, pos, m, hslot, hm, ho, -⟩ := hr.move
  obtain ⟨m', op, g1, hm', hdead, hop, hpos, ha, hrew⟩ := alters_of_restoreMove hslot (fun e he => by
    obtain ⟨l, hl, -⟩ := hr.edges he
    exact ⟨l, hl⟩) hrm
  rw [hm] at hm'
  cases hm'
  have hk (o' : OpId) (op' : Operation) :
      (if o' = o then { op' with outputs := op'.outputs.insertIdx pos rm.move } else op') =
        { op' with outputs := (if o' = o then { op' with outputs := op'.outputs.insertIdx pos rm.move }
          else op').outputs } := by
    split <;> rfl
  have hfresh : rm.move ∉ op.outputs := by
    intro hmem
    obtain ⟨-, hlive⟩ := of_some ((h.matched.mem_outputs hop).1 hmem) hm
    rw [hdead] at hlive
    cases hlive
  have hmatched : g1.Matched machine := by
    have hout := h.matched.src_output hm
    refine ha.matched h.matched hm rfl rfl (fun o' ho' => h.matched.src_known hm ho') hout hk (P := (· = o))
      (fun o' ho' => ?_) (fun o' op' ho' => by rw [if_neg ho']) ?_
    · exact Option.some.inj ((or_self_iff.1 ho').symm.trans ho)
    · rintro o' op' rfl hop'
      cases hop.symm.trans hop'
      rw [if_pos rfl]
      refine ⟨(List.perm_insertIdx _ _ hpos).nodup_iff.2 ?_, fun x => ?_⟩
      · exact List.nodup_cons.2 ⟨hfresh, h.matched.outputs_nodup hop⟩
      · rw [List.mem_insertIdx hpos]
        by_cases hx : x = rm.move <;> simp [hx, ho]
  have h1 : Upheld machine g0 g1 := by
    refine h.alters ha (fun m => ⟨_, _, _, _, rfl⟩) hm hmatched hk (.inr rfl)
      (fun _ _ _ _ _ _ _ => rfl) fun m0 o' hm0 ho' => ?_
    have hko := of_some (h.result hm0 ho') hm
    exact hko
  have htargets : g.SameTargets g1 := ha.sameTargets fun _ => ⟨rfl, rfl⟩
  refine h1.rewires hrew (fun _ hl => hl.elim) (fun e l he hl => ?_) fun _ _ hc => hc.elim
  obtain ⟨l', hl', howed⟩ := hr.edges he
  rw [ha.link?, hl'] at hl
  cases hl
  refine ⟨fun hraw => ?_, howed.self⟩
  obtain ⟨r, mt, mh, htag, hmt, hmh, hd, hread, hgf⟩ := (howed.congr htargets).raw hraw
  exact ⟨r, mt, mh, htag, hmt, hmh, hd, fun huse => (nomatch hread huse), hgf⟩

end

end Upheld

/-! ## In the meantime -/

namespace Graph

variable {machine : Machine} {g0 g g' g'' : Graph} {source dest n x w : MoveId} {r old new : Reg} {m : Move}
  {u : EdgeRecord} {red : Redirection} {rm : RemovedMove} {X : MoveId → Prop} {g1 : Graph}

/-- Edges come and go, and moves change, but not what they connect and move. The moves of `X` may
read something else. -/
structure Retains (g g' : Graph) (X : MoveId → Prop) : Prop where
  targets : g.SameTargets g'
  links {e : EdgeId} {l : Link} : g.link? e = some l → ∃ b, g'.link? e = some { l with live := b }
  ops {x : MoveId} {m : Move} : g.move? x = some m →
    ∃ m', g'.move? x = some m' ∧ m'.dstOp = m.dstOp ∧ (¬ X x → m'.src = m.src ∧ m'.srcOp = m.srcOp)

theorem Retains.trans (h : g.Retains g' X) (h' : g'.Retains g'' X) : g.Retains g'' X where
  targets := fun n => (h'.targets n).trans (h.targets n)
  links := fun hl => by
    obtain ⟨b, hb⟩ := h.links hl
    obtain ⟨b', hb'⟩ := h'.links hb
    exact ⟨b', hb'⟩
  ops := fun hm => by
    obtain ⟨m', hm', hd, hs⟩ := h.ops hm
    obtain ⟨m'', hm'', hd', hs'⟩ := h'.ops hm'
    exact ⟨m'', hm'', hd'.trans hd, fun hx =>
      ⟨(hs' hx).1.trans (hs hx).1, (hs' hx).2.trans (hs hx).2⟩⟩

theorem Retains.mono {Y : MoveId → Prop} (h : g.Retains g' X) (hX : ∀ x, X x → Y x) : g.Retains g' Y where
  targets := h.targets
  links := h.links
  ops := fun {x _} hm => by
    obtain ⟨m', hm', hd, hs⟩ := h.ops hm
    exact ⟨m', hm', hd, fun hx => hs fun hX' => hx (hX x hX')⟩

theorem Places.retains {p : Option Placement} (h : g.Places n p g') : g.Retains g' X where
  targets := h.sameRegisters.sameTargets
  links := fun {e l} hl => ⟨l.live, (h.link? e).trans hl⟩
  ops := fun hm => by
    obtain ⟨q, hq⟩ := h.move_of_move? hm
    exact ⟨_, hq, rfl, fun _ => ⟨rfl, rfl⟩⟩

theorem Rewires.retains {New : MoveId → MoveId → Dependence → Prop} {Back Cut : EdgeId → Prop}
    (h : g.Rewires g' New Back Cut) : g.Retains g' X where
  targets := h.moves.sameRegisters.sameTargets
  links := fun hl => by
    obtain ⟨b, hb, -⟩ := h.kept hl
    exact ⟨b, hb⟩
  ops := fun hm => by
    obtain ⟨m', hm', hb⟩ := h.moves.move? hm
    exact ⟨m', hm', (congrArg Move.dstOp hb :), fun _ =>
      ⟨(congrArg Move.src hb :), (congrArg Move.srcOp hb :)⟩⟩

theorem Alters.retains {f : Move → Move} {k : OpId → Operation → Operation} (h : g.Alters n f k g')
    (hf : Upheld.Resources f) (hsrc : X n ∨ ∀ m, (f m).src = m.src ∧ (f m).srcOp = m.srcOp) :
    g.Retains g' X where
  targets := h.sameTargets fun m => by
    obtain ⟨_, _, _, _, hfm⟩ := hf m
    rw [hfm]
    exact ⟨rfl, rfl⟩
  links := fun {e l} hl => ⟨l.live, (h.link? e).trans hl⟩
  ops := fun {x m} hm => by
    by_cases hx : x = n
    · subst hx
      obtain ⟨_, _, _, _, hfm⟩ := hf m
      refine ⟨f m, h.move_self hm, by rw [hfm], fun hX => ?_⟩
      exact (hsrc.resolve_left hX) m
    · exact ⟨m, (h.move_other hx).trans hm, rfl, fun _ => ⟨rfl, rfl⟩⟩

theorem Diverts.retains {s d : Move} (h : g.Diverts source dest r s d u red g1 g') : g.Retains g' (· = dest) := by
  obtain ⟨f, ha, hf⟩ := h.redirects
  refine h.merges.rewires.retains.trans (ha.retains (fun m => ?_) (.inl rfl))
  obtain ⟨units, hm⟩ := hf m
  exact ⟨_, _, _, m.live, hm⟩

theorem Unbypassable.retains_of_undo (h : Unbypassable g0 g source dest r u red)
    (hred : g.undoRedirect red = .ok g1) (hundo : g1.undoEdges u = .ok g') :
    g.Retains g' (· = dest) := by
  obtain ⟨ha, hrew⟩ := h.alters_of_undo hred hundo
  rw [h.move] at ha
  have hfirst : g.Retains g1 (· = dest) :=
    ha.retains (fun m => ⟨_, _, _, m.live, rfl⟩) (.inl rfl)
  exact hfirst.trans hrew.retains

theorem retains_of_removeMove (h : g.removeMove n = .ok (g', rm)) : g.Retains g' X := by
  obtain ⟨g1, hrew, ha⟩ := rewires_of_removeMove h
  exact hrew.retains.trans (ha.retains (fun m => ⟨_, _, _, _, rfl⟩) (.inr fun _ => ⟨rfl, rfl⟩))

theorem Restorable.retains_of_restore (h : g.Restorable rm) (hrm : g.restoreMove rm = .ok g') :
    g.Retains g' X := by
  obtain ⟨o, pos, g1, ha, hrew⟩ := h.alters_of_restore hrm
  exact (ha.retains (fun m => ⟨_, _, _, _, rfl⟩) (.inr fun _ => ⟨rfl, rfl⟩)).trans hrew.retains

theorem Unbypassable.retains (h : Unbypassable g0 g source dest r u red) (hr : g.Retains g' X)
    (hx : ¬ X dest) : Unbypassable g0 g' source dest r u red := by
  refine ⟨h.move, h.src, h.srcOp, ?_, h.original, fun he => ?_, fun he => ?_, h.changed⟩
  · obtain ⟨d, hd, hop, hfree, hl⟩ := h.consumer
    obtain ⟨d', hd', hdo, hs⟩ := hr.ops hd
    refine ⟨d', hd', ?_, (hs hx).1 ▸ hfree, (hs hx).2.trans hl⟩
    rw [Move.isOperand, hdo]
    exact hop
  · obtain ⟨l, hl, howed, htail⟩ := h.removed he
    obtain ⟨b, hb⟩ := hr.links hl
    have howed' := howed.congr hr.targets
    exact ⟨_, hb, ⟨howed'.raw, howed'.self⟩, htail⟩
  · obtain ⟨l, hl, hadded⟩ := h.added he
    obtain ⟨b, hb⟩ := hr.links hl
    exact ⟨_, hb, hadded⟩

theorem Restorable.retains (h : g.Restorable rm) (hr : g.Retains g' X) (hx : ¬ X rm.move) :
    g'.Restorable rm := by
  refine ⟨?_, fun he => ?_⟩
  · obtain ⟨o, pos, m, hslot, hm, ho, hop⟩ := h.move
    obtain ⟨m', hm', hd, hs⟩ := hr.ops hm
    refine ⟨o, pos, m', hslot, hm', (hs hx).2.trans ho, ?_⟩
    rw [Move.isOperand, hd]
    exact hop
  · obtain ⟨l, hl, howed⟩ := h.edges he
    obtain ⟨b, hb⟩ := hr.links hl
    have howed' := howed.congr hr.targets
    exact ⟨_, hb, ⟨howed'.raw, howed'.self⟩⟩

/-- A renaming of another write does not touch the edges that a bypass cut. -/
theorem Unbypassable.relocates {direction : Direction} {start : MoveId × Role} {range : LiveRange}
    (h : Unbypassable g0 g source dest r u red) (hu : Upheld machine g0 g)
    (hr : g.Relocates direction start range w old new g') (hw : source ≠ w) :
    Unbypassable g0 g' source dest r u red := by
  obtain ⟨d, hd, hop, hfree, hlinked⟩ := h.consumer
  have hframed := hr.framed hu.linked hu.tagged
  -- The edges, with their tags, as far as they were cut before.
  have hedge {e : EdgeId} {l : Link} (hl : g.link? e = some l) : ∃ l', g'.link? e = some l' ∧
      l'.tail = l.tail ∧ l'.head = l.head ∧ l'.dep.untagged = l.dep.untagged ∧
      (l.live = false → l'.dep = l.dep) := by
    obtain ⟨edges, ⟨g1, g2, hrew, hreg, hret, -⟩, -⟩ := hr.renames
    obtain ⟨b, hb, -⟩ := hrew.kept hl
    obtain ⟨l', hl', hev, hdead⟩ := hret.kept ((hreg.link? e).trans hb)
    refine ⟨l', hl', hev.tail, hev.head, hev.untagged, fun hlive => ?_⟩
    have hb' : b = false := hrew.dead hl hlive (fun hb => hb.elim) hb
    rw [hdead hb']
  refine ⟨h.move, h.src, h.srcOp, ?_, h.original, fun {e} he => ?_, fun {e} he => ?_, h.changed⟩
  · obtain ⟨d', hd', hb⟩ := hr.move? hd
    have hsrc : (d.setRegs new range.roles dest).src = d.src := by
      have hno : (dest, Role.source) ∉ range.roles := by
        intro hmem
        have hold : d.src = .register old := hr.holds hu.linked hu.tagged (mem_roles.1 hmem) hd
        simp [hold, Terminal.reg?] at hfree
      simp [Move.setRegs, hno]
    have hdst' : d'.dstOp = d.dstOp := (congrArg Move.dstOp hb :)
    have hsrc' : d'.src = d.src := (congrArg Move.src hb :).trans hsrc
    refine ⟨d', hd', ?_, hsrc' ▸ hfree, (congrArg Move.srcOp hb :).trans hlinked⟩
    rw [Move.isOperand, hdst']
    exact hop
  · obtain ⟨l, hl, howed, htail⟩ := h.removed he
    obtain ⟨l', hl', ht', hh', hun, hdead⟩ := hedge hl
    have hraw' : l'.dep.isRaw = l.dep.isRaw := (congrArg Dependence.isRaw hun :)
    have hguard' : l'.dep.guardUse = l.dep.guardUse := (congrArg Dependence.guardUse hun :)
    have hback' : l'.dep.isBack = l.dep.isBack := (congrArg Dependence.isBack hun :)
    have hreason' : l'.dep.reason = l.dep.reason := (congrArg Dependence.reason hun :)
    refine ⟨l', hl', ⟨fun hraw => ?_, fun hback hself => ?_⟩, fun hraw => ?_⟩
    · rw [hraw'] at hraw
      obtain ⟨hsource, huse⟩ := htail hraw
      obtain ⟨r', mt, mh, htag, hmt, hmh, hdst, hread, hgf⟩ := howed.raw hraw
      obtain ⟨hhead, hr'⟩ := Prod.mk.inj (Option.some.inj (hread huse))
      -- Nothing that the operand reads now carries a value to it.
      have hcut : l.live = false := by
        by_contra hlive
        have := hu.guardUse_of_raw hd hfree hl (by simpa using hlive) hhead.symm hraw
        rw [huse] at this
        cases this
      obtain ⟨mt', hmt', hbt⟩ := hr.move? hmt
      obtain ⟨mh', hmh', hgf'⟩ := hframed.guardFile _ _ hmh
      have hno : (l.tail, Role.dest) ∉ range.roles := fun hmem =>
        hw (hsource.symm.trans (hr.mem_writes.1 (mem_roles.1 hmem)))
      have hdst' : mt'.dst = mt.dst := by
        have hset : (mt.setRegs new range.roles l.tail).dst = mt.dst := by simp [Move.setRegs, hno]
        exact (congrArg Move.dst hbt :).trans hset
      refine ⟨r', mt', mh', ?_, ?_, ?_, hdst'.trans hdst, fun _ => ?_, fun huse' => ?_⟩
      · rw [hdead hcut]
        exact htag
      · rw [ht']
        exact hmt'
      · rw [hh']
        exact hmh'
      · rw [hh']
        exact hread huse
      · rw [hguard', huse] at huse'
        cases huse'
    · rw [hreason']
      exact howed.self (hback' ▸ hback) (by rw [← ht', ← hh']; exact hself)
    · rw [hraw'] at hraw
      rw [ht', hguard']
      exact htail hraw
  · obtain ⟨l, hl, hraw, hne⟩ := h.added he
    obtain ⟨l', hl', ht', hh', hun, -⟩ := hedge hl
    refine ⟨l', hl', ?_, by rwa [ht', hh']⟩
    rw [Dependence.isRaw_of_untagged hun]
    exact hraw

end Graph

end Transport
