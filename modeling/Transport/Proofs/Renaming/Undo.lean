import Transport.Proofs.Dependence.SurgeryUndo
import Transport.Proofs.Renaming.Names

/-!
# Renamings are taken back

A renaming keeps one record of edges for each of its steps: one for the edges that keep the range
apart, one for the write and one for each read. Replayed in reverse order, each on the graph that it
led to, they give back the edges; the register and the renamer's own books are put back beside them.
The one thing that cannot be replayed is an edge that a single step both adds and cuts, and that
takes a write that is ordered before itself.
-/

namespace Transport

/-- A move that held a register in some roles holds it again. -/
theorem Move.setRegs_setRegs {m : Move} {x : MoveId} {old new : Reg}
    {roles : List (MoveId × Role)}
    (hm : ∀ role, (x, role) ∈ roles → m.regAt? role = some old) :
    (m.setRegs new roles x).setRegs old roles.reverse x = m := by
  have hterminal {t : Terminal} {role : Role} (ht : (x, role) ∈ roles → t.reg? = some old) :
      (if (x, role) ∈ roles then Terminal.register old
        else if (x, role) ∈ roles then .register new else t) = t := by
    split
    · rename_i hmem
      cases t <;> simp_all [Terminal.reg?]
    · simp_all
  have hguard : (if (x, .guard) ∈ roles then
      (if (x, .guard) ∈ roles then m.guard.map fun g => { g with reg := new } else m.guard).map
        fun g => { g with reg := old }
      else if (x, .guard) ∈ roles then m.guard.map fun g => { g with reg := new } else m.guard) =
        m.guard := by
    split
    · rename_i hmem
      obtain ⟨guard, hguard, rfl⟩ := Option.map_eq_some_iff.1 (hm .guard hmem)
      simp [hguard]
    · rfl
  simp only [Move.setRegs, List.mem_reverse]
  rw [hterminal (hm .dest), hterminal (hm .source), hguard]

namespace Graph

variable {g g' g'' g₁ g2 g3 h h' h0 h1 : Graph} {u : EdgeRecord} {us : List EdgeRecord} {e : EdgeId}
  {l : Link} {n w x : MoveId} {m : Move} {r old new : Reg} {s s' : Graph × EdgeRecord}
  {range : LiveRange} {roles : List (MoveId × Role)} {edges : List (MoveId × MoveId × Dependence)}

/-! ## The records of one move -/

theorem Records.retag (hu : g.Records u g') (hl : g'.link? e = some l) :
    g.Records { u with changed := u.changed ++ [(e, l.dep.reg?)] }
      (g'.modifyLink e fun l => withTag l (some r)) := by
  have hlink (x : EdgeId) : (g'.modifyLink e fun l => withTag l (some r)).link? x =
      if x = e then (g'.link? x).map fun l => withTag l (some r) else g'.link? x := link?_modifyLink
  have hknown {x : EdgeId} {k : Link} (hx : g'.link? x = some k) : ∃ t,
      (g'.modifyLink e fun l => withTag l (some r)).link? x = some (withTag k t) := by
    rw [hlink, hx]
    split
    · exact ⟨some r, rfl⟩
    · exact ⟨k.dep.reg?, rfl⟩
  refine ⟨hu.toRearranges.trans (rearranges_modifyLink (fun _ => rfl) (fun _ => rfl) fun _ => rfl),
    hu.removed_nodup, hu.added_nodup, ?_, hu.removed, ?_, ?_, ?_⟩
  · intro x k hk
    obtain ⟨k', hk', hbefore, hdead⟩ := hu.kept hk
    by_cases hx : x = e
    · subst hx
      rw [hl] at hk'
      cases hk'
      refine ⟨withTag l (some r), by rw [hlink, if_pos rfl, hl]; rfl, ?_, hdead⟩
      rw [← hbefore]
      cases hfirst : u.changed.lookup x with
      | none => simp [before, withTag, List.lookup_append, hfirst]
      | some t => simp [before, withTag, List.lookup_append, hfirst]
    · refine ⟨k', by rw [hlink, if_neg hx, hk'], ?_, hdead⟩
      rw [← hbefore]
      simp [before, List.lookup_append, List.lookup_cons, beq_eq_false_iff_ne.2 hx]
  · intro x hx
    obtain ⟨hnone, k, hk, hlive⟩ := hu.added hx
    obtain ⟨t, ht⟩ := hknown hk
    exact ⟨hnone, withTag k t, ht, hlive⟩
  · intro x k hnone hk
    rw [hlink] at hk
    split at hk
    · obtain ⟨k', hk', -⟩ := Option.map_eq_some_iff.1 hk
      exact hu.fresh hnone hk'
    · exact hu.fresh hnone hk
  · intro c hc
    rcases List.mem_append.1 hc with hc | hc
    · obtain ⟨k, hk⟩ := hu.changed hc
      obtain ⟨t, ht⟩ := hknown hk
      exact ⟨_, ht⟩
    · cases List.mem_singleton.1 hc
      obtain ⟨t, ht⟩ := hknown hl
      exact ⟨_, ht⟩

/-- Only an edge that was there before the step may be cut in it. -/
theorem Records.cutOrRetag {gone : Bool} (hs : g.Records s.2 s.1)
    (h : s.1.cutOrRetag s.2 e r gone = .ok s') (hold : gone → ∃ l, g.link? e = some l) :
    g.Records s'.2 s'.1 := by
  cases gone with
  | true => exact hs.cutEdge h (hold rfl)
  | false =>
    cases pure_eq_ok.1 h
    unfold retagEdge
    split
    · rename_i l hl
      split
      · exact hs
      · exact hs.retag hl
    · exact hs

theorem records_of_retagReads (hg : g.Linked) {guardUse : Bool}
    (h : g.retagReads n r guardUse = .ok s') : g.Records s'.2 s'.1 := by
  unfold retagReads at h
  refine foldlM_keeps (P := fun s => g.Records s.2 s.1) ?_ .refl h
  rintro ⟨e, l⟩ hx s1 s2 hs1 hstep
  exact hs1.cutOrRetag hstep fun _ => ⟨l, (hg.mem_leaving.1 (List.mem_filter.1 hx).1).1⟩

theorem records_of_bridgeOver (h : g.bridgeOver n = .ok s') : g.Records s'.2 s'.1 := by
  unfold bridgeOver at h
  refine foldlM_keeps (P := fun s => g.Records s.2 s.1) ?_ .refl h
  rintro ⟨e', out⟩ - s1 s2 hs1 h1
  refine foldlM_keeps (P := fun s => g.Records s.2 s.1) ?_ hs1 h1
  rintro ⟨e, inc⟩ - s3 s4 hs3 h3
  simp only [growBridge, bind_eq_ok] at h3
  obtain ⟨x, -, h3⟩ := h3
  cases x with
  | none => exact pure_eq_ok.1 h3 ▸ hs3
  | some d => exact hs3.growEdge h3

/-- The write is ordered before itself, as in a loop. -/
def OverwritesItself (g : Graph) (w : MoveId) : Prop :=
  ∃ e l, g.link? e = some l ∧ l.live ∧ l.tail = w ∧ l.head = w ∧ isStorage l.dep.reason ∧
    l.dep.hazard = .waw

/-- The edges of the write are repaired. The order that is bridged over it is not touched again. -/
theorem records_of_retagDest (hg : g.Linked) (hself : ¬ g.OverwritesItself n)
    (h : g.retagDest n = .ok s') : g.Records s'.2 s'.1 := by
  simp only [retagDest, bind_eq_ok] at h
  obtain ⟨m, hm, h⟩ := h
  cases hr : m.dst.reg? with
  | none =>
    simp only [hr, pure_eq_ok] at h
    exact h ▸ .refl
  | some r =>
    simp only [hr, bind_eq_ok] at h
    obtain ⟨s1, h1, s2, h2, h3⟩ := h
    have hrew := (rewires_of_bridgeOver hg h1).1
    have hg1 := hrew.linked hg
    have hold1 {e : EdgeId} {l : Link} (hl : s1.1.link? e = some l) (hh : l.head = n) :
        ∃ l, g.link? e = some l := by
      cases hknown : g.link? e with
      | some l => exact ⟨l, rfl⟩
      | none =>
        obtain ⟨inc, out, -, -, -, -, ⟨e', hout⟩, hlive, htail, hhead, hstorage, hwaw, -⟩ := hrew.fresh hknown hl
        exact absurd ⟨e', out, hout, hlive, htail, hhead.trans hh, hstorage, hwaw⟩ hself
    have hs2 : g.Records s2.2 s2.1 := by
      refine foldlM_keeps (P := fun s => g.Records s.2 s.1) ?_ (records_of_bridgeOver h1) h2
      rintro ⟨e, l⟩ hx t t' ht hstep
      obtain ⟨hl, -, hh⟩ := hg1.mem_entering.1 hx
      split at hstep
      · exact ht.cutOrRetag hstep fun _ => hold1 hl hh
      · exact pure_eq_ok.1 hstep ▸ ht
    have hentry := reworks_of_entering hrew.moves hg1 (fun t x => by cases t.1.entryGone? x.2 r <;> rfl) h2
    refine foldlM_keeps (P := fun s => g.Records s.2 s.1) ?_ hs2 h3
    rintro ⟨e, l⟩ hx t t' ht hstep
    obtain ⟨hl, -, htail⟩ := (hentry.linked hg1).mem_leaving.1 hx
    split at hstep
    · rename_i gone hgone
      refine ht.cutOrRetag hstep fun htrue => ?_
      cases hknown : g.link? e with
      | some l => exact ⟨l, rfl⟩
      | none =>
        rw [hentry.link?] at hl
        obtain ⟨l1, hl1, rfl⟩ := Option.map_eq_some_iff.1 hl
        obtain ⟨heqt, -, hdep⟩ := @settle_ends l1 r [g.entryDecision n r]
        obtain ⟨inc, out, ⟨e', hinc⟩, hlive, hitail, hihead, -, -, -, -, -, -, hbridge⟩ := hrew.fresh hknown hl1
        obtain ⟨hstorage, hhazard, -, hd⟩ := bridge_eq_some hbridge
        have hsame : (decide₁ r (g.entryDecision n r) l1).dep.hazard = inc.dep.hazard :=
          (Dependence.hazard_of_untagged hdep).trans (by rw [hd])
        have hwaw : inc.dep.hazard = .waw := by
          refine hhazard.resolve_right fun hwar => ?_
          simp [exitGone?, hsame, hwar] at hgone
        exact absurd ⟨e', inc, hinc, hlive, hitail.trans (heqt.symm.trans htail), hihead, hstorage, hwaw⟩ hself
    · exact pure_eq_ok.1 hstep ▸ ht

theorem records_of_renamedAt (hg : g.Linked) {role : Role}
    (hself : role = .dest → ¬ g.OverwritesItself n) (h : g.renamedAt n role = .ok s') :
    g.Records s'.2 s'.1 := by
  cases role with
  | dest => exact records_of_retagDest hg (hself rfl) h
  | source =>
    simp only [renamedAt, retagSource, bind_eq_ok] at h
    obtain ⟨m, -, h⟩ := h
    cases hr : m.src.reg? with
    | none =>
      simp only [hr, pure_eq_ok] at h
      exact h ▸ .refl
    | some r =>
      simp only [hr] at h
      exact records_of_retagReads hg h
  | guard =>
    simp only [renamedAt, retagGuard, bind_eq_ok] at h
    obtain ⟨m, -, h⟩ := h
    cases hr : m.guard with
    | none => simp [hr] at h
    | some guard =>
      simp only [hr] at h
      exact records_of_retagReads hg h

/-! ## Records one after the other -/

/-- Each record tells what one step did to the edges. -/
inductive RecordsAll (g : Graph) : List EdgeRecord → Graph → Prop
  | nil : RecordsAll g [] g
  | snoc {us : List EdgeRecord} {u : EdgeRecord} {g' g'' : Graph} (hus : RecordsAll g us g')
      (hu : g'.Records u g'') : RecordsAll g (us ++ [u]) g''

namespace RecordsAll

variable (hus : g.RecordsAll us g')
include hus

theorem rearranges : g.Rearranges g' := by
  induction hus with
  | nil => exact .refl
  | snoc _ hu ih => exact ih.trans hu.toRearranges

theorem size_le : g.links.size ≤ g'.links.size := by
  induction hus with
  | nil => exact Nat.le_refl _
  | snoc _ hu ih => exact Nat.le_trans ih hu.size_le

theorem undo (hr : g'.Resembles h') (hfit : g'.EdgesFit) :
    ∃ h, us.reverse.foldlM undoEdges h' = .ok h ∧ g.Resembles h := by
  induction hus generalizing h' with
  | nil => exact ⟨h', rfl, hr⟩
  | snoc _ hu ih =>
    obtain ⟨h1, hundo, hr1⟩ := hu.undo hr hfit
    obtain ⟨h, hrest, hr⟩ := ih hr1 (Nat.le_trans hu.size_le hfit)
    refine ⟨h, ?_, hr⟩
    rw [List.reverse_append, List.reverse_singleton, List.singleton_append, List.foldlM_cons, hundo]
    exact hrest

/-- What the undoing of each record brings back, the undoing of them all does. -/
theorem keeps_of_undo {Q : Graph → Graph → Prop} (hr : Q g' h')
    (hstep : ∀ u k k' l l', k.Records u k' → Q k' l' → l'.undoEdges u = .ok l → Q k l)
    (hundo : us.reverse.foldlM undoEdges h' = .ok h) : Q g h := by
  induction hus generalizing h' with
  | nil =>
    cases pure_eq_ok.1 hundo
    exact hr
  | snoc _ hu ih =>
    rw [List.reverse_append, List.reverse_singleton, List.singleton_append] at hundo
    obtain ⟨h1, hfirst, hundo⟩ := foldlM_cons_eq_ok.1 hundo
    exact ih (hstep _ _ _ _ _ hu hr hfirst) hundo

end RecordsAll

/-! ## Registers -/

theorem frame_of_setRegs (h : g.setRegs r roles = .ok g') : g'.frame = g.frame ∧ g'.ops = g.ops := by
  refine foldlM_keeps (P := fun g' => g'.frame = g.frame ∧ g'.ops = g.ops) ?_ ⟨rfl, rfl⟩ h
  rintro ⟨n, role⟩ - g₁ g2 hg1 hstep
  simp only [bind_eq_ok, pure_eq_ok] at hstep
  obtain ⟨_, -, rfl⟩ := hstep
  exact hg1

theorem move_modifyMove {f : Move → Move} :
    (∃ m, (g.modifyMove n f).move x = .ok m) ↔ ∃ m, g.move x = .ok m := by
  simp only [move_eq_ok, move?_modifyMove]
  by_cases hx : x = n
  · simp [hx]
  · simp [hx]

/-- A register can be written into moves that exist. -/
theorem exists_setRegs_iff :
    (∃ g', g.setRegs r roles = .ok g') ↔ ∀ p ∈ roles, ∃ m, g.move p.1 = .ok m := by
  induction roles generalizing g with
  | nil => exact ⟨fun _ p hp => (List.not_mem_nil hp).elim, fun _ => ⟨g, rfl⟩⟩
  | cons p roles ih =>
    obtain ⟨n, role⟩ := p
    have hstep : (∃ g', g.setRegs r ((n, role) :: roles) = .ok g') ↔ (∃ m, g.move n = .ok m) ∧
        ∃ g', (g.modifyMove n (·.setReg r role)).setRegs r roles = .ok g' := by
      simp only [setRegs, List.foldlM_cons, bind_eq_ok, pure_eq_ok]
      constructor
      · rintro ⟨g', -, ⟨m, hm, rfl⟩, h⟩
        exact ⟨⟨m, hm⟩, g', h⟩
      · rintro ⟨⟨m, hm⟩, g', h⟩
        exact ⟨g', _, ⟨m, hm, rfl⟩, h⟩
    rw [hstep, ih, List.forall_mem_cons]
    simp only [move_modifyMove]

theorem SameMoves.setRegs (hmoves : g.SameMoves g') (h : g.setRegs r roles = .ok g₁)
    (h' : g'.setRegs r roles = .ok g2) : g₁.SameMoves g2 := by
  have hreg := reregisters_of_setRegs h
  have hreg' := reregisters_of_setRegs h'
  refine ⟨fun n => ?_, ?_, ?_, ?_, ?_, ?_⟩
  · rw [hreg.move?, hreg'.move?, bare_setRegs, bare_setRegs, hmoves.moves]
  · rw [hreg.size, hreg'.size, hmoves.size]
  · rw [(frame_of_setRegs h).2, (frame_of_setRegs h').2, hmoves.ops]
  · rw [hreg.guardLatencies, hreg'.guardLatencies, hmoves.guardLatencies]
  · rw [hreg.forcedFiles, hreg'.forcedFiles, hmoves.forcedFiles]
  · rw [hreg.liveOut, hreg'.liveOut, hmoves.liveOut]

/-- Registers do not matter to a record of edges. -/
theorem Records.setRegs (hu : g.Records u g') (h : g.setRegs r roles = .ok g₁)
    (h' : g'.setRegs r roles = .ok g2) : g₁.Records u g2 := by
  have hreg := reregisters_of_setRegs h
  have hreg' := reregisters_of_setRegs h'
  refine ⟨⟨hu.moves.setRegs h h', ?_, fun hg1 => ?_, fun hg1 => ?_⟩, hu.removed_nodup, hu.added_nodup, ?_, ?_, ?_, ?_, ?_⟩
  · rw [(frame_of_setRegs h').1, (frame_of_setRegs h).1, hu.frame]
  · exact hreg'.sameEdges.linked (hu.linked (hreg.sameEdges.symm.linked hg1))
  · exact hreg'.sameEdges.consistent (hu.consistent (hreg.sameEdges.symm.consistent hg1))
  · simp only [hreg.link?, hreg'.link?]
    exact hu.kept
  · simp only [hreg.link?]
    exact hu.removed
  · simp only [hreg.link?, hreg'.link?]
    exact hu.added
  · simp only [hreg.link?, hreg'.link?]
    exact hu.fresh
  · simp only [hreg'.link?]
    exact hu.changed

section

variable (hset : g.setRegs new roles = .ok g₁) (hold : ∀ p ∈ roles, g.regOf p.1 p.2 = some old)
include hset hold

/-- Moves that are given back the register they held before are as before. -/
theorem sameMoves_of_setRegs_back (hmoves : g₁.SameMoves h1) (hback : h1.setRegs old roles.reverse = .ok h) :
    g.SameMoves h := by
  have hreg := reregisters_of_setRegs hset
  have hreg' := reregisters_of_setRegs hback
  refine ⟨fun n => ?_, ?_, ?_, ?_, ?_, ?_⟩
  · rw [hreg'.move?, bare_setRegs, hmoves.moves, hreg.move?, bare_setRegs]
    cases hm : g.move? n with
    | none => rfl
    | some m =>
      simp only [Option.map_some, Option.some.injEq]
      refine Move.setRegs_setRegs fun role hmem => ?_
      have hrole := of_some (regOf_eq_some.1 (hold (n, role) hmem)) hm
      cases role <;> exact hrole
  · rw [hreg'.size, hmoves.size, hreg.size]
  · rw [(frame_of_setRegs hback).2, hmoves.ops, (frame_of_setRegs hset).2]
  · rw [hreg'.guardLatencies, hmoves.guardLatencies, hreg.guardLatencies]
  · rw [hreg'.forcedFiles, hmoves.forcedFiles, hreg.forcedFiles]
  · rw [hreg'.liveOut, hmoves.liveOut, hreg.liveOut]

/-- A register that the moves held before is given back to them. -/
theorem exists_setRegs_back (hr : g₁.Resembles h1) : ∃ h, h1.setRegs old roles.reverse = .ok h ∧ g.Resembles h := by
  have hreg := reregisters_of_setRegs hset
  have hknown : ∀ p ∈ roles.reverse, ∃ m, h1.move p.1 = .ok m := by
    intro p hp
    obtain ⟨m, hm⟩ := exists_setRegs_iff.1 ⟨g₁, hset⟩ p (List.mem_reverse.1 hp)
    obtain ⟨hne, hm⟩ := move_eq_ok.1 hm
    have hm1 : g₁.move? p.1 = some (m.setRegs new roles p.1) := by rw [hreg.move?, hm]; rfl
    obtain ⟨m', hm', -⟩ := hr.moves.move? hm1
    exact ⟨m', move_eq_ok.2 ⟨hne, hm'⟩⟩
  obtain ⟨h, hback⟩ := exists_setRegs_iff.2 hknown
  have hreg' := reregisters_of_setRegs hback
  refine ⟨h, hback, sameMoves_of_setRegs_back hset hold hr.moves hback, ?_, ?_, ?_, ?_⟩
  · rw [(frame_of_setRegs hback).1, hr.frame, (frame_of_setRegs hset).1]
  · intro e l hl
    rw [hreg'.link?]
    exact hr.links (by rw [hreg.link?, hl])
  · intro e l hnone hl
    rw [hreg'.link?] at hl
    exact hr.spare (by rw [hreg.link?, hnone]) hl
  · exact hreg'.sameEdges.consistent hr.consistent

end

/-! ## One renaming -/

/-- The first record is about the registers of before. It is replayed on the new ones. -/
theorem Records.setRegs_of_roles (hadded : g.Records u g₁) (hset : g₁.setRegs new roles = .ok g2) :
    ∃ k, g.setRegs new roles = .ok k ∧ k.Records u g2 := by
  have hknown : ∀ p ∈ roles, ∃ m, g.move p.1 = .ok m := by
    intro p hp
    obtain ⟨m, hm⟩ := exists_setRegs_iff.1 ⟨g2, hset⟩ p hp
    rcases hadded.moves.move_cases p.1 with ⟨m0, -, hm0, -, -⟩ | ⟨fault, -, hfault⟩
    · exact ⟨m0, hm0⟩
    · rw [hfault] at hm
      cases hm
  obtain ⟨k, hk⟩ := (exists_setRegs_iff (r := new)).2 hknown
  exact ⟨k, hk, hadded.setRegs hk hset⟩

/-- The records tell what happened to the edges, as if the range had been given its register first. -/
theorem recordsAll_of_applyRename (hg : g.Linked) (hw : range.writes.toList = [w])
    (hself : ¬ g.OverwritesItself w) (hne : ∀ t hd d, (t, hd, d) ∈ edges → t ≠ hd)
    (h : g.applyRename range r edges = .ok (g', us)) :
    ∃ k, g.setRegs r range.roles = .ok k ∧ k.RecordsAll us g' := by
  obtain ⟨g₁, added, g2, ⟨g3, u⟩, hgrow, hrew, hset, hg2, -, hdest, h⟩ := applyRename_eq_ok hg hw h
  have hadded : g.Records added g₁ := by
    refine foldlM_keeps (P := fun s : Graph × EdgeRecord => g.Records s.2 s.1) ?_ .refl hgrow
    rintro ⟨t, hd, d⟩ - s1 s2 hs1 hstep
    exact hs1.growEdge hstep
  have hreg := reregisters_of_setRegs hset
  have hself2 : ¬ g2.OverwritesItself w := by
    rintro ⟨e, l, hl, hlive, htail, hhead, hrest⟩
    rw [hreg.link?] at hl
    rcases hrew.live hl hlive with hold | ⟨hback, -⟩ | ⟨-, hnew⟩
    · exact hself ⟨e, l, hold, hlive, htail, hhead, hrest⟩
    · exact hback
    · exact hne _ _ _ hnew (htail.trans hhead.symm)
  obtain ⟨k, hk, hadded⟩ := hadded.setRegs_of_roles hset
  refine ⟨k, hk, foldlM_keeps (P := fun s : Graph × List EdgeRecord => k.RecordsAll s.2 s.1) ?_
    (.snoc (.snoc .nil hadded) (records_of_retagDest hg2 hself2 hdest)) h⟩
  rintro ⟨n, role⟩ hmem ⟨k1, vs⟩ s2 hall hstep
  simp only [bind_eq_ok, pure_eq_ok] at hstep
  obtain ⟨⟨k', v⟩, hat, rfl⟩ := hstep
  have hrole : role ≠ .dest := by
    rintro rfl
    simp at hmem
  have hlinked := hall.rearranges.linked ((reregisters_of_setRegs hk).linked hg)
  exact .snoc hall (records_of_renamedAt hlinked (fun hdest => absurd hdest hrole) hat)

section

variable (hw : range.writes.toList = [w]) (hself : ¬ g.OverwritesItself w)
  (hne : ∀ t hd d, (t, hd, d) ∈ edges → t ≠ hd)
  (hold : ∀ x role, x ∈ range.inRole role → g.regOf x role = some old)
  (happly : g.applyRename range new edges = .ok (g', us))
include hw hself hne hold happly

/-- A range that held a register throughout holds it again. -/
theorem undo_of_applyRename (hg : g.Consistent) (hr : g'.Resembles h') (hfit : g'.EdgesFit) :
    ∃ h1 h, us.reverse.foldlM undoEdges h' = .ok h1 ∧
      h1.setRegs old range.roles.reverse = .ok h ∧ g.Resembles h := by
  obtain ⟨k, hk, hall⟩ := recordsAll_of_applyRename hg.toLinked hw hself hne happly
  obtain ⟨h1, hundo, hr1⟩ := hall.undo hr hfit
  obtain ⟨h, hback, hr⟩ := exists_setRegs_back hk (fun p hp => hold p.1 p.2 (mem_roles.1 hp)) hr1
  exact ⟨h1, h, hundo, hback, hr⟩

theorem resembles_of_undoRename (hg : g.Linked) (hr : g'.Resembles h')
    (hundo : us.reverse.foldlM undoEdges h' = .ok h1)
    (hback : h1.setRegs old range.roles.reverse = .ok h0) : g.Resembles h0 := by
  obtain ⟨k, hk, hall⟩ := recordsAll_of_applyRename hg hw hself hne happly
  have hr1 : k.Resembles h1 :=
    hall.keeps_of_undo hr (fun _ _ _ _ _ hu hr => hu.resembles_of_undoEdges hr) hundo
  obtain ⟨h, hback', hr'⟩ := exists_setRegs_back hk (fun p hp => hold p.1 p.2 (mem_roles.1 hp)) hr1
  cases hback.symm.trans hback'
  exact hr'

/-- Whatever the order of the edge lists: a renaming that is taken back leaves the moves and the edges
of before. -/
theorem extends_of_undoRename (hg : g.Linked) (hundo : us.reverse.foldlM undoEdges g' = .ok h1)
    (hback : h1.setRegs old range.roles.reverse = .ok h') : g.SameMoves h' ∧ g.Extends h' := by
  obtain ⟨k, hk, hall⟩ := recordsAll_of_applyRename hg hw hself hne happly
  have hmoves : k.SameMoves h1 := by
    refine foldlM_keeps (P := fun x => k.SameMoves x) ?_ hall.rearranges.moves hundo
    exact fun u _ x x' hx hstep => hx.trans (rearranges_of_undoEdges hstep).moves
  have hlinks : k.Extends h1 := hall.keeps_of_undo (.of_links fun _ => rfl)
    (fun _ _ _ _ _ hu hr => hu.extends_of_undoEdges hr) hundo
  refine ⟨sameMoves_of_setRegs_back hk (fun p hp => hold p.1 p.2 (mem_roles.1 hp)) hmoves hback, ?_⟩
  have hgk : g.Extends k := .of_links (reregisters_of_setRegs hk).link?
  exact (hgk.trans hlinks).trans (.of_links (reregisters_of_setRegs hback).link?)

end

end Graph

/-- The moves of the range have the same register. -/
def Graph.Uniform (g : Graph) (range : LiveRange) : Prop :=
  ∃ r, ∀ x role, x ∈ range.inRole role → g.regOf x role = some r

namespace Renamer

variable {rn rn' rn0 : Renamer} {g g' h h' h0 h1 : Graph} {range : LiveRange} {n w : MoveId} {new r : Reg}
  {role : Role} {mode : RenameMode} {u : RenameRecord}

/-! ## The books of the renamer -/

/-- A set is again what it was, if only `r` came or went. -/
theorem put_back {s t : RegSet} (h : ∀ x, x ≠ r → (x ∈ t ↔ x ∈ s)) :
    (if s.contains r then t.insert r else t.erase r) = s := by
  refine Std.ExtTreeSet.ext_mem fun x => ?_
  by_cases hx : x = r
  · subst hx
    cases hs : s.contains x with
    | true => simpa [Std.ExtTreeSet.mem_insert] using hs
    | false => simp [Std.ExtTreeSet.mem_iff_contains, hs]
  · split
    · simp [Std.ExtTreeSet.mem_insert, Ne.symm hx, h x hx]
    · simp [Std.ExtTreeSet.mem_erase, Ne.symm hx, h x hx]

theorem setMembership_take :
    (rn.take range new mode).setMembership new (rn.membership new) = rn.recordUse range new mode := by
  have hinsert {s : RegSet} : ∀ x, x ≠ new → (x ∈ s.insert new ↔ x ∈ s) := fun x hx => by
    simp [Std.ExtTreeSet.mem_insert, Ne.symm hx]
  have herase {s : RegSet} : ∀ x, x ≠ new → (x ∈ s.erase new ↔ x ∈ s) := fun x hx => by
    simp [Std.ExtTreeSet.mem_erase, Ne.symm hx]
  simp only [take, setMembership, membership, recordUse, Bool.false_eq_true, if_false, if_true]
  rw [put_back herase, put_back herase, put_back hinsert]

/-- Once the graph is as before, so is the renamer. -/
theorem undo_eq (hnew : u.new = new) (hmember : u.membership = rn.membership new)
    (huse : u.oldUse = rn.lifetimes.regs[new]?)
    (hedges : u.edges.reverse.foldlM Graph.undoEdges h' = .ok h1)
    (hregs : h1.setRegs u.old u.moves.reverse = .ok h) :
    (rn.take range new mode).undo h' u = .ok (rn, h) := by
  simp only [undo, hedges, hregs, ok_bind, hnew, hmember, setMembership_take, huse, pure_eq_ok,
    Prod.mk.injEq, and_true]
  cases hold : rn.lifetimes.regs[new]? with
  | some use => simp only [recordUse, insert_back hold]
  | none => simp only [recordUse, erase_back hold]

/-! ## One renaming -/

theorem undo_of_uniform (hg : g.Consistent) (hself : ∀ w, range.writes.toList = [w] → ¬ g.OverwritesItself w)
    (huniform : g.Uniform range) (h : rn.rename g range new mode = .ok (some (u, rn', g')))
    (hr : g'.Resembles h') (hfit : g'.EdgesFit) : ∃ h, rn'.undo h' u = .ok (rn, h) ∧ g.Resembles h := by
  obtain ⟨w, old, planned, needed, us, hmov, -, -, hneeded, happly, rfl, rfl⟩ := Graph.Renamer.rename_eq_some h
  obtain ⟨hw, -, m, hm, hdst, -⟩ := Graph.movable_eq_some hmov
  obtain ⟨r, hregs⟩ := huniform
  have hold : some r = some old := by
    have hmem : w ∈ range.inRole .dest := Std.ExtTreeSet.mem_toList.1 (by simp [LiveRange.inRole, hw])
    rw [← hregs w .dest hmem, Graph.regOf, hm]
    simp [Move.regAt?, hdst, Terminal.reg?]
  cases hold
  obtain ⟨h1, h, hedges, hback, hres⟩ := Graph.undo_of_applyRename hw (hself w hw)
    (fun _ _ _ hx => (Graph.mem_of_neededEdges hneeded hx).2) hregs happly hg hr hfit
  exact ⟨h, undo_eq rfl rfl rfl hedges hback, hres⟩

theorem undo_of_rename (hg : g.Consistent) (ht : g.ValuesAgree) (hself : ¬ g.OverwritesItself w)
    (hrange : g.liveRange w .dest = .ok range)
    (h : rn.rename g range new mode = .ok (some (u, rn', g'))) (hr : g'.Resembles h')
    (hfit : g'.EdgesFit) : ∃ h, rn'.undo h' u = .ok (rn, h) ∧ g.Resembles h := by
  obtain ⟨w', edges, htransfers, hw, -⟩ := Graph.transfers_of_rename hg.toLinked ht hrange h
  obtain rfl := hw rfl
  refine undo_of_uniform hg (fun w' hw' => ?_) ⟨u.old, fun x role => htransfers.regOf hg.toLinked ht⟩ h hr hfit
  cases htransfers.writes.symm.trans hw'
  exact hself

/-- Where a renaming is taken back, both the renamer and the graph are as before. -/
theorem resembles_of_undo (hg : g.Linked) (ht : g.ValuesAgree) (hself : ∀ w, ¬ g.OverwritesItself w)
    (hrange : g.liveRange n role = .ok range) (h : rn.rename g range new mode = .ok (some (u, rn', g')))
    (hr : g'.Resembles h') (hundo : rn'.undo h' u = .ok (rn0, h0)) : rn0 = rn ∧ g.Resembles h0 := by
  obtain ⟨w, edges, htransfers, -, hnew, hmoves, hmember, huse, rfl⟩ := Graph.transfers_of_rename hg ht hrange h
  have hok := hundo
  simp only [undo, bind_eq_ok, pure_eq_ok, Prod.mk.injEq] at hundo
  obtain ⟨h1, hedges, h2, hregs, -, rfl⟩ := hundo
  cases hok.symm.trans (undo_eq hnew hmember huse hedges hregs)
  refine ⟨rfl, Graph.resembles_of_undoRename htransfers.writes (hself w) (fun _ _ _ => htransfers.distinct)
    (fun x role => htransfers.regOf hg ht) htransfers.applied hg hr hedges ?_⟩
  rwa [hmoves] at hregs

end Renamer

namespace Graph

variable {g g' h : Graph} {range : LiveRange} {w x : MoveId} {new : Reg}
  {edges : List (MoveId × MoveId × Dependence)} {us : List EdgeRecord}

/-- A renaming orders no write before itself. -/
theorem overwritesItself_of_applyRename (hg : g.Linked) (hw : range.writes.toList = [w])
    (hne : ∀ t hd d, (t, hd, d) ∈ edges → t ≠ hd) (h : g.applyRename range new edges = .ok (g', us))
    (hx : g'.OverwritesItself x) : g.OverwritesItself x := by
  obtain ⟨g₁, g2, g3, hrel⟩ := relabels_of_applyRename hg hw h
  obtain ⟨e, l', hl', hlive', htail, hhead, hstorage, hwaw⟩ := hx
  obtain ⟨l, hl, hlive, rfl⟩ := hrel.settled_link hl' hlive'
  obtain ⟨ht, hh, hdep⟩ := @settle_ends l new (g2.decisions range w new)
  have heq : l.tail = l.head := by rw [← ht, ← hh, htail, hhead]
  rcases hrel.origin_bridged hl hlive with hold | hnew | ⟨inc, out, hbr⟩
  · exact ⟨e, l, hold, hlive, ht.symm.trans htail, hh.symm.trans hhead,
      Dependence.reason_of_untagged hdep ▸ hstorage, (Dependence.hazard_of_untagged hdep).symm.trans hwaw⟩
  · exact absurd heq (hne _ _ _ hnew)
  · obtain ⟨-, -, hne, -⟩ := bridge_eq_some hbr.bridge
    exact absurd (hbr.inc_tail.trans (heq.trans hbr.out_head.symm)) hne

theorem consistent_of_applyRename (hg : g.Consistent) (hw : range.writes.toList = [w])
    (hself : ¬ g.OverwritesItself w) (hne : ∀ t hd d, (t, hd, d) ∈ edges → t ≠ hd)
    (h : g.applyRename range new edges = .ok (g', us)) : g'.Consistent ∧ g.links.size ≤ g'.links.size := by
  obtain ⟨k, hk, hall⟩ := recordsAll_of_applyRename hg.toLinked hw hself hne h
  have hreg := reregisters_of_setRegs hk
  refine ⟨hall.rearranges.consistent (hreg.sameEdges.consistent hg), ?_⟩
  refine Nat.le_trans (links_size_le fun e l hl => ?_) hall.size_le
  exact ⟨l, by rw [hreg.link?, hl]⟩

end Graph

/-! ## Any number of renamings -/

/-- The live range that a move writes is to be moved to another register. -/
structure Renaming where
  write : MoveId
  target : Reg
  mode : RenameMode

namespace Renamer

variable {rn rn' : Renamer} {g g' h h' : Graph} {p : Renaming} {ps : List Renaming} {us : List RenameRecord}
  {u? : Option RenameRecord}

/-- Rename one range. A renaming that is refused leaves everything as it is, and no record. -/
def attempt (rn : Renamer) (g : Graph) (p : Renaming) :
    Checked (Renamer × Graph × Option RenameRecord) := do
  match ← rn.rename g (← g.liveRange p.write .dest) p.target p.mode with
  | some (u, rn, g) => return (rn, g, some u)
  | none => return (rn, g, none)

/-- Rename ranges one after the other. The records of those renamed come with the last one first. -/
def renameAll (rn : Renamer) (g : Graph) (ps : List Renaming) :
    Checked (Renamer × Graph × List RenameRecord) :=
  ps.foldlM (fun x p => do
    let (rn, g, u?) ← x.1.attempt x.2.1 p
    return (rn, g, u?.toList ++ x.2.2)) (rn, g, [])

/-- Take renamings back, in the order of their records. -/
def undoRenames (rn : Renamer) (g : Graph) (us : List RenameRecord) : Checked (Renamer × Graph) :=
  us.foldlM (fun x u => x.1.undo x.2 u) (rn, g)

theorem renameAll_concat {x : Renamer × Graph × List RenameRecord} (h : rn.renameAll g (ps ++ [p]) = .ok x) :
    ∃ y z, rn.renameAll g ps = .ok y ∧ y.1.attempt y.2.1 p = .ok z ∧
      x = (z.1, z.2.1, z.2.2.toList ++ y.2.2) := by
  simp only [renameAll, List.foldlM_append, List.foldlM_cons, List.foldlM_nil, bind_eq_ok, pure_eq_ok] at h
  obtain ⟨y, hy, _, ⟨z, hz, rfl⟩, rfl⟩ := h
  exact ⟨y, z, hy, hz, rfl⟩

theorem attempt_eq_ok (h : rn.attempt g p = .ok (rn', g', u?)) :
    (u? = none ∧ rn' = rn ∧ g' = g) ∨ ∃ range u, u? = some u ∧ g.liveRange p.write .dest = .ok range ∧
      rn.rename g range p.target p.mode = .ok (some (u, rn', g')) := by
  simp only [attempt, bind_eq_ok] at h
  obtain ⟨range, hrange, x, hx, h⟩ := h
  cases x with
  | none =>
    cases pure_eq_ok.1 h
    exact .inl ⟨rfl, rfl, rfl⟩
  | some x =>
    cases pure_eq_ok.1 h
    exact .inr ⟨range, x.1, rfl, hrange, hx⟩

/-- What renamings keep, so that they can be taken back. -/
structure Undoable (g : Graph) (ps : List Renaming) : Prop where
  consistent : g.Consistent
  values : g.ValuesAgree
  once : ∀ p ∈ ps, ¬ g.OverwritesItself p.write

theorem Undoable.attempt (hg : Undoable g ps) (hp : p ∈ ps)
    (h : rn.attempt g p = .ok (rn', g', u?)) : Undoable g' ps ∧ g.links.size ≤ g'.links.size ∧
      ∀ h', g'.Resembles h' → g'.EdgesFit →
        ∃ h, rn'.undoRenames h' u?.toList = .ok (rn, h) ∧ g.Resembles h := by
  rcases attempt_eq_ok h with ⟨rfl, rfl, rfl⟩ | ⟨range, u, rfl, hrange, hrename⟩
  · exact ⟨hg, Nat.le_refl _, fun h' hr _ => ⟨h', rfl, hr⟩⟩
  · have hlinked := hg.consistent.toLinked
    obtain ⟨w, edges, htransfers, hw, -⟩ :=
      Graph.transfers_of_rename hlinked hg.values hrange hrename
    obtain rfl := hw rfl
    have hne : ∀ t hd d, (t, hd, d) ∈ edges → t ≠ hd := fun _ _ _ => htransfers.distinct
    obtain ⟨hconsistent, hsize⟩ :=
      Graph.consistent_of_applyRename hg.consistent htransfers.writes (hg.once p hp) hne htransfers.applied
    refine ⟨⟨hconsistent, htransfers.valuesAgree hlinked hg.values, fun q hq hself =>
      hg.once q hq (Graph.overwritesItself_of_applyRename hlinked htransfers.writes hne htransfers.applied hself)⟩,
      hsize, fun h' hr hfit => ?_⟩
    obtain ⟨h, hundo, hres⟩ :=
      undo_of_rename hg.consistent hg.values (hg.once p hp) hrange hrename hr hfit
    refine ⟨h, ?_, hres⟩
    rw [undoRenames, Option.toList_some, List.foldlM_cons, hundo]
    rfl

/-- The records of some renamings, replayed on what they led to or on a graph that looks like it. -/
theorem undo_of_renameAll {qs : List Renaming} (hg : Undoable g ps) (hqs : ∀ q ∈ qs, q ∈ ps)
    (hrun : rn.renameAll g qs = .ok (rn', g', us)) : Undoable g' ps ∧
      ∀ h', g'.Resembles h' → g'.EdgesFit →
        ∃ h, rn'.undoRenames h' us = .ok (rn, h) ∧ g.Resembles h := by
  induction qs using List.reverseRecOn generalizing rn' g' us with
  | nil =>
    cases pure_eq_ok.1 hrun
    exact ⟨hg, fun h' hr _ => ⟨h', rfl, hr⟩⟩
  | append_singleton qs q ih =>
    obtain ⟨⟨rn1, g₁, us1⟩, ⟨rn2, g2, u?⟩, hfirst, hlast, heq⟩ := renameAll_concat hrun
    cases heq
    obtain ⟨hg1, hundo1⟩ := ih (fun q hq => hqs q (List.mem_append_left _ hq)) hfirst
    obtain ⟨hg2, hsize, hundo2⟩ := hg1.attempt (hqs q (by simp)) hlast
    refine ⟨hg2, fun h' hr hfit => ?_⟩
    obtain ⟨h1, hback, hr1⟩ := hundo2 h' hr hfit
    obtain ⟨h, hrest, hr⟩ := hundo1 h1 hr1 (Nat.le_trans hsize hfit)
    refine ⟨h, ?_, hr⟩
    rw [undoRenames, List.foldlM_append]
    exact bind_eq_ok.2 ⟨_, hback, hrest⟩

/-- Renamings of any ranges, to any registers and in any mode, are taken back by their records, the
last one first: the renamer is the one of before, and so is the graph. Only a write that is ordered
before itself must not be renamed. A renaming that is refused changes nothing. -/
theorem undoRenames_renameAll (hg : g.Consistent) (ht : g.Agreeing)
    (honce : ∀ p ∈ ps, ¬ g.OverwritesItself p.write)
    (hrun : rn.renameAll g ps = .ok (rn', g', us)) (hfit : g'.EdgesFit) :
    (∃ h, rn'.undoRenames g' us = .ok (rn, h) ∧ g.Restores h) ∧
      ∀ p x, rn'.attempt g' p = .ok x → x.2.2 = none → x = (rn', g', none) := by
  obtain ⟨hg', hundo⟩ := undo_of_renameAll ⟨hg, ht.values, honce⟩ (fun _ => id) hrun
  obtain ⟨h, hback, hr⟩ := hundo g' (.refl hg'.consistent) hfit
  refine ⟨⟨h, hback, hr.restores hg⟩, ?_⟩
  rintro p ⟨rn₁, g₁, u?⟩ hx rfl
  rcases attempt_eq_ok hx with ⟨-, rfl, rfl⟩ | ⟨range, u, hu, -⟩
  · rfl
  · cases hu

/-! ### A register written twice -/

/-- Two moves write a register, and a third reads it. -/
def twice : Graph where
  moves := #[{ src := .immediate 2, dst := .register ⟨⟨0⟩, 0⟩, block := ⟨0⟩ },
    { src := .immediate 1, dst := .register ⟨⟨0⟩, 0⟩, block := ⟨0⟩ },
    { src := .register ⟨⟨0⟩, 0⟩, dst := .register ⟨⟨0⟩, 1⟩, block := ⟨0⟩ }]
  liveOut := some ∅
  forcedFiles := []
  guardLatencies := #[]

def orderTwice : List Surgery :=
  [.connect ⟨0⟩ ⟨1⟩ (.register .waw ⟨⟨0⟩, 0⟩), .connect ⟨1⟩ ⟨2⟩ (.register .raw ⟨⟨0⟩, 0⟩)]

/-- The second write comes after itself, one iteration later. -/
def orderItself : Surgery :=
  .connect ⟨1⟩ ⟨1⟩ { Dependence.register .waw ⟨⟨0⟩, 0⟩ with loopDepth := 1 }

/-- Two registers are free. -/
def twoFree : Renamer where
  all := (∅ : RegSet).insertMany [⟨⟨0⟩, 2⟩, ⟨⟨0⟩, 3⟩]
  free := (∅ : RegSet).insertMany [⟨⟨0⟩, 2⟩, ⟨⟨0⟩, 3⟩]
  partly := ∅
  lifetimes := {}

/-- The value that is read goes to one register and then to another. -/
def moveTwice : List Renaming :=
  [⟨⟨1⟩, ⟨⟨0⟩, 3⟩, .free⟩, ⟨⟨0⟩, ⟨⟨0⟩, 2⟩, .free⟩, ⟨⟨1⟩, ⟨⟨0⟩, 2⟩, .free⟩]

theorem twice_consistent : twice.Consistent :=
  Graph.consistent_of_no_links rfl (by decide)

/-- Every edge of the table that is in the graph has a property. -/
def linksHold (g : Graph) (P : Link → Prop) [DecidablePred P] : Bool :=
  decide (∀ l ∈ g.links.toList, l.live → P l)

theorem of_linksHold {P : Link → Prop} [DecidablePred P] (h : linksHold g P) {e : EdgeId} {l : Link}
    (hl : g.link? e = some l) (hlive : l.live) : P l :=
  of_decide_eq_true h l (Array.mem_toList_iff.2 (Array.mem_of_getElem? hl)) hlive

theorem undoRenames_renameAll_twice : ∃ g us₀ rn' g' us, twice.operate orderTwice = .ok (g, us₀) ∧
    twoFree.renameAll g moveTwice = .ok (rn', g', us) ∧ us.length = 2 ∧
      ∃ h, rn'.undoRenames g' us = .ok (twoFree, h) ∧ g.Restores h := by
  obtain ⟨⟨g, us₀⟩, hbuild, hgraph⟩ := exists_ok_of_any
    (p := fun x : Graph × List SurgeryRecord => linksHold x.1 (fun l => x.1.Agrees l ∧ l.tail ≠ l.head) &&
      (twoFree.renameAll x.1 moveTwice).toOption.any fun y : Renamer × Graph × List RenameRecord =>
        decide (y.2.1.EdgesFit ∧ y.2.2.length = 2))
    (show (twice.operate orderTwice).toOption.any _ by decide +kernel)
  simp only [Bool.and_eq_true] at hgraph
  obtain ⟨hlinks, hrun⟩ := hgraph
  obtain ⟨⟨rn', g', us⟩, hrun, hfit⟩ := exists_ok_of_any hrun
  obtain ⟨hfit, hlength⟩ := of_decide_eq_true hfit
  refine ⟨g, us₀, rn', g', us, hbuild, hrun, hlength, (undoRenames_renameAll
    (Graph.consistent_of_operate twice_consistent hbuild) (fun e l hl hlive => ?_) ?_ hrun hfit).1⟩
  · exact (of_linksHold hlinks hl hlive).1
  · rintro p - ⟨e, l, hl, hlive, htail, hhead, -⟩
    exact (of_linksHold hlinks hl hlive).2 (htail.trans hhead.symm)

/-- An edge that bridges a write ordered before itself is added and cut at once, and cannot be taken
out of the graph a second time. -/
theorem overwrite_not_undone : ∃ g us₀ rn' g' us,
    twice.operate (orderTwice ++ [orderItself]) = .ok (g, us₀) ∧ g.Consistent ∧ g.Agreeing ∧
      twoFree.renameAll g (moveTwice.take 1) = .ok (rn', g', us) ∧ g'.EdgesFit ∧
        ¬ ∃ x, rn'.undoRenames g' us = .ok x := by
  obtain ⟨⟨g, us₀⟩, hbuild, hgraph⟩ := exists_ok_of_any
    (p := fun x : Graph × List SurgeryRecord => linksHold x.1 x.1.Agrees &&
      (twoFree.renameAll x.1 (moveTwice.take 1)).toOption.any
        fun y : Renamer × Graph × List RenameRecord =>
          decide y.2.1.EdgesFit && (y.1.undoRenames y.2.1 y.2.2).toOption.isNone)
    (show (twice.operate (orderTwice ++ [orderItself])).toOption.any _ by decide +kernel)
  simp only [Bool.and_eq_true] at hgraph
  obtain ⟨hlinks, hrun⟩ := hgraph
  obtain ⟨⟨rn', g', us⟩, hrun, hfit⟩ := exists_ok_of_any hrun
  simp only [Bool.and_eq_true, decide_eq_true_eq] at hfit
  refine ⟨g, us₀, rn', g', us, hbuild, Graph.consistent_of_operate twice_consistent hbuild,
    fun e l hl hlive => of_linksHold hlinks hl hlive, hrun, hfit.1, ?_⟩
  rintro ⟨x, hx⟩
  have hnone := hfit.2
  simp [hx, Except.toOption] at hnone

end Renamer

end Transport
