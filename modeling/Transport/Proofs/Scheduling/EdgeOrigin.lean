import Transport.Proofs.Scheduling.Block

/-!
# Where edges come from

No edge is ever forgotten: it is cut, comes back or is tagged anew, but joins the same moves for the same
reason. And an edge that is new carries no value, and keeps a register from being overwritten or has its like
among the old ones. `Descends` says so of two graphs of a run.
-/

namespace Transport

variable {g0 g g' : Graph} {j : Job} {machine : Machine}

open Transport.Graph

namespace Graph

variable {g1 g'' : Graph} {e : EdgeId} {l l' : Link} {n : MoveId}

structure Descends (g g' : Graph) : Prop where
  kept {e : EdgeId} {l : Link} : g.link? e = some l → ∃ l', g'.link? e = some l' ∧ l'.tail = l.tail ∧
    l'.head = l.head ∧ l'.dep.untagged = l.dep.untagged
  fresh {e : EdgeId} {l' : Link} : g.link? e = none → g'.link? e = some l' → l'.dep.isRaw = false ∧
    ((l'.dep.reason = .register → l'.dep.hazard = .unknown) → ∃ e₁ l₁, g.link? e₁ = some l₁ ∧ l₁.tail = l'.tail ∧
      l₁.dep.reason = l'.dep.reason ∧ l₁.dep.hazard = l'.dep.hazard)

namespace Descends

theorem refl : g.Descends g := by
  refine ⟨fun {e l} hl => ⟨l, hl, rfl, rfl, rfl⟩, fun hnone hl => ?_⟩
  rw [hnone] at hl
  cases hl

theorem trans (h : g.Descends g') (h' : g'.Descends g'') : g.Descends g'' := by
  refine ⟨fun {e l} hl => ?_, fun {e l''} hnone hl'' => ?_⟩
  · obtain ⟨l', hl', htail, hhead, hdep⟩ := h.kept hl
    obtain ⟨l'', hl'', htail', hhead', hdep'⟩ := h'.kept hl'
    exact ⟨l'', hl'', htail'.trans htail, hhead'.trans hhead, hdep'.trans hdep⟩
  cases hl' : g'.link? e with
  | some l' =>
    obtain ⟨hraw, horigin⟩ := h.fresh hnone hl'
    obtain ⟨htail, -, hdep⟩ := of_some (h'.kept hl') hl''
    rw [Dependence.isRaw_of_untagged hdep, Dependence.reason_of_untagged hdep, Dependence.hazard_of_untagged hdep,
      htail]
    exact ⟨hraw, horigin⟩
  | none =>
    obtain ⟨hraw, horigin⟩ := h'.fresh hl' hl''
    refine ⟨hraw, fun hkind => ?_⟩
    obtain ⟨e1, l1, hl1, htail1, hreason1, hhazard1⟩ := horigin hkind
    cases hl0 : g.link? e1 with
    | none =>
      obtain ⟨e2, l2, hl2, htail2, hreason2, hhazard2⟩ := (h.fresh hl0 hl1).2 (by rwa [hreason1, hhazard1])
      exact ⟨e2, l2, hl2, htail2.trans htail1, hreason2.trans hreason1, hhazard2.trans hhazard1⟩
    | some l0 =>
      obtain ⟨htail2, -, hdep2⟩ := of_some (h.kept hl0) hl1
      exact ⟨e1, l0, hl0, htail2.symm.trans htail1, (Dependence.reason_of_untagged hdep2).symm.trans hreason1,
        (Dependence.hazard_of_untagged hdep2).symm.trans hhazard1⟩

theorem of_links (h : ∀ e, g'.link? e = g.link? e) : g.Descends g' := by
  refine ⟨fun {e l} hl => ⟨l, (h e).trans hl, rfl, rfl, rfl⟩, fun {e l} hnone hl => ?_⟩
  rw [h, hnone] at hl
  cases hl

section

variable (h : g.Descends g') (hl : g'.link? e = some l')
include h hl

/-- A value that a later graph passes on was passed on from the first. -/
theorem raw (hraw : l'.dep.isRaw) :
    ∃ l, g.link? e = some l ∧ l'.tail = l.tail ∧ l'.head = l.head ∧ l'.dep.untagged = l.dep.untagged := by
  cases hl0 : g.link? e with
  | none =>
    rw [(h.fresh hl0 hl).1] at hraw
    cases hraw
  | some l =>
    have hrest := of_some (h.kept hl0) hl
    exact ⟨l, rfl, hrest⟩

/-- A move that is held to an order not about a register, or by a hazard not known, was so from the first. -/
theorem kind (hkind : l'.dep.reason = .register → l'.dep.hazard = .unknown) : ∃ e1 l, g.link? e1 = some l ∧
      l.tail = l'.tail ∧ l.dep.reason = l'.dep.reason ∧ l.dep.hazard = l'.dep.hazard := by
  cases hl0 : g.link? e with
  | none => exact (h.fresh hl0 hl).2 hkind
  | some l =>
    obtain ⟨htail, -, hdep⟩ := of_some (h.kept hl0) hl
    exact ⟨e, l, hl0, htail.symm, (Dependence.reason_of_untagged hdep).symm, (Dependence.hazard_of_untagged hdep).symm⟩

theorem reason (hreason : l'.dep.reason ≠ .register) :
    ∃ e1 l, g.link? e1 = some l ∧ l.tail = l'.tail ∧ l.dep.reason = l'.dep.reason := by
  obtain ⟨e1, l, hl1, htail, hsame, -⟩ := h.kind hl fun hreg => absurd hreg hreason
  exact ⟨e1, l, hl1, htail, hsame⟩

end

end Descends

theorem Rewires.descends {New : MoveId → MoveId → Dependence → Prop} {Back Cut : EdgeId → Prop}
    (h : g.Rewires g' New Back Cut) (hnew : ∀ t h d, New t h d → d.isRaw = false ∧
      ((d.reason = .register → d.hazard = .unknown) → ∃ e l, g.link? e = some l ∧ l.tail = t ∧
        l.dep.reason = d.reason ∧ l.dep.hazard = d.hazard)) : g.Descends g' := by
  refine ⟨fun {e l} hl => ?_, fun hnone hl => hnew _ _ _ (h.fresh hnone hl)⟩
  obtain ⟨b, hb, -⟩ := h.kept hl
  exact ⟨_, hb, rfl, rfl, rfl⟩

theorem Alters.descends {f : Move → Move} {k : OpId → Operation → Operation} (h : g.Alters n f k g') :
    g.Descends g' :=
  .of_links h.link?

/-! ## Each kind of change -/

variable {source dest w : MoveId} {r old new : Reg} {s d : Move} {u : EdgeRecord} {red : Redirection}
  {rm : RemovedMove}

theorem Diverts.descends (h : g.Diverts source dest r s d u red g1 g') (hu : Upheld machine g0 g) :
    g.Descends g' := by
  obtain ⟨f, ha, -⟩ := h.redirects
  refine (h.merges.rewires.descends fun t hd dep hi => ?_).trans ha.descends
  have hi' : g.Inherits source dest r (⟨t, hd, dep, true⟩ : Link).tail (⟨t, hd, dep, true⟩ : Link).head
      (⟨t, hd, dep, true⟩ : Link).dep := hi
  refine ⟨(hu.of_inherits h.producer h.free hi').2.1, fun _ => ?_⟩
  obtain ⟨e, l, hl, -, htail, -, hdep⟩ := hi.origin
  exact ⟨e, l, hl, htail, congrArg Dependence.reason hdep, congrArg Dependence.hazard hdep⟩

theorem descends_of_removeMove (h : g.removeMove n = .ok (g', rm)) : g.Descends g' := by
  obtain ⟨g1, hrew, ha⟩ := rewires_of_removeMove h
  exact (hrew.descends fun _ _ _ hno => hno.elim).trans ha.descends

theorem Relocates.descends {direction : Direction} {start : MoveId × Role} {range : LiveRange}
    (h : g.Relocates direction start range w old new g') : g.Descends g' := by
  obtain ⟨edges, ⟨g1, g2, hrew, hreg, hret, -⟩, hsep⟩ := h.renames
  have hfirst : g.Descends g1 := hrew.descends fun t hd dep hp => by
    have hs := hsep t hd dep hp
    refine ⟨by simp [Dependence.isRaw, hs.raw], fun hkind => ?_⟩
    rcases hs.hazard with hh | hh <;> simp [hkind hs.reason] at hh
  have hsecond : g1.Descends g2 := .of_links hreg.link?
  refine ⟨fun {e l} hl => ?_, fun {e l'} hnone hl' => ?_⟩
  · obtain ⟨l2, hl2, htail, hhead, hdep⟩ := (hfirst.trans hsecond).kept hl
    obtain ⟨l', hl', hev, -⟩ := hret.kept hl2
    exact ⟨l', hl', hev.tail.trans htail, hev.head.trans hhead, hev.untagged.trans hdep⟩
  cases hl2 : g2.link? e with
  | some l2 =>
    obtain ⟨hev, -⟩ := of_some (hret.kept hl2) hl'
    rw [hev.isRaw, hev.reason, hev.hazard, hev.tail]
    exact (hfirst.trans hsecond).fresh hnone hl2
  | none =>
    obtain ⟨l, hnew, hev⟩ := hret.fresh hl2 hl'
    obtain ⟨-, inc, out, hinc, htail, -, -, -, -, hhazard, -, hstorage, -, hdep⟩ :=
      Relocates.spans_of_bridges hsep hrew hreg hnew
    rw [hev.isRaw, hev.reason, hev.hazard, hev.tail, hdep]
    refine ⟨by rcases hhazard with hh | hh <;> simp [Dependence.isRaw, hh], fun hkind => ?_⟩
    rcases hinc with ⟨e1, hl1, -⟩ | hs
    · exact ⟨e1, inc, hl1, htail, rfl, rfl⟩
    · have hunknown : inc.dep.hazard = .unknown := hkind hs.reason
      rcases hs.hazard with hh | hh <;> simp [hunknown] at hh

end Graph

theorem Effect.descends {s s' : Moment} (he : Effect j g0 s s') : s.graph.Descends s'.graph := by
  cases he with
  | still graph => exact .of_links graph.link?
  | divert _ _ before upheld diverts after =>
    exact (Descends.of_links before.link?).trans ((diverts.descends upheld).trans (.of_links after.link?))
  | undivert _ back undo restore =>
    obtain ⟨ha, hrew⟩ := back.alters_of_undo undo restore
    exact ha.descends.trans (hrew.descends fun _ _ _ hno => hno.elim)
  | drop _ _ _ _ _ remove => exact descends_of_removeMove remove
  | restore _ back restore =>
    obtain ⟨o, pos, g1, ha, hrew⟩ := back.alters_of_restore restore
    exact ha.descends.trans (hrew.descends fun _ _ _ hno => hno.elim)
  | rename _ _ _ _ relocates => exact relocates.descends
  | commit graph => exact graph ▸ .refl

theorem Steady.descends {s s' : Moment} (h : Steady j g0 s) (ha : Acts j s s') : s.graph.Descends s'.graph := by
  induction ha with
  | refl => exact .refl
  | tail hacts hact ih => exact ih.trans ((h.acts hacts).effect hact).descends

theorem Orderly.descends {way : Direction} {s s' : Round} (h : Orderly g0 s)
    (ht : Turns way g0 s s') : s.graph.Descends s'.graph := by
  induction ht with
  | refl => exact .refl
  | @tail s1 s2 hturns hturn ih =>
    refine ih.trans ?_
    have ho := h.turns hturns
    cases hturn with
    | tell => exact .refl
    | offer _ offer =>
      obtain ⟨d, rfl⟩ := Selector.alike_of_offer offer
      exact .of_links fun _ => rfl
    | hand => exact .refl
    | unit left _ fits pending acts _ =>
      have hstart := Underway.start ho.upheld (awaits_of_pending (ho.sorted (left ▸ List.mem_cons_self)) pending)
      exact hstart.steady.descends acts

end Transport
