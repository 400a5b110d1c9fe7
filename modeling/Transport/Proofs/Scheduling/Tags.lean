import Transport.Proofs.Renaming.Names
import Transport.Proofs.Scheduling.Effects

/-!
# Tags through a run

While a block is scheduled, each register edge is tagged with the register that both its moves access:
`Truthful True`. There is one way to lose that. While an operand is bypassed, the edges to the moves
that overwrite what it read are out of the graph, and a renaming does not see them. If the bypass is
then taken back, they come back with the old register. So a run that bypasses, renames and goes
top-down keeps `Truthful False` only, which says nothing about the heads of such edges.
-/

namespace Transport

open Transport.Graph

namespace Dependence

variable {d d' : Dependence}

/-- Does the head write where the tail reads its source? -/
def isOverwrite (d : Dependence) : Bool := decide (d.hazard = .war) && !d.guardUse

theorem isOverwrite_of_untagged (h : d'.untagged = d.untagged) : d'.isOverwrite = d.isOverwrite :=
  show d'.untagged.isOverwrite = d.untagged.isOverwrite by rw [h]

theorem tailRole_eq_source : d.tailRole = .source ↔ d.isOverwrite := by
  cases hhazard : d.hazard <;> cases hguard : d.guardUse <;>
    simp [tailRole, readRole, isOverwrite, hhazard, hguard]

theorem headRole_eq_source : d.headRole = .source ↔ d.hazard = .raw ∧ d.guardUse = false := by
  cases hhazard : d.hazard <;> cases hguard : d.guardUse <;>
    simp [headRole, readRole, hhazard, hguard]

end Dependence

/-- The registers that moves access once a redirection is taken back. -/
def Redirection.before (red : Redirection) (ρ : MoveId → Role → Option Reg) :
    MoveId → Role → Option Reg :=
  fun x role => if x = red.move ∧ role = .source then red.src.reg? else ρ x role

namespace Graph

/-- By the registers `ρ`, the tag of an edge is right. Unless `strict`, an edge to a move that
overwrites a source says nothing about that move. A tag is about two moves. -/
structure TruthfulBy (strict : Prop) (ρ : MoveId → Role → Option Reg) (l : Link) : Prop where
  agrees : AgreesBy ρ (strict ∨ l.dep.isOverwrite = false) l
  untagged : l.dep.reason ≠ .register → l.dep.reg? = none
  apart : l.tail = l.head → l.dep.reason = .operation

/-- The tags of all edges in the graph are right. -/
def Truthful (strict : Prop) (g : Graph) : Prop :=
  ∀ e l, g.link? e = some l → l.live → TruthfulBy strict g.regOf l

variable {strict : Prop} {ρ ρ' : MoveId → Role → Option Reg} {machine : Machine}
  {g0 g g1 g2 g3 g' : Graph} {source dest n w x : MoveId} {role : Role} {m ms md : Move} {e : EdgeId}
  {l l' : Link} {r old new : Reg} {u : EdgeRecord} {red : Redirection} {rm : RemovedMove}
  {range : LiveRange} {edges : List (MoveId × MoveId × Dependence)} {us : List EdgeRecord}

namespace TruthfulBy

theorem flip {b : Bool} (h : TruthfulBy strict ρ l) : TruthfulBy strict ρ { l with live := b } :=
  ⟨h.agrees, h.untagged, h.apart⟩

theorem of_holds (h : TruthfulBy strict ρ l) (hs : strict) : TruthfulBy True ρ l :=
  ⟨h.agrees.mono fun _ => .inl hs, h.untagged, h.apart⟩

theorem of_true (h : TruthfulBy True ρ l) : TruthfulBy strict ρ l :=
  ⟨h.agrees.mono fun _ => .inl trivial, h.untagged, h.apart⟩

theorem of_strict (h : TruthfulBy False ρ l) (hs : strict → TruthfulBy True ρ l) :
    TruthfulBy strict ρ l := by
  by_cases hstrict : strict
  · exact (hs hstrict).of_true
  · exact ⟨h.agrees.mono fun hP => .inr (hP.resolve_left hstrict), h.untagged, h.apart⟩

/-- A right tag says nothing about a move that reads no register. -/
theorem of_free (h : TruthfulBy strict ρ l) (hfree : ρ n .source = none)
    (hρ : ∀ x role, ¬ (x = n ∧ role = .source) → ρ' x role = ρ x role) : TruthfulBy strict ρ' l := by
  refine ⟨fun hreason hknown => ?_, h.untagged, h.apart⟩
  obtain ⟨hsome, htail, hhead⟩ := h.agrees hreason hknown
  have hnot {y : MoveId} {role : Role} (hy : ρ y role = l.dep.reg?) : ¬ (y = n ∧ role = .source) := by
    rintro ⟨rfl, rfl⟩
    rw [← hy, hfree] at hsome
    cases hsome
  exact ⟨hsome, (hρ _ _ (hnot htail)).trans htail, fun hP =>
    (hρ _ _ (hnot (hhead hP))).trans (hhead hP)⟩

end TruthfulBy

theorem Truthful.valuesAgree (h : g.Truthful strict) : g.ValuesAgree := by
  intro e l hl hlive hraw
  refine agreesBy_true.1 ((h e l hl hlive).agrees.mono fun _ => .inr ?_)
  rw [Dependence.isRaw_iff] at hraw
  simp [Dependence.isOverwrite, hraw.2]

theorem Truthful.agreeing (h : g.Truthful strict) (hs : strict) : g.Agreeing :=
  fun e l hl hlive => agreesBy_true.1 ((h e l hl hlive).agrees.mono fun _ => .inl hs)

/-! ## Renamings -/

theorem decision_of_other {d : Link → Option Bool} (hd : d ∈ g.decisions range w r)
    (hreason : l.dep.reason ≠ .register) : d l = none := by
  refine of_mem_decisions (P := (· l = none)) hd ?_ ?_ fun _ _ => ?_
  · simp [entryDecision, entryGone?, hreason]
  · simp [exitDecision, exitGone?, hreason]
  · simp [readDecision, isReadOrder, hreason]

/-- Where an edge that is decided about comes from, its tag tells the truth. -/
theorem Relabels.tells (h : g.Relabels range w new edges g1 g2 g3 g') (ht : g.Truthful strict)
    (hedges : ∀ t h d, (t, h, d) ∈ edges → g.Separating range new t h d ∧ t ≠ h)
    (hl : g3.link? e = some l) (hlive : l.live) :
    g.Tells range new (strict ∨ l.dep.isOverwrite = false) l ∧
      (l.dep.reason ≠ .register → l.dep.reg? = none) ∧ (l.tail = l.head → l.dep.reason = .operation) := by
  have horigin {e : EdgeId} {l : Link} {P : Prop} (hl : g2.link? e = some l) (hlive : l.live)
      (hP : P → strict ∨ l.dep.isOverwrite = false) :
      g.Tells range new P l ∧ (l.dep.reason ≠ .register → l.dep.reg? = none) ∧
        (l.tail = l.head → l.dep.reason = .operation) := by
    rcases h.origin hl hlive with hold | hnew
    · exact ⟨((ht e l hold hlive).agrees.mono hP).tells, (ht e l hold hlive).untagged,
        (ht e l hold hlive).apart⟩
    · obtain ⟨hsep, hne⟩ := hedges _ _ _ hnew
      exact ⟨hsep.tells, fun hreason => absurd hsep.reason hreason, fun heq => absurd heq hne⟩
  rcases h.bridged.live hl hlive with hold | ⟨hback, -⟩ | ⟨-, inc, out, hbr⟩
  · exact horigin hold hlive id
  · exact hback.elim
  · obtain ⟨e1, hinc⟩ := hbr.inc_link
    obtain ⟨e2, hout⟩ := hbr.out_link
    obtain ⟨htells, hplain, -⟩ := horigin hinc hbr.inc_live (P := False) False.elim
    obtain ⟨htells', hplain', -⟩ := horigin hout hbr.out_live (P := True) fun _ =>
      .inr (by simp [Dependence.isOverwrite, hbr.hazard])
    obtain ⟨-, -, hne, hd⟩ := bridge_eq_some hbr.bridge
    refine ⟨hbr.tells htells htells' fun hreturn => hplain' (by simp [hreturn]), fun hreason => ?_,
      fun heq => absurd (hbr.inc_tail.trans (heq.trans hbr.out_head.symm)) hne⟩
    rw [hd] at hreason ⊢
    exact hplain hreason

theorem Relabels.isPseudo (h : g.Relabels range w new edges g1 g2 g3 g')
    (hp : ∀ e l, g.link? e = some l → l.live → l.dep.isPseudo = false)
    (hedges : ∀ t h d, (t, h, d) ∈ edges → g.Separating range new t h d)
    (hl : g3.link? e = some l) (hlive : l.live) : l.dep.isPseudo = false := by
  have horigin {e : EdgeId} {l : Link} (hl : g2.link? e = some l) (hlive : l.live) :
      l.dep.isPseudo = false := by
    rcases h.origin hl hlive with hold | hnew
    · exact hp e l hold hlive
    · exact (hedges _ _ _ hnew).pseudo
  rcases h.bridged.live hl hlive with hold | ⟨hback, -⟩ | ⟨-, inc, out, hbr⟩
  · exact horigin hold hlive
  · exact hback.elim
  · obtain ⟨e1, hinc⟩ := hbr.inc_link
    obtain ⟨e2, hout⟩ := hbr.out_link
    have hinc := horigin hinc hbr.inc_live
    have hout := horigin hout hbr.out_live
    obtain ⟨-, -, -, hd⟩ := bridge_eq_some hbr.bridge
    simp only [Dependence.isPseudo, Bool.or_eq_false_iff] at hinc hout ⊢
    rw [hd]
    exact ⟨hinc.1, hout.2⟩

theorem Transfers.truthful (h : g.Transfers range w old new edges us g') (hg : g.Linked)
    (hp : ∀ e l, g.link? e = some l → l.live → l.dep.isPseudo = false) (ht : g.Truthful strict) :
    g'.Truthful strict := by
  obtain ⟨g1, g2, g3, hrel⟩ := h.relabels hg
  have hedges : ∀ t h d, (t, h, d) ∈ edges → g.Separating range new t h d := fun _ _ _ => h.separating
  intro e l' hl' hlive'
  obtain ⟨l, hl3, hlive, rfl⟩ := hrel.settled_link hl' hlive'
  obtain ⟨heqt, heqh, hdep⟩ := @settle_ends l new (g2.decisions range w new)
  obtain ⟨htells, hplain, hapart⟩ := hrel.tells ht (fun _ _ _ hx => ⟨h.separating hx, h.distinct hx⟩) hl3 hlive
  refine ⟨?_, fun hreason => ?_, fun heq => ?_⟩
  · rw [Dependence.isOverwrite_of_untagged hdep]
    refine hrel.agreesBy_settled h.toClosedRange hg ht.valuesAgree hlive htells
      (fun _ => hrel.isPseudo hp hedges hl3 hlive) (fun hraw => ?_) hlive'
    exact h.value_iff hg ht.valuesAgree (hrel.raw hedges hl3 hlive hraw) hlive hraw
  · rw [Dependence.reason_of_untagged hdep] at hreason
    rcases settle_tag (fun d => stable_of_mem_decisions) hlive' hlive with ⟨-, d, hd, hfalse⟩ | ⟨hsame, -⟩
    · rw [decision_of_other hd hreason] at hfalse
      cases hfalse
    · rw [hsame]
      exact hplain hreason
  · rw [Dependence.reason_of_untagged hdep]
    exact hapart (heqt.symm.trans (heq.trans heqh))

/-! ## Bypasses -/

theorem Still.regOf (h : g.Still g') : g'.regOf = g.regOf := by
  funext x role
  have hlive := h.live x
  cases hm : g.move? x with
  | none =>
    rw [hm] at hlive
    rw [Graph.regOf, Graph.regOf, hm, Option.map_eq_none_iff.1 hlive]
  | some m =>
    obtain ⟨m', hm', -, hsrc⟩ := h.retains.ops hm
    obtain ⟨m'', hm'', hdst, -⟩ := h.retains.targets.move? hm
    have hguard := h.guard x
    rw [hm'] at hm''
    cases hm''
    rw [hm, hm', Option.map_some, Option.map_some, Option.some.injEq] at hguard
    rw [Graph.regOf, Graph.regOf, hm, hm', Option.bind_some, Option.bind_some]
    cases role <;> simp [Move.regAt?, hdst, (hsrc id).1, hguard]

theorem Truthful.still (h : g.Truthful strict) (hs : g.Still g') : g'.Truthful strict := by
  intro e l hl hlive
  rw [hs.regOf]
  exact h e l ((hs.link? e).symm.trans hl) hlive

/-- A change of what a move reads is about its source. -/
theorem Alters.regOf {f : Move → Move} {k : OpId → Operation → Operation} (h : g.Alters n f k g')
    (hf : ∀ m, (f m).dst = m.dst ∧ (f m).guard = m.guard)
    (hsrc : x = n → role = .source → ∀ m, (f m).src = m.src) : g'.regOf x role = g.regOf x role := by
  rw [Graph.regOf, Graph.regOf, h.move?]
  split
  · rename_i heq
    cases g.move? x with
    | none => rfl
    | some m =>
      cases role with
      | source => simp [Move.regAt?, hsrc heq rfl m]
      | dest => simp [Move.regAt?, hf m]
      | guard => simp [Move.regAt?, hf m]
  · rfl

theorem Diverts.regOf_other (h : g.Diverts source dest r ms md u red g1 g')
    (hx : ¬ (x = dest ∧ role = .source)) : g'.regOf x role = g.regOf x role := by
  obtain ⟨f, ha, hf⟩ := h.redirects
  refine (ha.regOf (fun m => ?_) fun heq hrole => absurd ⟨heq, hrole⟩ hx).trans (regOf_congr h.merges.rewires.moves)
  obtain ⟨units, hm⟩ := hf m
  rw [hm]
  exact ⟨rfl, rfl⟩

theorem Diverts.before (h : g.Diverts source dest r ms md u red g1 g') :
    red.before g'.regOf = g.regOf := by
  funext x role
  have hmove : red.move = dest ∧ red.src = md.src := by rw [h.redirection]; exact ⟨rfl, rfl⟩
  rw [Redirection.before, hmove.1, hmove.2]
  split
  · rename_i hx
    rw [hx.1, hx.2, Graph.regOf, h.consumer]
    rfl
  · rename_i hx
    exact h.regOf_other hx

theorem Truthful.diverts (ht : g.Truthful strict) (h : g.Diverts source dest r ms md u red g1 g') :
    g'.Truthful strict := by
  obtain ⟨f, ha, -⟩ := h.redirects
  have hdest : g.regOf dest .source = some r := by
    rw [Graph.regOf, h.consumer, Option.bind_some, Move.regAt?, h.reads]
    rfl
  have hsource : g.regOf source .dest = some r ∧ g.regOf source .source = none := by
    rw [Graph.regOf, Graph.regOf, h.producer, Option.bind_some, Option.bind_some, Move.regAt?, Move.regAt?,
      h.writes, h.free]
    exact ⟨rfl, rfl⟩
  intro e l hl hlive
  rw [ha.link?] at hl
  rcases h.merges.rewires.live hl hlive with hold | ⟨hback, -⟩ | ⟨-, hnew⟩
  · -- The edges about what `dest` read are cut.
    refine ⟨fun hreason hknown => ?_, (ht e l hold hlive).untagged, (ht e l hold hlive).apart⟩
    obtain ⟨hsome, htail, hhead⟩ := (ht e l hold hlive).agrees hreason hknown
    have hcut (hgone : g1.link? e = some { l with live := false }) : False := by
      rw [hgone] at hl
      rw [← (Option.some.inj hl :)] at hlive
      cases hlive
    have hnotTail : ¬ (l.tail = dest ∧ l.dep.tailRole = .source) := by
      rintro ⟨hx, hrole⟩
      rw [hx, hrole, hdest] at htail
      simp only [Dependence.tailRole_eq_source, Dependence.isOverwrite, Bool.and_eq_true,
        decide_eq_true_eq, Bool.not_eq_true'] at hrole
      exact hcut (h.merges.dropped hold hlive
        ⟨hx, by simp [Dependence.carries, hreason, hrole.1, ← htail], hrole.2⟩)
    have hnotHead : ¬ (l.head = dest ∧ l.dep.headRole = .source) := by
      rintro ⟨hx, hrole⟩
      obtain ⟨hraw, huse⟩ := Dependence.headRole_eq_source.1 hrole
      exact hcut (h.merges.cut hold hlive
        (h.sole hold hlive hx (by simp [Dependence.isRaw, hreason, hraw]) huse))
    exact ⟨hsome, (h.regOf_other hnotTail).trans htail, fun hP => (h.regOf_other hnotHead).trans (hhead hP)⟩
  · exact hback.elim
  · -- Of the register edges of `source`, only those that say nothing about it are passed on.
    obtain ⟨e0, l0, hl0, hlive0, htail0, hhead0, hdep0⟩ := hnew.origin
    refine ⟨fun hreason hknown => ?_, hdep0 ▸ (ht e0 l0 hl0 hlive0).untagged,
      fun heq => absurd (heq.trans hnew.head) hnew.tail⟩
    have hold := (ht e0 l0 hl0 hlive0).agrees
    rw [AgreesBy, hdep0, htail0, hhead0] at hold
    obtain ⟨hsome, htail, hhead⟩ := hold hreason hknown
    have hoverwrite : ¬ (strict ∨ l.dep.isOverwrite = false) := by
      intro hP
      have hhead := hhead hP
      have huse := hnew.guardUse
      cases hhazard : l.dep.hazard with
      | unknown => exact hknown hhazard
      | raw =>
        rw [Dependence.headRole_eq_source.2 ⟨hhazard, huse⟩, hsource.2] at hhead
        rw [← hhead] at hsome
        cases hsome
      | war =>
        have hwar := hnew.war
        rw [show l.dep.headRole = .dest by simp [Dependence.headRole, hhazard], hsource.1] at hhead
        simp [Dependence.carries, hreason, hhazard, ← hhead] at hwar
      | waw =>
        have hwaw := hnew.waw
        rw [show l.dep.headRole = .dest by simp [Dependence.headRole, hhazard], hsource.1] at hhead
        simp [Dependence.carries, hreason, hhazard, ← hhead] at hwaw
    refine ⟨hsome, ?_, fun hP => absurd hP hoverwrite⟩
    rw [h.regOf_other (fun hx => hnew.tail hx.1)]
    exact htail

/-! ## The way back -/

/-- What a bypass cut: the value that it made unnecessary, and what came after the read of it. -/
structure Spared (dest : MoveId) (r? : Option Reg) (l : Link) : Prop where
  reason : l.dep.reason = .register
  apart : l.tail ≠ l.head
  kind : l.head = dest ∧ l.dep.isRaw ∧ l.dep.guardUse = false ∨
    l.tail = dest ∧ l.dep.isOverwrite ∧ l.dep.reg? = r?

theorem Diverts.spared (h : g.Diverts source dest r ms md u red g1 g') (ht : g.Truthful strict)
    (he : e ∈ u.removed) :
    ∃ l, g'.link? e = some l ∧ Spared dest red.src.reg? l := by
  obtain ⟨f, ha, -⟩ := h.redirects
  obtain ⟨l, hl, hlive, hkind⟩ := h.merges.removed he
  obtain ⟨b, hb, -⟩ := h.merges.rewires.kept hl
  have hapart (hreason : l.dep.reason = .register) : l.tail ≠ l.head := by
    intro heq
    rw [(ht e l hl hlive).apart heq] at hreason
    cases hreason
  have hsrc : red.src.reg? = some r := by rw [h.redirection]; simp [h.reads, Terminal.reg?]
  refine ⟨_, (ha.link? e).trans hb, ?_⟩
  rcases hkind with hkind | hkind
  · have hc := hkind.carries
    rw [Dependence.carries_iff] at hc
    exact ⟨hc.1.1, hapart hc.1.1, .inl ⟨hkind.head, by simp [Dependence.isRaw, hc], hkind.guardUse⟩⟩
  · have hc := hkind.carries
    rw [Dependence.carries_iff] at hc
    exact ⟨hc.1.1, hapart hc.1.1, .inr ⟨hkind.tail, by simp [Dependence.isOverwrite, hc, hkind.guardUse],
      hc.2.trans hsrc.symm⟩⟩

theorem Unbypassable.regOf_undo (h : Unbypassable g0 g source dest r u red)
    (hred : g.undoRedirect red = .ok g1) (hundo : g1.undoEdges u = .ok g') :
    g'.regOf = red.before g.regOf := by
  obtain ⟨⟨m, hm⟩, -⟩ := alters_of_undoRedirect hred
  obtain ⟨ha, hrew⟩ := h.alters_of_undo hred hundo
  funext x role
  rw [regOf_congr hrew.moves, Redirection.before]
  split
  · rename_i hx
    rw [hx.1, hx.2, Graph.regOf, ha.move?, if_pos rfl, hm]
    rfl
  · rename_i hx
    exact ha.regOf (fun _ => ⟨rfl, rfl⟩) fun heq hrole => absurd ⟨heq, hrole⟩ hx

/-- Taking a bypass back keeps tags right, if what it cut is right again then. -/
theorem Truthful.undiverts (ht : g.Truthful strict) (h : Unbypassable g0 g source dest r u red)
    (hu : Upheld machine g0 g') (hred : g.undoRedirect red = .ok g1) (hundo : g1.undoEdges u = .ok g')
    (hspared : ∀ e ∈ u.removed, ∃ l, g.link? e = some l ∧ Spared dest red.src.reg? l)
    (hstrict : strict → ∀ e ∈ u.removed, ∃ l, g.link? e = some l ∧
      TruthfulBy True (red.before g.regOf) l) : g'.Truthful strict := by
  have hregs := h.regOf_undo hred hundo
  obtain ⟨ha, hrew⟩ := h.alters_of_undo hred hundo
  have hfree : g.regOf dest .source = none := by
    obtain ⟨d, hd, -, hfree, -⟩ := h.consumer
    rw [Graph.regOf, hd]
    exact hfree
  intro e l hl hlive
  rcases hrew.live hl hlive with hold | ⟨he, hold⟩ | ⟨-, hnew⟩
  · rw [ha.link?] at hold
    refine (ht e l hold hlive).of_free hfree fun x role hx => ?_
    rw [hregs, Redirection.before, h.move, if_neg hx]
  · rw [ha.link?] at hold
    refine .of_strict ?_ fun hs => ?_
    · have hspare := of_some (hspared e he) hold
      refine ⟨fun _ _ => ?_, fun hreason => absurd hspare.reason hreason,
        fun heq => absurd heq hspare.apart⟩
      rcases hspare.kind with ⟨hhead, hraw, huse⟩ | ⟨htail, hover, htag⟩
      · obtain ⟨ρ, mt, mh, htag, hmt, hmh, hdst, hsrc, -⟩ := hu.tagged.raw hl hlive hraw
        simp only [Dependence.isRaw_iff] at hraw
        refine ⟨by simp [htag], ?_, fun _ => ?_⟩
        · rw [show l.dep.tailRole = .dest by simp [Dependence.tailRole, hraw.2], htag]
          exact regOf_eq_some.2 ⟨mt, hmt, by simp [Move.regAt?, hdst, Terminal.reg?]⟩
        · rw [Dependence.headRole_eq_source.2 ⟨hraw.2, huse⟩, htag]
          exact regOf_eq_some.2 ⟨mh, hmh, by simp [Move.regAt?, hsrc huse, Terminal.reg?]⟩
      · have htag : l.dep.reg? = red.src.reg? := htag
        have hover : l.dep.isOverwrite := hover
        refine ⟨by simp [htag, h.src, Terminal.reg?], ?_, fun hP => ?_⟩
        · rw [hregs, show l.tail = dest from htail, Dependence.tailRole_eq_source.2 hover, htag,
            Redirection.before, h.move, if_pos ⟨rfl, rfl⟩]
        · exact absurd hP (by simp [hover])
    · have htrue := of_some (hstrict hs e he) hold
      rw [hregs]
      exact htrue.flip (b := l.live)
  · exact hnew.elim

/-! ## Removals -/

theorem regOf_of_removeMove (h : g.removeMove n = .ok (g', rm)) : g'.regOf = g.regOf := by
  obtain ⟨g1, hrew, ha⟩ := rewires_of_removeMove h
  funext x role
  rw [← regOf_congr hrew.moves, ha.regOf (fun _ => ⟨rfl, rfl⟩) fun _ _ _ => rfl]

theorem Truthful.removes (ht : g.Truthful strict) (h : g.removeMove n = .ok (g', rm)) : g'.Truthful strict := by
  intro e l hl hl'
  rw [regOf_of_removeMove h]
  exact ht e l (live_of_removeMove h hl hl') hl'

theorem Truthful.restores (ht : g.Truthful strict) (hr : g.Restorable rm) (h : g.restoreMove rm = .ok g')
    (hedges : ∀ e ∈ rm.edges, ∃ l, g.link? e = some l ∧ TruthfulBy strict g.regOf l) :
    g'.regOf = g.regOf ∧ g'.Truthful strict := by
  obtain ⟨o, pos, g1, ha, hrew⟩ := hr.alters_of_restore h
  have hregs : g'.regOf = g.regOf := by
    funext x role
    rw [regOf_congr hrew.moves, ha.regOf (fun _ => ⟨rfl, rfl⟩) fun _ _ _ => rfl]
  refine ⟨hregs, fun e l hl hlive => ?_⟩
  rw [hregs]
  rcases hrew.live hl hlive with hold | ⟨he, hold⟩ | ⟨-, hnew⟩
  · exact ht e l ((ha.link? e).symm.trans hold) hlive
  · obtain ⟨l', hl', htrue⟩ := hedges e he
    rw [← ha.link?, hold] at hl'
    cases hl'
    exact htrue.flip (b := l.live)
  · exact hnew.elim

/-! ## What is owed -/

/-- The edges that open frames bring back, newest first, have right tags by the registers that moves
access then. -/
def Owing (g : Graph) : (MoveId → Role → Option Reg) → List Frame → Prop
  | _, [] => True
  | ρ, .merged _ _ u red :: fs =>
    (∀ e ∈ u.removed, ∃ l, g.link? e = some l ∧ TruthfulBy True (red.before ρ) l) ∧
      g.Owing (red.before ρ) fs
  | ρ, .removed rm :: fs =>
    (∀ e ∈ rm.edges, ∃ l, g.link? e = some l ∧ TruthfulBy True ρ l) ∧ g.Owing ρ fs

theorem Owing.mono {fs : List Frame} (h : g.Owing ρ fs)
    (hlinks : ∀ e l, g.link? e = some l → ∃ b, g'.link? e = some { l with live := b }) :
    g'.Owing ρ fs := by
  have hedge {ρ : MoveId → Role → Option Reg} {e : EdgeId}
      (h : ∃ l, g.link? e = some l ∧ TruthfulBy True ρ l) :
      ∃ l, g'.link? e = some l ∧ TruthfulBy True ρ l := by
    obtain ⟨l, hl, htrue⟩ := h
    obtain ⟨b, hb⟩ := hlinks e l hl
    exact ⟨_, hb, htrue.flip⟩
  induction fs generalizing ρ with
  | nil => trivial
  | cons f fs ih =>
    cases f with
    | merged source dest u red => exact ⟨fun e he => hedge (h.1 e he), ih h.2⟩
    | removed rm => exact ⟨fun e he => hedge (h.1 e he), ih h.2⟩

end Graph

/-- What a frame brings back is of the kinds that a bypass cuts. -/
def Frame.Spares (g : Graph) : Frame → Prop
  | .merged _ dest u red => ∀ e ∈ u.removed, ∃ l, g.link? e = some l ∧ Spared dest red.src.reg? l
  | .removed _ => True

theorem Frame.Spares.mono {f : Frame} {g g' : Graph} (h : f.Spares g)
    (hlinks : ∀ e l, g.link? e = some l → ∃ b, g'.link? e = some { l with live := b }) :
    f.Spares g' := by
  cases f with
  | removed => trivial
  | merged source dest u red =>
    intro e he
    obtain ⟨l, hl, hspared⟩ := h e he
    obtain ⟨b, hb⟩ := hlinks e l hl
    exact ⟨_, hb, hspared.reason, hspared.apart, hspared.kind⟩

/-- The tags are right, and those of the edges that may come back will be. -/
structure Moment.Truthful (strict : Prop) (s : Moment) : Prop where
  graph : s.graph.Truthful strict
  spares : ∀ f ∈ s.opened, f.Spares s.graph
  owing : strict → s.graph.Owing s.graph.regOf s.opened

variable {strict : Prop} {j : Job} {g0 g g' : Graph} {s s' : Moment} {e : EdgeId} {l : Link}

theorem Graph.Relabels.dead {range : LiveRange} {w : MoveId} {new : Reg} {g1 g2 g3 : Graph}
    {edges : List (MoveId × MoveId × Dependence)} (h : g.Relabels range w new edges g1 g2 g3 g')
    (hl : g.link? e = some l) (hdead : l.live = false) : g'.link? e = some l := by
  have hnot {P : Prop} (hlive : l.live) : P := by simp [hdead] at hlive
  have h2 : g2.link? e = some l := (h.reregisters.link? e).trans (h.planned.uncut hl id hnot)
  have h3 : g3.link? e = some l := h.bridged.uncut h2 id hnot
  rw [h.settled.link?, h3, Option.map_some, settle_of_dead hdead]

/-- What a bypass cut is out of the graph as long as the bypass is there. -/
theorem Graph.Spared.dead {machine : Machine} {source dest : MoveId} {r : Reg} {u : EdgeRecord}
    {red : Redirection} {r? : Option Reg} (h : Spared dest r? l) (hback : Unbypassable g0 g source dest r u red)
    (hu : Upheld machine g0 g) (ht : g.Truthful strict) (hl : g.link? e = some l) : l.live = false := by
  obtain ⟨d, hd, -, hfree, -⟩ := hback.consumer
  refine Bool.eq_false_iff.2 fun hlive => ?_
  rcases h.kind with ⟨hhead, hraw, huse⟩ | ⟨htail, hover, -⟩
  · rw [hu.guardUse_of_raw hd hfree hl hlive hhead hraw] at huse
    cases huse
  · have hwar : l.dep.hazard ≠ .unknown := by
      intro hunknown
      simp [Dependence.isOverwrite, hunknown] at hover
    obtain ⟨hsome, hread, -⟩ := (ht e l hl hlive).agrees h.reason hwar
    rw [htail, Dependence.tailRole_eq_source.2 hover, Graph.regOf, hd] at hread
    rw [← hread, Option.bind_some, show d.regAt? .source = none from hfree] at hsome
    cases hsome

namespace Moment.Truthful

theorem of_graph (h : s.graph.Truthful strict) (hopened : s.opened = []) : s.Truthful strict :=
  ⟨h, by simp [hopened], by simp [hopened, Owing]⟩

/-- Each act keeps tags right. With `strict`, that takes that nothing is renamed while something is
bypassed. -/
theorem effect (h : s.Truthful strict) (hs : Steady j g0 s) (hs' : Steady j g0 s')
    (hloose : j.way = .bottomUp → strict)
    (hclosed : strict → j.way = .topDown → s.renamer ≠ none → s.opened = [])
    (he : Effect j g0 s s') : s'.Truthful strict := by
  cases he with
  | still graph opened =>
    refine ⟨h.graph.still graph, ?_, fun hstrict => ?_⟩
    · rw [opened]
      exact fun f hf => (h.spares f hf).mono fun e l => graph.retains.links
    · rw [graph.regOf, opened]
      exact (h.owing hstrict).mono fun e l => graph.retains.links
  | @divert g g1 g' source dest r ms md u red _ _ before _ diverts after opened =>
    have ht := h.graph.still before
    have hretains : s.graph.Retains s'.graph (· = dest) :=
      ((before.retains.mono fun _ => False.elim).trans diverts.retains).trans
        (after.retains.mono fun _ => False.elim)
    refine ⟨(ht.diverts diverts).still after, ?_, fun hstrict => ?_⟩
    · rw [opened]
      intro f hf
      rcases List.mem_cons.1 hf with rfl | hf
      · intro e he
        obtain ⟨l, hl, hspared⟩ := diverts.spared ht he
        exact ⟨l, (after.link? e).trans hl, hspared⟩
      · exact (h.spares f hf).mono fun e l => hretains.links
    · rw [opened, Owing, after.regOf, diverts.before, before.regOf]
      refine ⟨fun e he => ?_, (h.owing hstrict).mono fun e l => hretains.links⟩
      obtain ⟨l, hl, hlive, -⟩ := diverts.merges.removed he
      rw [before.link?] at hl
      obtain ⟨b, hb⟩ := hretains.links hl
      exact ⟨_, hb, ((h.graph e l hl hlive).of_holds hstrict).flip⟩
  | @undivert g1 source dest r u red opened back undo restore =>
    have howing (hstrict : strict) := h.owing hstrict
    rw [opened] at howing
    have hspares : (Frame.merged source dest u red).Spares s.graph :=
      h.spares _ (opened ▸ List.mem_cons_self)
    refine ⟨h.graph.undiverts back hs'.upheld undo restore hspares fun hstrict => (howing hstrict).1,
      fun f hf => ?_, fun hstrict => ?_⟩
    · exact (h.spares f (opened ▸ List.mem_cons_of_mem _ hf)).mono fun e l =>
        (back.retains_of_undo undo restore).links
    · rw [back.regOf_undo undo restore]
      exact (howing hstrict).2.mono fun e l => (back.retains_of_undo undo restore).links
  | @drop n m rm way move live result _ remove opened =>
    have hretains : s.graph.Retains s'.graph fun _ => False :=
      retains_of_removeMove remove
    refine ⟨h.graph.removes remove, ?_, fun hstrict => ?_⟩
    · rw [opened]
      intro f hf
      rcases List.mem_cons.1 hf with rfl | hf
      · trivial
      · exact (h.spares f hf).mono fun e l => hretains.links
    · rw [opened, Owing, regOf_of_removeMove remove]
      refine ⟨fun e he => ?_, (h.owing hstrict).mono fun e l => hretains.links⟩
      obtain ⟨l, hl, hlive, -⟩ := (mem_edges_of_removeMove hs.upheld.linked remove).1 he
      obtain ⟨b, hb⟩ := hretains.links hl
      exact ⟨_, hb, ((h.graph e l hl hlive).of_holds hstrict).flip⟩
  | @restore rm opened back restore =>
    obtain ⟨-, hway⟩ := hs.frames (f := .removed rm) (opened ▸ List.mem_cons_self)
    have hstrict := hloose hway
    obtain ⟨hedges, howing⟩ : s.graph.Owing s.graph.regOf (.removed rm :: s'.opened) :=
      opened ▸ h.owing hstrict
    have hretains : s.graph.Retains s'.graph fun _ => False := back.retains_of_restore restore
    obtain ⟨hregs, ht⟩ := h.graph.restores back restore fun e he => by
      obtain ⟨l, hl, htrue⟩ := hedges e he
      exact ⟨l, hl, htrue.of_true⟩
    refine ⟨ht, fun f hf => ?_, fun _ => ?_⟩
    · exact (h.spares f (opened ▸ List.mem_cons_of_mem _ hf)).mono fun e l => hretains.links
    · rw [hregs]
      exact howing.mono fun e l => hretains.links
  | @rename n start range w old new may _ renamer renamed relocates _ opened =>
    obtain ⟨rn, rn', c, undo, hrename⟩ := renamed
    obtain ⟨range, w, files, new, mode, hrange, -, -, -, -, hrename⟩ := rename_of_renameAt hrename
    obtain ⟨w, edges, htransfers, -⟩ :=
      transfers_of_rename hs.upheld.linked h.graph.valuesAgree hrange hrename
    have ht := htransfers.truthful hs.upheld.linked (fun e l hl _ => (hs.upheld.tagged.ok hl).1) h.graph
    refine ⟨ht, ?_, fun hstrict => ?_⟩
    · -- The renaming does not see what is cut.
      obtain ⟨g1, g2, g3, hrel⟩ := htransfers.relabels hs.upheld.linked
      rw [opened]
      intro f hf
      cases f with
      | removed => trivial
      | merged source dest u red =>
        intro e he
        obtain ⟨⟨r, hback⟩, -⟩ := hs.frames hf
        obtain ⟨l, hl, hspared⟩ := h.spares _ hf e he
        exact ⟨l, hrel.dead hl (hspared.dead hback hs.upheld h.graph hl), hspared⟩
    · have hnone : s.opened = [] := by
        cases hway : j.way with
        | bottomUp => exact may.closed hway
        | topDown => exact hclosed hstrict hway renamer
      rw [opened, hnone]
      trivial
  | commit graph opened => exact of_graph (graph ▸ h.graph) opened

end Moment.Truthful

/-! ## Units -/

/-- Without bypasses, nothing is open top-down. -/
theorem opened_of_acts (h : Acts j s s') (hway : j.way = .topDown) (hoff : s.bypasser.isEnabled = false)
    (hs : s.opened = []) : s'.opened = [] := by
  induction h with
  | refl => exact hs
  | @tail s1 s2 hacts hact ih =>
    have hoff1 : s1.bypasser.isEnabled = false := (fixed_of_acts hacts).1.trans hoff
    cases hact with
    | merge enabled => rw [hoff1] at enabled; cases enabled
    | bypass enabled => rw [hoff1] at enabled; cases enabled
    | unmerge opened => rw [ih] at opened; cases opened
    | drop way => rw [hway] at way; cases way
    | restore opened => rw [ih] at opened; cases opened
    | commit => rfl
    | _ => exact ih

/-- Tags stay right while a unit is placed. -/
theorem Moment.Truthful.of_acts {r : Region} (hu : Upheld r.machine g0 r.graph)
    (ht : r.graph.Truthful strict) (hloose : j.way = .bottomUp → strict)
    (hquiet : strict → j.way = .topDown → r.renamer ≠ none → r.bypasser.isEnabled = false)
    (h : Acts j { toRegion := r } s) : s.Truthful strict := by
  have hsteady : Steady j g0 { toRegion := r } := ⟨hu, by simp, .nil⟩
  induction h with
  | refl => exact of_graph ht rfl
  | @tail s1 s2 hacts hact ih =>
    have hs1 := hsteady.acts hacts
    refine ih.effect hs1 (hs1.act hact) hloose (fun hstrict hway hrenamer => ?_) (hs1.effect hact)
    have hgiven : r.renamer ≠ none := fun hnone => hrenamer (renamer_of_acts hacts hnone)
    exact opened_of_acts hacts hway (hquiet hstrict hway hgiven) rfl

end Transport
