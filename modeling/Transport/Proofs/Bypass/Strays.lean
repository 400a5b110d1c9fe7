import Transport.Machine.Assembly
import Transport.Proofs.Bypass.ForcedFile
import Transport.Proofs.Run.Start

/-!
# Moves that stay in forced-bypass files

A schedule has no use for the registers of a forced-bypass file, but some moves go on naming them:
those that are guarded by one, those that read one and are no operands, and those that write one and are
not results for operands alone. `Graph.strays` finds them in the built graph.
-/

namespace Transport

open Transport.Graph

namespace Graph

/-- The move names a register of a forced-bypass file. -/
def usesForced (g : Graph) (m : Move) : Bool :=
  m.src.reg?.any g.isForced || m.dst.reg?.any g.isForced || m.guard.any (g.isForced ·.reg)

/-- Operands, and nobody else, read what `n` writes. -/
def onlyFeeds (g : Graph) (n : MoveId) : Bool :=
  let reads := (g.leaving n).filter fun x => x.2.dep.isRaw
  !reads.isEmpty && reads.all fun x => !x.2.dep.guardUse && (g.move? x.2.head).any Move.isOperand

/-- Neither bypassing nor the removal of dead results takes the move out of a forced-bypass file. -/
def strays (g : Graph) (n : MoveId) : Bool :=
  (g.move? n).any fun m => m.guard.any (g.isForced ·.reg) || m.src.reg?.any g.isForced && !m.isOperand ||
    m.dst.reg?.any g.isForced && !(m.isResult && g.onlyFeeds n)

variable {g g' g'' : Graph} {n : MoveId} {m : Move} {e : EdgeId} {l : Link}

theorem onlyFeeds_iff (hg : g.Linked) : g.onlyFeeds n ↔ (∃ e l, g.Feeds e n l ∧ l.live) ∧
    ∀ e l, g.link? e = some l → l.live → l.tail = n → l.dep.isRaw → l.dep.guardUse = false ∧
      ∃ m, g.move? l.head = some m ∧ m.isOperand := by
  have hmem {x : EdgeId × Link} : x ∈ (g.leaving n).filter (fun x => x.2.dep.isRaw) ↔
      g.link? x.1 = some x.2 ∧ x.2.live ∧ x.2.tail = n ∧ x.2.dep.isRaw := by
    rw [List.mem_filter]
    refine (and_congr_left' (hg.mem_leaving (e := x.1) (l := x.2))).trans ?_
    simp only [and_assoc]
  simp only [onlyFeeds, Bool.and_eq_true, Bool.not_eq_true', List.isEmpty_eq_false_iff_exists_mem, List.all_eq_true,
    Option.any_eq_true, hmem]
  constructor
  · rintro ⟨⟨x, hl, hlive, htail, hraw⟩, hall⟩
    refine ⟨⟨x.1, x.2, ⟨hl, htail, hraw, ?_⟩, hlive⟩, fun e l hl hlive htail hraw => ?_⟩
    · exact (hall x ⟨hl, hlive, htail, hraw⟩).2
    · exact hall (e, l) ⟨hl, hlive, htail, hraw⟩
  · rintro ⟨⟨e, l, hf, hlive⟩, hall⟩
    exact ⟨⟨(e, l), hf.link, hlive, hf.tail, hf.raw⟩, fun x hx => hall x.1 x.2 hx.1 hx.2.1 hx.2.2.1 hx.2.2.2⟩

/-! ## Sweeps -/

/-- Moves and edges are taken out, and nothing else changes. -/
structure Thins (g g' : Graph) : Prop where
  retains : g.Retains g' fun _ => False
  alive {e : EdgeId} : g'.Alive e → g.Alive e
  has {n : MoveId} : g'.Has n → g.Has n

namespace Thins

theorem refl : g.Thins g :=
  ⟨Alike.refl.retains, id, id⟩

theorem trans (h : g.Thins g') (h' : g'.Thins g'') : g.Thins g'' :=
  ⟨h.retains.trans h'.retains, h.alive ∘ h'.alive, h.has ∘ h'.has⟩

theorem of_still (h : g.Still g') : g.Thins g' := by
  refine ⟨h.retains, fun he => ?_, (h.has_iff _).1⟩
  rwa [Alive, h.link?] at he

theorem of_removeMove {rm : RemovedMove} (h : g.removeMove n = .ok (g', rm)) : g.Thins g' := by
  refine ⟨retains_of_removeMove h, fun {e} => ?_,
    fun {x} hx => ((has_of_removeMove h x).1 hx).1⟩
  rintro ⟨l, hl, halive⟩
  exact ⟨l, live_of_removeMove h hl halive, halive⟩

theorem link? (h : g.Thins g') (hl : g'.link? e = some l) (hlive : l.live) : g.link? e = some l := by
  obtain ⟨l1, hl1, hlive1⟩ := h.alive ⟨l, hl, hlive⟩
  obtain ⟨b, hb⟩ := h.retains.links hl1
  rw [hl, Option.some.injEq] at hb
  rw [hl1, hb]
  rw [hb] at hlive
  have hb : b = true := hlive
  rw [hb, ← hlive1]

end Thins

/-- A result in a forced-bypass file is not needed if no edge shows a use of it. -/
theorem resultNeeded_eq_false (hg : g.Linked) (hn : n ≠ .invalid) (hm : g.move? n = some m) (hforces : g.Forces m.dst)
    (huse : ∀ e l, g.link? e = some l → l.live → l.tail = n → showsUse l = false) :
    g.resultNeeded n = .ok false := by
  obtain ⟨r, hr, hforced⟩ := (Option.any_eq_true _ _).1 hforces
  have hunused : (g.entries m.outs).any (fun x => showsUse x.2) = false := by
    rw [List.any_eq_false]
    intro x hx
    obtain ⟨hmem, hl⟩ := mem_entries.1 hx
    obtain ⟨hlive, htail⟩ := of_some ((hg.mem_outs hm).1 hmem) hl
    simp [huse x.1 x.2 hl hlive htail]
  simp only [resultNeeded, move_eq_ok.2 ⟨hn, hm⟩, ok_bind, hr, hunused, isLiveOut, hforced, Bool.not_true,
    Bool.false_and, Bool.and_false, Bool.or_false]
  rfl

end Graph

variable {g0 : Graph} {r r' : Region}

theorem Sweeps.thins (hs : Sweeps r r') : r.graph.Thins r'.graph :=
  hs.keep (fun hstill ht => ht.trans (.of_still hstill)) (fun hrm ht => ht.trans (.of_removeMove hrm)) .refl

/-! ## Built graphs -/

namespace Program

open Transport.Flow

variable {p : Program} {machine : Machine} {g : Graph} {n : MoveId} {m : Move} {e : EdgeId} {l : Link}

/-- A result in a register is about registers only. -/
theorem Drawn.reason_of_result (hd : p.Drawn machine g) (hg : g.Matched machine) (hm : g.move? n = some m)
    (hres : m.isResult) {r : Reg} (hdst : m.dst = .register r) (hl : g.link? e = some l) (htail : l.tail = n) :
    l.dep.reason = .operation ∨ l.dep.reason = .register := by
  rcases hd.link_cases hl with hop | ⟨mt, mh, hmt, -, hmeet⟩
  · exact .inl (by rw [hop]; rfl)
  rw [htail, hm] at hmt
  cases hmt
  obtain ⟨_, _, f1, f2, pass, h1, -, hplace, hdep⟩ := hmeet
  have hregister : ∃ r, f1.place = .register r := by
    have hout : m.src.isOutput := hg.src_output hm ▸ hres
    rcases mem_touches.1 h1 with ⟨r, -, rfl⟩ | ⟨x, -, rfl⟩ | ⟨r, -, rfl⟩ | ⟨hsrc, -⟩ | ⟨hwrite, -⟩ | ⟨htrigger, -⟩
    · exact ⟨r, rfl⟩
    · exact ⟨x.reg, rfl⟩
    · exact ⟨r, rfl⟩
    · simp [hsrc, Terminal.isOutput] at hout
    · obtain ⟨pm, -, hpm⟩ := exists_of_map_eq (hd.move? n) hm
      have hcall : m.call = p.calls machine pm := call_marked ▸ (congrArg Move.call hpm).symm
      have hreg : pm.dst = .register r := (dst_marked.symm.trans (congrArg Move.dst hpm)).trans hdst
      simp [hdst, hcall, calls, hreg, Terminal.isTrigger] at hwrite
    · simp [Move.isTrigger, hdst, Terminal.isTrigger] at htrigger
  obtain ⟨r', hr'⟩ := hregister
  rw [← hplace, hr'] at hdep
  rcases hdep with ⟨-, -, hdep⟩ | ⟨-, -, hdep⟩ | ⟨-, -, hdep⟩ <;>
    exact .inr (by simp [hdep, Place.dep, Dependence.register])

end Program

/-! ## The end of a run -/

/-- No move names a forced-bypass register anew, and in the end no operand reads one. -/
structure Region.Shunned (g₀ : Graph) (change : Prop) (r : Region) : Prop extends Round.Shuns g₀ change ⟨r, []⟩ where
  upheld : Upheld r.machine g₀ r.graph
  all {n : MoveId} {m : Move} : r.graph.move? n = some m → m.live → m.isPlaced

namespace Region.Shunned

variable {change : Prop} {placed : Region} {n : MoveId} {m m₀ : Move} {e : EdgeId} {l : Link}

section

variable (h : placed.Shunned g0 change)
include h

section

variable (hm : placed.graph.move? n = some m)
include hm

theorem cycleOf (hlive : m.live) : ∃ c, placed.graph.cycleOf n = some c := by
  obtain ⟨p, hp⟩ := Option.isSome_iff_exists.1 (h.all hm hlive)
  exact ⟨p.cycle, by simp [Graph.cycleOf, hm, Move.cycle?, hp]⟩

theorem not_forces_src (hop : m.isOperand) : ¬ g0.Forces m.src := by
  obtain ⟨m₀, hm0⟩ := h.echoes.known hm
  obtain ⟨m', hm', hlive⟩ := h.stays hm0 (h.upheld.isOperand hm hm0 ▸ hop)
  rw [show placed.graph.move? n = some m' from hm'] at hm
  cases hm
  obtain ⟨c, hc⟩ := h.cycleOf hm' hlive
  exact h.free hm' hop (by simp [hc])

/-- What a producer in a forced-bypass file passes on does not go to the source of an operand. -/
theorem not_feeds (hforces : g0.Forces m.dst)
    (hf : placed.graph.Feeds e n l) (hlive : l.live) : l.dep.guardUse := by
  by_contra hguard
  obtain ⟨r, mt, mh, -, hmt, hmh, hdst, hsrc, -⟩ := h.upheld.tagged.raw hf.link hlive hf.raw
  rw [hf.tail, hm] at hmt
  cases hmt
  have hop := of_some hf.head hmh
  refine h.not_forces_src hmh hop ?_
  rw [hsrc (by simpa using hguard), ← hdst]
  exact hforces

end

section

variable (hunbroken : g0.Unbroken) (hl0 : g0.Linked) (honly : g0.onlyFeeds n) (hm : placed.graph.move? n = some m)
include hunbroken hl0 honly hm

/-- A producer for operands alone has lost its readers. -/
theorem unread (hforces : g0.Forces m.dst) (hl : placed.graph.link? e = some l) (hlive : l.live) (htail : l.tail = n) :
    l.dep.isRaw = false := by
  by_contra hraw
  rw [Bool.not_eq_false] at hraw
  obtain ⟨l0, hlink, htail0, hhead0, hdep0⟩ := h.descends.raw hl hraw
  have hraw0 : l0.dep.isRaw := Dependence.isRaw_of_untagged hdep0 ▸ hraw
  obtain ⟨hguard, m₀, hm0, hop⟩ := ((onlyFeeds_iff hl0).1 honly).2 e l0 hlink (hunbroken e l0 hlink).1
    (htail0.symm.trans htail) hraw0
  obtain ⟨mh, hmh⟩ := h.upheld.linked.head_known hl
  have hguard' : l.dep.guardUse = false := (congrArg Dependence.guardUse hdep0 :).trans hguard
  have huse := h.not_feeds hm hforces
    ⟨hl, htail, hraw, mh, hmh, h.upheld.isOperand hmh (hhead0 ▸ hm0) ▸ hop⟩ hlive
  rw [hguard'] at huse
  cases huse

/-- So it is about to be taken out. -/
theorem mem_deadCandidates (hlive : m.live) (hforces : g0.Forces m.dst) : n ∈ placed.bypasser.deadCandidates := by
  obtain ⟨⟨e, l, hf, hl⟩, -⟩ := (onlyFeeds_iff hl0).1 honly
  cases h.serves.served hf hl with
  | fed alive =>
    obtain ⟨l', hf'⟩ := hf.descends h.descends h.upheld.framed
    have hunread := h.unread hunbroken hl0 honly hm hforces hf'.link (hf'.live alive) hf'.tail
    rw [hf'.raw] at hunread
    cases hunread
  | spare mem => exact mem
  | bypassed mem => cases mem
  | gone out => exact absurd ⟨m, hm, hlive⟩ out

end

end

end Region.Shunned

namespace Program

variable {p : Program} {options : Options} {r0 placed : Region} {n : MoveId} {m m₀ : Move}

section

variable (h : p.graph r0.machine = .ok r0.graph) (hs : Schedules options r0 placed r)
include h hs

theorem shunned_of_schedules : placed.Shunned r0.graph (options.renameRegisters ∧ r0.renamer.isSome) := by
  obtain ⟨-, hfresh⟩ := graph_formed h
  have horderly := @RegionM.orderly_begun options r0 (upheld_of_graph h)
  have hbegun : Round.Shuns r0.graph (options.renameRegisters ∧ r0.renamer.isSome) ⟨r0.begun options, []⟩ := by
    refine ⟨.refl, fun {n m} hm _ hplaced => ?_, ⟨fun hf hlive => .fed ⟨_, hf.link, hlive⟩, by simp, by simp⟩,
      fun hm _ => ⟨_, hm, hfresh.live hm⟩, .refl, (forcedFiles_of_graph h).symm, fun hne => ?_⟩
    · have hm' : r0.graph.move? n = some m := hm
      exact absurd (by simp [Graph.cycleOf, Region.begun, hm', Move.cycle?, hfresh.pending hm']) hplaced
    · cases hoption : options.renameRegisters <;> cases hr : r0.renamer <;> simp_all [Region.begun]
  exact ⟨hbegun.turns horderly hs.turns, (horderly.turns hs.turns).upheld, hs.all⟩

/-- A result for operands alone is gone if it still wrote to a forced-bypass file. -/
theorem not_has_of_onlyFeeds
    (hm0 : r0.graph.move? n = some m₀) (hres : m₀.isResult) (honly : r0.graph.onlyFeeds n)
    (hdst : r0.graph.Forces m₀.dst) (hm : placed.graph.move? n = some m) (hforces : r0.graph.Forces m.dst) :
    ¬ r.graph.Has n := by
  intro hhas
  have hshunned := shunned_of_schedules h hs
  have hdrawn := graph_drawn h
  have hu := upheld_of_graph h
  have hlive := of_some ((Sweeps.thins hs.sweeps).has hhas) hm
  obtain ⟨r1, r2, b, hfirst, hremove, hrest⟩ :=
    hs.each (hshunned.mem_deadCandidates hdrawn.unbroken hdrawn.linked honly hm hlive hforces)
  have hu1 := hshunned.upheld.sweeps hfirst
  have hthins := Sweeps.thins hfirst
  obtain ⟨hsweeps, -, hgone⟩ := RegionM.sweeps_removeDeadSource hremove
  obtain ⟨m2, hm2, hlive2⟩ := (Sweeps.thins hrest).has hhas
  obtain ⟨m1, hm1, hlive1⟩ := (Sweeps.thins hsweeps).has ⟨m2, hm2, hlive2⟩
  have hforces1 : r1.graph.Forces m1.dst := by
    obtain ⟨hsame, -⟩ := of_some (hthins.retains.targets.move? hm) hm1
    rw [hu1.framed.forces, hsame]
    exact hforces
  have hresult : m1.isResult := by
    obtain ⟨o, ho⟩ := Option.isSome_iff_exists.1 hres
    have ho' := of_some (hu1.result hm0 ho) hm1
    exact Option.isSome_iff_exists.2 ⟨o, ho'⟩
  have hneeded : r1.graph.resultNeeded n = .ok false := by
    obtain ⟨c, hc⟩ := hshunned.cycleOf hm hlive
    refine resultNeeded_eq_false hu1.linked (hshunned.upheld.valid hc) hm1 hforces1 fun e l hl hlive htail => ?_
    have hl' := hthins.link? hl hlive
    have hraw := hshunned.unread hdrawn.unbroken hdrawn.linked honly hm hforces hl' hlive htail
    by_cases hreason : l.dep.reason = .register
    · simpa [showsUse, hreason, Dependence.isRaw] using hraw
    · obtain ⟨reg, hreg, -⟩ := (Option.any_eq_true _ _).1 hdst
      obtain ⟨e1, l1, hl1, htail1, hreason1⟩ := hshunned.descends.reason hl' hreason
      have hkind := hdrawn.reason_of_result hu.matched hm0 hres (Terminal.reg?_eq_some.1 hreg) hl1 (htail1.trans htail)
      rw [hreason1] at hkind
      simp [showsUse, hkind.resolve_right hreason]
  have hdead := hgone m1 m2 hm1 hlive1 hresult hneeded hforces1 hm2
  rw [hlive2] at hdead
  cases hdead

/-- A move of the schedule, in the graph where all moves are placed, and in the built graph. -/
theorem origin_of_schedules
    (hm : r.graph.move? n = some m) : ∃ m₀ mp, r0.graph.move? n = some m₀ ∧ placed.graph.move? n = some mp ∧
      mp.isOperand = m₀.isOperand ∧ mp.src = m.src ∧ mp.dst = m.dst ∧ m₀.guardFile = m.guardFile := by
  have hshunned := shunned_of_schedules h hs
  have hretains := (Sweeps.thins hs.sweeps).retains
  obtain ⟨mp, hmp⟩ := hretains.targets.known hm
  obtain ⟨m', hm', -, hsrc⟩ := hretains.ops hmp
  obtain ⟨m'', hm'', hdst, hguard⟩ := hretains.targets.move? hmp
  obtain ⟨m₀, hm0⟩ := hshunned.echoes.known hmp
  obtain ⟨mp', hmp', hfixed⟩ := hshunned.upheld.framed.move? hm0
  rw [hm] at hm' hm''
  rw [hmp] at hmp'
  cases hm'
  cases hm''
  cases hmp'
  exact ⟨m₀, mp, hm0, hmp, hshunned.upheld.isOperand hmp hm0, (hsrc id).1.symm, hdst.symm,
    (congrArg Move.Fixed.guardFile hfixed).symm.trans hguard.symm⟩

end

variable {machine : Machine} {renamer : Option Renamer} {x : Schedule} {g : Graph}

/-- A move of a schedule that names a register of a forced-bypass file strayed in the built graph. Without
renaming, all moves that strayed there name one, if the schedule has them. -/
theorem usesForced_iff_strays (h : p.graph machine = .ok g) (hok : (g.schedule machine renamer options).1 = .ok x)
    (hm : (g.schedule machine renamer options).2.graph.move? n = some m) (hlive : m.live) :
    (g.usesForced m → g.strays n) ∧
      (g.strays n → ¬ (options.renameRegisters ∧ renamer.isSome) → g.usesForced m) := by
  obtain ⟨placed, r, hs, hgraph⟩ := schedules_of_schedule (upheld_of_graph h) hok
  rw [← hgraph] at hm
  have hbuilt : p.graph (Region.machine { machine, graph := g, renamer }) = .ok g := h
  have hshunned := shunned_of_schedules hbuilt hs
  obtain ⟨m₀, mp, hm₀, hmp, hoperand, hsrc, hdst, hguard⟩ := origin_of_schedules hbuilt hs hm
  have hguarded : m₀.guard.any (g.isForced ·.reg) = m.guard.any (g.isForced ·.reg) := by
    have hfiles := congrArg (Option.any g.forcedFiles.contains) hguard
    rwa [Move.guardFile, Move.guardFile, Option.any_map, Option.any_map] at hfiles
  have hother (hop : m₀.isOperand = false) : ¬ ∃ m, g.move? n = some m ∧ m.isOperand := by
    simp [hm₀, hop]
  simp only [strays, hm₀, Option.any_some, hguarded, usesForced, Bool.or_eq_true, Bool.and_eq_true, Bool.not_eq_true',
    Bool.and_eq_false_imp]
  refine ⟨?_, ?_⟩
  · rintro ((hf | hf) | hf)
    · have hop : m₀.isOperand = false := by
        rw [← hoperand, Bool.eq_false_iff]
        exact fun hop => hshunned.not_forces_src hmp hop (hsrc ▸ hf)
      exact .inl (.inr ⟨(hshunned.echoes.src hm₀ hmp (hother hop)).forces (hsrc ▸ hf), hop⟩)
    · have hdst₀ : g.Forces m₀.dst := (hshunned.echoes.dst hm₀ hmp).forces (hdst ▸ hf)
      refine .inr ⟨hdst₀, fun hres => Bool.eq_false_iff.2 fun honly => ?_⟩
      exact not_has_of_onlyFeeds hbuilt hs hm₀ hres honly hdst₀ hmp (hdst ▸ hf) ⟨m, hm, hlive⟩
    · exact .inl (.inl hf)
  · rintro ((hf | ⟨hf, hop⟩) | ⟨hf, -⟩) hkeeps
    · exact .inr hf
    · have hsame := (hshunned.echoes.src hm₀ hmp (hother hop)).eq_of_not hkeeps
      exact .inl (.inl (by rwa [← hsrc, hsame]))
    · have hsame := (hshunned.echoes.dst hm₀ hmp).eq_of_not hkeeps
      exact .inl (.inr (by rwa [← hdst, hsame]))

/-! ### A result with and without a reader -/

/-- A unit that adds, and a file whose values are all bypassed. -/
def bypassing : Machine where
  name := "m"
  files := #[{ name := "r", size := 4, readPorts := 2, writePorts := 2 },
    { name := "fb", size := 2, readPorts := 2, writePorts := 2, forcedBypass := true }]
  units := #[⟨"alu", [⟨"add", 1, 2, 1⟩], 1, false⟩]
  buses := #[⟨"b0", 8, [.unitIn ⟨0⟩ 1, .unitOut ⟨0⟩ 2, .fileRead ⟨1⟩, .fileWrite ⟨1⟩]⟩]

def addsOnce : Program where
  operations := #[⟨"add", none⟩]
  moves := #[{ src := .immediate 5, dst := .input 1 true, dstOp := some 0 },
    { src := .output 2, dst := .register ⟨⟨1⟩, 0⟩, srcOp := some 0 }]

/-- The sum is added to in turn. -/
def addsTwice : Program where
  operations := #[⟨"add", none⟩, ⟨"add", none⟩]
  moves := addsOnce.moves.push { src := .register ⟨⟨1⟩, 0⟩, dst := .input 1 true, dstOp := some 1 }

theorem usesForced_iff_strays_addsTwice : ∃ g x, addsTwice.graph bypassing = .ok g ∧
    (g.schedule bypassing none {}).1 = .ok x ∧ (g.move? ⟨1⟩).any g.usesForced ∧ (g.move? ⟨2⟩).any g.usesForced ∧
      ∀ n m, (g.schedule bypassing none {}).2.graph.move? n = some m → m.live → g.usesForced m = false := by
  obtain ⟨g, hg, hrun⟩ := exists_ok_of_any
    (p := fun g => ((g.schedule bypassing none {}).1.toOption.any fun _ => true) &&
      (g.move? ⟨1⟩).any g.usesForced && (g.move? ⟨2⟩).any g.usesForced &&
      (List.range g.moves.size).all fun i => !g.strays ⟨i⟩)
    (show (addsTwice.graph bypassing).toOption.any _ by decide +kernel)
  simp only [Bool.and_eq_true, List.all_eq_true, List.mem_range, Bool.not_eq_true'] at hrun
  obtain ⟨⟨⟨hok, hfirst⟩, hsecond⟩, hnone⟩ := hrun
  obtain ⟨x, hx, -⟩ := exists_ok_of_any hok
  refine ⟨g, x, hg, hx, hfirst, hsecond, fun n m hm hlive => Bool.eq_false_iff.2 fun huse => ?_⟩
  have hstrays := (usesForced_iff_strays hg hx hm hlive).1 huse
  obtain ⟨m₀, hm₀, -⟩ := (Option.any_eq_true _ _).1 hstrays
  rw [hnone n.val (Array.getElem?_eq_some_iff.1 hm₀).1] at hstrays
  cases hstrays

/-- A sum that nobody reads stays in the forced-bypass file. -/
theorem usesForced_addsOnce : ∃ g x, addsOnce.graph bypassing = .ok g ∧
    (g.schedule bypassing none {}).1 = .ok x ∧ ∃ n m, (g.schedule bypassing none {}).2.graph.move? n = some m ∧
      m.live ∧ m.isPlaced ∧ g.usesForced m := by
  obtain ⟨g, hg, hrun⟩ := exists_ok_of_any
    (p := fun g => ((g.schedule bypassing none {}).1.toOption.any fun _ => true) &&
      ((g.schedule bypassing none {}).2.graph.move? ⟨1⟩).any fun m => m.live && m.isPlaced && g.usesForced m)
    (show (addsOnce.graph bypassing).toOption.any _ by decide +kernel)
  obtain ⟨hok, hmove⟩ := Bool.and_eq_true_iff.1 hrun
  obtain ⟨x, hx, -⟩ := exists_ok_of_any hok
  simp only [Option.any_eq_true, Bool.and_eq_true] at hmove
  obtain ⟨m, hm, ⟨hlive, hplaced⟩, huse⟩ := hmove
  exact ⟨g, x, hg, hx, ⟨1⟩, m, hm, hlive, hplaced, huse⟩

end Program
end Transport
