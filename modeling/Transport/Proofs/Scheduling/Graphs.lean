import Transport.Machine.Assembly
import Transport.Proofs.Renaming.Undo
import Transport.Proofs.Run.Start
import Transport.Proofs.Scheduling.Block
import Transport.Proofs.Scheduling.Tags

/-!
# The graphs that a run comes by

`Region.Visits` lists them. All of them have right tags, because the tags of a built graph are right and
each turn, each act and each sweep keeps them right. So does a bypass or a renaming that is not part of
a run, and its undoing.
-/

namespace Transport

open Transport.Graph

variable {strict : Prop} {j : Job} {g0 g g' : Graph} {e : EdgeId} {l : Link} {machine : Machine}

/-- The graphs that a run comes by: between two turns, while a unit is placed, and while producers that
nobody reads are swept out. -/
inductive Region.Visits (options : Options) (r : Region) : Graph → Prop
  | between {s : Round} (turns : Turns options.direction r.graph ⟨r.begun options, []⟩ s) :
      r.Visits options s.graph
  | within {s : Round} {u : List MoveId} {us : List (List MoveId)} {j : Job} {s' : Moment}
      (turns : Turns options.direction r.graph ⟨r.begun options, []⟩ s) (left : s.units = u :: us)
      (along : j.way = options.direction) (fits : j.Fits r.graph)
      (pending : Group.pending u s.graph = .ok j.moves) (acts : Acts j { toRegion := s.toRegion } s') :
      r.Visits options s'.graph
  | after {placed r' : Region} (turns : Turns options.direction r.graph ⟨r.begun options, []⟩ ⟨placed, []⟩)
      (all : ∀ n m, placed.graph.move? n = some m → m.live → m.isPlaced) (sweeps : Sweeps placed r') :
      r.Visits options r'.graph

/-- A run ends with one of these. -/
theorem Graph.visits_of_schedule {renamer : Option Renamer} {options : Options}
    {x : Schedule} (hu : Upheld machine g g) (h : (g.schedule machine renamer options).1 = .ok x) :
    Region.Visits options { machine, graph := g, renamer } (g.schedule machine renamer options).2.graph := by
  obtain ⟨placed, r, hs, hr⟩ := schedules_of_schedule hu h
  exact hr ▸ .after hs.turns (fun n m => hs.all) hs.sweeps

/-- Does a run rename registers while operands are bypassed, so that a bypass that is taken back may
bring edges with an old register? -/
def Options.mayLeaveStale (options : Options) (renamer : Option Renamer) : Prop :=
  options.direction = .topDown ∧ 0 < options.bypassDistance ∧ options.renameRegisters ∧ renamer.isSome

variable {options : Options} {r r' : Region}

/-- What every turn keeps about the tags. -/
structure Round.Truthful (options : Options) (r : Region) (s : Round) : Prop where
  graph : s.graph.Truthful (¬ options.mayLeaveStale r.renamer)
  enabled : s.bypasser.isEnabled = (r.begun options).bypasser.isEnabled
  renamer : (r.begun options).renamer = none → s.renamer = none

namespace Round.Truthful

variable {s s' : Round}

section

variable (h : s.Truthful options r) (ho : Orderly g0 s)
include h ho

theorem of_acts {s' : Moment} (hway : j.way = options.direction)
    (ha : Acts j { toRegion := s.toRegion } s') : s'.Truthful (¬ options.mayLeaveStale r.renamer) := by
  refine .of_acts ho.upheld h.graph (fun hup => ?_) (fun hstrict hdown hrenamer => ?_) ha
  · rintro ⟨hdown, -⟩
    rw [← hway, hup] at hdown
    cases hdown
  · -- A top-down run with a renamer is one without bypasses.
    have hgiven : options.renameRegisters ∧ r.renamer.isSome := by
      by_contra hnot
      refine hrenamer (h.renamer ?_)
      cases hoption : options.renameRegisters <;> cases hr : r.renamer <;> simp_all [Region.begun]
    rw [h.enabled]
    by_contra hon
    simp only [Region.begun, Bypasser.isEnabled, Bool.not_eq_false] at hon
    exact hstrict ⟨hway ▸ hdown, of_decide_eq_true hon, hgiven⟩

theorem turn (ht : Turn options.direction g0 s s') : s'.Truthful options r := by
  cases ht with
  | tell => exact ⟨h.graph, h.enabled, h.renamer⟩
  | offer _ offer => exact ⟨h.graph.still (.of_alike (Selector.alike_of_offer offer)), h.enabled, h.renamer⟩
  | hand => exact ⟨h.graph, h.enabled, h.renamer⟩
  | unit _ along _ _ acts =>
    exact ⟨(h.of_acts ho along acts).graph, (fixed_of_acts acts).1.trans h.enabled,
      fun hnone => renamer_of_acts acts (h.renamer hnone)⟩

theorem turns (ht : Turns options.direction g0 s s') : s'.Truthful options r := by
  induction ht with
  | refl => exact h
  | tail hturns hturn ih => exact ih.turn (ho.turns hturns) hturn

end

end Round.Truthful

/-- Tags are right all through a run that begins with right tags. -/
theorem Region.Visits.truthful (h : r.Visits options g) (hu : Upheld r.machine r.graph r.graph)
    (ht : r.graph.Truthful True) : g.Truthful (¬ options.mayLeaveStale r.renamer) := by
  have hbegun : Round.Truthful options r ⟨r.begun options, []⟩ :=
    ⟨fun e l hl hlive => (ht e l hl hlive).of_true, rfl, id⟩
  have horderly := @RegionM.orderly_begun options r hu
  cases h with
  | between turns => exact (hbegun.turns horderly turns).graph
  | within turns _ along _ _ acts =>
    exact ((hbegun.turns horderly turns).of_acts (horderly.turns turns) along acts).graph
  | after turns _ sweeps =>
    exact Sweeps.keep sweeps (fun hstill ht => ht.still hstill) (fun hrm ht => ht.removes hrm)
      (hbegun.turns horderly turns).graph

theorem Region.Visits.upheld (h : r.Visits options g) (hu : Upheld r.machine r.graph r.graph) :
    ∃ machine, Upheld machine r.graph g := by
  have horderly := @RegionM.orderly_begun options r hu
  cases h with
  | between turns => exact ⟨_, (horderly.turns turns).upheld⟩
  | @within s _ _ j s' turns _ _ _ _ acts =>
    have hsteady : Steady j r.graph { toRegion := s.toRegion } :=
      ⟨(horderly.turns turns).upheld, by simp, .nil⟩
    exact ⟨_, (hsteady.acts acts).upheld⟩
  | after turns _ sweeps => exact ⟨_, (horderly.turns turns).upheld.sweeps sweeps⟩

/-! ## One change -/

/-- What a bypass or a renaming of any live range makes of a graph, or its undoing. -/
inductive Graph.Changes (g : Graph) : Graph → Prop
  | bypass {source dest : MoveId} {u : EdgeRecord} {red : Redirection} {g' : Graph}
      (bypasses : g.Bypasses source dest u red g') : g.Changes g'
  | unbypass {source dest : MoveId} {u : EdgeRecord} {red : Redirection} {g₁ g₂ g' : Graph}
      (bypasses : g.Bypasses source dest u red g₁) (undo : g₁.undoRedirect red = .ok g₂)
      (restore : g₂.undoEdges u = .ok g') : g.Changes g'
  | rename {rn rn' : Renamer} {n : MoveId} {role : Role} {range : LiveRange} {new : Reg}
      {mode : RenameMode} {u : RenameRecord} {g' : Graph} (range_eq : g.liveRange n role = .ok range)
      (rename : rn.rename g range new mode = .ok (some (u, rn', g'))) : g.Changes g'
  | unrename {rn rn' rn'' : Renamer} {n : MoveId} {role : Role} {range : LiveRange} {new : Reg}
      {mode : RenameMode} {u : RenameRecord} {g₁ g' : Graph} (range_eq : g.liveRange n role = .ok range)
      (rename : rn.rename g range new mode = .ok (some (u, rn', g₁)))
      (undo : rn'.undo g₁ u = .ok (rn'', g')) : g.Changes g'

theorem Graph.Truthful.not_overwritesItself (ht : g.Truthful strict) (w : MoveId) :
    ¬ g.OverwritesItself w := by
  rintro ⟨e, l, hl, hlive, htail, hhead, hstorage, -⟩
  rw [(ht e l hl hlive).apart (htail.trans hhead.symm)] at hstorage
  cases hstorage

/-- One change keeps tags right, and so does undoing it. -/
theorem Graph.Truthful.changes (ht : g.Truthful strict) (hu : Upheld machine g0 g)
    (h : g.Changes g') : g'.Truthful strict := by
  cases h with
  | bypass bypasses =>
    obtain ⟨r, ms, md, g1, hd⟩ := hu.diverted bypasses
    exact ht.diverts hd
  | @unbypass source dest u red g1 g2 _ bypasses undo restore =>
    obtain ⟨r, ms, md, k, hd⟩ := hu.diverted bypasses
    obtain ⟨hu1, hback⟩ := hu.diverts hd
    refine (ht.diverts hd).undiverts hback (hu1.unbypass hback undo restore) undo restore
      (fun e he => hd.spared ht he) fun hstrict e he => ?_
    obtain ⟨l, hl, hlive, -⟩ := hd.merges.removed he
    obtain ⟨b, hb⟩ := hd.retains.links hl
    exact ⟨_, hb, hd.before ▸ ((ht e l hl hlive).of_holds hstrict).flip⟩
  | rename range_eq rename =>
    obtain ⟨w, edges, htransfers, -⟩ := transfers_of_rename hu.linked ht.valuesAgree range_eq rename
    exact htransfers.truthful hu.linked (fun e l hl _ => (hu.tagged.ok hl).1) ht
  | @unrename rn rn' rn'' n role range new mode u g1 _ range_eq rename undo =>
    obtain ⟨w, edges, htransfers, -, -, hroles, -⟩ :=
      transfers_of_rename hu.linked ht.valuesAgree range_eq rename
    simp only [Renamer.undo, bind_eq_ok, pure_eq_ok, Prod.mk.injEq] at undo
    obtain ⟨h1, hedges, h2, hregs, -, rfl⟩ := undo
    obtain ⟨hmoves, hlinks⟩ := extends_of_undoRename htransfers.writes
      (ht.not_overwritesItself w) (fun _ _ _ => htransfers.distinct)
      (fun x role => htransfers.regOf hu.linked ht.valuesAgree) htransfers.applied hu.linked hedges (hroles ▸ hregs)
    have hsame : h2.regOf = g.regOf := funext fun _ => funext fun _ => regOf_congr hmoves
    intro e l hl hlive
    rw [hsame]
    exact ht e l (hlinks.live hl hlive) hlive

/-! ## Built graphs -/

namespace Program

open Transport.Flow

variable {p : Program} {machine : Machine} {renamer : Option Renamer}

/-- Two moves that meet at a register both name it. -/
theorem Meet.truthful {mt mh : Move} (h : Meet mt mh l.dep) (hmt : g.move? l.tail = some mt)
    (hmh : g.move? l.head = some mh) (hapart : l.tail = l.head → l.dep.reason = .operation) :
    TruthfulBy strict g.regOf l := by
  obtain ⟨_, _, f1, f2, pass, h1, h2, hplace, hdep⟩ := h
  cases hq : f2.place with
  | returnAddress | memory =>
    rw [hq] at hdep
    have hother : l.dep.reason ≠ .register ∧ l.dep.reg? = none := by
      rcases hdep with ⟨-, -, hdep⟩ | ⟨-, -, hdep⟩ | ⟨-, -, hdep⟩ <;> simp [hdep, Place.dep]
    exact ⟨fun hreason => absurd hreason hother.1, fun _ => hother.2, hapart⟩
  | register r =>
    rw [hq] at hplace hdep
    have htail := regAt?_of_touches h1 hplace
    have hhead := regAt?_of_touches h2 hq
    have htail' {role : Role} (hrole : mt.regAt? role = some r) : g.regOf l.tail role = some r :=
      regOf_eq_some.2 ⟨mt, hmt, hrole⟩
    have hhead' {role : Role} (hrole : mh.regAt? role = some r) : g.regOf l.head role = some r :=
      regOf_eq_some.2 ⟨mh, hmh, hrole⟩
    have htag : l.dep.reason = .register ∧ l.dep.reg? = some r := by
      rcases hdep with ⟨-, -, hdep⟩ | ⟨-, -, hdep⟩ | ⟨-, -, hdep⟩ <;>
        simp [hdep, Place.dep, Dependence.register]
    refine ⟨fun _ _ => ?_, fun hreason => absurd htag.1 hreason, hapart⟩
    rw [htag.2]
    rcases hdep with ⟨hw1, hw2, hdep⟩ | ⟨hw1, hw2, hdep⟩ | ⟨hw1, hw2, hdep⟩
    all_goals
      simp only [hw1, hw2, if_true, Bool.false_eq_true, if_false] at htail hhead
      refine ⟨rfl, ?_, fun _ => ?_⟩
    · exact htail' (by simpa [hdep, Place.dep, Dependence.register, Dependence.tailRole] using htail)
    · exact hhead' (by
        simpa [hdep, Place.dep, Dependence.register, Dependence.headRole, Dependence.readRole] using hhead)
    · exact htail' (by
        simpa [hdep, Place.dep, Dependence.register, Dependence.tailRole, Dependence.readRole] using htail)
    · exact hhead' (by simpa [hdep, Place.dep, Dependence.register, Dependence.headRole] using hhead)
    · exact htail' (by simpa [hdep, Place.dep, Dependence.register, Dependence.tailRole] using htail)
    · exact hhead' (by simpa [hdep, Place.dep, Dependence.register, Dependence.headRole] using hhead)

/-- Only the order within an operation leads from a move to itself. -/
theorem Drawn.apart (hd : p.Drawn machine g) (hl : g.link? e = some l) (hself : l.tail = l.head) :
    l.dep.reason = .operation := by
  rcases (hd.arc _ _ _).1 (Arc.of_link hl (hd.unbroken e l hl).1) with hflow | ⟨hop, -⟩
  · obtain ⟨_, a, _, _, w, _, -, -, hw, ha, hfollows, -⟩ := exists_of_draws (mem_edges.1 hflow)
    simp [follows, hw, ha, hself] at hfollows
  · rw [hop]
    rfl

theorem truthful_of_graph (h : p.graph machine = .ok g) : g.Truthful True := by
  intro e l hl hlive
  rcases (graph_drawn h).link_cases hl with hop | ⟨mt, mh, hmt, hmh, hmeet⟩
  · exact ⟨by simp [AgreesBy, hop, Dependence.operation], by simp [hop, Dependence.operation],
      by simp [hop, Dependence.operation]⟩
  · exact hmeet.truthful hmt hmh ((graph_drawn h).apart hl)

/-- All through a run the tags of register edges are the registers that both moves access, and so they
are after any bypass or renaming and after its undoing. Only a run that goes top-down, bypasses and
renames may leave an edge tagged with a register that its head does not write, and then its tail reads
that register as its source. -/
theorem tags_agree (h : p.graph machine = .ok g) :
    (∀ x, (g.schedule machine renamer options).1 = .ok x →
      Region.Visits options { machine, graph := g, renamer }
        (g.schedule machine renamer options).2.graph) ∧
    ∀ g₁ g₂, Region.Visits options { machine, graph := g, renamer } g₁ → g₂ = g₁ ∨ g₁.Changes g₂ →
      (¬ options.mayLeaveStale renamer → g₂.Agreeing) ∧
      ∀ e l, g₂.link? e = some l → l.live → (l.dep.isOverwrite = false → g₂.Agrees l) ∧
        (l.dep.reason = .register → l.dep.isOverwrite →
          ∃ r, l.dep.reg? = some r ∧ g₂.regOf l.tail .source = some r) := by
  have hu := upheld_of_graph h
  refine ⟨fun x hx => visits_of_schedule hu hx, fun g₁ g₂ hvisits hchange => ?_⟩
  have ht₁ := hvisits.truthful hu (truthful_of_graph h)
  have ht₂ : g₂.Truthful (¬ options.mayLeaveStale renamer) := by
    rcases hchange with rfl | hchange
    · exact ht₁
    · obtain ⟨machine', hu₁⟩ := hvisits.upheld hu
      exact ht₁.changes hu₁ hchange
  refine ⟨ht₂.agreeing, fun e l hl hlive => ⟨fun hover => ?_, fun hreason hover => ?_⟩⟩
  · exact agreesBy_true.1 ((ht₂ e l hl hlive).agrees.mono fun _ => .inr hover)
  · have hknown : l.dep.hazard ≠ .unknown := by
      intro hunknown
      simp [Dependence.isOverwrite, hunknown] at hover
    obtain ⟨hsome, htail, -⟩ := (ht₂ e l hl hlive).agrees hreason hknown
    obtain ⟨r, hr⟩ := Option.isSome_iff_exists.1 hsome
    rw [Dependence.tailRole_eq_source.2 hover, hr] at htail
    exact ⟨r, hr, htail⟩

/-! ### A bypass that is taken back -/

/-- One unit has no latency for two of its operations. -/
def hasty : Machine where
  name := "hasty"
  files := #[{ name := "r", size := 3, readPorts := 1, writePorts := 1 }]
  units := #[⟨"alu", [⟨"add", 1, 2, 1⟩, ⟨"mul", 0, 2, 1⟩, ⟨"sub", 0, 2, 1⟩], 1, false⟩,
    ⟨"alu2", [⟨"mul", 1, 2, 1⟩], 1, false⟩]

def hastyWired : Machine :=
  match hasty.addFullBuses 2 8 with
  | .ok machine => machine
  | .error _ => hasty

/-- The operand of an addition reads a register that a result of the addition overwrites. -/
def readsThenOverwrites : Program :=
  let reg (i : Nat) : Terminal := .register ⟨⟨0⟩, i⟩
  { operations := #[⟨"sub", none⟩, ⟨"mul", none⟩, ⟨"sub", none⟩, ⟨"add", none⟩, ⟨"add", none⟩]
    moves := #[{ src := .immediate 5, dst := .input 1 true, dstOp := some 0 },
      { src := .output 2, dst := reg 1, srcOp := some 0 },
      { src := .immediate 5, dst := .input 1 true, dstOp := some 1 },
      { src := .output 2, dst := reg 0, srcOp := some 1 },
      { src := reg 0, dst := .input 0 false, dstOp := some 2 },
      { src := reg 1, dst := .input 1 true, dstOp := some 2 },
      { src := reg 1, dst := .input 0 false, dstOp := some 3 },
      { src := .immediate 5, dst := .input 1 true, dstOp := some 3 },
      { src := .output 2, dst := reg 1, srcOp := some 3 },
      { src := .output 2, dst := reg 0, srcOp := some 3 },
      { src := reg 1, dst := .input 1 true, dstOp := some 4 }]
    liveOut := some ∅ }

/-- A run with a fresh renamer. -/
def runHasty (options : Options) (g : Graph) : Except Halt Schedule × Region :=
  g.schedule hastyWired (some (Renamer.ofGraph hastyWired.usableRegisters g)) options

theorem tags_agree_named : ∃ g x, readsThenOverwrites.graph hastyWired = .ok g ∧
    (runHasty { bypassDistance := 10, renameRegisters := false } g).1 = .ok x ∧
    (runHasty { bypassDistance := 10, renameRegisters := false } g).2.graph.Agreeing := by
  obtain ⟨g, hg, hrun⟩ := exists_ok_of_any
    (p := fun g => (runHasty { bypassDistance := 10, renameRegisters := false } g).1.toOption.any fun _ => true)
    (show (readsThenOverwrites.graph hastyWired).toOption.any _ by decide +kernel)
  obtain ⟨x, hx, -⟩ := exists_ok_of_any hrun
  obtain ⟨hvisits, hagree⟩ := @tags_agree g { bypassDistance := 10, renameRegisters := false }
    readsThenOverwrites hastyWired (some (Renamer.ofGraph hastyWired.usableRegisters g)) hg
  exact ⟨g, x, hg, hx, (hagree _ _ (hvisits x hx) (.inl rfl)).1 fun hstale => nomatch hstale.2.2.1⟩

/-- Top-down, the operand is bypassed, the result gets another register, the bypass is taken back, and
the edge between the two still has the old register. -/
theorem stale_tag_topDown : ∃ g, readsThenOverwrites.graph hastyWired = .ok g ∧
    (∃ x, (runHasty { bypassDistance := 10 } g).1 = .ok x) ∧ ∃ e l,
      (runHasty { bypassDistance := 10 } g).2.graph.link? e = some l ∧ l.live ∧
      ¬ (runHasty { bypassDistance := 10 } g).2.graph.Agrees l := by
  obtain ⟨g, hg, hrun⟩ := exists_ok_of_any
    (p := fun g => ((runHasty { bypassDistance := 10 } g).1.toOption.any fun _ => true) &&
      ((runHasty { bypassDistance := 10 } g).2.graph.link? ⟨19⟩).any fun l =>
        l.live && !decide ((runHasty { bypassDistance := 10 } g).2.graph.Agrees l))
    (show (readsThenOverwrites.graph hastyWired).toOption.any _ by decide +kernel)
  obtain ⟨hok, hlink⟩ := Bool.and_eq_true_iff.1 hrun
  obtain ⟨x, hx, -⟩ := exists_ok_of_any hok
  simp only [Option.any_eq_true, Bool.and_eq_true, Bool.not_eq_true', decide_eq_false_iff_not] at hlink
  obtain ⟨l, hl, hlive, hstale⟩ := hlink
  exact ⟨g, hg, ⟨x, hx⟩, ⟨19⟩, l, hl, hlive, hstale⟩

end Program

end Transport
