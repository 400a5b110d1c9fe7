import Transport.Proofs.Resource.Agreement
import Transport.Proofs.Scheduling.EdgeOrigin
import Transport.Proofs.Scheduling.Graphs

/-!
# The order that goes with a dead result

A result that nobody reads is taken out with its edges, and nothing takes their place. So two other moves stay in
order exactly if they are in order around it. What it kept from coming too early are the writes over its register
and over the register of its guard.
-/

namespace Transport

open Transport.Graph
open Relation (TransGen ReflTransGen)

namespace Graph

variable {g g' : Graph} {a b k x y : MoveId} {m : Move} {rm : RemovedMove} {e : EdgeId} {l : Link}

/-- `a` comes before `b` by an edge that does not touch `k`. -/
def BeforeBut (g : Graph) (k a b : MoveId) : Prop := g.Before a b ∧ a ≠ k ∧ b ≠ k

theorem before_iff : g.Before a b ↔ ∃ e l, g.link? e = some l ∧ l.live ∧ l.tail = a ∧ l.head = b ∧
    l.dep.loopDepth = 0 := by
  constructor
  · rintro ⟨d, ⟨e, hl⟩, hd⟩
    exact ⟨e, _, hl, rfl, rfl, rfl, hd⟩
  · rintro ⟨e, l, hl, hlive, rfl, rfl, hd⟩
    exact ⟨l.dep, .of_link hl hlive, hd⟩

instance : Decidable (g.Before a b) :=
  decidable_of_iff (∃ l ∈ g.links.toList, l.live ∧ l.tail = a ∧ l.head = b ∧ l.dep.loopDepth = 0) <| by
    simp only [before_iff, List.mem_iff_getElem?, Array.getElem?_toList]
    constructor
    · rintro ⟨l, ⟨i, hl⟩, h⟩
      exact ⟨⟨i⟩, l, hl, h⟩
    · rintro ⟨e, l, hl, h⟩
      exact ⟨l, ⟨e.val, hl⟩, h⟩

theorem not_transGen_of_tails (h : ∀ l ∈ g.links.toList, l.live → l.tail ≠ a) : ¬ TransGen g.Before a b := by
  intro hpath
  obtain ⟨c, hac, -⟩ := TransGen.head'_iff.1 hpath
  obtain ⟨e, l, hl, hlive, htail, -⟩ := before_iff.1 hac
  exact h l (List.mem_of_getElem? (i := e.val) (by rwa [Array.getElem?_toList])) hlive htail

/-- Taking a move out takes its edges and no others. -/
theorem link?_of_removeMove (hg : g.Linked) (h : g.removeMove k = .ok (g', rm)) :
    g'.link? e = some l ∧ l.live ↔ (g.link? e = some l ∧ l.live) ∧ l.tail ≠ k ∧ l.head ≠ k := by
  obtain ⟨m, g1, -, -, -, hcut, -, halters, -⟩ := removeMove_eq_ok h
  have hflips : g.Flips false rm.edges g1 := flips_of_each flips_of_removeEdge hcut
  have hmem {l : Link} (hl : g.link? e = some l) (hlive : l.live) : e ∈ rm.edges ↔ l.tail = k ∨ l.head = k := by
    simp [mem_edges_of_removeMove hg h, hl, hlive]
  rw [halters.link?, hflips.link?]
  constructor
  · rintro ⟨hl, hlive⟩
    split at hl
    · obtain ⟨l0, -, rfl⟩ := Option.map_eq_some_iff.1 hl
      cases hlive
    · rename_i hnot
      rw [hmem hl hlive, not_or] at hnot
      exact ⟨⟨hl, hlive⟩, hnot⟩
  · rintro ⟨⟨hl, hlive⟩, ht, hh⟩
    rw [if_neg fun he => ((hmem hl hlive).1 he).elim ht hh]
    exact ⟨hl, hlive⟩

theorem before_of_removeMove (hg : g.Linked) (h : g.removeMove k = .ok (g', rm)) :
    g'.Before a b ↔ g.BeforeBut k a b := by
  simp only [BeforeBut, before_iff]
  constructor
  · rintro ⟨e, l, hl, hlive, rfl, rfl, hd⟩
    obtain ⟨⟨hl, -⟩, ht, hh⟩ := (link?_of_removeMove hg h).1 ⟨hl, hlive⟩
    exact ⟨⟨e, l, hl, hlive, rfl, rfl, hd⟩, ht, hh⟩
  · rintro ⟨⟨e, l, hl, hlive, rfl, rfl, hd⟩, ht, hh⟩
    exact ⟨e, l, ((link?_of_removeMove hg h).2 ⟨⟨hl, hlive⟩, ht, hh⟩).1, hlive, rfl, rfl, hd⟩

/-- A path that starts outside `k` goes around it as far as one can see, or has just come to it. -/
theorem around_or_arrives (hspan : ∀ x y, x ≠ k → y ≠ k → g.Before x k → g.Before k y → TransGen (g.BeforeBut k) x y)
    (ha : a ≠ k) (hpath : TransGen g.Before a b) :
    b ≠ k ∧ TransGen (g.BeforeBut k) a b ∨
      b = k ∧ ∃ x, x ≠ k ∧ ReflTransGen (g.BeforeBut k) a x ∧ g.Before x k := by
  induction hpath with
  | @single b hab =>
    by_cases hb : b = k
    · exact .inr ⟨hb, a, ha, .refl, hb ▸ hab⟩
    · exact .inl ⟨hb, .single ⟨hab, ha, hb⟩⟩
  | @tail b c _ hbc ih =>
    rcases ih with ⟨hb, hab⟩ | ⟨rfl, x, hx, hax, hxk⟩
    · by_cases hc : c = k
      · exact .inr ⟨hc, b, hb, hab.to_reflTransGen, hc ▸ hbc⟩
      · exact .inl ⟨hc, hab.tail ⟨hbc, hb, hc⟩⟩
    · by_cases hc : c = b
      · exact .inr ⟨hc, x, hx, hax, hxk⟩
      · exact .inl ⟨hc, .trans_right hax (hspan x c hx hc hxk hbc)⟩

/-- All order around `k` is kept exactly if its neighbours are in order without it. -/
theorem spans_iff : (∀ a b, a ≠ k → b ≠ k → TransGen g.Before a b → TransGen (g.BeforeBut k) a b) ↔
    ∀ x y, x ≠ k → y ≠ k → g.Before x k → g.Before k y → TransGen (g.BeforeBut k) x y := by
  constructor
  · exact fun h x y hx hy hxk hky => h x y hx hy (.tail (.single hxk) hky)
  · intro hspan a b ha hb hpath
    rcases around_or_arrives hspan ha hpath with ⟨-, haround⟩ | ⟨hbk, -⟩
    · exact haround
    · exact absurd hbk hb

end Graph

/-! ## Edges out of a dead result -/

theorem Region.Visits.descends {options : Options} {r : Region} {g : Graph} (h : r.Visits options g)
    (hu : Upheld r.machine r.graph r.graph) : r.graph.Descends g := by
  have horderly := @RegionM.orderly_begun options r hu
  cases h with
  | between turns => exact horderly.descends turns
  | @within s _ _ j s' turns _ _ fits _ acts =>
    have hsteady : Steady j r.graph { toRegion := s.toRegion } := ⟨(horderly.turns turns).upheld, by simp, .nil⟩
    exact (horderly.descends turns).trans (hsteady.descends acts)
  | after turns _ sweeps =>
    exact Sweeps.keep sweeps (fun hstill hd => hd.trans (.of_links hstill.link?))
      (fun hrm hd => hd.trans (descends_of_removeMove hrm)) (horderly.descends turns)

theorem Graph.showsUse_of_not_resultNeeded {g : Graph} {k : MoveId} {e : EdgeId} {l : Link} (hg : g.Linked)
    (hdead : g.resultNeeded k = .ok false) (hl : g.link? e = some l) (hlive : l.live) (htail : l.tail = k) :
    showsUse l = false := by
  simp only [resultNeeded, bind_eq_ok] at hdead
  obtain ⟨m, hm, hdead⟩ := hdead
  split at hdead
  case h_2 => simp at hdead
  simp only [pure_eq_ok, Bool.or_eq_false_iff, List.any_eq_false] at hdead
  have hmem : (e, l) ∈ g.entries m.outs :=
    mem_entries.2 ⟨(hg.mem_outs (move?_of_move hm)).2 ⟨l, hl, hlive, htail⟩, hl⟩
  simpa using hdead.1 (e, l) hmem

namespace Program

variable {p : Program} {machine : Machine} {renamer : Option Renamer} {options : Options} {g₀ g g' : Graph}
  {k y : MoveId} {m : Move} {rm : RemovedMove} {d : Dependence} {e : EdgeId} {l : Link}

theorem Meet.kind {mt mh : Move} (h : Meet mt mh d) : d.reason ≠ .operation ∧ d.hazard ≠ .unknown := by
  obtain ⟨_, _, f1, f2, pass, -, -, -, hdep⟩ := h
  rcases hdep with ⟨-, -, rfl⟩ | ⟨-, -, rfl⟩ | ⟨-, -, rfl⟩ <;>
    cases f2.place <;> simp [Flow.Place.dep, Dependence.register]

/-- Order within an operation begins at a move into it. -/
theorem Drawn.isOperand_of_operation (hd : p.Drawn machine g) (hl : g.link? e = some l)
    (hreason : l.dep.reason = .operation) : ∃ m, g.move? l.tail = some m ∧ m.isOperand := by
  rcases (hd.arc _ _ _).1 (.of_link hl (hd.unbroken e l hl).1) with hflow | ⟨-, a, b, o, ha, -, ho, -⟩
  · obtain ⟨_, _, _, f, _, -, -, -, -, -, hdep⟩ := exists_uses_of_mem_edges hflow
    rcases hdep with ⟨-, -, hdep⟩ | ⟨-, -, hdep⟩ | ⟨-, -, hdep⟩ <;>
      (rw [hdep] at hreason; cases hf : f.place <;> simp [hf, Flow.Place.dep, Dependence.register] at hreason)
  · obtain ⟨m, hm, hbare⟩ := hd.bare ha
    have hdst : m.bare.dstOp = some ⟨o⟩ := by
      rw [hbare]
      simp [ho]
    exact ⟨m, hm, Option.isSome_iff_exists.2 ⟨_, hdst⟩⟩

/-- In a bottom-up run, what has to wait for a dead result is a write over its register or over the register of its
guard. -/
theorem overwrites_of_dead (hbuild : p.graph machine = .ok g₀) (hway : options.direction = .bottomUp)
    (hvisits : Region.Visits options { machine, graph := g₀, renamer } g) (hm : g.move? k = some m)
    (hresult : m.isResult) (hdead : g.resultNeeded k = .ok false) (hk : g.Before k y) :
    ∃ my, g.move? y = some my ∧
      (my.dst = m.dst ∨ ∃ guard, m.guard = some guard ∧ my.dst = .register guard.reg) := by
  have hd := graph_drawn hbuild
  have hu0 := upheld_of_graph hbuild
  obtain ⟨machine', hu⟩ := hvisits.upheld hu0
  have hdescends : g₀.Descends g := hvisits.descends hu0
  have htruthful := (hvisits.truthful hu0 (truthful_of_graph hbuild))
  have hstrict : ¬ options.mayLeaveStale renamer := by simp [Options.mayLeaveStale, hway]
  obtain ⟨e, l, hl, hlive, rfl, rfl, -⟩ := before_iff.1 hk
  have huse := showsUse_of_not_resultNeeded hu.linked hdead hl hlive rfl
  have hnoop := (hu.of_not_resultNeeded hm hdead).1
  -- The result is no operand, so the edge is not about an operation.
  have hreason : l.dep.reason = .register := by
    by_contra hother
    have hop : l.dep.reason = .operation := by
      unfold showsUse at huse
      split at huse <;> simp_all
    obtain ⟨e0, l0, hl0, htail, hsame⟩ := hdescends.reason hl hother
    obtain ⟨m0, hm0, hoperand⟩ := hd.isOperand_of_operation hl0 (hsame.trans hop)
    rw [htail] at hm0
    rw [hu.isOperand hm hm0, hoperand] at hnoop
    cases hnoop
  have hknown : l.dep.hazard ≠ .unknown := by
    intro hunknown
    obtain ⟨e0, l0, hl0, -, hsame, hhazard⟩ := hdescends.kind hl fun _ => hunknown
    rcases hd.link_cases hl0 with hop | ⟨_, _, -, -, hmeet⟩
    · rw [hop, hreason] at hsame
      cases hsame
    · exact hmeet.kind.2 (hhazard.trans hunknown)
  have hraw : l.dep.hazard ≠ .raw := by
    intro hraw
    simp [showsUse, hreason, hraw] at huse
  obtain ⟨hsome, htail, hhead⟩ := (htruthful e l hl hlive).agrees hreason hknown
  obtain ⟨r, hr⟩ := Option.isSome_iff_exists.1 hsome
  obtain ⟨my, hmy, hdst⟩ : ∃ my, g.move? l.head = some my ∧ my.dst = .register r := by
    have hrole : l.dep.headRole = .dest := by
      cases hh : l.dep.hazard <;> simp_all [Dependence.headRole]
    have hreg := hhead (.inl hstrict)
    rw [hrole, hr, regOf_eq_some] at hreg
    obtain ⟨my, hmy, hmyr⟩ := hreg
    exact ⟨my, hmy, Terminal.reg?_eq_some.1 hmyr⟩
  refine ⟨my, hmy, ?_⟩
  rw [hr, regOf_eq_some] at htail
  have hrole := of_some htail hm
  cases hh : l.dep.hazard with
  | raw => exact absurd hh hraw
  | unknown => exact absurd hh hknown
  | waw =>
    simp only [Dependence.tailRole, hh, Move.regAt?] at hrole
    exact .inl (hdst.trans (Terminal.reg?_eq_some.1 hrole).symm)
  | war =>
    -- What a result move reads of a register it reads as a guard.
    cases hguard : l.dep.guardUse with
    | true =>
      simp only [Dependence.tailRole, Dependence.readRole, hh, hguard, if_true, Move.regAt?] at hrole
      obtain ⟨guard, hg, rfl⟩ := Option.map_eq_some_iff.1 hrole
      exact .inr ⟨guard, hg, hdst⟩
    | false =>
      simp only [Dependence.tailRole, Dependence.readRole, hh, hguard, Bool.false_eq_true, if_false,
        Move.regAt?] at hrole
      have hout : m.src.isOutput := hu.matched.src_output hm ▸ hresult
      rw [Terminal.reg?_eq_some.1 hrole] at hout
      cases hout

/-- When a bottom-up run takes out a result that nobody reads, two other moves stay in order exactly if they are in
order around it. Nothing is lost exactly if what comes before it and what waits for it are in order without it, and
what waits for it are the writes over its register and over the register of its guard. -/
theorem order_around_removed (hbuild : p.graph machine = .ok g₀) (hway : options.direction = .bottomUp)
    (hvisits : Region.Visits options { machine, graph := g₀, renamer } g) (hm : g.move? k = some m)
    (hresult : m.isResult) (hdead : g.resultNeeded k = .ok false) (hremove : g.removeMove k = .ok (g', rm)) :
    (∀ a b, TransGen g'.Before a b ↔ TransGen (g.BeforeBut k) a b) ∧
      ((∀ a b, a ≠ k → b ≠ k → TransGen g.Before a b → TransGen g'.Before a b) ↔
        ∀ x y, x ≠ k → y ≠ k → g.Before x k → g.Before k y → TransGen g'.Before x y) ∧
      ∀ y, g.Before k y → ∃ my, g.move? y = some my ∧
        (my.dst = m.dst ∨ ∃ guard, m.guard = some guard ∧ my.dst = .register guard.reg) := by
  obtain ⟨_, hu⟩ := hvisits.upheld (upheld_of_graph hbuild)
  have hrest : g'.Before = g.BeforeBut k := by
    funext a b
    exact propext (before_of_removeMove hu.linked hremove)
  rw [hrest]
  exact ⟨fun _ _ => .rfl, spans_iff, fun y => overwrites_of_dead hbuild hway hvisits hm hresult hdead⟩

/-- `r1` is read, a sum is put into it, and then it is overwritten. -/
def unreadSum : Program :=
  let reg (i : Nat) : Terminal := .register ⟨⟨0⟩, i⟩
  { operations := #[{ opcode := "add" }]
    moves := #[{ src := reg 1, dst := reg 2 },
      { src := .immediate 5, dst := .input 1 true, dstOp := some 0 },
      { src := .output 2, dst := reg 1, srcOp := some 0 },
      { src := .immediate 7, dst := reg 1 }] }

theorem order_around_removed_unreadSum : ∃ g g' rm m, unreadSum.graph adder = .ok g ∧ g.move? ⟨2⟩ = some m ∧
    m.isResult ∧ g.resultNeeded ⟨2⟩ = .ok false ∧ g.removeMove ⟨2⟩ = .ok (g', rm) ∧ TransGen g.Before ⟨0⟩ ⟨3⟩ ∧
      ¬ TransGen (g.BeforeBut ⟨2⟩) ⟨0⟩ ⟨3⟩ ∧ ∃ m₃, g.move? ⟨3⟩ = some m₃ ∧ m₃.dst = m.dst := by
  have hall : (unreadSum.graph adder).toOption.any fun g =>
      ((g.move? ⟨2⟩).any fun m => m.isResult && m.guard.isNone) && decide (g.resultNeeded ⟨2⟩ = .ok false) &&
        decide (g.Before ⟨0⟩ ⟨2⟩) && decide (g.Before ⟨2⟩ ⟨3⟩) &&
        (g.removeMove ⟨2⟩).toOption.any fun x => decide (∀ l ∈ x.1.links.toList, l.live → l.tail ≠ ⟨0⟩) := by
    decide +kernel
  obtain ⟨g, hg, h⟩ := exists_ok_of_any hall
  rw [Bool.and_eq_true] at h
  obtain ⟨⟨g', rm⟩, hremove, hcut⟩ := exists_ok_of_any h.2
  simp only [Bool.and_eq_true, decide_eq_true_eq, Option.any_eq_true, Option.isNone_iff_eq_none] at h hcut
  obtain ⟨⟨⟨⟨⟨m, hm, hresult, hguard⟩, hdead⟩, hread⟩, hover⟩, -⟩ := h
  have hvisits : Region.Visits { direction := .bottomUp } { machine := adder, graph := g } g := .between .refl
  obtain ⟨hpaths, -, hwrites⟩ := order_around_removed hg rfl hvisits hm hresult hdead hremove
  obtain ⟨m₃, hm₃, hdst⟩ := hwrites _ hover
  refine ⟨g, g', rm, m, hg, hm, hresult, hdead, hremove, .tail (.single hread) hover, ?_, m₃, hm₃, ?_⟩
  · exact fun haround => not_transGen_of_tails hcut ((hpaths _ _).2 haround)
  · simpa [hguard] using hdst

/-- The sum of `unreadSum` with one reader, that starts another addition. -/
def reusedSum : Program :=
  let reg (i : Nat) : Terminal := .register ⟨⟨0⟩, i⟩
  { operations := #[{ opcode := "add" }, { opcode := "add" }]
    moves := #[{ src := reg 1, dst := reg 2 },
      { src := .immediate 5, dst := .input 1 true, dstOp := some 0 },
      { src := .output 2, dst := reg 1, srcOp := some 0 },
      { src := reg 1, dst := .input 1 true, dstOp := some 1 },
      { src := .immediate 7, dst := reg 1 }] }

/-- A region that takes out the results it bypasses. -/
def bypassingRegion (machine : Machine) (usage : Usage) (graph : Graph) : Region :=
  { machine, graph, usage, bypasser := { lookBack := 3, killDeadResults := true } }

/-- The reader of the sum is bypassed and the sum is taken out. Nothing then keeps the last write of `r1` behind the
read of its old value, neither there nor at the end of the whole run. -/
theorem reusedSum_loses_order : ∃ g₀ u g r x, reusedSum.graph adder = .ok g₀ ∧
    Request.runAll adder g₀ [.assign 9 ⟨4⟩] = .ok (u, g) ∧ TransGen g.Before ⟨0⟩ ⟨4⟩ ∧
    RegionM.bypassBelow [⟨3⟩] (bypassingRegion adder u g) = .ok 1 r ∧
    ⟨0⟩ ∈ r.graph.moveIds ∧ ⟨4⟩ ∈ r.graph.moveIds ∧ ¬ TransGen r.graph.Before ⟨0⟩ ⟨4⟩ ∧
    (g₀.schedule adder none { direction := .bottomUp }).1 = .ok x ∧
      ¬ TransGen (g₀.schedule adder none { direction := .bottomUp }).2.graph.Before ⟨0⟩ ⟨4⟩ := by
  have hall : (reusedSum.graph adder).toOption.any fun g₀ =>
      ((Request.runAll adder g₀ [.assign 9 ⟨4⟩]).toOption.any fun x =>
        decide (x.2.Before ⟨0⟩ ⟨2⟩) && decide (x.2.Before ⟨2⟩ ⟨4⟩) &&
        ((do return (← RegionM.bypassBelow [⟨3⟩], ← RegionM.graph) : RegionM (Nat × Graph)).run'
          (bypassingRegion adder x.1 x.2)).any fun y =>
              decide (y.1 = 1) && decide (⟨0⟩ ∈ y.2.moveIds) && decide (⟨4⟩ ∈ y.2.moveIds) &&
                decide (∀ l ∈ y.2.links.toList, l.live → l.tail ≠ ⟨0⟩)) &&
      ((g₀.schedule adder none { direction := .bottomUp }).1.toOption.any fun _ =>
        decide (∀ l ∈ (g₀.schedule adder none { direction := .bottomUp }).2.graph.links.toList,
          l.live → l.tail ≠ ⟨0⟩)) := by decide +kernel
  obtain ⟨g₀, hg₀, h⟩ := exists_ok_of_any hall
  rw [Bool.and_eq_true] at h
  obtain ⟨⟨u, g⟩, hg, hstep⟩ := exists_ok_of_any h.1
  obtain ⟨x, hx, hend⟩ := exists_ok_of_any h.2
  simp only [Bool.and_eq_true, decide_eq_true_eq, Option.any_eq_true] at hstep hend
  obtain ⟨⟨hread, hover⟩, ⟨n, g'⟩, hrun, ⟨⟨rfl, h0⟩, h4⟩, hcut⟩ := hstep
  obtain ⟨r', hrun⟩ := exists_of_run'_eq_some hrun
  obtain ⟨n, r, hbypass, hrest⟩ := run_bind_ok.1 hrun
  obtain ⟨_, _, hgraph, hpair⟩ := run_bind_ok.1 hrest
  obtain ⟨rfl, rfl⟩ := RegionM.graph_ok.1 hgraph
  obtain ⟨⟨rfl, rfl⟩, rfl⟩ : (n = 1 ∧ r.graph = g') ∧ r = r' := by simpa using hpair
  exact ⟨g₀, u, g, r, x, hg₀, hg, .tail (.single hread) hover, hbypass, h0, h4, not_transGen_of_tails hcut, hx,
    not_transGen_of_tails hend⟩

end Program

end Transport
