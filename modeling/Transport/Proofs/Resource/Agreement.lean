import Transport.Proofs.Program.Build
import Transport.Proofs.Resource.Check

/-!
# The usage and the check agree

Moves of a built graph are placed and taken off their cycles in any order, as long as every request
can be met. A check of the graph then finds moves without a place and latencies that are not kept,
for nobody has asked for either, and no other broken rule, with the one exception of a chained
result. Requests ask what a placed move needs from the moves placed before it; a move that reads a
result and triggers an operation on the same unit would have to be asked about itself.
-/

namespace Transport

/-- Ask for a place, or give it back. -/
inductive Request
  | assign (cycle : Cycle) (n : MoveId)
  | unassign (n : MoveId)
deriving DecidableEq

namespace Request

variable {g : Graph} {machine : Machine} {size : Nat} {s : Usage × Graph}

def run (machine : Machine) : Usage × Graph → Request → Checked (Usage × Graph)
  | (u, g), .assign c n => u.assign machine g c n
  | (u, g), .unassign n => u.unassign g n

/-- Meet the requests one after the other, with everything free at first. -/
def runAll (machine : Machine) (g : Graph) (rs : List Request) : Checked (Usage × Graph) :=
  rs.foldlM (run machine) ({}, g)

/-- A sound state of a graph of some number of moves. -/
structure Kept (machine : Machine) (size : Nat) (s : Usage × Graph) : Prop where
  sound : Sound machine s.1 s.2
  size_eq : s.2.moves.size = size

theorem Kept.of_shift {u u' : Usage} {g' : Graph} {n : MoveId}
    {m : Move} {p : Option Placement} (hs : Kept machine size (u, g)) (h : u.Shift g n m p u' g')
    (hsound : Sound machine u' g') : Kept machine size (u', g') where
  sound := hsound
  size_eq := by
    obtain ⟨ops, rfl⟩ := h.graph
    simpa [Graph.modifyMove] using hs.size_eq

theorem Kept.step {s' : Usage × Graph} {r : Request}
    (hs : Kept machine size s) (h : run machine s r = .ok s') : Kept machine size s' := by
  obtain ⟨u, g⟩ := s
  obtain ⟨u', g'⟩ := s'
  cases r with
  | assign c n =>
    obtain ⟨m, a, ha⟩ := Usage.assigns_of_assign hs.sound.accounts h
    exact hs.of_shift ha.toShift (ha.sound hs.sound)
  | unassign n =>
    obtain ⟨m, a, ha⟩ := Usage.unassigns_of_unassign hs.sound.accounts h
    exact hs.of_shift ha.toShift (ha.sound hs.sound)

theorem Kept.of_runAll {p : Program}
    {rs : List Request} (hbuild : p.graph machine = .ok g) (hrun : runAll machine g rs = .ok s) :
    Kept machine g.moves.size s := by
  obtain ⟨hformed, hfresh⟩ := Program.graph_formed hbuild
  refine foldlM_keeps (P := Kept machine g.moves.size) ?_ ?_ hrun
  · exact fun r _ s s' hs h => hs.step h
  · exact ⟨Sound.of_fresh hformed hfresh, rfl⟩

end Request

/-- While every operation takes a positive number of cycles, no chained result is lost. -/
theorem Graph.not_chainedResultLost {g : Graph} (hrange : g.InRange)
    (hlat : ∀ o op, g.op? o = some op → 0 < Cycle.ofLatency op.latency) :
    ¬ g.ChainedResultLost := by
  rintro ⟨op', t', r, hc, hlate⟩
  obtain ⟨s, hs⟩ := hrange.chained hc
  obtain ⟨o, o', v, n, n', w, t, -, -, -, hop', ⟨m, hm, -, -, ht⟩, ⟨m', hm', -, -, ht'⟩, hlt,
    ⟨mw, hmw, -, hr⟩, hw⟩ := hc
  refine hlate ⟨s, hs, ?_⟩
  have hsum := Usage.check_of_add hs
  have hpos := hlat o' op' hop'
  rcases hw with rfl | rfl
  · rw [hm] at hmw
    cases hmw
    rw [ht] at hr
    cases hr
    lia
  · rw [hm'] at hmw
    cases hmw
    rw [ht'] at hr
    cases hr
    lia

/-- After any requests that could be met, a check reports only places and latencies exactly if no
chained result is lost, which cannot happen while operations take time. The check itself ends as
long as identifiers and sums fit. -/
theorem requests_check_isOrder_iff {p : Program} {machine : Machine} {g g' : Graph} {u' : Usage}
    {rs : List Request} (hbuild : p.graph machine = .ok g)
    (hrun : Request.runAll machine g rs = .ok (u', g')) :
    (∀ vs, g'.check machine = .ok vs → ((∀ x ∈ vs, x.isOrder) ↔ ¬ g'.ChainedResultLost)) ∧
    (machine.Addressable → g.moves.size ≤ 4294967295 → g'.InRange →
      (∃ vs, g'.check machine = .ok vs) ∧
      ((∀ o op, g'.op? o = some op → 0 < Cycle.ofLatency op.latency) → ¬ g'.ChainedResultLost)) := by
  have hk := Request.Kept.of_runAll hbuild hrun
  refine ⟨fun vs h => Graph.isOrder_iff_of_check hk.sound h, fun hmachine hsize hrange => ⟨?_, ?_⟩⟩
  · refine Graph.check_eq_ok hk.sound hmachine ?_ hrange
    rintro n hn rfl
    obtain ⟨m, hm, -⟩ := Graph.mem_moveIds.1 hn
    have hlt := Graph.lt_of_move? hm
    rw [hk.size_eq] at hlt
    simp only [Id.invalid] at hlt
    omega
  · exact Graph.not_chainedResultLost hrange

/-! ## A machine with an operation that takes no time -/

/-- One unit that adds in a cycle and copies in none, and one bus. -/
def copyMachine : Machine where
  name := "m"
  files := #[{ name := "r", size := 4, readPorts := 2, writePorts := 2 }]
  units := #[⟨"alu", [⟨"add", 1, 2, 1⟩, ⟨"mov", 0, 2, 1⟩], 1, false⟩]
  buses := #[⟨"b0", 8, [.fileRead ⟨0⟩, .fileWrite ⟨0⟩, .unitIn ⟨0⟩ 0, .unitIn ⟨0⟩ 1, .unitOut ⟨0⟩ 2,
    .returnRead, .returnWrite]⟩]

/-- An addition whose result goes straight into the trigger of a copy. -/
def chainProgram : Program where
  operations := #[{ opcode := "add" }, { opcode := "mov" }]
  moves := #[{ src := .register ⟨⟨0⟩, 0⟩, dst := .input 1 true, dstOp := some 0 },
    { src := .output 2, dst := .input 1 true, srcOp := some 0, dstOp := some 1 }]

/-- The graph of the chain, and what it becomes by some requests. -/
def chainRun (rs : List Request) : Except Halt (Graph × Usage × Graph) := do
  let g ← chainProgram.graph copyMachine
  return (g, ← (Request.runAll copyMachine g rs : Checked (Usage × Graph)))

theorem exists_of_chainRun (rs : List Request) (f : Graph × Usage × Graph → Bool)
    (h : (chainRun rs).toOption.any f) : ∃ g u' g', chainProgram.graph copyMachine = .ok g ∧
      Request.runAll copyMachine g rs = .ok (u', g') ∧ f (g, u', g') := by
  obtain ⟨⟨g, u', g'⟩, hx, hf⟩ := (Option.any_eq_true ..).1 h
  cases hrun : chainRun rs with
  | error e => simp [hrun, Except.toOption] at hx
  | ok y =>
    simp only [hrun, Except.toOption, Option.some.injEq] at hx
    subst hx
    simp only [chainRun, bind_eq_ok, liftM_eq_ok, pure_eq_ok, Prod.mk.injEq] at hrun
    obtain ⟨g0, hg, s, hs, rfl, rfl⟩ := hrun
    exact ⟨g0, u', g', hg, hs, hf⟩

/-- The chain on one unit, the copy placed and taken off its cycle again. -/
theorem requests_check_isOrder_iff_chain : ∃ g u' g', chainProgram.graph copyMachine = .ok g ∧
    Request.runAll copyMachine g [.assign 0 ⟨0⟩, .assign 3 ⟨1⟩, .unassign ⟨1⟩] = .ok (u', g') ∧
    ∀ vs, g'.check copyMachine = .ok vs → ((∀ x ∈ vs, x.isOrder) ↔ ¬ g'.ChainedResultLost) := by
  obtain ⟨g, u', g', hg, hrun, -⟩ := exists_of_chainRun
    [.assign 0 ⟨0⟩, .assign 3 ⟨1⟩, .unassign ⟨1⟩] (fun _ => true) (by decide +kernel)
  exact ⟨g, u', g', hg, hrun, (requests_check_isOrder_iff hg hrun).1⟩

/-- The copy starts as it reads the sum, and its own result has replaced it by then. -/
theorem chain_reports_resultOverwritten : ∃ g u' g', chainProgram.graph copyMachine = .ok g ∧
    Request.runAll copyMachine g [.assign 0 ⟨0⟩, .assign 1 ⟨1⟩] = .ok (u', g') ∧
    g'.check copyMachine = .ok [.resultOverwritten ⟨0⟩ ⟨1⟩ ⟨1⟩] := by
  obtain ⟨g, u', g', hg, hrun, hcheck⟩ := exists_of_chainRun
    [.assign 0 ⟨0⟩, .assign 1 ⟨1⟩]
    (fun x => (x.2.2.check copyMachine).toOption = some [.resultOverwritten ⟨0⟩ ⟨1⟩ ⟨1⟩])
    (by decide +kernel)
  refine ⟨g, u', g', hg, hrun, ?_⟩
  cases hc : g'.check copyMachine with
  | error e => simp [hc, Except.toOption] at hcheck
  | ok vs => simpa [hc, Except.toOption] using hcheck

end Transport
