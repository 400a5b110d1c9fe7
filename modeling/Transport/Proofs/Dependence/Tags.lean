import Transport.Proofs.Dependence.MoveChange
import Transport.Proofs.Dependence.Retag

/-!
# Tags tell the truth

An edge along which a value travels is tagged with the register that its tail writes and its head
reads, and an edge about a guard with a register of the guard's file (`Tagged`). `Framed` lists what
the scheduler never changes about a graph.
-/

namespace Transport

/-- The file of the guard's register. -/
def Move.guardFile (m : Move) : Option FileId := m.guard.map (·.reg.file)

/-- What a move reads and writes, as far as tags go. -/
def Move.registers (m : Move) : Terminal × Terminal × Option FileId := (m.src, m.dst, m.guardFile)

/-- What the scheduler never changes about a move. -/
structure Move.Fixed where
  dstOp : Option OpId
  /-- The operation that the move is placed with. -/
  op : Option OpId
  trigger : Bool
  controlFlow : Bool
  guardFile : Option FileId

def Move.fixed (m : Move) : Fixed :=
  ⟨m.dstOp, m.dstOp.or m.srcOp, m.isTrigger, m.controlFlow, m.guardFile⟩

namespace Graph

/-- The parts of a graph that are there to stay. -/
structure Framed (g g' : Graph) : Prop where
  moves (n : MoveId) : (g'.move? n).map Move.fixed = (g.move? n).map Move.fixed
  size : g'.moves.size = g.moves.size
  latencies (o : OpId) : (g'.op? o).map Operation.latency = (g.op? o).map Operation.latency
  guardLatencies : g'.guardLatencies = g.guardLatencies
  forcedFiles : g'.forcedFiles = g.forcedFiles

/-- The tail writes the register that the link is tagged with, and the head reads it. -/
def RawOk (g : Graph) (l : Link) : Prop :=
  l.dep.isRaw → ∃ r mt mh, l.dep.reg? = some r ∧ g.move? l.tail = some mt ∧ g.move? l.head = some mh ∧
    mt.dst = .register r ∧ (l.dep.guardUse = false → mh.src = .register r) ∧
    (l.dep.guardUse → mh.guardFile = some r.file)

/-- The link is not about a pseudo access, and a later write after a guard read is about a register
of the guard's file. -/
def TagOk (g : Graph) (l : Link) : Prop :=
  l.dep.isPseudo = false ∧ (l.dep.reason ≠ .operation → l.dep.hazard = .war → l.dep.guardUse →
    ∃ r m, l.dep.reg? = some r ∧ g.move? l.tail = some m ∧ m.guardFile = some r.file)

structure Tagged (g : Graph) : Prop where
  ok {e : EdgeId} {l : Link} : g.link? e = some l → g.TagOk l
  raw {e : EdgeId} {l : Link} : g.link? e = some l → l.live → g.RawOk l

/-- Two graphs whose moves name the same registers. -/
def SameRegisters (g g' : Graph) : Prop :=
  ∀ n, (g'.move? n).map Move.registers = (g.move? n).map Move.registers

variable {g g' g'' : Graph} {n : MoveId} {m : Move} {e : EdgeId} {l : Link}
  {New : MoveId → MoveId → Dependence → Prop} {Back Cut : EdgeId → Prop}

namespace Framed

theorem refl : g.Framed g := ⟨fun _ => rfl, rfl, fun _ => rfl, rfl, rfl⟩

theorem trans (h : g.Framed g') (h' : g'.Framed g'') : g.Framed g'' :=
  ⟨fun n => (h'.moves n).trans (h.moves n), h'.size.trans h.size,
    fun o => (h'.latencies o).trans (h.latencies o), h'.guardLatencies.trans h.guardLatencies,
    h'.forcedFiles.trans h.forcedFiles⟩

theorem symm (h : g.Framed g') : g'.Framed g :=
  ⟨fun n => (h.moves n).symm, h.size.symm, fun o => (h.latencies o).symm, h.guardLatencies.symm,
    h.forcedFiles.symm⟩

theorem move? (h : g.Framed g') (hm : g.move? n = some m) :
    ∃ m', g'.move? n = some m' ∧ m'.fixed = m.fixed :=
  exists_of_map_eq (h.moves n).symm hm

end Framed

theorem SameMoves.framed (h : g.SameMoves g') : g.Framed g' :=
  ⟨fun _ => h.map_eq fun _ => rfl, h.size, fun o => by rw [h.op?], h.guardLatencies, h.forcedFiles⟩

theorem SameMoves.sameRegisters (h : g.SameMoves g') : g.SameRegisters g' := fun _ => h.map_eq fun _ => rfl

theorem SameRegisters.move? (h : g.SameRegisters g') (hm : g.move? n = some m) :
    ∃ m', g'.move? n = some m' ∧ m'.src = m.src ∧ m'.dst = m.dst ∧ m'.guardFile = m.guardFile := by
  obtain ⟨m', hm', he⟩ := exists_of_map_eq (h n).symm hm
  simp only [Move.registers, Prod.mk.injEq] at he
  exact ⟨m', hm', he⟩

theorem RawOk.congr (h : g.SameRegisters g') (hl : g.RawOk l) : g'.RawOk l := by
  intro hraw
  obtain ⟨r, mt, mh, htag, hmt, hmh, hdst, hsrc, hguard⟩ := hl hraw
  obtain ⟨mt', hmt', -, hdst', -⟩ := h.move? hmt
  obtain ⟨mh', hmh', hsrc', -, hguard'⟩ := h.move? hmh
  exact ⟨r, mt', mh', htag, hmt', hmh', hdst'.trans hdst, fun hu => hsrc'.trans (hsrc hu),
    fun hu => hguard'.trans (hguard hu)⟩

theorem TagOk.congr (h : ∀ n m, g.move? n = some m → ∃ m', g'.move? n = some m' ∧
    m'.guardFile = m.guardFile) (hl : g.TagOk l) : g'.TagOk l := by
  refine ⟨hl.1, fun hreason hwar hguard => ?_⟩
  obtain ⟨r, m, htag, hm, hfile⟩ := hl.2 hreason hwar hguard
  obtain ⟨m', hm', hfile'⟩ := h _ m hm
  exact ⟨r, m', htag, hm', hfile'.trans hfile⟩

theorem SameRegisters.guardFile (h : g.SameRegisters g') : ∀ n m, g.move? n = some m →
    ∃ m', g'.move? n = some m' ∧ m'.guardFile = m.guardFile := by
  intro n m hm
  obtain ⟨m', hm', -, -, hg⟩ := h.move? hm
  exact ⟨m', hm', hg⟩

theorem Framed.guardFile (h : g.Framed g') : ∀ n m, g.move? n = some m →
    ∃ m', g'.move? n = some m' ∧ m'.guardFile = m.guardFile := by
  intro n m hm
  obtain ⟨m', hm', he⟩ := h.move? hm
  exact ⟨m', hm', congrArg Move.Fixed.guardFile he⟩

theorem Tagged.rewires (ht : g.Tagged) (h : g.Rewires g' New Back Cut)
    (hnew : ∀ l : Link, New l.tail l.head l.dep → g.TagOk l ∧ l.dep.isRaw = false)
    (hback : ∀ e l, Back e → g.link? e = some l → g.RawOk l) : g'.Tagged := by
  have hregs := h.moves.sameRegisters
  refine ⟨fun {e l} hl => ?_, fun {e l} hl hlive => ?_⟩
  · cases hl0 : g.link? e with
    | none => exact (hnew l (h.fresh hl0 hl)).1.congr hregs.guardFile
    | some l0 =>
      obtain ⟨b, hb, -⟩ := h.kept hl0
      rw [hl] at hb
      cases hb
      exact (ht.ok hl0).congr hregs.guardFile
  · rcases h.live hl hlive with hl0 | ⟨hb, hl0⟩ | ⟨hnone, hn⟩
    · exact (ht.raw hl0 hlive).congr hregs
    · exact (hback e _ hb hl0).congr hregs
    · intro hraw
      rw [(hnew l hn).2] at hraw
      cases hraw

end Graph

end Transport
