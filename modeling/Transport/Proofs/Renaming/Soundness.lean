import Transport.Proofs.Renaming.Range

/-!
# What a renaming keeps

A relocated range leaves a graph as sound as it was: its moves play the same parts, those that are
placed take up the same, and the tags are true.
-/

namespace Transport

namespace Move

variable {m : Move} {old new : Reg} {roles : List (MoveId × Role)} {n : MoveId}

theorem setRegs_shape (hdst : (n, .dest) ∈ roles → m.dst = .register old)
    (hsrc : (n, .source) ∈ roles → m.src = .register old) : (m.setRegs new roles n).shape = m.shape := by
  by_cases hd : (n, .dest) ∈ roles <;> by_cases hs : (n, .source) ∈ roles <;>
    simp [shape, setRegs, hd, hs, isTrigger, Terminal.isTrigger, Terminal.isOutput, Terminal.isInput,
      hdst, hsrc]

theorem setRegs_guardFile
    (hguard : (n, .guard) ∈ roles → m.guardFile = some old.file ∧ new.file = old.file) :
    (m.setRegs new roles n).guardFile = m.guardFile := by
  by_cases hg : (n, .guard) ∈ roles
  · obtain ⟨hold, hfile⟩ := hguard hg
    cases hm : m.guard with
    | none => simp [guardFile, hm] at hold
    | some guard => simp_all [guardFile, setRegs]
  · simp [guardFile, setRegs, hg]

end Move

namespace Graph

variable {g g' : Graph} {n w x : MoveId} {m : Move} {e : EdgeId} {l l' : Link}
  {old new : Reg} {range : LiveRange} {role : Role} {start : MoveId × Role} {direction : Direction}
  {edges : List (MoveId × MoveId × Dependence)}

namespace Relocates

section

variable (h : g.Relocates direction start range w old new g')
include h

theorem holds (hg : g.Linked) (ht : g.Tagged)
    (hx : x ∈ range.inRole role) (hm : g.move? x = some m) : m.Holds old role := by
  have hold := of_some (h.ranging.holds hg ht h.held hx) hm
  exact hold

theorem bare (n : MoveId) :
    (g'.move? n).map Move.bare = (g.move? n).map fun m => (m.setRegs new range.roles n).bare :=
  let ⟨_, hrenames, _⟩ := h.renames
  hrenames.bare n

theorem move? (hm : g.move? n = some m) :
    ∃ m', g'.move? n = some m' ∧ m'.bare = (m.setRegs new range.roles n).bare := by
  have hm' := exists_of_map_eq (h.bare n).symm hm
  exact hm'

theorem size : g'.moves.size = g.moves.size := by
  obtain ⟨edges, ⟨g1, g2, hrew, hreg, hret, -⟩, -⟩ := h.renames
  exact hret.moves.size.trans (hreg.size.trans hrew.moves.size)

theorem op? (o : OpId) : g'.op? o = g.op? o := by
  obtain ⟨edges, ⟨g1, g2, hrew, hreg, hret, -⟩, -⟩ := h.renames
  exact (hret.moves.op? o).trans ((hreg.op? o).trans (hrew.moves.op? o))

theorem linked (hg : g.Linked) : g'.Linked := by
  obtain ⟨edges, ⟨g1, g2, hrew, hreg, hret, -⟩, -⟩ := h.renames
  exact hret.linked (hreg.linked (hrew.linked hg))

/-- What does not depend on edge lists can be read off the moves of the range. -/
theorem map_eq {α : Type} {f : Move → α}
    (hf : ∀ m, f m.bare = f m) (hset : ∀ m, g.move? n = some m → f (m.setRegs new range.roles n) = f m) :
    (g'.move? n).map f = (g.move? n).map f := by
  have hbare (x : Option Move) : x.map f = (x.map Move.bare).map f := by
    cases x <;> simp [hf]
  rw [hbare, h.bare]
  cases hm : g.move? n with
  | none => rfl
  | some m => simp [hf, hset m hm]

theorem sameShapes (hg : g.Linked) (ht : g.Tagged) : g.SameShapes g' := by
  refine ⟨fun n => h.map_eq (fun _ => rfl) fun m hm => ?_, fun o => by rw [h.op?]⟩
  exact Move.setRegs_shape (fun hn => h.holds hg ht (mem_roles.1 hn) hm)
    (fun hn => h.holds hg ht (mem_roles.1 hn) hm)

theorem framed (hg : g.Linked) (ht : g.Tagged) : g.Framed g' := by
  obtain ⟨edges, ⟨g1, g2, hrew, hreg, hret, -⟩, -⟩ := h.renames
  refine ⟨fun n => h.map_eq (fun _ => rfl) fun m hm => ?_, h.size, fun o => by rw [h.op?],
    hret.moves.guardLatencies.trans (hreg.guardLatencies.trans hrew.moves.guardLatencies),
    hret.moves.forcedFiles.trans (hreg.forcedFiles.trans hrew.moves.forcedFiles)⟩
  have htrigger : (m.setRegs new range.roles n).isTrigger = m.isTrigger :=
    congrArg Move.Shape.trigger (show (m.setRegs new range.roles n).shape = m.shape from
      Move.setRegs_shape (fun hn => h.holds hg ht (mem_roles.1 hn) hm)
        (fun hn => h.holds hg ht (mem_roles.1 hn) hm))
  have hguard : (m.setRegs new range.roles n).guardFile = m.guardFile :=
    Move.setRegs_guardFile fun hn => ⟨h.holds hg ht (mem_roles.1 hn) hm, h.guards (mem_roles.1 hn)⟩
  simp only [Move.fixed, htrigger, hguard]
  rfl

theorem cycleOf : g'.cycleOf n = g.cycleOf n := by
  have hmap := h.map_eq (n := n) (f := Move.cycle?) (fun _ => rfl) fun _ _ => rfl
  have hjoin (x : Option Move) : x.bind Move.cycle? = (x.map Move.cycle?).join := by
    cases x <;> rfl
  rw [Graph.cycleOf, hjoin, hmap, ← hjoin]

/-! ## Tags -/

theorem mem_writes : x ∈ range.inRole .dest ↔ x = w := LiveRange.mem_dest h.writes

end

section

variable (h : g.Relocates direction start range w old new g') (hg : g.Linked) (ht : g.Tagged)
  (hl : g.link? e = some l) (hlive : l.live) (hraw : l.dep.isRaw)
include h hg ht hl hlive hraw

/-- The value of the write reaches moves of the range only. -/
theorem read_of_write (htail : l.tail = w) : l.dep.isBack = false ∧
      l.head ∈ range.inRole (if l.dep.guardUse then .guard else .source) := by
  have hw : w ∈ range.inRole .dest := h.mem_writes.2 rfl
  obtain ⟨r, mt, mh, htag, hmt, -, hdst, -⟩ := ht.raw hl hlive hraw
  obtain rfl : old = r := by
    have hold : mt.dst = .register old := h.holds hg ht hw (htail ▸ hmt)
    exact Terminal.register.inj (hold.symm.trans hdst)
  rw [Dependence.isRaw_iff] at hraw
  have hmem : l ∈ g.valueEdges old true w :=
    (mem_valueEdges hg).2 ⟨⟨e, hl⟩, hlive, htail, by simp [Dependence.carries, hraw, htag]⟩
  have hx := h.ranging.handled hw l hmem
  exact ⟨hx.1, hx.2.2⟩

theorem write_of_read (hguard : l.dep.guardUse = false) (hhead : l.head ∈ range.inRole .source) : l.tail = w := by
  obtain ⟨r, mt, mh, htag, -, hmh, -, hsrc, -⟩ := ht.raw hl hlive hraw
  obtain rfl : old = r := by
    have hold : mh.src = .register old := h.holds hg ht hhead hmh
    exact Terminal.register.inj (hold.symm.trans (hsrc hguard))
  rw [Dependence.isRaw_iff] at hraw
  have hmem : l ∈ g.valueEdges old false l.head :=
    (mem_valueEdges hg).2 ⟨⟨e, hl⟩, hlive, rfl, by simp [Dependence.carries, hraw, htag]⟩
  exact h.mem_writes.1 (h.ranging.handled hhead l hmem).2.2

end

end Relocates

/-- An edge in the graph, or one that is put there to keep a renamed range apart. -/
def Plain (g : Graph) (direction : Direction) (w : MoveId) (r : Reg) (l : Link) : Prop :=
  (∃ e, g.link? e = some l ∧ l.live) ∨ g.Separates direction w r l.tail l.head l.dep

/-- An edge that stands for the order a renamed write imposed on two moves. -/
structure Spans (g : Graph) (direction : Direction) (w : MoveId) (r : Reg) (l : Link) : Prop where
  ne : l.tail ≠ l.head
  passes : ∃ inc out, g.Plain direction w r inc ∧ inc.tail = l.tail ∧ inc.head = w ∧
    g.Plain direction w r out ∧ out.tail = w ∧ out.head = l.head ∧
    (inc.dep.hazard = .waw ∨ inc.dep.hazard = .war) ∧ out.dep.hazard = .waw ∧
    isStorage inc.dep.reason ∧ isStorage out.dep.reason ∧
    l.dep = { inc.dep with headPseudo := out.dep.headPseudo
                           loopDepth := inc.dep.loopDepth + out.dep.loopDepth }

namespace Relocates

section

variable {g1 g2 : Graph}
  (hsep : ∀ t h d, (t, h, d) ∈ edges → g.Separates direction w new t h d)
  (hrew : g.Rewires g1 (Planned edges) NoneBack NoneBack)
  (hreg : g1.Reregisters new range.roles g2)

include hsep hrew hreg

theorem known_or_separates (hl : g2.link? e = some l) :
    (∃ b, g.link? e = some { l with live := b }) ∨ g.Separates direction w new l.tail l.head l.dep := by
  rw [hreg.link?] at hl
  cases hl0 : g.link? e with
  | none => exact .inr (hsep _ _ _ (hrew.fresh hl0 hl))
  | some l0 =>
    obtain ⟨b, hb, -⟩ := hrew.kept hl0
    rw [hl] at hb
    cases hb
    exact .inl ⟨l0.live, rfl⟩

theorem live_or_separates (hl : g2.link? e = some l) (hlive : l.live) :
    g.link? e = some l ∨ g.Separates direction w new l.tail l.head l.dep := by
  rw [hreg.link?] at hl
  rcases hrew.live_or_new hl hlive with hl0 | hn
  · exact .inl hl0
  · exact .inr (hsep _ _ _ hn)

theorem spans_of_bridges (h : g2.Bridges w l.tail l.head l.dep) : g.Spans direction w new l := by
  obtain ⟨hne, e, inc, e', out, hinc, hlive, hitail, hihead, hout, hlive', hotail, hohead, hrest⟩ := h
  refine ⟨hne, inc, out, ?_, hitail, hihead, ?_, hotail, hohead, hrest⟩
  · exact (live_or_separates hsep hrew hreg hinc hlive).imp_left fun hl => ⟨e, hl, hlive⟩
  · exact (live_or_separates hsep hrew hreg hout hlive').imp_left fun hl => ⟨e', hl, hlive'⟩

end

section

variable (h : g.Relocates direction start range w old new g')
include h

theorem origin (hl' : g'.link? e = some l')
    (hlive : l'.live) : ∃ l : Link, l'.tail = l.tail ∧ l'.head = l.head ∧
      l'.dep.untagged = l.dep.untagged ∧
      (g.link? e = some l ∧ l.live ∨ g.Separates direction w new l.tail l.head l.dep ∨
        g.Spans direction w new l) := by
  obtain ⟨edges, ⟨g1, g2, hrew, hreg, hret, -⟩, hsep⟩ := h.renames
  rcases hret.cases_live hl' hlive with ⟨l, hl, hlive, hev⟩ | ⟨l, hnew, hev⟩
  · refine ⟨l, hev.tail, hev.head, hev.untagged, ?_⟩
    exact (live_or_separates hsep hrew hreg hl hlive).imp (fun hl => ⟨hl, hlive⟩) .inl
  · exact ⟨l, hev.tail, hev.head, hev.untagged, .inr (.inr (spans_of_bridges hsep hrew hreg hnew))⟩

/-- Edges that are not about registers stay as they are. -/
theorem link_of_reason (hl : g.link? e = some l) (hreason : l.dep.reason ≠ .register) : g'.link? e = some l := by
  obtain ⟨edges, ⟨g1, g2, hrew, hreg, hret, -⟩, hsep⟩ := h.renames
  have hl2 : g2.link? e = some l := by
    rw [hreg.link?]
    exact hrew.uncut hl id fun _ => id
  obtain ⟨l', hl', hev, hdead⟩ := hret.kept hl2
  cases hlive : l.live with
  | false => rw [hl', hdead hlive]
  | true =>
    rw [hl', hev.eq_of_untouched hlive]
    rintro b (⟨hx, -⟩ | ⟨hx, -⟩)
    · exact hreason hx
    · exact hreason hx

/-- A tag that is replaced by the new register stays true. -/
theorem tagOk_of_evolves (hg : g.Linked) (ht : g.Tagged) {g2 : Graph} (hguards : ∀ n m, g2.move? n = some m →
      ∃ m', g'.move? n = some m' ∧ m'.guardFile = m.guardFile) (hl : g.TagOk l)
    (hev : l.Evolves new (g2.RangeOrder range w new) l') : g'.TagOk l' := by
  refine ⟨hev.isPseudo.trans hl.1, fun hreason hwar hguard => ?_⟩
  rw [hev.reason] at hreason
  rw [hev.hazard] at hwar
  rw [hev.guardUse] at hguard
  obtain ⟨r, m, htag, hm, hfile⟩ := hl.2 hreason hwar hguard
  obtain ⟨m', hm', hfile'⟩ := (h.framed hg ht).guardFile l.tail m hm
  rw [← hev.tail] at hm'
  rcases hev.tag with htag' | ⟨htag', htouch⟩
  · exact ⟨r, m', htag'.trans htag, hm', hfile'.trans hfile⟩
  refine ⟨new, m', htag', hm', ?_⟩
  rcases htouch with ⟨-, ⟨-, hx⟩ | ⟨-, -, hx⟩⟩ | ⟨-, -, hx⟩
  · exact absurd hwar hx.1
  · obtain ⟨k, guard, hk, hkg, rfl⟩ := hx rfl hwar hguard
    obtain ⟨k', hk', hkfile⟩ := hguards _ k hk
    rw [hev.tail, hk'] at hm'
    cases hm'
    rw [hkfile]
    simp [Move.guardFile, hkg]
  · have hx : l.tail ∈ range.inRole .guard := by simpa [Dependence.untagged, hguard] using hx
    have hold : m.guardFile = some old.file := h.holds hg ht hx hm
    rw [hfile', hold, h.guards hx]

end

theorem tagOk_of_separates {t hd : MoveId} {d : Dependence} {b : Bool}
    (hs : g.Separates direction w new t hd d) : g.TagOk ⟨t, hd, d, b⟩ := by
  refine ⟨hs.pseudo, fun _ _ hguard => ?_⟩
  obtain ⟨-, m, hm, hfile⟩ := hs.guard hguard
  exact ⟨new, m, hs.reg, hm, hfile⟩

theorem tagOk_of_plain (ht : g.Tagged) (hl : g.Plain direction w new l) : g.TagOk l := by
  rcases hl with ⟨e, hl, -⟩ | hs
  · exact ht.ok hl
  · exact tagOk_of_separates hs

theorem tagOk_of_spans (ht : g.Tagged) (hl : g.Spans direction w new l) : g.TagOk l := by
  obtain ⟨-, inc, out, hinc, hitail, -, hout, -, -, -, -, -, -, hdep⟩ := hl
  have hi := tagOk_of_plain ht hinc
  have ho := tagOk_of_plain ht hout
  have hpi := hi.1
  have hpo := ho.1
  simp only [Dependence.isPseudo, Bool.or_eq_false_iff] at hpi hpo
  refine ⟨by simp [Dependence.isPseudo, hdep, hpi.1, hpo.2], ?_⟩
  rw [hdep, ← hitail]
  exact hi.2

/-- An edge that carries a value was there before, and is tagged as its moves are renamed. -/
theorem rawOk (h : g.Relocates direction start range w old new g') (hg : g.Linked) (ht : g.Tagged)
    (hl' : g'.link? e = some l') (hlive : l'.live) : g'.RawOk l' := by
  intro hraw
  have hframed := h.framed hg ht
  obtain ⟨edges, ⟨g1, g2, hrew, hreg, hret, hpass⟩, hsep⟩ := h.renames
  obtain ⟨l, hl0, hlive0, hev⟩ : ∃ l, g.link? e = some l ∧ l.live ∧
      l.Evolves new (g2.RangeOrder range w new) l' := by
    rcases hret.cases_live hl' hlive with ⟨l, hl, hlive2, hev⟩ | ⟨l, hnew, hev⟩
    · rcases live_or_separates hsep hrew hreg hl hlive2 with hl0 | hs
      · exact ⟨l, hl0, hlive2, hev⟩
      · rw [hev.isRaw] at hraw
        rw [Dependence.isRaw_iff] at hraw
        exact absurd hraw.2 hs.raw
    · obtain ⟨-, -, inc, -, out, -, -, -, -, -, -, -, -, hhazard, -, -, -, hd⟩ := hnew
      rw [hev.isRaw, Dependence.isRaw, hd] at hraw
      rcases hhazard with hx | hx <;> simp [hx] at hraw
  rw [hev.isRaw] at hraw
  obtain ⟨r, mt, mh, htag, hmt, hmh, hdst, hsrc, hguard⟩ := ht.raw hl0 hlive0 hraw
  obtain ⟨mt', hmt', hbt⟩ := h.move? hmt
  obtain ⟨mh', hmh', hbh⟩ := h.move? hmh
  have hfile : mh'.guardFile = mh.guardFile := by
    have hfile := of_some (hframed.guardFile _ _ hmh) hmh'
    exact hfile
  have hdst' : mt'.dst = if (l.tail, .dest) ∈ range.roles then .register new else mt.dst :=
    (congrArg Move.dst hbt :)
  have hsrc' : mh'.src = if (l.head, .source) ∈ range.roles then .register new else mh.src :=
    (congrArg Move.src hbh :)
  rw [← hev.tail] at hmt'
  rw [← hev.head] at hmh'
  rw [hev.guardUse]
  by_cases htail : l.tail = w
  · -- The value of the renamed write: its readers are in the range.
    obtain ⟨-, hhead⟩ := h.read_of_write hg ht hl0 hlive0 hraw htail
    have htag' := hpass e l' hl' hlive (hev.tail.trans htail) (hev.isRaw.trans hraw)
      (hev.isPseudo.trans (ht.ok hl0).1)
    refine ⟨new, mt', mh', htag', hmt', hmh', ?_, fun hu => ?_, fun hu => ?_⟩
    · rw [hdst', if_pos (mem_roles.2 (h.mem_writes.2 htail))]
    · rw [hu, if_neg Bool.false_ne_true] at hhead
      rw [hsrc', if_pos (mem_roles.2 hhead)]
    · rw [hu, if_pos rfl] at hhead
      have hold : mh.guardFile = some old.file := h.holds hg ht hhead hmh
      rw [hfile, hold, h.guards hhead]
  · -- The value of another write: its readers are not.
    have htag' : l'.dep.reg? = some r := by
      rw [Dependence.isRaw_iff] at hraw
      rcases hev.tag with htag' | ⟨-, ⟨-, ⟨hx, -⟩ | ⟨-, hx, -⟩⟩ | ⟨-, hx, -⟩⟩
      · exact htag'.trans htag
      · exact absurd hx htail
      · exact absurd hraw.2 hx
      · rw [show l.dep.untagged.hazard = l.dep.hazard from rfl, hraw.2] at hx
        cases hx
    refine ⟨r, mt', mh', htag', hmt', hmh', ?_, fun hu => ?_, fun hu => ?_⟩
    · rw [hdst', if_neg fun hx => htail (h.mem_writes.1 (mem_roles.1 hx)), hdst]
    · rw [hsrc', if_neg fun hx => htail
        (h.write_of_read hg ht hl0 hlive0 hraw hu (mem_roles.1 hx)), hsrc hu]
    · rw [hfile, hguard hu]

theorem tagged (h : g.Relocates direction start range w old new g') (hg : g.Linked) (ht : g.Tagged) :
    g'.Tagged := by
  refine ⟨fun {e l'} hl' => ?_, h.rawOk hg ht⟩
  obtain ⟨edges, ⟨g1, g2, hrew, hreg, hret, -⟩, hsep⟩ := h.renames
  have hguards (n : MoveId) (m : Move) (hm : g2.move? n = some m) :
      ∃ m', g'.move? n = some m' ∧ m'.guardFile = m.guardFile := by
    obtain ⟨m', hm', hbare⟩ := hret.moves.move? hm
    exact ⟨m', hm', (congrArg Move.guardFile hbare :)⟩
  cases hl2 : g2.link? e with
  | none =>
    obtain ⟨l, hnew, hev⟩ := hret.fresh hl2 hl'
    exact h.tagOk_of_evolves hg ht hguards
      (tagOk_of_spans ht (spans_of_bridges hsep hrew hreg hnew)) hev
  | some l =>
    obtain ⟨hev, -⟩ := of_some (hret.kept hl2) hl'
    refine h.tagOk_of_evolves hg ht hguards ?_ hev
    rcases known_or_separates hsep hrew hreg hl2 with ⟨b, hb⟩ | hs
    · have hok := ht.ok hb
      exact ⟨hok.1, hok.2⟩
    · exact tagOk_of_separates hs

end Relocates

/-! ## Latencies -/

/-- Cycles are not negative and fit their width. -/
def Bounded (g : Graph) : Prop := ∀ n c, g.cycleOf n = some c → 0 ≤ c ∧ c < 2147483648

/-- No edge within an iteration leads from a move to itself, except inside an operation. -/
def Loopless (g : Graph) : Prop :=
  ∀ e l, g.link? e = some l → l.live → l.dep.isBack = false → l.tail = l.head → l.dep.reason = .operation

theorem Relocates.loopless (h : g.Relocates direction start range w old new g') (hloop : g.Loopless) :
    g'.Loopless := by
  intro e l' hl' hlive hback hself
  obtain ⟨l, htail, hhead, hun, horigin⟩ := h.origin hl' hlive
  rw [htail, hhead] at hself
  rw [show l'.dep.reason = l.dep.reason from (congrArg Dependence.reason hun :)]
  rw [show l'.dep.isBack = l.dep.isBack from (congrArg Dependence.isBack hun :)] at hback
  rcases horigin with ⟨hl, hlive0⟩ | hs | hs
  · exact hloop e l hl hlive0 hback hself
  · exact absurd hself hs.ne
  · exact absurd hself hs.ne

end Graph

end Transport
