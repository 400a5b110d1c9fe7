import Transport.Proofs.Dependence.Subgraph

/-!
# Values that leave a block

Whether a value is needed is read off the edges out of the move that writes it. An extracted block has the edges
between its own moves only, and the registers that are live out are those of the whole graph. So a value that is
read in another block counts as dead (`LosesUse`), unless its register is live out of the whole graph and is not
overwritten in the block.
-/

namespace Transport

namespace Graph

variable {g s : Graph} {b : BlockId} {n i : MoveId} {m : Move} {l l' : Link} {r : Reg}

/-- The edge `l` of the graph leads out of `n`. -/
def Issues (g : Graph) (n : MoveId) (l : Link) : Prop := ∃ e, g.link? e = some l ∧ l.live ∧ l.tail = n

/-- Nothing shows inside block `b` that the register value `n` writes is needed: no move of the block reads it, and
it is overwritten there or not live out. -/
def LosesUse (g : Graph) (b : BlockId) (n : MoveId) : Prop :=
  ∃ m r, g.move? n = some m ∧ m.dst.reg? = some r ∧
    (∀ l, g.Issues n l → g.inBlock b l.head → showsUse l = false) ∧
    ((∃ l, g.Issues n l ∧ g.inBlock b l.head ∧ g.showsKill l) ∨ g.isLiveOut r = false)

theorem Linked.any_entries (hg : g.Linked) (hm : g.move? n = some m) (f : Link → Bool) :
    ((g.entries m.outs).any fun x => f x.2) = true ↔ ∃ l, g.Issues n l ∧ f l := by
  rw [List.any_eq_true]
  constructor
  · rintro ⟨⟨e, l⟩, hx, hf⟩
    obtain ⟨he, hl⟩ := mem_entries.1 hx
    obtain ⟨hlive, htail⟩ := of_some ((hg.mem_outs hm).1 he) hl
    exact ⟨l, ⟨e, hl, hlive, htail⟩, hf⟩
  · rintro ⟨l, ⟨e, hl, hlive, htail⟩, hf⟩
    exact ⟨(e, l), mem_entries.2 ⟨(hg.mem_outs hm).2 ⟨l, hl, hlive, htail⟩, hl⟩, hf⟩

/-- A register value is needed if it is read, or live out and not overwritten. -/
theorem Linked.resultNeeded_iff (hg : g.Linked) (hn : n ≠ .invalid) (hm : g.move? n = some m) :
    ∃ u, g.resultNeeded n = .ok u ∧ (u = true ↔ ∀ r, m.dst.reg? = some r → (∃ l, g.Issues n l ∧ showsUse l) ∨
      (¬ ∃ l, g.Issues n l ∧ g.showsKill l) ∧ g.isLiveOut r) := by
  rw [resultNeeded, move_eq_ok.2 ⟨hn, hm⟩, ok_bind]
  cases hr : m.dst.reg? with
  | none => exact ⟨true, rfl, by simp⟩
  | some r =>
    refine ⟨_, rfl, ?_⟩
    have huse := hg.any_entries hm showsUse
    have hkill := hg.any_entries hm g.showsKill
    simp only [Option.some.injEq, forall_eq', Bool.or_eq_true, Bool.and_eq_true, Bool.not_eq_true']
    rw [← huse, ← hkill, Bool.not_eq_true]

theorem exists_right {α β : Type} {R : α → β → Prop} {xs : List α} {ys : List β} (h : List.Forall₂ R xs ys) {x : α}
    (hx : x ∈ xs) : ∃ y ∈ ys, R x y := by
  induction h with
  | nil => cases hx
  | cons hxy _ ih =>
    rcases List.mem_cons.1 hx with rfl | hx
    · exact ⟨_, .head _, hxy⟩
    · obtain ⟨y, hy, hr⟩ := ih hx
      exact ⟨y, .tail _ hy, hr⟩

theorem mem_liveLinks : l ∈ g.liveLinks ↔ ∃ e, g.link? e = some l ∧ l.live := by
  simp only [liveLinks, List.mem_filterMap, mem_edgeIds]
  constructor
  · rintro ⟨e, ⟨l', hl', hlive⟩, hl⟩
    rw [hl] at hl'
    cases hl'
    exact ⟨e, hl, hlive⟩
  · exact fun ⟨e, hl, hlive⟩ => ⟨e, ⟨l, hl, hlive⟩, hl⟩

namespace Extracts

section

variable (h : g.Extracts b s)
include h

theorem stands_inj {i' : MoveId} (hi : s.StandsFor i n) (hi' : s.StandsFor i' n) : i = i' := by
  have hnodup : s.parents.toList.Nodup := h.ascending.imp fun hlt => by
    rintro rfl
    omega
  obtain ⟨hlt, hn⟩ := Array.getElem?_eq_some_iff.1 hi
  obtain ⟨hlt', hn'⟩ := Array.getElem?_eq_some_iff.1 hi'
  rw [← Array.getElem_toList] at hn hn'
  exact Id.ext_val ((hnodup.getElem_inj_iff).1 (hn.trans hn'.symm))

theorem exists_copied {e : EdgeId} (hl' : s.link? e = some l') :
    ∃ l ∈ g.liveLinks, g.inBlock b l.tail ∧ g.inBlock b l.head ∧ s.CopiesLink l' l := by
  obtain ⟨l, hl, hcopy⟩ := exists_right h.links (Array.mem_toList_iff.2 (Array.mem_of_getElem? hl'))
  simp only [List.mem_filter, Bool.and_eq_true] at hl
  exact ⟨l, hl.1, hl.2.1, hl.2.2, hcopy⟩

theorem linked : s.Linked := by
  have hmem {e : EdgeId} {n : MoveId} {f : Link → MoveId} :
      e ∈ s.edgeIds.filter (fun e => (s.link? e).any fun l => f l = n) ↔
        ∃ l, s.link? e = some l ∧ l.live ∧ f l = n := by
    rw [List.mem_filter, mem_edgeIds]
    constructor
    · rintro ⟨⟨l, hl, hlive⟩, hend⟩
      rw [hl, Option.any_some, decide_eq_true_eq] at hend
      exact ⟨l, hl, hlive, hend⟩
    · rintro ⟨l, hl, hlive, hend⟩
      exact ⟨⟨l, hl, hlive⟩, by rw [hl, Option.any_some, decide_eq_true_eq, hend]⟩
  refine ⟨fun {n m e} hm => ?_, fun {n m e} hm => ?_, fun {e l} hl => ?_, fun {e l} hl => ?_⟩
  · exact (h.listed n m hm).1 ▸ hmem
  · exact (h.listed n m hm).2 ▸ hmem
  · obtain ⟨l0, -, -, -, hcopy⟩ := h.exists_copied hl
    obtain ⟨-, m, -, hm, -⟩ := h.move hcopy.1
    exact ⟨m, hm⟩
  · obtain ⟨l0, -, -, -, hcopy⟩ := h.exists_copied hl
    obtain ⟨-, m, -, hm, -⟩ := h.move hcopy.2.1
    exact ⟨m, hm⟩

/-- The edges out of a move of the block are those that stay in the block. -/
theorem exists_issues_iff (hi : s.StandsFor i n) {F G : Link → Prop}
    (hF : ∀ l' l, s.CopiesLink l' l → (G l' ↔ F l)) :
    (∃ l', s.Issues i l' ∧ G l') ↔ ∃ l, g.Issues n l ∧ g.inBlock b l.head ∧ F l := by
  constructor
  · rintro ⟨l', ⟨e, hl', -, rfl⟩, hf⟩
    obtain ⟨l, hl, -, hhead, hcopy⟩ := h.exists_copied hl'
    obtain ⟨e0, hl0, hlive⟩ := mem_liveLinks.1 hl
    exact ⟨l, ⟨e0, hl0, hlive, Option.some.inj (hcopy.1.symm.trans hi)⟩, hhead, (hF l' l hcopy).1 hf⟩
  · rintro ⟨l, ⟨e0, hl0, hlive, htail⟩, hhead, hf⟩
    have hn : g.inBlock b n := (h.stands n).1 ⟨i, hi⟩
    obtain ⟨l', hl', hcopy⟩ := exists_right h.links.flip (x := l)
      (List.mem_filter.2 ⟨mem_liveLinks.2 ⟨e0, hl0, hlive⟩, by rw [htail, hn, hhead]; rfl⟩)
    obtain ⟨k, hk⟩ := List.mem_iff_getElem?.1 hl'
    have htail' : s.StandsFor l'.tail n := htail ▸ hcopy.1
    exact ⟨l', ⟨⟨k⟩, by simpa [link?] using hk, hcopy.2.2.2, h.stands_inj htail' hi⟩, (hF l' l hcopy).2 hf⟩

theorem showsKill_iff (hcopy : s.CopiesLink l' l) : s.showsKill l' ↔ g.showsKill l := by
  obtain ⟨m, m', hm, hm', halone, -⟩ := h.move hcopy.2.1
  have hguard : m'.isUnguarded = m.isUnguarded := by
    change m'.alone.isUnguarded = m.alone.isUnguarded
    rw [halone]
  simp only [showsKill, hcopy.2.2.1, hm, hm', Option.any_some, hguard]

/-- In the block a value is needed unless its use is lost. -/
theorem resultNeeded_iff (hi : s.StandsFor i n) :
    ∃ u, s.resultNeeded i = .ok u ∧ (u = true ↔ ¬ g.LosesUse b n) := by
  obtain ⟨m, m', hm, hm', halone, -⟩ := h.move hi
  have hvalid : i ≠ .invalid := by
    rintro rfl
    have := h.parent hi
    simp [Graph.parent, Id.index, bind, Except.bind] at this
  have hdst : m'.dst = m.dst := by
    change m'.alone.dst = m.alone.dst
    rw [halone]
  have huse := h.exists_issues_iff hi (F := fun l => showsUse l) (G := fun l => showsUse l) fun l' l hcopy => by
    simp only [showsUse, hcopy.2.2.1]
  have hkill := h.exists_issues_iff hi (F := fun l => g.showsKill l) (G := fun l => s.showsKill l) fun l' l hcopy =>
    h.showsKill_iff hcopy
  have hout (r : Reg) : s.isLiveOut r = g.isLiveOut r := by
    simp only [isLiveOut, isForced, h.forcedFiles, h.liveOut]
  obtain ⟨u, hu, hiff⟩ := h.linked.resultNeeded_iff hvalid hm'
  refine ⟨u, hu, ?_⟩
  rw [hiff, huse, hkill, hdst]
  simp only [hout, LosesUse, hm, Option.some.injEq]
  grind

end

end Extracts

/-- A value whose use is lost, although it is needed, is read in another block. -/
theorem LosesUse.exists_use (h : g.LosesUse b n) (hg : g.Linked) (hneed : g.resultNeeded n = .ok true) :
    ∃ l, g.Issues n l ∧ showsUse l ∧ g.inBlock b l.head = false := by
  obtain ⟨m, r, hm, hr, hunread, hdead⟩ := h
  have hn : n ≠ .invalid := by
    rintro rfl
    simp [resultNeeded, Graph.move, Id.fetch, Id.index, bind, Except.bind] at hneed
  obtain ⟨u, hu, hiff⟩ := hg.resultNeeded_iff hn hm
  rw [hneed] at hu
  cases hu
  rcases hiff.1 rfl r hr with ⟨l, hl, huse⟩ | ⟨hkept, hout⟩
  · refine ⟨l, hl, huse, ?_⟩
    by_contra hin
    rw [hunread l hl (by simpa using hin)] at huse
    cases huse
  · rcases hdead with ⟨l, hl, -, hkill⟩ | hdead
    · exact absurd ⟨l, hl, hkill⟩ hkept
    · rw [hout] at hdead
      cases hdead

end Graph

namespace Program

open Transport.Graph

variable {p : Program} {machine : Machine} {g : Graph} {b : BlockId} {n : MoveId}

/-- In an extracted block a value that was needed still counts as needed exactly if its use is not lost; it is lost
only if a move of another block reads the value. -/
theorem resultNeeded_subgraph (hbuild : p.graph machine = .ok g) (hsize : g.moves.size ≤ 4294967295)
    (hn : g.inBlock b n) (hneed : g.resultNeeded n = .ok true) : ∃ s i u, g.subgraph b = .ok s ∧ s.parent i = .ok n ∧
      s.resultNeeded i = .ok u ∧ (u = true ↔ ¬ g.LosesUse b n) ∧
      (g.LosesUse b n → ∃ l, g.Issues n l ∧ showsUse l ∧ g.inBlock b l.head = false) := by
  have hstart : Request.runAll machine g [] = .ok ({}, g) := rfl
  obtain ⟨s, hs, hex⟩ := exists_extract hbuild hsize hstart b
  obtain ⟨i, hi⟩ := (hex.stands n).2 hn
  obtain ⟨u, hu, hiff⟩ := hex.resultNeeded_iff hi
  exact ⟨s, i, u, hs, hex.parent hi, hu, hiff, fun hl => hl.exists_use (graph_drawn hbuild).linked hneed⟩

theorem resultNeeded_subgraph_acrossBlocks : ∃ g s i u, acrossBlocks.graph adder = .ok g ∧
    g.resultNeeded ⟨1⟩ = .ok true ∧ g.subgraph ⟨0⟩ = .ok s ∧ s.parent i = .ok ⟨1⟩ ∧ s.resultNeeded i = .ok u ∧
      (u = true ↔ ¬ g.LosesUse ⟨0⟩ ⟨1⟩) := by
  obtain ⟨g, hg, hrun⟩ := exists_ok_of_any (x := acrossBlocks.graph adder)
    (p := fun g => g.moves.size ≤ 4 && g.inBlock ⟨0⟩ ⟨1⟩ && (g.resultNeeded ⟨1⟩).toOption.any (· = true))
    (by decide +kernel)
  simp only [Bool.and_eq_true, decide_eq_true_eq] at hrun
  obtain ⟨v, hv, heq⟩ := exists_ok_of_any hrun.2
  obtain rfl := of_decide_eq_true heq
  obtain ⟨s, i, u, hs, hi, hu, hiff, -⟩ := resultNeeded_subgraph hg (by omega) hrun.1.2 hv
  exact ⟨g, s, i, u, hg, hv, hs, hi, hu, hiff⟩

/-- The sum that the second block copies is dead in the first. -/
theorem acrossBlocks_forgets_sum : ∃ g s, acrossBlocks.graph adder = .ok g ∧ g.resultNeeded ⟨1⟩ = .ok true ∧
    g.subgraph ⟨0⟩ = .ok s ∧ s.parent ⟨1⟩ = .ok ⟨1⟩ ∧ s.resultNeeded ⟨1⟩ = .ok false := by
  obtain ⟨g, hg, hrun⟩ := exists_ok_of_any (x := acrossBlocks.graph adder)
    (p := fun g => (g.resultNeeded ⟨1⟩).toOption.any (· = true) && (g.subgraph ⟨0⟩).toOption.any fun s =>
      (s.parent ⟨1⟩).toOption.any (· = ⟨1⟩) && (s.resultNeeded ⟨1⟩).toOption.any (· = false)) (by decide +kernel)
  simp only [Bool.and_eq_true] at hrun
  obtain ⟨v, hv, heq⟩ := exists_ok_of_any hrun.1
  obtain ⟨s, hs, hrest⟩ := exists_ok_of_any hrun.2
  simp only [Bool.and_eq_true] at hrest
  obtain ⟨n, hn, hneq⟩ := exists_ok_of_any hrest.1
  obtain ⟨w, hw, hweq⟩ := exists_ok_of_any hrest.2
  simp only [decide_eq_true_eq] at heq hneq hweq
  exact ⟨g, s, hg, heq ▸ hv, hs, hneq ▸ hn, hweq ▸ hw⟩

end Program

end Transport
