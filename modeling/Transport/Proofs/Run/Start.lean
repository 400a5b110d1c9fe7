import Transport.Proofs.Program.Order
import Transport.Proofs.Scheduling.Invariant

/-!
# What a run begins with

Every edge of a built graph that is not about an operation joins two accesses to one place. So its tags
tell the truth, and the scheduler finds in order what it upholds: `Program.upheld_of_graph`.
-/

namespace Transport.Program

open Transport.Flow Transport.Graph

variable {p : Program} {machine : Machine} {g : Graph} {t h n : MoveId} {d : Dependence} {e : EdgeId}
  {l : Link} {mt mh : Move}

/-- An edge of the walk joins two accesses to one place, one of them a write. -/
theorem exists_uses_of_mem_edges (hd : (t, h, d) ∈ Flow.edges p.isLoop (p.flow machine)) :
    ∃ a b e f pass, p.moves[t.val]? = some a ∧ p.moves[h.val]? = some b ∧ e ∈ p.uses machine a ∧
      f ∈ p.uses machine b ∧ e.place = f.place ∧
      (e.write ∧ f.write = false ∧ d = f.place.dep .raw f.firm pass ∨
        e.write = false ∧ f.write ∧ d = f.place.dep .war e.firm pass ∨
        e.write ∧ f.write ∧ d = f.place.dep .waw false pass) := by
  obtain ⟨pre, b, f, post, htime, rfl, hfound⟩ := draws_iff.1 (mem_edges.1 hd)
  have hmem {x : Access × Effect} (hx : x ∈ timeline p.isLoop (p.flow machine)) :
      ∃ pm, p.moves[x.1.move.val]? = some pm ∧ x.2 ∈ p.uses machine pm := by
    obtain ⟨a, e⟩ := x
    have hevent : ∃ pass, (a, e) ∈ events pass (p.flow machine) := by
      rcases List.mem_append.1 hx with hx | hx
      · exact ⟨0, hx⟩
      · split at hx
        · exact ⟨1, hx⟩
        · cases hx
    obtain ⟨pass, hx⟩ := hevent
    obtain ⟨i, pm, hpm, rfl, he⟩ := mem_events.1 hx
    exact ⟨pm, hpm, he⟩
  obtain ⟨pb, hpb, hf⟩ := hmem (x := (b, f)) (htime ▸ List.mem_append_right _ List.mem_cons_self)
  have hpre {x : Access × Effect} (hx : x ∈ pre) := hmem (htime ▸ List.mem_append_left _ hx)
  have hrem := remembers_after pre
  cases hwrite : f.write with
  | false =>
    obtain ⟨w, hw, -, -, rfl, rfl⟩ := (mem_run_read hwrite).1 hfound
    obtain ⟨e, he, hplace, hew⟩ := hrem.defs hw
    obtain ⟨pa, hpa, hea⟩ := hpre he
    exact ⟨pa, pb, e, f, b.pass, hpa, hpb, hea, hf, hplace, .inl ⟨hew, hwrite, rfl⟩⟩
  | true =>
    rcases (mem_run_write hwrite).1 hfound with ⟨r, firm, hr, -, -, rfl, rfl⟩ | ⟨w, hw, -, -, rfl, rfl⟩
    · obtain ⟨e, he, hplace, hew, rfl⟩ := hrem.reads hr
      obtain ⟨pa, hpa, hea⟩ := hpre he
      exact ⟨pa, pb, e, f, b.pass, hpa, hpb, hea, hf, hplace, .inr (.inl ⟨hew, hwrite, rfl⟩)⟩
    · obtain ⟨e, he, hplace, hew⟩ := hrem.defs hw
      obtain ⟨pa, hpa, hea⟩ := hpre he
      exact ⟨pa, pb, e, f, b.pass, hpa, hpb, hea, hf, hplace, .inr (.inr ⟨hew, hwrite, rfl⟩)⟩

theorem Drawn.bare (hd : p.Drawn machine g) {pm : ProgramMove} (hpm : p.moves[n.val]? = some pm) :
    ∃ m, g.move? n = some m ∧ m.bare = p.marked machine pm := by
  have := hd.move? n
  rw [hpm] at this
  simpa using this

/-- Why there is an edge between two moves: they touch one place, and one of them writes it. -/
def Meet (mt mh : Move) (d : Dependence) : Prop :=
  ∃ memory memory' f₁ f₂ pass, f₁ ∈ touches mt memory ∧ f₂ ∈ touches mh memory' ∧ f₁.place = f₂.place ∧
    (f₁.write ∧ f₂.write = false ∧ d = f₂.place.dep .raw f₂.firm pass ∨
      f₁.write = false ∧ f₂.write ∧ d = f₂.place.dep .war f₁.firm pass ∨
      f₁.write ∧ f₂.write ∧ d = f₂.place.dep .waw false pass)

/-- An edge of a built graph is about an operation, or its two moves meet. -/
theorem Drawn.link_cases (hd : p.Drawn machine g) (hl : g.link? e = some l) :
    l.dep = .operation ∨
      ∃ mt mh, g.move? l.tail = some mt ∧ g.move? l.head = some mh ∧ Meet mt mh l.dep := by
  rcases (hd.arc _ _ _).1 (Arc.of_link hl (hd.unbroken e l hl).1) with hflow | ⟨hop, -⟩
  · obtain ⟨a, b, f1, f2, pass, ha, hb, hf1, hf2, hplace, hdep⟩ := exists_uses_of_mem_edges hflow
    obtain ⟨mt, hmt, heqt⟩ := hd.bare ha
    obtain ⟨mh, hmh, heqh⟩ := hd.bare hb
    have htouch {m : Move} {pm : ProgramMove} {f : Effect} (heq : m.bare = p.marked machine pm)
        (hf : f ∈ p.uses machine pm) : f ∈ touches m ((p.target pm).bind OperationDecl.memory) := by
      rw [uses, ← heq] at hf
      exact hf
    exact .inr ⟨mt, mh, hmt, hmh, _, _, f1, f2, pass, htouch heqt hf1, htouch heqh hf2, hplace, hdep⟩
  · exact .inl hop

theorem Meet.isPseudo (h : Meet mt mh d) : d.isPseudo = false := by
  obtain ⟨_, _, f1, f2, pass, -, -, -, ⟨-, -, rfl⟩ | ⟨-, -, rfl⟩ | ⟨-, -, rfl⟩⟩ := h
  all_goals cases f2.place <;> rfl

/-- A move that touches a register names it. -/
theorem regAt?_of_touches {m : Move} {memory : Option MemoryAccess} {f : Effect} {r : Reg}
    (hf : f ∈ touches m memory) (hplace : f.place = .register r) :
    m.regAt? (if f.write then .dest else if f.firm then .guard else .source) = some r := by
  rcases mem_touches.1 hf with ⟨_, h, rfl⟩ | ⟨_, h, rfl⟩ | ⟨_, h, rfl⟩ | ⟨-, rfl⟩ | ⟨-, rfl⟩ | ⟨-, _, -, rfl⟩
  all_goals simp_all [Move.regAt?, Effect.firm, Terminal.reg?]

/-- A value travels from a write of a register to a read. -/
theorem Meet.raw (h : Meet mt mh d) (hraw : d.isRaw) : ∃ r, d.reg? = some r ∧
    mt.dst = .register r ∧ (d.guardUse = false → mh.src = .register r) ∧
      (d.guardUse → mh.guardFile = some r.file) := by
  obtain ⟨_, _, f1, f2, pass, h1, h2, hplace, ⟨hw1, hw2, rfl⟩ | ⟨-, -, rfl⟩ | ⟨-, -, rfl⟩⟩ := h
  · cases hq : f2.place with
    | register r =>
      have htail := Move.holds_of_regAt? (regAt?_of_touches h1 (hplace.trans hq))
      have hhead := Move.holds_of_regAt? (regAt?_of_touches h2 hq)
      rw [hw1] at htail
      rw [hw2] at hhead
      refine ⟨r, by simp [Place.dep, Dependence.register], htail, fun hg => ?_, fun hg => ?_⟩
      all_goals
        have hfirm : f2.firm = _ := hg
        simpa [hfirm, Move.Holds] using hhead
    | returnAddress => simp [hq, Place.dep, Dependence.isRaw] at hraw
    | memory => simp [hq, Place.dep, Dependence.isRaw] at hraw
  all_goals cases hq : f2.place <;> simp [hq, Place.dep, Dependence.isRaw, Dependence.register] at hraw

/-- A later write after a guard read is about the register of the guard. -/
theorem Meet.guard (h : Meet mt mh d) (hwar : d.hazard = .war) (hguard : d.guardUse) :
    ∃ r, d.reg? = some r ∧ mt.guardFile = some r.file := by
  obtain ⟨_, _, f1, f2, pass, h1, -, hplace, ⟨-, -, rfl⟩ | ⟨hread, -, rfl⟩ | ⟨-, -, rfl⟩⟩ := h
  · cases hq : f2.place <;> simp [hq, Place.dep, Dependence.register] at hwar
  · cases hq : f2.place with
    | register r =>
      have htail := Move.holds_of_regAt? (regAt?_of_touches h1 (hplace.trans hq))
      have hfirm : f1.firm = true := by simpa [hq, Place.dep, Dependence.register] using hguard
      refine ⟨r, by simp [Place.dep, Dependence.register], ?_⟩
      simpa [hread, hfirm, Move.Holds] using htail
    | returnAddress =>
      rw [hq] at hplace
      simp [hq, Place.dep, Effect.firm, hplace] at hguard
    | memory => simp [hq, Place.dep] at hguard
  · cases hq : f2.place <;> simp [hq, Place.dep, Dependence.register] at hwar

theorem Drawn.tagged (hd : p.Drawn machine g) : g.Tagged := by
  refine ⟨fun {e l} hl => ?_, fun {e l} hl _ hraw => ?_⟩
  · rcases hd.link_cases hl with hop | ⟨mt, mh, hmt, -, hmeet⟩
    · rw [TagOk, hop]
      exact ⟨rfl, by simp [Dependence.operation]⟩
    · refine ⟨hmeet.isPseudo, fun _ hwar hguard => ?_⟩
      obtain ⟨r, hr, hfile⟩ := hmeet.guard hwar hguard
      exact ⟨r, mt, hr, hmt, hfile⟩
  · rcases hd.link_cases hl with hop | ⟨mt, mh, hmt, hmh, hmeet⟩
    · rw [hop] at hraw
      cases hraw
    · obtain ⟨r, hr, hdst, hsrc, hguard⟩ := hmeet.raw hraw
      exact ⟨r, mt, mh, hr, hmt, hmh, hdst, hsrc, hguard⟩

theorem Drawn.loopless (hd : p.Drawn machine g) : g.Loopless := by
  intro e l hl hlive hback hself
  rcases (hd.arc _ _ _).1 (Arc.of_link hl hlive) with hflow | ⟨hop, -⟩
  · have hlt := lt_of_mem_edges hflow (by simpa [Dependence.isBack] using hback)
    rw [hself] at hlt
    exact absurd hlt (Nat.lt_irrefl _)
  · rw [hop]
    rfl

/-- The scheduler finds a built graph in order. -/
theorem upheld_of_graph (h : p.graph machine = .ok g) : Upheld machine g g := by
  obtain ⟨hformed, hfresh⟩ := graph_formed h
  have hd := graph_drawn h
  have hoff (n : MoveId) : g.cycleOf n = none := by
    cases hm : g.move? n with
    | none => simp [Graph.cycleOf, hm]
    | some m => simp [Graph.cycleOf, hm, Move.cycle?, hfresh.pending hm]
  refine ⟨hformed.toMatched, hd.linked, hd.tagged, .refl, hd.loopless, fun n c hc => ?_, fun {n c} hc => ?_,
    fun ho => ho.link, fun hm ho => ⟨_, hm, ho⟩⟩
  all_goals
    rw [hoff] at hc
    cases hc

end Transport.Program
