import Transport.Proofs.Dependence.Tags
import Transport.Proofs.Dependence.Timing
import Transport.Proofs.Renaming.Edges

/-!
# A range under another name

The value that a range's write produces reaches the reads of the range and no other move. So when
the whole range gets another register, the tags stay true. `Relocates` is what a renaming that took
place tells, and `Separates` is about the edges that keep the range apart from other lifetimes.
-/

namespace Transport

theorem Terminal.reg?_eq_some {t : Terminal} {r : Reg} : t.reg? = some r ↔ t = .register r := by
  cases t <;> simp [Terminal.reg?]

/-- The register stands in the move in the given role; of a guard, only the file counts. -/
def Move.Holds (m : Move) (r : Reg) : Role → Prop
  | .dest => m.dst = .register r
  | .source => m.src = .register r
  | .guard => m.guardFile = some r.file

theorem Move.holds_of_regAt? {m : Move} {r : Reg} {role : Role} (h : m.regAt? role = some r) :
    m.Holds r role := by
  cases role with
  | dest => exact Terminal.reg?_eq_some.1 h
  | source => exact Terminal.reg?_eq_some.1 h
  | guard =>
    obtain ⟨guard, hg, rfl⟩ := Option.map_eq_some_iff.1 h
    simp [Move.Holds, Move.guardFile, hg]

theorem LiveRange.mem_moves_of_mem {range : LiveRange} {role : Role} {n : MoveId}
    (h : n ∈ range.inRole role) : n ∈ range.moves := by
  simp only [LiveRange.moves, List.mem_append, Std.ExtTreeSet.mem_toList]
  cases role with
  | dest => exact .inl (.inl h)
  | source => exact .inl (.inr h)
  | guard => exact .inr h

namespace Graph

variable {g g' : Graph} {n w x : MoveId} {m : Move} {e : EdgeId} {l : Link} {old new r : Reg}
  {range : LiveRange} {role : Role} {start : MoveId × Role} {dest : Bool} {c cycle : Cycle} {d : Dependence}
  {direction : Direction} {f : FileId} {planned : List (MoveId × MoveId × Dependence)} {files : List FileId}
  {machine : Machine} {t h : MoveId} {mode : RenameMode} {undo : RenameRecord} {rn rn' : Renamer}

/-! ## The range -/

theorem mem_single {role' : Role} : x ∈ (LiveRange.single n role).inRole role' ↔ role' = role ∧ x = n := by
  cases role <;> cases role' <;> simp [LiveRange.single, LiveRange.inRole, eq_comm (a := n)]

theorem ranging_single (hm : g.move? n = some m) :
    g.Ranging r (n, role) [] (.single n role) [(decide (role = .dest), n)] := by
  refine ⟨mem_single.2 ⟨rfl, rfl⟩, fun hx => ?_, fun hx => ?_, fun hx => ?_, fun hx => ?_, fun hx => ?_⟩
  · obtain ⟨rfl, rfl⟩ := mem_single.1 hx
    exact .inr (.inl (.head _))
  · obtain ⟨rfl, rfl⟩ := mem_single.1 hx
    exact .inl rfl
  · obtain ⟨rfl, rfl⟩ := mem_single.1 hx
    exact .inl rfl
  · obtain ⟨rfl, rfl⟩ := Prod.mk.inj (List.mem_singleton.1 hx)
    exact ⟨role, rfl, mem_single.2 ⟨rfl, rfl⟩⟩
  · obtain ⟨rfl, rfl⟩ := mem_single.1 hx
    exact lt_of_move? hm

/-- The range that is found from a move is closed. -/
theorem ranging_of_growRange_single (hg : g.Linked) (hm : g.move? n = some m)
    (h : g.growRange r (3 * g.moves.size + 1) [(decide (role = .dest), n)] (.single n role) = some range) :
    g.Ranging r (n, role) [] range [] := by
  refine ranging_of_growRange hg (ranging_single hm) ?_ h
  have hcount : (LiveRange.single n role).count = 1 := by
    cases role <;> simp [LiveRange.single, LiveRange.count, Std.ExtTreeSet.size_insert]
  rw [hcount]
  rfl

theorem ranging_of_liveRange (hg : g.Linked) (h : g.liveRange n role = .ok range)
    (hne : range.writes.toList ≠ []) : ∃ m r, g.move? n = some m ∧ m.regAt? role = some r ∧
      g.Ranging r (n, role) [] range [] := by
  simp only [liveRange, bind_eq_ok] at h
  obtain ⟨m, hm, h⟩ := h
  have hm := move?_of_move hm
  cases hr : m.regAt? role with
  | none =>
    simp only [hr, pure_eq_ok] at h
    subst h
    exact absurd (by simp) hne
  | some r =>
    simp only [hr, pure_eq_ok] at h
    cases hgrow : g.growRange r (3 * g.moves.size + 1) [(decide (role = .dest), n)] (.single n role) with
    | none =>
      simp only [hgrow, Option.getD_none] at h
      subst h
      exact absurd (by simp) hne
    | some lr =>
      simp only [hgrow, Option.getD_some] at h
      subst h
      exact ⟨m, r, hm, hr, ranging_of_growRange_single hg hm hgrow⟩

/-- Every move of the range has the register in its role. -/
theorem Ranging.holds (h : g.Ranging r start [] range []) (hg : g.Linked) (ht : g.Tagged)
    (hstart : ∃ m, g.move? start.1 = some m ∧ m.regAt? start.2 = some r) (hx : x ∈ range.inRole role) :
    ∃ m, g.move? x = some m ∧ m.Holds r role := by
  rcases h.justified hx with rfl | ⟨role', y, l, -, hl, hend⟩
  · obtain ⟨m, hm, hr⟩ := hstart
    exact ⟨m, hm, Move.holds_of_regAt? hr⟩
  · obtain ⟨⟨e, he⟩, hlive, -, hcarries⟩ := (mem_valueEdges hg).1 hl
    obtain ⟨r', mt, mh, htag, hmt, hmh, hdst, hsrc, hguard⟩ :=
      ht.raw he hlive (Dependence.isRaw_of_carries hcarries)
    obtain rfl : r = r' := Option.some.inj ((Dependence.carries_iff.1 hcarries).2.symm.trans htag)
    cases hb : decide (role' = Role.dest) with
    | true =>
      rw [hb] at hend
      obtain ⟨rfl, rfl⟩ := Prod.mk.inj hend
      cases hu : l.dep.guardUse with
      | true => exact ⟨mh, hmh, by simpa [hu, Move.Holds] using hguard hu⟩
      | false => exact ⟨mh, hmh, by simpa [hu, Move.Holds] using hsrc hu⟩
    | false =>
      rw [hb] at hend
      obtain ⟨rfl, rfl⟩ := Prod.mk.inj hend
      exact ⟨mt, hmt, hdst⟩

/-! ## The edges that keep it apart -/

theorem mem_accesses : (x, role) ∈ g.accesses r ↔
    ∃ m, g.move? x = some m ∧ m.live ∧ m.regAt? role = some r := by
  simp only [accesses, List.mem_flatMap, mem_moveIds]
  constructor
  · rintro ⟨y, ⟨m, hm, hlive⟩, hx⟩
    simp only [hm, List.mem_map, List.mem_filter, decide_eq_true_eq, Prod.mk.injEq] at hx
    obtain ⟨role', ⟨-, hr⟩, rfl, rfl⟩ := hx
    exact ⟨m, hm, hlive, hr⟩
  · rintro ⟨m, hm, hlive, hr⟩
    refine ⟨x, ⟨m, hm, hlive⟩, ?_⟩
    simp only [hm]
    exact List.mem_map.2 ⟨role, List.mem_filter.2 ⟨by cases role <;> simp, by simpa using hr⟩, rfl⟩

/-- A step of a walk over accesses that collects their cycles. -/
structure Tallies (g : Graph) (f : Occupation → MoveId × Role → Occupation) : Prop where
  unscheduled (x : MoveId × Role) : f .unscheduled x = .unscheduled
  unplaced (s : Occupation) (x : MoveId × Role) : g.cycleOf x.1 = none → f s x = .unscheduled
  unused {x : MoveId × Role} {c : Cycle} : g.cycleOf x.1 = some c → f .unused x = .span c c
  span {x : MoveId × Role} {c : Cycle} (first last : Cycle) : g.cycleOf x.1 = some c →
    f (.span first last) x = .span (min first c) (max last c)

theorem occupation_eq_foldl : ∃ f, g.Tallies f ∧ g.occupation r = (g.accesses r).foldl f .unused := by
  refine ⟨_, ⟨?_, ?_, ?_, ?_⟩, rfl⟩
  · rintro ⟨n, role⟩
    rfl
  · rintro s ⟨n, role⟩ hc
    simp only [cycleOf] at hc
    cases s <;> simp [hc]
  · rintro ⟨n, role⟩ c hc
    simp only [cycleOf] at hc
    simp [hc]
  · rintro ⟨n, role⟩ c first last hc
    simp only [cycleOf] at hc
    simp [hc]

namespace Tallies

variable {f : Occupation → MoveId × Role → Occupation} {xs : List (MoveId × Role)} {s : Occupation}

theorem foldl_unscheduled (hf : g.Tallies f) : xs.foldl f .unscheduled = .unscheduled := by
  induction xs with
  | nil => rfl
  | cons x xs ih => rw [List.foldl_cons, hf.unscheduled, ih]

theorem span_of_foldl (hf : g.Tallies f) {first last : Cycle} (h : xs.foldl f s = .span first last) :
    (∀ a b, s = .span a b → first ≤ a ∧ b ≤ last) ∧
      ∀ x ∈ xs, ∃ c, g.cycleOf x.1 = some c ∧ first ≤ c ∧ c ≤ last := by
  induction xs generalizing s with
  | nil =>
    simp only [List.foldl_nil] at h
    subst h
    refine ⟨?_, by simp⟩
    rintro a b ⟨⟩
    exact ⟨Int.le_refl _, Int.le_refl _⟩
  | cons x xs ih =>
    rw [List.foldl_cons] at h
    obtain ⟨hs, hall⟩ := ih h
    cases hc : g.cycleOf x.1 with
    | none => rw [hf.unplaced s x hc, hf.foldl_unscheduled] at h; cases h
    | some c =>
      cases s with
      | unscheduled => rw [hf.unscheduled, hf.foldl_unscheduled] at h; cases h
      | unused =>
        obtain ⟨hfirst, hlast⟩ := hs c c (hf.unused hc)
        refine ⟨by simp, fun y hy => ?_⟩
        rcases List.mem_cons.1 hy with rfl | hy
        · exact ⟨c, hc, hfirst, hlast⟩
        · exact hall y hy
      | span a b =>
        obtain ⟨hfirst, hlast⟩ := hs _ _ (hf.span a b hc)
        refine ⟨?_, fun y hy => ?_⟩
        · rintro _ _ ⟨⟩
          lia
        · rcases List.mem_cons.1 hy with rfl | hy
          · exact ⟨c, hc, by lia, by lia⟩
          · exact hall y hy

theorem nil_of_foldl_unused (hf : g.Tallies f) (h : xs.foldl f s = .unused) : xs = [] ∧ s = .unused := by
  induction xs generalizing s with
  | nil => exact ⟨rfl, h⟩
  | cons x xs ih =>
    obtain ⟨-, hs⟩ := ih h
    cases hc : g.cycleOf x.1 with
    | none => rw [hf.unplaced s x hc] at hs; cases hs
    | some c =>
      cases s with
      | unscheduled => rw [hf.unscheduled] at hs; cases hs
      | unused => rw [hf.unused hc] at hs; cases hs
      | span a b => rw [hf.span a b hc] at hs; cases hs

end Tallies

/-- The edge from `t` to `h` keeps a range with the write `w` apart from another lifetime of its new
register `r`. Whichever moves of the two are placed are in order already. -/
structure Separates (g : Graph) (direction : Direction) (w : MoveId) (r : Reg) (t h : MoveId)
    (d : Dependence) : Prop where
  ne : t ≠ h
  reason : d.reason = .register
  reg : d.reg? = some r
  hazard : d.hazard = .war ∨ d.hazard = .waw
  pseudo : d.isPseudo = false
  back : d.isBack = false
  guard : d.guardUse → d.hazard = .war ∧ ∃ m, g.move? t = some m ∧ m.guardFile = some r.file
  apart : ∀ ct ch, g.cycleOf t = some ct → g.cycleOf h = some ch → ct < ch
  early : direction = .topDown → h = w ∧ ∃ c, g.cycleOf t = some c
  late : direction = .bottomUp → ∃ c, g.cycleOf h = some c

theorem Separates.raw (hs : g.Separates direction w r t h d) : d.hazard ≠ .raw := by
  rcases hs.hazard with hh | hh <;> simp [hh]

theorem mem_placedAccesses : (x, c) ∈ g.placedAccesses r role ↔
    (x, role) ∈ g.accesses r ∧ g.cycleOf x = some c := by
  simp only [placedAccesses, List.mem_filterMap, List.mem_filter, decide_eq_true_eq,
    Option.map_eq_some_iff, Prod.mk.injEq]
  constructor
  · rintro ⟨⟨y, role'⟩, ⟨hy, rfl⟩, c', hc, rfl, rfl⟩
    exact ⟨hy, hc⟩
  · rintro ⟨hx, hc⟩
    exact ⟨(x, role), ⟨hx, rfl⟩, c, hc, rfl, rfl⟩

theorem access_of_mem {p : MoveId × Cycle → Bool} (h : x ∈ ((g.placedAccesses r role).filter p).map Prod.fst) :
    (x, role) ∈ g.accesses r := by
  obtain ⟨⟨y, c⟩, hy, rfl⟩ := List.mem_map.1 h
  exact (mem_placedAccesses.1 (List.mem_filter.1 hy).1).1

theorem anyCycle_eq_false {p : Cycle → Bool} (h : g.anyCycle range p = .ok false)
    (hx : x ∈ range.inRole role) (hc : g.cycleOf x = some c) : p c = false := by
  obtain ⟨m, hm, hc⟩ := cycleOf_eq_some.1 hc
  have hp := of_move_bind hm (anyM_eq_false.1 h x (LiveRange.mem_moves_of_mem hx))
  simpa [hc, pure_eq_ok] using hp

/-- A direction and how a renaming in it may share a register. -/
def Suits (direction : Direction) (mode : RenameMode) : Prop :=
  (mode = .reuseBefore → direction = .topDown) ∧ (mode = .reuseAfter → direction = .bottomUp)

/-- The dependence that puts a lifetime of `r` behind an access of another one in the given role. -/
def behind (r : Reg) : Role → Dependence
  | .dest => .register .waw r
  | .source => .register .war r
  | .guard => { Dependence.register .war r with guardUse := true }

theorem separates_behind (hne : t ≠ h)
    (hguard : role = .guard → ∃ m, g.move? t = some m ∧ m.guardFile = some r.file)
    (hapart : ∀ ct ch, g.cycleOf t = some ct → g.cycleOf h = some ch → ct < ch)
    (hearly : direction = .topDown → h = w ∧ ∃ c, g.cycleOf t = some c)
    (hlate : direction = .bottomUp → ∃ c, g.cycleOf h = some c) : g.Separates direction w r t h (behind r role) := by
  cases role with
  | dest => exact ⟨hne, rfl, rfl, .inr rfl, rfl, rfl, nofun, hapart, hearly, hlate⟩
  | source => exact ⟨hne, rfl, rfl, .inl rfl, rfl, rfl, nofun, hapart, hearly, hlate⟩
  | guard => exact ⟨hne, rfl, rfl, .inl rfl, rfl, rfl, fun _ => ⟨rfl, hguard rfl⟩, hapart, hearly, hlate⟩

theorem mem_edgesBehind : (t, h, d) ∈ g.edgesBehind w r ↔ ∃ role,
    (role ≠ .dest ∧ t ∈ g.lastReads r role ∨ role = .dest ∧ t ∈ g.lastWrites r) ∧ h = w ∧ d = behind r role := by
  simp only [edgesBehind, List.mem_append, List.mem_map, Prod.mk.injEq]
  constructor
  · rintro ((⟨_, ht, rfl, rfl, rfl⟩ | ⟨_, ht, rfl, rfl, rfl⟩) | ⟨_, ht, rfl, rfl, rfl⟩)
    · exact ⟨.source, .inl ⟨nofun, ht⟩, rfl, rfl⟩
    · exact ⟨.guard, .inl ⟨nofun, ht⟩, rfl, rfl⟩
    · exact ⟨.dest, .inr ⟨rfl, ht⟩, rfl, rfl⟩
  · rintro ⟨role, ⟨hrole, ht⟩ | ⟨rfl, ht⟩, rfl, rfl⟩
    · cases role with
      | dest => exact absurd rfl hrole
      | source => exact .inl (.inl ⟨t, ht, rfl, rfl, rfl⟩)
      | guard => exact .inl (.inr ⟨t, ht, rfl, rfl, rfl⟩)
    · exact .inr ⟨t, ht, rfl, rfl, rfl⟩

theorem access_of_mem_edgesBehind (hd : (t, h, d) ∈ g.edgesBehind w r) :
    ∃ role, (t, role) ∈ g.accesses r ∧ h = w ∧ d = behind r role := by
  obtain ⟨role, ⟨-, ht⟩ | ⟨rfl, ht⟩, hd⟩ := mem_edgesBehind.1 hd
  · exact ⟨role, access_of_mem ht, hd⟩
  · exact ⟨.dest, access_of_mem ht, hd⟩

theorem mem_edgesBefore (hw : range.writes.toList = [w]) : (t, h, d) ∈ g.edgesBefore range w r ↔
    ∃ role, t ∈ range.inRole role ∧ h ∈ g.firstWrites r ∧ d = behind r role := by
  simp only [edgesBefore, List.mem_flatMap, List.mem_append, List.mem_map, List.mem_cons,
    List.cons_append, Prod.mk.injEq, Std.ExtTreeSet.mem_toList]
  constructor
  · rintro ⟨h', hh, ⟨rfl, rfl, rfl⟩ | ⟨_, ht, rfl, rfl, rfl⟩ | ⟨_, ht, rfl, rfl, rfl⟩⟩
    · exact ⟨.dest, (LiveRange.mem_dest hw).2 rfl, hh, rfl⟩
    · exact ⟨.source, ht, hh, rfl⟩
    · exact ⟨.guard, ht, hh, rfl⟩
  · rintro ⟨role, ht, hh, rfl⟩
    refine ⟨h, hh, ?_⟩
    cases role with
    | dest => exact .inl ⟨(LiveRange.mem_dest hw).1 ht, rfl, rfl⟩
    | source => exact .inr (.inl ⟨t, ht, rfl, rfl, rfl⟩)
    | guard => exact .inr (.inr ⟨t, ht, rfl, rfl, rfl⟩)

/-- The accesses of `r` are placed, all on one side of whatever is placed of the range. -/
def Beside (g : Graph) (side : Cycle → Cycle → Prop) (range : LiveRange) (r : Reg) : Prop :=
  ∀ x role, (x, role) ∈ g.accesses r → ∃ c, g.cycleOf x = some c ∧
    ∀ role y cy, y ∈ range.inRole role → g.cycleOf y = some cy → side c cy

theorem separates_of_edgesBehind (hne : t ≠ h) (hw : range.writes.toList = [w])
    (hd : (t, h, d) ∈ g.edgesBehind w r) (hspan : g.Beside (· < ·) range r) : g.Separates .topDown w r t h d := by
  obtain ⟨role, ht, rfl, rfl⟩ := access_of_mem_edgesBehind hd
  obtain ⟨c, hc, hlt⟩ := hspan t role ht
  refine separates_behind hne ?_ (fun ct ch hct hch => ?_) (fun _ => ⟨rfl, c, hc⟩) (by simp)
  · rintro rfl
    obtain ⟨m, hm, -, hr⟩ := mem_accesses.1 ht
    exact ⟨m, hm, Move.holds_of_regAt? hr⟩
  · rw [hc] at hct
    cases hct
    exact hlt .dest h ch ((LiveRange.mem_dest hw).2 rfl) hch

theorem separates_of_edgesBefore (hne : t ≠ h) (hw : range.writes.toList = [w])
    (hguards : ∀ x ∈ range.inRole .guard, ∃ m, g.move? x = some m ∧ m.guardFile = some r.file)
    (hd : (t, h, d) ∈ g.edgesBefore range w r) (hspan : g.Beside (· > ·) range r) :
    g.Separates .bottomUp w r t h d := by
  obtain ⟨role, ht, hh, rfl⟩ := (mem_edgesBefore hw).1 hd
  obtain ⟨c, hc, hlt⟩ := hspan h .dest (access_of_mem hh)
  refine separates_behind hne (fun hrole => hguards t (hrole ▸ ht)) (fun ct ch hct hch => ?_) (by simp)
    fun _ => ⟨c, hc⟩
  rw [hc] at hch
  cases hch
  exact hlt role t ct ht hct

/-- The register is free, or all its lifetimes are placed within a span that the range does not overlap with. -/
theorem spanned_of_occupation {p : Cycle → Cycle → Cycle → Bool} {ys : List (MoveId × MoveId × Dependence)}
    (h : (do
      let overlaps ← match g.occupation r with
        | .unused => pure false
        | .unscheduled => pure true
        | .span first last => g.anyCycle range (p first last)
      return if overlaps then none else some ys : Checked (Option _)) = .ok (some planned)) : planned = ys ∧
      ∀ x role, (x, role) ∈ g.accesses r → ∃ c first last, g.cycleOf x = some c ∧ first ≤ c ∧ c ≤ last ∧
        ∀ role y cy, y ∈ range.inRole role → g.cycleOf y = some cy → p first last cy = false := by
  obtain ⟨f, hf, heq⟩ := occupation_eq_foldl (g := g) (r := r)
  cases hocc : g.occupation r with
  | unused =>
    simp only [hocc, bind_eq_ok, pure_eq_ok, exists_eq_left', Bool.false_eq_true, if_false, Option.some.injEq] at h
    refine ⟨h.symm, fun x role hx => ?_⟩
    rw [(hf.nil_of_foldl_unused (heq.symm.trans hocc)).1] at hx
    cases hx
  | unscheduled => simp [hocc] at h
  | span first last =>
    simp only [hocc, bind_eq_ok, pure_eq_ok] at h
    obtain ⟨overlaps, hover, h⟩ := h
    cases overlaps with
    | true => simp at h
    | false =>
      refine ⟨(Option.some.inj h).symm, fun x role hx => ?_⟩
      obtain ⟨c, hc, hfirst, hlast⟩ := (hf.span_of_foldl (heq.symm.trans hocc)).2 (x, role) hx
      exact ⟨c, first, last, hc, hfirst, hlast, fun role y cy => anyCycle_eq_false hover⟩

/-- What is settled once the edges that keep a range apart are known: the lifetimes of the register
are all on one side of whatever is placed of the range. -/
theorem separatingEdges_eq_some (h : g.separatingEdges rn range w r mode = .ok (some planned)) :
    (mode = .free ∧ planned = []) ∨
      (mode = .reuseBefore ∧ planned = g.edgesBehind w r ∧ g.Beside (· < ·) range r) ∨
      (mode = .reuseAfter ∧ rn.lifetimes.isLiveIn r = false ∧ planned = g.edgesBefore range w r ∧
        g.Beside (· > ·) range r) := by
  cases mode with
  | free =>
    simp only [separatingEdges, pure_eq_ok, Option.some.injEq] at h
    exact .inl ⟨rfl, h.symm⟩
  | reuseBefore =>
    refine .inr (.inl ⟨rfl, ?_⟩)
    simp only [separatingEdges] at h
    obtain ⟨hplanned, hspan⟩ := spanned_of_occupation (p := fun _ last => (· ≤ last)) h
    refine ⟨hplanned, fun x role hx => ?_⟩
    obtain ⟨c, first, last, hc, -, hle, hapart⟩ := hspan x role hx
    refine ⟨c, hc, fun role y cy hy hcy => ?_⟩
    have := of_decide_eq_false (hapart role y cy hy hcy)
    lia
  | reuseAfter =>
    refine .inr (.inr ⟨rfl, ?_⟩)
    simp only [separatingEdges] at h
    split at h
    · simp at h
    rename_i hin
    refine ⟨by simpa using hin, ?_⟩
    obtain ⟨hplanned, hspan⟩ := spanned_of_occupation (p := fun first _ => (first ≤ ·)) h
    refine ⟨hplanned, fun x role hx => ?_⟩
    obtain ⟨c, first, last, hc, hle, -, hapart⟩ := hspan x role hx
    refine ⟨c, hc, fun role y cy hy hcy => ?_⟩
    have := of_decide_eq_false (hapart role y cy hy hcy)
    lia

theorem separates_of_separatingEdges (hsuits : Suits direction mode) (hw : range.writes.toList = [w])
    (hguards : ∀ x ∈ range.inRole .guard, ∃ m, g.move? x = some m ∧ m.guardFile = some r.file)
    (hplanned : g.separatingEdges rn range w r mode = .ok (some planned)) (hne : t ≠ h)
    (hd : (t, h, d) ∈ planned) : g.Separates direction w r t h d := by
  rcases separatingEdges_eq_some hplanned with ⟨-, rfl⟩ | ⟨hmode, rfl, hspan⟩ | ⟨hmode, -, rfl, hspan⟩
  · cases hd
  · obtain rfl := hsuits.1 hmode
    exact separates_of_edgesBehind hne hw hd hspan
  · obtain rfl := hsuits.2 hmode
    exact separates_of_edgesBefore hne hw hguards hd hspan

/-! ## The renaming -/

/-- The range found from `start`, with the write `w`, is moved from `old` to `new`. -/
structure Relocates (g : Graph) (direction : Direction) (start : MoveId × Role) (range : LiveRange)
    (w : MoveId) (old new : Reg) (g' : Graph) : Prop where
  ranging : g.Ranging old start [] range []
  held : ∃ m, g.move? start.1 = some m ∧ m.regAt? start.2 = some old
  writes : range.writes.toList = [w]
  guards {x : MoveId} : x ∈ range.inRole .guard → new.file = old.file
  placed {role : Role} {x : MoveId} {c : Cycle} : x ∈ range.inRole role → g.cycleOf x = some c →
    new.file = old.file
  guardLatency : ∃ k, g.guardLatency new = .ok k
  renames : ∃ edges, g.Renames range w new edges g' ∧
    ∀ t h d, (t, h, d) ∈ edges → g.Separates direction w new t h d

theorem guardLatency_of_neededEdges {needed : Option (List (MoveId × MoveId × Dependence))}
    (h : g.neededEdges range r planned = .ok needed) : ∃ k, g.guardLatency r = .ok k := by
  simp only [neededEdges, bind_eq_ok] at h
  obtain ⟨k, hk, -⟩ := h
  exact ⟨k, hk⟩

theorem mem_of_neededEdges {needed : List (MoveId × MoveId × Dependence)}
    (h : g.neededEdges range r planned = .ok (some needed)) {hd : MoveId}
    (hx : (t, hd, d) ∈ needed) : (t, hd, d) ∈ planned ∧ t ≠ hd := by
  simp only [neededEdges, bind_eq_ok] at h
  obtain ⟨_, -, _, -, edges, hedges, closes, -, h⟩ := h
  split at h
  · simp at h
  simp only [pure_eq_ok, Option.some.injEq] at h
  subst h
  obtain ⟨hmem, hneeds⟩ := (mem_of_filterM_eq_ok hedges).1 hx
  refine ⟨hmem, ?_⟩
  rintro rfl
  simp [needsEdge] at hneeds

theorem movable_eq_some (h : Renamer.movable g range = .ok (some (w, old))) :
    range.writes.toList = [w] ∧ range.reads.isEmpty = false ∧
      ∃ m, g.move? w = some m ∧ m.dst = .register old ∧ m.guard = none ∧
        g.leavesRegion w old = false := by
  unfold Renamer.movable at h
  split at h
  case h_2 => simp at h
  rename_i w' hw
  split at h
  · simp at h
  rename_i hreads
  simp only [bind_eq_ok] at h
  obtain ⟨m, hm, h⟩ := h
  cases hr : m.dst.reg? with
  | none => simp [hr] at h
  | some r =>
    simp only [hr, pure_eq_ok] at h
    split at h
    case isFalse => cases h
    rename_i hcond
    obtain ⟨rfl, rfl⟩ := Prod.mk.inj (Option.some.inj h)
    simp only [Bool.and_eq_true, Bool.not_eq_true'] at hcond
    exact ⟨hw, by simpa using hreads, m, move?_of_move hm, Terminal.reg?_eq_some.1 hr,
      by simpa [Move.isUnguarded] using hcond.1, hcond.2⟩

theorem Renamer.rename_eq_some
    (h : rn.rename g range new mode = .ok (some (undo, rn', g'))) :
    ∃ w old planned needed us, Renamer.movable g range = .ok (some (w, old)) ∧
      rn.admits range old new mode ∧ g.separatingEdges rn range w new mode = .ok (some planned) ∧
      g.neededEdges range new planned = .ok (some needed) ∧
      g.applyRename range new needed = .ok (g', us) ∧
      undo = ⟨old, new, range.roles, us, rn.membership new, rn.lifetimes.regs[new]?⟩ ∧
      rn' = rn.take range new mode := by
  simp only [Renamer.rename, bind_eq_ok] at h
  obtain ⟨x, hmov, h⟩ := h
  cases x with
  | none => simp at h
  | some x =>
    dsimp only at h
    split at h
    case isFalse => simp at h
    rename_i hadmits
    simp only [bind_eq_ok] at h
    obtain ⟨y, hplanned, h⟩ := h
    cases y with
    | none => simp at h
    | some planned =>
      simp only [bind_eq_ok] at h
      obtain ⟨z, hneeded, h⟩ := h
      cases z with
      | none => simp at h
      | some needed =>
        simp only [bind_eq_ok, pure_eq_ok, Option.some.injEq, Prod.mk.injEq] at h
        obtain ⟨⟨g1, us⟩, happly, hundo, hrn, hg'⟩ := h
        exact ⟨x.1, x.2, planned, needed, us, hmov, hadmits, hplanned, hneeded, hg' ▸ happly,
          hundo.symm, hrn.symm⟩

theorem relocates_of_rename (hg : g.Linked) (ht : g.Tagged) (hsuits : Suits direction mode)
    (hranging : g.Ranging old start [] range [])
    (hheld : ∃ m, g.move? start.1 = some m ∧ m.regAt? start.2 = some old)
    (hplaced : ∀ role x c, x ∈ range.inRole role → g.cycleOf x = some c → new.file = old.file)
    (h : rn.rename g range new mode = .ok (some (undo, rn', g'))) :
    ∃ w, g.Relocates direction start range w old new g' := by
  obtain ⟨w, old', planned, needed, us, hmov, hadmits, hplan, hneed, happly, -, -⟩ := Renamer.rename_eq_some h
  obtain ⟨hw, -, m, hm, hdst, -⟩ := movable_eq_some hmov
  obtain rfl : old' = old := by
    have hold := of_some (hranging.holds hg ht hheld ((LiveRange.mem_dest hw).2 rfl)) hm
    exact Terminal.register.inj (hdst.symm.trans hold)
  simp only [Renamer.admits, Bool.and_eq_true, Bool.or_eq_true, decide_eq_true_eq] at hadmits
  have hfile {x : MoveId} (hx : x ∈ range.inRole .guard) : new.file = old'.file := by
    rcases hadmits.1.2 with hempty | hfile
    · rw [Std.ExtTreeSet.isEmpty_iff] at hempty
      simp [LiveRange.inRole, hempty] at hx
    · exact hfile
  obtain ⟨g1, g2, g3, hrelabels⟩ := relabels_of_applyRename hg hw happly
  refine ⟨w, hranging, hheld, hw, hfile, hplaced _ _ _,
    guardLatency_of_neededEdges hneed, needed, hrelabels.renames, fun t h d hd => ?_⟩
  obtain ⟨hplanned, hne⟩ := mem_of_neededEdges hneed hd
  refine separates_of_separatingEdges hsuits hw (fun x hx => ?_) hplan hne hplanned
  obtain ⟨m', hm', hold⟩ := hranging.holds hg ht hheld hx
  exact ⟨m', hm', by rw [hfile hx]; exact hold⟩

theorem file_of_mem_reusable (h : (r, mode) ∈ rn.reusable g cycle direction f) :
    r.file = f ∧ Suits direction mode := by
  cases direction with
  | topDown =>
    obtain ⟨_, hr, heq⟩ := List.mem_map.1 h
    obtain ⟨rfl, rfl⟩ := Prod.mk.inj heq
    refine ⟨?_, by simp [Suits]⟩
    simp only [Renamer.reusableBefore] at hr
    split at hr
    · cases hr
    · simp only [List.mem_filter, Renamer.reusableIn, Renamer.inFile, decide_eq_true_eq] at hr
      exact hr.1.1.2
  | bottomUp =>
    obtain ⟨_, hr, heq⟩ := List.mem_map.1 h
    obtain ⟨rfl, rfl⟩ := Prod.mk.inj heq
    refine ⟨?_, by simp [Suits]⟩
    simp only [Renamer.reusableAfter, List.mem_filter, Renamer.reusableIn, Renamer.inFile,
      decide_eq_true_eq] at hr
    exact hr.1.1.2

section

variable (hw : range.writes.toList = [w]) (hm : g.move? w = some m) (hdst : m.dst = .register old)
include hw hm hdst

theorem file_of_mem_fileOf {own : Option FileId} (hown : g.fileOf range = .ok own)
    (hf : f ∈ own.toList) : f = old.file := by
  simp only [fileOf, hw, List.head?_cons] at hown
  have hown := of_move_bind hm hown
  rw [← pure_eq_ok.1 hown] at hf
  simpa [hdst, Terminal.reg?] using hf

variable (hfiles : rn.filesFor machine g range = .ok files) (hf : f ∈ files)
include hfiles hf

/-- A range with a placed move is looked for a register in its own file only. -/
theorem file_of_mem_filesFor (hx : x ∈ range.inRole role) (hc : g.cycleOf x = some c) :
    f = old.file := by
  simp only [Renamer.filesFor, bind_eq_ok] at hfiles
  obtain ⟨any, hany, h⟩ := hfiles
  cases any with
  | false =>
    obtain ⟨m', hm', hc⟩ := cycleOf_eq_some.1 hc
    have hp := of_move_bind hm' (anyM_eq_false.1 hany x (LiveRange.mem_moves_of_mem hx))
    rw [Move.isPlaced_of_cycle? hc] at hp
    cases hp
  | true =>
    simp only [if_true, bind_eq_ok, pure_eq_ok] at h
    obtain ⟨own, hown, rfl⟩ := h
    exact file_of_mem_fileOf hw hm hdst hown hf

/-- A range is looked for a register in its own file and in files without forced bypasses. -/
theorem unforced_of_mem_filesFor : f = old.file ∨ f ∉ machine.forcedFiles := by
  simp only [Renamer.filesFor, bind_eq_ok] at hfiles
  obtain ⟨any, -, h⟩ := hfiles
  cases any with
  | true =>
    simp only [if_true, bind_eq_ok, pure_eq_ok] at h
    obtain ⟨own, hfile, rfl⟩ := h
    exact .inl (file_of_mem_fileOf hw hm hdst hfile hf)
  | false =>
    simp only [Bool.false_eq_true, if_false, connectedFiles, bind_eq_ok] at h
    obtain ⟨own, hfile, h⟩ := h
    split at h
    · simp only [bind_eq_ok, pure_eq_ok] at h
      obtain ⟨reachable, hreach, rfl⟩ := h
      rcases List.mem_append.1 hf with hf | hf
      · exact .inl (file_of_mem_fileOf hw hm hdst hfile hf)
      · have hother := ((mem_of_filterM_eq_ok hreach).1 hf).1
        simp only [List.mem_filter, Bool.and_eq_true, Option.any_eq_true, Bool.not_eq_true'] at hother
        obtain ⟨-, -, file, hfile, hfree⟩ := hother
        refine .inr fun hforced => ?_
        simp [Machine.forcedFiles, hfile, hfree] at hforced
    · exact .inl (file_of_mem_fileOf hw hm hdst hfile (pure_eq_ok.1 h ▸ hf))

end

/-- A renaming at a move gives the live range there, which has one write, another register. -/
theorem rename_of_renameAt (h : rn.renameAt machine g n dest cycle direction = .ok (some (undo, rn', g'))) :
    ∃ range w files new mode, g.liveRange n (if dest then .dest else .source) = .ok range ∧
      range.writes.toList = [w] ∧ rn.filesFor machine g range = .ok files ∧ new.file ∈ files ∧
      Suits direction mode ∧ rn.rename g range new mode = .ok (some (undo, rn', g')) := by
  simp only [Renamer.renameAt, bind_eq_ok] at h
  obtain ⟨m0, -, h⟩ := h
  generalize (if dest then Role.dest else .source) = role at h ⊢
  split at h
  · simp at h
  simp only [bind_eq_ok] at h
  obtain ⟨range, hrange, h⟩ := h
  simp only [Renamer.renameSomewhere] at h
  split at h
  · simp at h
  rename_i hsize
  simp only [bind_eq_ok] at h
  obtain ⟨own, -, h⟩ := h
  split at h
  · simp at h
  simp only [bind_eq_ok] at h
  obtain ⟨files, hfiles, h⟩ := h
  obtain ⟨⟨new, mode⟩, hmem, hrename⟩ := findSomeM?_eq_some h
  obtain ⟨w, hw⟩ : ∃ w, range.writes.toList = [w] := by
    simp only [Bool.or_eq_true, decide_eq_true_eq, not_or, ne_eq, not_not] at hsize
    rw [← Std.ExtTreeSet.length_toList] at hsize
    exact List.length_eq_one_iff.1 hsize.1
  have hnew : new.file ∈ files ∧ Suits direction mode := by
    simp only [List.mem_append, List.mem_flatMap, List.mem_map, Prod.mk.injEq] at hmem
    rcases hmem with ⟨f, hf, hreg⟩ | ⟨f, hf, _, hreg, rfl, rfl⟩
    · obtain ⟨rfl, hsuits⟩ := file_of_mem_reusable hreg
      exact ⟨hf, hsuits⟩
    · simp only [Renamer.freeIn, Renamer.inFile, List.mem_filter, decide_eq_true_eq] at hreg
      exact ⟨hreg.1.2 ▸ hf, by simp [Suits]⟩
  exact ⟨range, w, files, new, mode, hrange, hw, hfiles, hnew.1, hnew.2, hrename⟩

theorem relocates_of_renameAt (hg : g.Linked) (ht : g.Tagged)
    (h : rn.renameAt machine g n dest cycle direction = .ok (some (undo, rn', g'))) :
    ∃ range w old new,
      g.Relocates direction (n, if dest then .dest else .source) range w old new g' ∧
        (new.file = old.file ∨ new.file ∉ machine.forcedFiles) := by
  obtain ⟨range, w, files, new, mode, hrange, hw, hfiles, hfile, hsuits, hrename⟩ := rename_of_renameAt h
  obtain ⟨m, old, hm, hr, hranging⟩ := ranging_of_liveRange hg hrange (by simp [hw])
  have hheld : ∃ m, g.move? n = some m ∧ m.regAt? (if dest then .dest else .source) = some old :=
    ⟨m, hm, hr⟩
  obtain ⟨mw, hmw, hold⟩ := hranging.holds hg ht hheld ((LiveRange.mem_dest hw).2 rfl)
  have hplaced : ∀ role x c, x ∈ range.inRole role → g.cycleOf x = some c → new.file = old.file :=
    fun role x c hx hc => file_of_mem_filesFor hw hmw hold hfiles hfile hx hc
  obtain ⟨w', hrel⟩ := relocates_of_rename hg ht hsuits hranging hheld hplaced hrename
  exact ⟨range, w', old, new, hrel, unforced_of_mem_filesFor hw hmw hold hfiles hfile⟩

end Graph

end Transport
