import Transport.Proofs.Scheduling.Tags

/-!
# Lifetimes that share a register

A renamed range may get a register that other moves access. Either all of these accesses are over when
the range is written, or none of the writes among them happens before the range is read for the last
time: `Distinct`. A renaming sees to it with few edges. It orders the range against the last, or the
first, lifetime of the register only, and it leaves out what the places of moves imply already. Every
other access is on the right side because of the cycle of a certain write.
-/

namespace Transport

/-! ## Registers that a block does not access -/

namespace Lifetime

variable {u : Lifetime} {n : MoveId}

theorem defines_write {isKill : Bool} : (u.write n isKill).defines.isEmpty = false := by
  cases isKill <;> simp [write]

end Lifetime

namespace Lifetimes

variable {l : Lifetimes} {g : Graph} {n : MoveId} {m : Move} {r s : Reg} {role : Role} {isKill : Bool}

/-- The block reads the register on entry or writes it. -/
def Touched (l : Lifetimes) (r : Reg) : Prop := l.isLiveIn r ∨ l.isDefined r

/-- A read that does not get the value on entry comes after a write. -/
def Sound (l : Lifetimes) : Prop := ∀ r, (l.use r).readsEntry = false → l.isDefined r

theorem use_read : (l.read n r).use s = if r = s then (l.use r).read n else l.use s := by
  simp only [use, read, Std.ExtTreeMap.getD_insert, Std.LawfulEqCmp.compare_eq_iff_eq]

theorem use_write :
    (l.write n r isKill).use s = if r = s then (l.use r).write n isKill else l.use s := by
  simp only [use, write, Std.ExtTreeMap.getD_insert, Std.LawfulEqCmp.compare_eq_iff_eq]

theorem isDefined_read : (l.read n r).isDefined s = l.isDefined s := by
  rw [isDefined, use_read]
  split
  · rename_i h
    rw [← h]
    rfl
  · rfl

theorem isDefined_write_self : (l.write n r isKill).isDefined r := by
  simp [isDefined, use_write, Lifetime.defines_write]

theorem isDefined_write (h : l.isDefined s) : (l.write n r isKill).isDefined s := by
  by_cases hs : r = s
  · exact hs ▸ isDefined_write_self
  · rwa [isDefined, use_write, if_neg hs]

theorem Sound.read (h : l.Sound) : (l.read n r).Sound := by
  intro s hs
  rw [isDefined_read]
  refine h s ?_
  rw [use_read] at hs
  split at hs
  · rename_i heq
    exact heq ▸ hs
  · exact hs

theorem Sound.write (h : l.Sound) : (l.write n r isKill).Sound := by
  intro s hs
  by_cases heq : r = s
  · exact heq ▸ isDefined_write_self
  · rw [use_write, if_neg heq] at hs
    exact isDefined_write (h s hs)

theorem Touched.read (h : l.Touched s) : (l.read n r).Touched s := by
  refine h.imp (fun h => ?_) fun h => isDefined_read.trans h
  simp only [isLiveIn, Lifetimes.read]
  split
  · simp only [isLiveIn] at h
    simp [h]
  · exact h

theorem Touched.write (h : l.Touched s) : (l.write n r isKill).Touched s :=
  h.imp id isDefined_write

theorem touched_read_self (h : l.Sound) : (l.read n r).Touched r := by
  cases hentry : (l.use r).readsEntry with
  | true => exact .inl (by simp [isLiveIn, Lifetimes.read, hentry])
  | false => exact .inr (isDefined_read.trans (h r hentry))

theorem touched_of_reads {rs : List Reg} (h : l.Sound) :
    (rs.foldl (fun l r => l.read n r) l).Sound ∧
      (∀ s, l.Touched s → (rs.foldl (fun l r => l.read n r) l).Touched s) ∧
      ∀ s ∈ rs, (rs.foldl (fun l r => l.read n r) l).Touched s := by
  induction rs generalizing l with
  | nil => exact ⟨h, fun _ hs => hs, fun _ hs => absurd hs (by simp)⟩
  | cons r rs ih =>
    obtain ⟨hsound, hkept, hnew⟩ := ih (l := l.read n r) h.read
    refine ⟨hsound, fun s hs => hkept s hs.read, fun s hs => ?_⟩
    rcases List.mem_cons.1 hs with rfl | hs
    · exact hkept s (touched_read_self h)
    · exact hnew s hs

theorem touched_of_step (h : l.Sound) : (l.step n m).Sound ∧
    (∀ s, l.Touched s → (l.step n m).Touched s) ∧
      ∀ role s, m.regAt? role = some s → (l.step n m).Touched s := by
  obtain ⟨hsound, hkept, hnew⟩ :=
    @touched_of_reads l n (m.src.reg?.toList ++ (m.guard.map Guard.reg).toList) h
  have hread {role : Role} {s : Reg} (hrole : role ≠ .dest) (hs : m.regAt? role = some s) :
      s ∈ m.src.reg?.toList ++ (m.guard.map Guard.reg).toList := by
    cases role with
    | dest => exact absurd rfl hrole
    | source => exact List.mem_append_left _ (by simpa [Move.regAt?] using hs)
    | guard => exact List.mem_append_right _ (by simpa [Move.regAt?] using hs)
  unfold step
  cases hdst : m.dst.reg? with
  | none =>
    refine ⟨hsound, hkept, fun role s hs => hnew s (hread (fun hrole => ?_) hs)⟩
    rw [hrole, Move.regAt?, hdst] at hs
    cases hs
  | some r =>
    refine ⟨hsound.write, fun s hs => (hkept s hs).write, fun role s hs => ?_⟩
    by_cases hrole : role = .dest
    · rw [hrole, Move.regAt?, hdst] at hs
      cases hs
      exact .inr isDefined_write_self
    · exact (hnew s (hread hrole hs)).write

theorem touched_of_walk {ns : List MoveId} {f : Lifetimes → MoveId → Lifetimes} (h : l.Sound)
    (hf : ∀ l n, (∃ m, g.move? n = some m ∧ f l n = l.step n m) ∨ g.move? n = none ∧ f l n = l) :
    (∀ s, l.Touched s → (ns.foldl f l).Touched s) ∧
      ∀ n ∈ ns, ∀ m role s, g.move? n = some m → m.regAt? role = some s → (ns.foldl f l).Touched s := by
  induction ns generalizing l with
  | nil => exact ⟨fun _ hs => hs, fun _ hn => absurd hn (by simp)⟩
  | cons x ns ih =>
    rcases hf l x with ⟨mx, hx, hstep⟩ | ⟨hx, hstep⟩
    · obtain ⟨hsound, hkept, hnew⟩ := touched_of_step (n := x) (m := mx) h
      obtain ⟨hkept', hnew'⟩ := ih hsound
      simp only [List.foldl_cons, hstep]
      refine ⟨fun s hs => hkept' s (hkept s hs), fun n hn m role s hm hs => ?_⟩
      rcases List.mem_cons.1 hn with rfl | hn
      · rw [hx] at hm
        cases hm
        exact hkept' s (hnew role s hs)
      · exact hnew' n hn m role s hm hs
    · obtain ⟨hkept, hnew⟩ := ih h
      simp only [List.foldl_cons, hstep]
      refine ⟨hkept, fun n hn m role s hm hs => ?_⟩
      rcases List.mem_cons.1 hn with rfl | hn
      · rw [hx] at hm
        cases hm
      · exact hnew n hn m role s hm hs

theorem touched_of_access (h : (n, role) ∈ g.accesses r) : (ofGraph g).Touched r := by
  have hsound : Sound { liveIn := g.usedRegisters.filter g.isLiveIn } := by
    intro s hs
    simp [use, Lifetime.readsEntry] at hs
  obtain ⟨m, hm, hlive, hreg⟩ := Graph.mem_accesses.1 h
  refine (touched_of_walk (g := g) hsound fun l x => ?_).2 n (Graph.mem_moveIds.2 ⟨m, hm, hlive⟩) m role
    r hm hreg
  cases hx : g.move? x with
  | none => exact .inr ⟨rfl, rfl⟩
  | some mx => exact .inl ⟨mx, rfl, rfl⟩

end Lifetimes

theorem Renamer.not_access_of_free {regs : List Reg} {g : Graph} {r : Reg} {n : MoveId} {role : Role}
    (h : (Renamer.ofGraph regs g).free.contains r) : (n, role) ∉ g.accesses r := by
  intro hn
  rw [← Std.ExtTreeSet.mem_iff_contains, ← Std.ExtTreeSet.mem_toList] at h
  simp only [ofGraph, Std.ExtTreeSet.toList_filter, List.mem_filter, Bool.not_eq_true',
    Bool.or_eq_false_iff] at h
  rcases Lifetimes.touched_of_access hn with hin | hdef
  · rw [h.2.1] at hin
    cases hin
  · rw [h.2.2] at hdef
    cases hdef

namespace Graph

variable {g g' g1 g2 g3 : Graph} {n w x y : MoveId} {m : Move} {e : EdgeId} {l : Link} {old new r : Reg}
  {role : Role} {range : LiveRange} {c : MoveId → Cycle} {cx : Cycle}
  {planned needed : List (MoveId × MoveId × Dependence)} {t h : MoveId} {d : Dependence} {guardWar : Cycle}
  {k : Nat}

/-! ## Certain writes -/

theorem mem_of_pick {α : Type} {p : α → α → Bool} {xs : List α} {best : Option α} {a : α}
    (h : xs.foldl (fun best a => if best.all (p a) then some a else best) best = some a) :
    best = some a ∨ a ∈ xs := by
  induction xs generalizing best with
  | nil => exact .inl h
  | cons x xs ih =>
    rw [List.foldl_cons] at h
    rcases ih h with hbest | ha
    · by_cases hx : best.all (p x)
      · rw [if_pos hx, Option.some.injEq] at hbest
        exact .inr (hbest ▸ List.mem_cons_self)
      · rw [if_neg hx] at hbest
        exact .inl hbest
    · exact .inr (List.mem_cons_of_mem _ ha)

theorem access_of_mem_kills {k : MoveId × Cycle} (h : k ∈ g.kills r) :
    (k.1, .dest) ∈ g.accesses r ∧ g.cycleOf k.1 = some k.2 :=
  mem_placedAccesses.1 (List.mem_filter.1 h).1

/-- An access is among the last ones, or the last certain write is not before it. -/
theorem mem_last_or_le (hx : (x, role) ∈ g.accesses r) (hc : g.cycleOf x = some cx) :
    role ≠ .dest ∧ x ∈ g.lastReads r role ∨
      ∃ k ck, k ∈ g.lastWrites r ∧ g.cycleOf k = some ck ∧ cx ≤ ck := by
  have hplaced := mem_placedAccesses.2 ⟨hx, hc⟩
  have hlast (hall : (g.lastKill? r).all (·.2 < cx)) :
      role ≠ .dest ∧ x ∈ g.lastReads r role ∨
        ∃ k ck, k ∈ g.lastWrites r ∧ g.cycleOf k = some ck ∧ cx ≤ ck := by
    by_cases hrole : role = .dest
    · subst hrole
      refine .inr ⟨x, cx, List.mem_map.2 ⟨(x, cx), List.mem_filter.2 ⟨hplaced, ?_⟩, rfl⟩, hc, by lia⟩
      simp only [Option.all_eq_true, decide_eq_true_eq] at hall ⊢
      exact fun k hk => Int.le_of_lt (hall k hk)
    · exact .inl ⟨hrole, List.mem_map.2 ⟨(x, cx), List.mem_filter.2 ⟨hplaced, hall⟩, rfl⟩⟩
  cases hk : g.lastKill? r with
  | none => exact hlast (by simp [hk])
  | some k =>
    by_cases hlt : k.2 < cx
    · exact hlast (by simp [hk, hlt])
    · obtain ⟨hacc, hck⟩ := access_of_mem_kills ((mem_of_pick hk).resolve_left (by simp))
      refine .inr ⟨k.1, k.2, List.mem_map.2 ⟨k, List.mem_filter.2 ⟨mem_placedAccesses.2 ⟨hacc, hck⟩, ?_⟩,
        rfl⟩, hck, by lia⟩
      simp [hk]

/-- No write is before the first ones. -/
theorem exists_firstWrite_le (hx : (x, .dest) ∈ g.accesses r) (hc : g.cycleOf x = some cx) :
    ∃ k ck, k ∈ g.firstWrites r ∧ g.cycleOf k = some ck ∧ ck ≤ cx := by
  have hplaced := mem_placedAccesses.2 ⟨hx, hc⟩
  have hfirst (hall : (g.firstKill? r).all (cx ≤ ·.2)) :
      ∃ k ck, k ∈ g.firstWrites r ∧ g.cycleOf k = some ck ∧ ck ≤ cx :=
    ⟨x, cx, List.mem_map.2 ⟨(x, cx), List.mem_filter.2 ⟨hplaced, hall⟩, rfl⟩, hc, by lia⟩
  cases hk : g.firstKill? r with
  | none => exact hfirst (by simp [hk])
  | some k =>
    by_cases hle : cx ≤ k.2
    · exact hfirst (by simp [hk, hle])
    · obtain ⟨hacc, hck⟩ := access_of_mem_kills ((mem_of_pick hk).resolve_left (by simp))
      refine ⟨k.1, k.2, List.mem_map.2 ⟨k, List.mem_filter.2 ⟨mem_placedAccesses.2 ⟨hacc, hck⟩, ?_⟩,
        rfl⟩, hck, by lia⟩
      simp [hk]

/-! ## Placements of all moves -/

/-- The cycles `c` extend the placement so far and keep the latency of every edge within an
iteration. -/
structure Completes (g : Graph) (c : MoveId → Cycle) : Prop where
  placed {n : MoveId} {k : Cycle} : g.cycleOf n = some k → c n = k
  apart {e : EdgeId} {l : Link} {latency : Cycle} : g.link? e = some l → l.live → l.dep.loopDepth = 0 →
    g.linkLatency l = .ok latency → c l.tail + latency ≤ c l.head

theorem completes_iff : g.Completes c ↔
    (∀ i ∈ List.range g.moves.size, ∀ k ∈ g.cycleOf ⟨i⟩, c ⟨i⟩ = k) ∧
      ∀ l ∈ g.links.toList, l.live → l.dep.loopDepth = 0 →
        ∀ latency ∈ (g.linkLatency l).toOption, c l.tail + latency ≤ c l.head := by
  have hlatency {l : Link} {latency : Cycle} :
      latency ∈ (g.linkLatency l).toOption ↔ g.linkLatency l = .ok latency := by
    cases g.linkLatency l <;> simp [Except.toOption]
  have hlink {l : Link} : l ∈ g.links.toList ↔ ∃ e, g.link? e = some l := by
    rw [Array.mem_toList_iff, Array.mem_iff_getElem?]
    constructor
    · rintro ⟨i, hi⟩
      exact ⟨⟨i⟩, hi⟩
    · rintro ⟨e, he⟩
      exact ⟨e.val, he⟩
  constructor
  · intro h
    refine ⟨fun i _ k hk => h.placed hk, fun l hl hlive hdepth latency hlat => ?_⟩
    obtain ⟨e, he⟩ := hlink.1 hl
    exact h.apart he hlive hdepth (hlatency.1 hlat)
  · rintro ⟨hplaced, hapart⟩
    refine ⟨fun {n k} hk => ?_, fun hl hlive hdepth hlat =>
      hapart _ (hlink.2 ⟨_, hl⟩) hlive hdepth _ (hlatency.2 hlat)⟩
    obtain ⟨m, hm, -⟩ := cycleOf_eq_some.1 hk
    have hlt : n.val < g.moves.size := (Array.getElem?_eq_some_iff.1 hm).1
    exact hplaced n.val (List.mem_range.2 hlt) k hk

instance : Decidable (g.Completes c) := decidable_of_iff _ completes_iff.symm

/-- When a move reads `r`: its source in its own cycle, its guard ahead of that. -/
def readTime (g : Graph) (c : MoveId → Cycle) (r : Reg) : Role → MoveId → Cycle
  | .guard, n => c n - max ((g.guardLatency r).toOption.getD 1) 1 + 1
  | _, n => c n

/-- From when on an access to `r` does not mind another write. -/
def doneAt (g : Graph) (c : MoveId → Cycle) (r : Reg) (role : Role) (n : MoveId) : Cycle :=
  if role = .dest then c n + 1 else g.readTime c r role n

theorem doneAt_le_succ : g.doneAt c r role n ≤ c n + 1 := by
  cases role with
  | dest => simp [doneAt]
  | source => simp only [doneAt, readTime, reduceCtorEq, if_false]; lia
  | guard => simp only [doneAt, readTime, reduceCtorEq, if_false]; lia

/-- How far apart a planned edge keeps its moves, if guards are read `k` cycles ahead. -/
def clearance (k : Nat) (d : Dependence) : Cycle :=
  match d.hazard, d.guardUse with
  | .war, true => 1 - Cycle.ofLatency (max k 1)
  | .war, false => 0
  | _, _ => 1

theorem ofLatency_le : Cycle.ofLatency k ≤ k := by
  have hle (m : Nat) : (k : Int).bmod m ≤ k := by
    have : (k : Int) % m ≤ k := by exact_mod_cast Nat.mod_le k m
    rw [Int.bmod_def]
    split <;> omega
  exact hle _

theorem doneAt_le_clearance (hk : g.guardLatency r = .ok k)
    (hhazard : d.hazard = .war ∨ d.hazard = .waw) : g.doneAt c r d.tailRole t ≤ c t + clearance k d := by
  rcases hhazard with hhazard | hhazard
  · cases hguard : d.guardUse with
    | true =>
      have := ofLatency_le (k := max k 1)
      simp only [doneAt, readTime, Dependence.tailRole, Dependence.readRole, hhazard, hguard, if_true,
        reduceCtorEq, if_false, clearance, hk, Except.toOption, Option.getD_some]
      lia
    | false =>
      simp [doneAt, readTime, Dependence.tailRole, Dependence.readRole, hhazard, hguard, clearance]
  · simp [doneAt, Dependence.tailRole, hhazard, clearance]

theorem linkLatency_of_guardWar {delay : Cycle} (hdelay : g.guardDelay d = .ok delay)
    (hsub : Cycle.sub 1 delay = .ok guardWar) (hd : g.Separating range r t h d)
    (hhazard : d.hazard = .war) (hguard : d.guardUse) :
    g.linkLatency { tail := t, head := h, dep := d } = .ok (1 - delay) := by
  have hwar : guardWar = 1 - delay := by
    rw [Cycle.sub, Cycle.check_eq_ok_iff] at hsub
    exact hsub.2
  simp only [linkLatency, hd.reason, hhazard, hguard, hdelay, ok_bind, hsub, hwar]

theorem linkLatency_eq_clearance (hk : g.guardLatency r = .ok k)
    (hsub : Cycle.sub 1 (Cycle.ofLatency (max k 1)) = .ok guardWar) (hd : g.Separating range r t h d) :
    g.linkLatency { tail := t, head := h, dep := d } = .ok (clearance k d) := by
  rcases hd.hazard with hhazard | hhazard
  · by_cases hguard : d.guardUse
    · have hdelay : g.guardDelay d = .ok (Cycle.ofLatency (max k 1)) := by
        simp only [guardDelay, hd.reg, hk, ok_bind, pure_eq_ok]
      rw [linkLatency_of_guardWar hdelay hsub hd hhazard hguard]
      simp only [clearance, hhazard, hguard]
    · simp only [Bool.not_eq_true] at hguard
      simp only [linkLatency, hd.reason, hhazard, hguard, clearance, pure_eq_ok]
  · simp only [linkLatency, hd.reason, hhazard, clearance, pure_eq_ok]

/-- A planned edge is added unless the places of its moves say the same. -/
theorem mem_needed_or_apart (hneeded : g.neededEdges range r planned = .ok (some needed))
    (hd : (t, h, d) ∈ planned) (hout : range.contains t ≠ range.contains h) :
    ∃ k guardWar, g.guardLatency r = .ok k ∧
      Cycle.sub 1 (Cycle.ofLatency (max k 1)) = .ok guardWar ∧ ((t, h, d) ∈ needed ∨
        ∃ ct ch, g.cycleOf t = some ct ∧ g.cycleOf h = some ch ∧ ct + clearance k d ≤ ch) := by
  simp only [neededEdges, bind_eq_ok] at hneeded
  obtain ⟨k, hk, guardWar, hsub, edges, hedges, closes, -, hneeded⟩ := hneeded
  split at hneeded
  · simp at hneeded
  simp only [pure_eq_ok, Option.some.injEq] at hneeded
  subst hneeded
  refine ⟨k, guardWar, hk, hsub, ?_⟩
  obtain ⟨needs, hneeds⟩ := ok_of_filterM_eq_ok hedges hd
  cases needs with
  | true => exact .inl ((mem_of_filterM_eq_ok hedges).2 ⟨hd, hneeds⟩)
  | false =>
    refine .inr ?_
    have hne : t ≠ h := fun heq => hout (heq ▸ rfl)
    have hboth : (range.contains t && range.contains h) = false := by
      cases ht : range.contains t <;> cases hh : range.contains h <;> simp_all
    simp only [needsEdge, hne, hboth, decide_false, Bool.or_self, Bool.false_eq_true, if_false,
      bind_eq_ok, pure_eq_ok, Bool.not_eq_false'] at hneeds
    obtain ⟨ordered, hordered, rfl⟩ := hneeds
    simp only [isOrdered, bind_eq_ok] at hordered
    obtain ⟨mt, hmt, mh, hmh, hordered⟩ := hordered
    cases hct : mt.cycle? with
    | none => simp [hct] at hordered
    | some ct =>
      cases hch : mh.cycle? with
      | none => simp [hct, hch] at hordered
      | some ch =>
        simp only [hct, hch, bind_eq_ok, pure_eq_ok, decide_eq_true_eq] at hordered
        obtain ⟨sum, hsum, hle⟩ := hordered
        rw [Cycle.add, Cycle.check_eq_ok_iff] at hsum
        refine ⟨ct, ch, cycleOf_eq_some.2 ⟨mt, move?_of_move hmt, hct⟩,
          cycleOf_eq_some.2 ⟨mh, move?_of_move hmh, hch⟩, ?_⟩
        rw [Cycle.sub, Cycle.check_eq_ok_iff] at hsub
        rw [hsum.2, hsub.2] at hle
        exact hle

/-! ## Planned edges last -/

theorem Dependence.eq_of_untagged {d' : Dependence} (h : d'.untagged = d.untagged)
    (hreg : d'.reg? = d.reg?) : d' = d := by
  cases d
  cases d'
  simp_all [Dependence.untagged]

theorem Link.ext {l' : Link} (htail : l'.tail = l.tail) (hhead : l'.head = l.head)
    (hdep : l'.dep = l.dep) (hlive : l'.live = l.live) : l' = l := by
  cases l
  cases l'
  simp_all

/-- An edge between two accesses to the new register is not cut. -/
theorem decision_ne_true {decision : Link → Option Bool} (hdec : decision ∈ g.decisions range w r)
    (hreason : l.dep.reason = .register) (hpseudo : l.dep.isPseudo = false)
    (hhazard : l.dep.hazard = .war ∨ l.dep.hazard = .waw)
    (htail : g.regOf l.tail l.dep.tailRole = some r) (hhead : g.regOf l.head .dest = some r) :
    decision l ≠ some true := by
  have hother : g.writesOther l.head r = false := by
    obtain ⟨m, hm, hreg⟩ := regOf_eq_some.1 hhead
    have hreg : m.dst.reg? = some r := hreg
    simp [writesOther, hm, hreg]
  have hno := hpseudo
  simp only [Dependence.isPseudo, Bool.or_eq_false_iff] at hno
  refine of_mem_decisions (P := (· l ≠ some true)) hdec ?_ ?_ fun _ _ => ?_
  · by_cases hw : l.head = w
    · rw [← hw, entryDecision_self hreason hpseudo hhazard htail]
      simp
    · simp [entryDecision, hw]
  · unfold exitDecision exitGone?
    rcases hhazard with hhazard | hhazard <;> simp [hreason, hno, hhazard, hother]
  · simp [readDecision, hno, hother]

theorem Relabels.hasLink (hrel : g.Relabels range w new needed g1 g2 g3 g') (hg : g.Linked)
    (ht : g.ValuesAgree) (hrange : g.ClosedRange range w old) (hd : (t, h, d) ∈ needed)
    (hsep : g.Separating range new t h d) : g'.HasLink t h d := by
  obtain ⟨e, he⟩ := hrel.separated hd
  obtain ⟨e, he⟩ := HasLink.rewires ⟨e, (hrel.reregisters.link? e).trans he⟩ hrel.bridged
  have hlink := hrel.settled.link? e
  rw [he, Option.map_some] at hlink
  have hhead : d.headRole = .dest := by
    rcases hsep.hazard with h | h <;> simp [Dependence.headRole, h]
  have hmeets {x : MoveId} {role : Role} (hx : g.Meets range new x role) :
      g2.regOf x role = some new := by
    by_cases hin : x ∈ range.inRole role
    · exact hrel.regOf_range hrange hg ht hin
    · exact (hrel.regOf_other hin).trans (hx.resolve_right hin)
  have hstable := fun dec (h : dec ∈ g2.decisions range w new) => stable_of_mem_decisions h
  obtain ⟨htail', hhead', hdep⟩ := @settle_ends { tail := t, head := h, dep := d } new
    (g2.decisions range w new)
  have hlive := (settle_live (r := new) (l := { tail := t, head := h, dep := d }) hstable rfl).2
    fun dec hdec => decision_ne_true hdec hsep.reason hsep.pseudo hsep.hazard (hmeets hsep.tail)
      (hhead ▸ hmeets hsep.head)
  have htag : (settle new (g2.decisions range w new) { tail := t, head := h, dep := d }).dep.reg? =
      some new := by
    rcases settle_tag hstable hlive rfl with ⟨htag, -⟩ | ⟨hsame, -⟩
    · exact htag
    · rw [hsame]
      exact hsep.reg
  refine ⟨e, hlink.trans (congrArg some ?_)⟩
  have hsame := Dependence.eq_of_untagged hdep (htag.trans hsep.reg.symm)
  exact Link.ext htail' hhead' hsame hlive

/-! ## The two lifetimes -/

/-- Either the other accesses to `r` are over when `w` writes it, or the range is when one of the others
does. -/
def Distinct (g : Graph) (range : LiveRange) (w : MoveId) (r : Reg) (latencies : Graph)
    (c : MoveId → Cycle) : Prop :=
  (∀ x role, (x, role) ∈ g.accesses r → latencies.doneAt c r role x ≤ c w) ∨
    ∀ x, (x, .dest) ∈ g.accesses r → ∀ y role, y ∈ range.inRole role → latencies.doneAt c r role y ≤ c x

theorem contains_eq_true : range.contains x = true ↔ ∃ role, x ∈ range.inRole role := by
  simp only [LiveRange.contains, Bool.or_eq_true, ← Std.ExtTreeSet.mem_iff_contains]
  constructor
  · rintro ((h | h) | h)
    · exact ⟨.dest, h⟩
    · exact ⟨.source, h⟩
    · exact ⟨.guard, h⟩
  · rintro ⟨role, h⟩
    cases role with
    | dest => exact .inl (.inl h)
    | source => exact .inl (.inr h)
    | guard => exact .inr h

theorem tailRole_behind : (behind r role).tailRole = role := by
  cases role <;> rfl

theorem cycleOf_congr (h : g.SameMoves g') : g'.cycleOf n = g.cycleOf n := by
  have hsame := congrArg (Option.bind · Move.cycle?) (h.moves n)
  simp only [Option.bind_map] at hsame
  exact hsame

section

variable (hrel : g.Relabels range w new needed g1 g2 g3 g')
include hrel

theorem Relabels.cycleOf : g'.cycleOf n = g.cycleOf n := by
  rw [cycleOf_congr hrel.settled.moves, cycleOf_congr hrel.bridged.moves,
    ← cycleOf_congr (g := g) hrel.planned.moves, Graph.cycleOf, hrel.reregisters.move?, Option.bind_map]
  rfl

theorem Relabels.guardLatency : g'.guardLatency r = g.guardLatency r := by
  rw [Graph.guardLatency, Graph.guardLatency, hrel.settled.moves.guardLatencies, hrel.bridged.moves.guardLatencies,
    hrel.reregisters.guardLatencies, hrel.planned.moves.guardLatencies]

variable (hg : g.Linked) (ht : g.ValuesAgree) (hrange : g.ClosedRange range w old)
  (hneeded : g.neededEdges range new planned = .ok (some needed)) (hc : g'.Completes c)
include hg ht hrange hneeded hc

/-- A placement of all moves puts the two ends of a planned edge apart. -/
theorem Relabels.doneAt_le (hd : (t, h, d) ∈ planned) (hsep : g.Separating range new t h d)
    (hout : range.contains t ≠ range.contains h) : g'.doneAt c new d.tailRole t ≤ c h := by
  obtain ⟨k, guardWar, hk, hsub, happly⟩ := mem_needed_or_apart hneeded hd hout
  have hk' : g'.guardLatency new = .ok k := hrel.guardLatency.trans hk
  refine Int.le_trans (doneAt_le_clearance hk' hsep.hazard) ?_
  rcases happly with hmem | ⟨ct, ch, hct, hch, hle⟩
  · obtain ⟨e, he⟩ := hrel.hasLink hg ht hrange hmem hsep
    have hlatency : g'.linkLatency { tail := t, head := h, dep := d } =
        g.linkLatency { tail := t, head := h, dep := d } :=
      linkLatency_eq (hrel.settled.moves.guardLatencies.trans (hrel.bridged.moves.guardLatencies.trans
        (hrel.reregisters.guardLatencies.trans hrel.planned.moves.guardLatencies))) fun hop => by
          simp [hsep.reason] at hop
    exact hc.apart he rfl hsep.depth (hlatency.trans (linkLatency_eq_clearance hk hsub hsep))
  · rw [hc.placed (hrel.cycleOf.trans hct), hc.placed (hrel.cycleOf.trans hch)]
    exact hle

theorem Relabels.distinct_before (hplanned : planned = g.edgesBehind w new)
    (hspan : g.Beside (· < ·) range new) (hx : (x, role) ∈ g.accesses new) : g'.doneAt c new role x ≤ c w := by
  subst hplanned
  have hw : w ∈ range.inRole .dest := hrange.mem_writes.2 rfl
  -- what the planned edges say about the last accesses
  have hlast {x : MoveId} {role : Role} (hx : role ≠ .dest ∧ x ∈ g.lastReads new role ∨
      role = .dest ∧ x ∈ g.lastWrites new) : g'.doneAt c new role x ≤ c w := by
    have hacc : (x, role) ∈ g.accesses new := by
      rcases hx with ⟨-, hx⟩ | ⟨rfl, hx⟩
      · exact access_of_mem hx
      · exact access_of_mem hx
    have hd : (x, w, behind new role) ∈ g.edgesBehind w new := mem_edgesBehind.2 ⟨role, hx, rfl, rfl⟩
    rw [← @tailRole_behind new role]
    refine hrel.doneAt_le hg ht hrange hneeded hc hd
      (separating_behind (.inl (regOf_of_access hacc)) (.inr hw)) ?_
    have hin : range.contains w = true := contains_eq_true.2 ⟨.dest, hw⟩
    rw [hin]
    intro hout
    obtain ⟨cx, hcx, hlt⟩ := hspan x _ hacc
    obtain ⟨role', hrole'⟩ := contains_eq_true.1 hout
    exact absurd (hlt role' x cx hrole' hcx) (by lia)
  obtain ⟨cx, hcx, -⟩ := hspan x role hx
  rcases mem_last_or_le hx hcx with hread | ⟨k, ck, hk, hck, hle⟩
  · exact hlast (.inl hread)
  · have hdone := hlast (.inr ⟨rfl, hk⟩)
    have hx' := hc.placed (hrel.cycleOf.trans hcx)
    have hk' := hc.placed (hrel.cycleOf.trans hck)
    have : g'.doneAt c new role x ≤ c x + 1 := doneAt_le_succ
    simp only [doneAt, if_true] at hdone
    lia

theorem Relabels.distinct_after (hplanned : planned = g.edgesBefore range w new)
    (hspan : g.Beside (· > ·) range new)
    (hx : (x, .dest) ∈ g.accesses new) (hy : y ∈ range.inRole role) : g'.doneAt c new role y ≤ c x := by
  subst hplanned
  obtain ⟨cx, hcx, -⟩ := hspan x .dest hx
  obtain ⟨k, ck, hk, hck, hle⟩ := exists_firstWrite_le hx hcx
  have hd := (mem_edgesBefore hrange.writes).2 ⟨role, hy, hk, rfl⟩
  have hacc := access_of_mem hk
  have hdone := hrel.doneAt_le hg ht hrange hneeded hc hd
    (separating_behind (.inr hy) (.inl (regOf_of_access hacc))) (by
      rw [contains_eq_true.2 ⟨_, hy⟩]
      intro hout
      obtain ⟨cx, hcx, hlt⟩ := hspan k .dest hacc
      obtain ⟨role', hrole'⟩ := contains_eq_true.1 hout.symm
      exact absurd (hlt role' k cx hrole' hcx) (by lia))
  rw [tailRole_behind] at hdone
  have hx' := hc.placed (hrel.cycleOf.trans hcx)
  have hk' := hc.placed (hrel.cycleOf.trans hck)
  lia

end

/-- In every placement of all moves, the renamed range and the other lifetimes of its new register do not
overlap. -/
theorem distinct_of_rename {regs : List Reg} {rn' : Renamer} {mode : RenameMode} {u : RenameRecord}
    (hg : g.Linked) (ht : g.ValuesAgree) (hrange : g.liveRange w .dest = .ok range)
    (h : (Renamer.ofGraph regs g).rename g range new mode = .ok (some (u, rn', g')))
    (hc : g'.Completes c) : g.Distinct range w new g' c := by
  obtain ⟨w', old, planned, needed, us, hmov, hadmits, hplanned, hneeded, happlied, -, -⟩ :=
    Renamer.rename_eq_some h
  have hclosed := closedRange_of_movable hg hrange hmov ht
  obtain rfl := hclosed.eq_of_liveRange hg hrange
  obtain ⟨g1, g2, g3, hrel⟩ := relabels_of_applyRename hg hclosed.writes happlied
  rcases separatingEdges_eq_some hplanned with ⟨rfl, -⟩ | ⟨-, hedges, hspan⟩ | ⟨-, -, hedges, hspan⟩
  · refine .inl fun x role hx => absurd hx (@Renamer.not_access_of_free regs g new x role ?_)
    simp only [Renamer.admits, Renamer.isAvailable, Bool.and_eq_true] at hadmits
    exact hadmits.2
  · exact .inl fun x role hx => hrel.distinct_before hg ht hclosed hneeded hc hedges hspan hx
  · exact .inr fun x hx y role hy => hrel.distinct_after hg ht hclosed hneeded hc hedges hspan hx hy

namespace Distinct

variable (hdistinct : g.Distinct range w new g' c)
include hdistinct

/-- Nothing overwrites the range before it is read. -/
theorem not_overwritten (hx : (x, .dest) ∈ g.accesses new) (hrole : role ≠ .dest)
    (hy : y ∈ range.inRole role) : ¬ (c w ≤ c x ∧ c x < g'.readTime c new role y) := by
  rintro ⟨hle, hlt⟩
  rcases hdistinct with h | h
  · have := h x .dest hx
    simp only [doneAt, if_true] at this
    lia
  · have := h x hx y role hy
    rw [doneAt, if_neg hrole] at this
    lia

/-- The range overwrites no value before it is read. -/
theorem not_disturbed (hw : w ∈ range.inRole .dest) (hx : (x, .dest) ∈ g.accesses new)
    (hrole : role ≠ .dest) (hy : (y, role) ∈ g.accesses new) :
    ¬ (c x ≤ c w ∧ c w < g'.readTime c new role y) := by
  rintro ⟨hle, hlt⟩
  rcases hdistinct with h | h
  · have := h y role hy
    rw [doneAt, if_neg hrole] at this
    lia
  · have := h x hx w .dest hw
    simp only [doneAt, if_true] at this
    lia

end Distinct

end Graph

end Transport
