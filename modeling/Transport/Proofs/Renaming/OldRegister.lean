import Transport.Proofs.Program.Values
import Transport.Proofs.Renaming.Lifetimes
import Transport.Proofs.Scheduling.Graphs

/-!
# What a renamed range leaves behind

Once a range has another register, its write orders the other accesses to the old register no more.
Where it stood between two of them, the renaming gives them an edge of their own. All other orders are
kept by edges that have nothing to do with the range. So whichever two accesses to the old register were
in order are in order still.
-/

namespace Transport

open Relation Transport.Flow

/-! ## Neighbouring accesses -/

/-- The access to `r` that a move makes in a role. -/
def Role.effect (role : Role) (r : Reg) : Flow.Effect :=
  { place := .register r, write := role = .dest, guardUse := role = .guard }

/-- The dependence between accesses to `r` in the two roles. -/
def Role.dep (a b : Role) (r : Reg) : Dependence := (a.effect r).dep (b.effect r) 0

section

variable {a b : Role} {r : Reg}

@[simp] theorem Role.tailRole_dep : (a.dep b r).tailRole = a := by
  cases a <;> cases b <;> rfl

theorem Role.headRole_dep (h : a = .dest ∨ b = .dest) : (a.dep b r).headRole = b := by
  cases a <;> cases b <;> first | rfl | simp at h

@[simp] theorem Role.loopDepth_dep : (a.dep b r).loopDepth = 0 := by
  cases a <;> cases b <;> rfl

end

namespace Program

variable {p : Program} {machine : Machine} {g : Graph} {i j k : Nat} {a b : ProgramMove}
  {ra rb role : Role} {r : Reg}

theorem effect_mem_uses (h : (p.marked machine a).regAt? role = some r) :
    role.effect r ∈ p.uses machine a := by
  refine mem_touches.2 ?_
  cases role with
  | dest => exact .inr (.inr (.inl ⟨r, reg?_eq_some.1 h, rfl⟩))
  | source => exact .inl ⟨r, reg?_eq_some.1 h, rfl⟩
  | guard =>
    obtain ⟨x, hx, rfl⟩ := Option.map_eq_some_iff.1 h
    exact .inr (.inl ⟨x, hx, rfl⟩)

/-- Two accesses to a register with no certain write between them are joined by an edge. -/
theorem Drawn.arc_of_accesses (hd : p.Drawn machine g) (hij : i < j) (ha : p.moves[i]? = some a)
    (hb : p.moves[j]? = some b) (hra : ra.effect r ∈ p.uses machine a)
    (hrb : rb.effect r ∈ p.uses machine b) (hw : ra = .dest ∨ rb = .dest)
    (hex : excludes (accessAt i 0 a) (accessAt j 0 b) = false)
    (hself : ra ≠ .dest → ¬ p.KillsAt r i) (hno : ∀ k, i < k → k < j → ¬ p.KillsAt r k) :
    g.Arc ⟨i⟩ ⟨j⟩ (ra.dep rb r) := by
  obtain ⟨pre, post, heq, hpre⟩ := exists_events_split machine hb
  obtain ⟨us, us', hus⟩ := List.append_of_mem hrb
  have hsorted : pre.Pairwise fun x y => x.1.move.val ≤ y.1.move.val :=
    (List.pairwise_append.1 (heq ▸ events_sorted p machine 0)).1
  have hknown : Known (after (pre ++ us.map fun e => (accessAt j 0 b, e)) {}) (accessAt i 0 a)
      (ra.effect r) := by
    rw [after_append]
    refine (known_before hij ha hra rfl hpre hsorted (by simpa [Role.effect] using hself) hno).after ?_
    rintro ⟨x, e⟩ hxe (hq : e.place = .register r) (hwrite : e.write) -
    obtain ⟨e', he', heq'⟩ := List.mem_map.1 hxe
    cases heq'
    have hlast := pairwise_touches (p.marked machine b) ((p.target b).bind OperationDecl.memory) r
    have huses : touches (p.marked machine b) ((p.target b).bind OperationDecl.memory) =
      us ++ rb.effect r :: us' := hus
    rw [huses, List.pairwise_append] at hlast
    have := hlast.2.2 e he' (rb.effect r) List.mem_cons_self hq rfl
    simp [hwrite] at this
  refine (hd.arc _ _ _).2 (.inl (mem_edges.2 (draws_append.2 (.inl (draws_iff.2
    ⟨pre ++ us.map fun e => (accessAt j 0 b, e), accessAt j 0 b, rb.effect r,
      us'.map (fun e => (accessAt j 0 b, e)) ++ post, ?_, rfl, ?_⟩)))))
  · rw [heq, hus]
    simp
  · refine found_of_known hknown rfl (by simpa [Role.effect] using hw) (follows_of_ne rfl ?_) ?_
    · intro h
      exact Nat.ne_of_lt hij (congrArg Id.val h)
    · intro hwaived
      rw [hwaived.excludes] at hex
      cases hex

end Program

/-! ## Edges that a renaming keeps or adds -/

namespace Graph

variable {g g' g₁ g₂ g₃ : Graph} {range : LiveRange} {w t h a b : MoveId} {old new : Reg} {d : Dependence}
  {ra : Role} {edges : List (MoveId × MoveId × Dependence)}

namespace Relabels

variable (hrel : g.Relabels range w new edges g₁ g₂ g₃ g')
include hrel

theorem hasLink_reregistered (hl : g.HasLink t h d) : g₂.HasLink t h d := by
  obtain ⟨e, he⟩ := hl.rewires hrel.planned
  exact ⟨e, (hrel.reregisters.link? e).trans he⟩

/-- An edge that has nothing to do with the range stays. -/
theorem hasLink_of_apart (hw : w ∈ range.inRole .dest) (hl : g₃.HasLink t h d)
    (htail : t ∉ range.inRole d.tailRole) (hhead : h ∉ range.inRole d.headRole) : g'.HasLink t h d := by
  obtain ⟨e, he⟩ := hl
  have hlink := hrel.settled.link? e
  rw [he, Option.map_some] at hlink
  have hnone : ∀ dec ∈ g₂.decisions range w new, dec { tail := t, head := h, dep := d } = none := by
    intro dec hdec
    by_contra hne
    exact (reaches_of_decision hw hdec hne).elim htail hhead
  have hstable := fun dec (h : dec ∈ g₂.decisions range w new) => stable_of_mem_decisions h
  have hlive := (settle_live (r := new) (l := { tail := t, head := h, dep := d }) hstable rfl).2
    fun dec hdec => by simp [hnone dec hdec]
  rcases settle_tag hstable hlive rfl with ⟨-, dec, hdec, hfalse⟩ | ⟨hsame, -⟩
  · rw [hnone dec hdec] at hfalse
    cases hfalse
  · exact ⟨e, hlink.trans (congrArg some hsame)⟩

theorem excluding (ha : a ∉ range.inRole .guard) (hb : b ∉ range.inRole .guard)
    (hex : g.excluding a b = .ok false) : g₂.excluding a b = .ok false := by
  rw [← excluding_congr hrel.planned.moves] at hex
  simp only [Graph.excluding, bind_eq_ok, pure_eq_ok] at hex
  obtain ⟨ma, hma, mb, hmb, hex⟩ := hex
  obtain ⟨hva, hma⟩ := move_eq_ok.1 hma
  obtain ⟨hvb, hmb⟩ := move_eq_ok.1 hmb
  have hguard {x : MoveId} (hx : x ∉ range.inRole .guard) {m : Move} :
      (m.setRegs new range.roles x).guard = m.guard := by
    simp [Move.setRegs, mem_roles, hx]
  have hma' := hrel.reregisters.move? a
  have hmb' := hrel.reregisters.move? b
  rw [hma, Option.map_some] at hma'
  rw [hmb, Option.map_some] at hmb'
  simp only [Graph.excluding, bind_eq_ok, pure_eq_ok]
  refine ⟨_, move_eq_ok.2 ⟨hva, hma'⟩, _, move_eq_ok.2 ⟨hvb, hmb'⟩, ?_⟩
  rw [Move.excludes, hguard ha, hguard hb]
  exact hex

/-- Two neighbours of the write of the range get the order that it imposed on them. -/
theorem hasLink_of_between (hinc : g.HasLink a w (ra.dep .dest old))
    (hout : g.HasLink w b (Role.dep .dest .dest old)) (hex : g₂.excluding a b = .ok false)
    (hne : a ≠ b) : g₃.HasLink a b (ra.dep .dest old) := by
  obtain ⟨e, hinc⟩ := hrel.hasLink_reregistered hinc
  obtain ⟨e', hout⟩ := hrel.hasLink_reregistered hout
  refine hrel.spanned ⟨⟨e, hinc⟩, rfl, rfl, rfl, ⟨e', hout⟩, rfl, rfl, rfl, rfl, rfl, ?_⟩
  cases ra <;>
    simp [bridge, Role.dep, Role.effect, Effect.dep, Place.dep, Dependence.register, isStorage, hex, hne,
      addByte, addBelow]

end Relabels

/-- Both moves may execute. -/
def Compatible (g : Graph) (a b : MoveId) : Prop :=
  ∀ ma mb, g.move? a = some ma → g.move? b = some mb → ma.excludes mb = false

theorem compatible_of_excluding (h : g.excluding a b = .ok false) : g.Compatible a b := by
  simp only [excluding, bind_eq_ok, pure_eq_ok] at h
  obtain ⟨ma, hma, mb, hmb, h⟩ := h
  intro ma' mb' hma' hmb'
  rw [move?_of_move hma] at hma'
  rw [move?_of_move hmb] at hmb'
  cases hma'
  cases hmb'
  exact h

theorem Compatible.excluding (h : g.Compatible a b) (ha : a ≠ .invalid) (hb : b ≠ .invalid)
    (hma : (g.move? a).isSome) (hmb : (g.move? b).isSome) : g.excluding a b = .ok false := by
  obtain ⟨ma, hma⟩ := Option.isSome_iff_exists.1 hma
  obtain ⟨mb, hmb⟩ := Option.isSome_iff_exists.1 hmb
  simp only [Graph.excluding, bind_eq_ok, pure_eq_ok]
  exact ⟨ma, move_eq_ok.2 ⟨ha, hma⟩, mb, move_eq_ok.2 ⟨hb, hmb⟩, h ma mb hma hmb⟩

theorem compatible_unguarded (h : (g.move? a).map Move.guard = some none) :
    g.Compatible a b ∧ g.Compatible b a := by
  refine ⟨fun ma mb hma _ => ?_, fun mb ma _ hma => ?_⟩
  all_goals
    rw [hma, Option.map_some, Option.some.injEq] at h
    simp [Move.excludes, h]

/-- The move `n` accesses `old` in a role, and not for the range. -/
structure Outside (g : Graph) (range : LiveRange) (w : MoveId) (old : Reg) (n : MoveId) (role : Role) :
    Prop where
  valid : n ≠ .invalid
  reg : g.regOf n role = some old
  apart : n ∉ range.inRole role
  guard : n ∉ range.inRole .guard
  ne : n ≠ w

end Graph

namespace Program

open Transport.Graph

variable {p : Program} {machine : Machine} {g₀ g g' g₁ g₂ g₃ : Graph} {range : LiveRange}
  {w n a b : MoveId} {old new r : Reg} {role ra rb : Role} {edges : List (MoveId × MoveId × Dependence)}

section

variable (hd : p.Drawn machine g₀) (hstill : g₀.Still g)
include hd hstill

theorem Drawn.exists_move (hreg : g.regOf n role = some r) : ∃ pm, p.moves[n.val]? = some pm ∧
      role.effect r ∈ p.uses machine pm ∧ (g.move? n).map Move.guard = some pm.guard := by
  rw [hstill.regOf] at hreg
  obtain ⟨m, hm, hreg⟩ := regOf_eq_some.1 hreg
  obtain ⟨pm, hpm, hmarked⟩ := exists_of_map_eq (hd.move? n) hm
  have hsame : (p.marked machine pm).bare = m.bare := by rw [marked_bare, hmarked]
  refine ⟨pm, hpm, effect_mem_uses ((regAt?_bare hsame role).trans hreg), ?_⟩
  rw [hstill.guard, hm, Option.map_some, ← (guard_marked : (p.marked machine pm).guard = pm.guard), hmarked]
  rfl

theorem Drawn.regOf_of_kill (hk : p.KillsAt old n.val) :
    g.regOf n .dest = some old ∧ (g.move? n).map Move.guard = some none := by
  obtain ⟨pm, hpm, hdst, hguard⟩ := hk
  obtain ⟨m, hm, hmarked⟩ := exists_of_map_eq (hd.move? n).symm hpm
  rw [hstill.regOf, hstill.guard, hm]
  have hdst' : m.dst = .register old := by
    rw [← hdst, ← (dst_marked : (p.marked machine pm).dst = pm.dst), ← hmarked]
    rfl
  have hguard' : m.guard = none := by
    rw [← hguard, ← (guard_marked : (p.marked machine pm).guard = pm.guard), ← hmarked]
    rfl
  exact ⟨regOf_eq_some.2 ⟨m, hm, by simp [Move.regAt?, hdst', Terminal.reg?]⟩, by simp [hguard']⟩

/-- Two accesses with no certain write between them are joined by an edge. -/
theorem Drawn.hasLink_of_accesses
    (ha : g.regOf a ra = some r) (hb : g.regOf b rb = some r) (hab : a.val < b.val)
    (hw : ra = .dest ∨ rb = .dest) (hex : g.Compatible a b)
    (hself : ra ≠ .dest → ¬ p.KillsAt r a.val)
    (hno : ∀ k, a.val < k → k < b.val → ¬ p.KillsAt r k) : g.HasLink a b (ra.dep rb r) := by
  obtain ⟨pa, hpa, hea, hga⟩ := hd.exists_move hstill ha
  obtain ⟨pb, hpb, heb, hgb⟩ := hd.exists_move hstill hb
  obtain ⟨ma, hma, hga⟩ := Option.map_eq_some_iff.1 hga
  obtain ⟨mb, hmb, hgb⟩ := Option.map_eq_some_iff.1 hgb
  have hex : excludes (accessAt a.val 0 pa) (accessAt b.val 0 pb) = false := by
    have := hex ma mb hma hmb
    rwa [Move.excludes, hga, hgb] at this
  obtain ⟨e, he⟩ := hd.arc_of_accesses hab hpa hpb hea heb hw hex hself hno
  exact ⟨e, (hstill.link? e).trans he⟩

end

section

variable (hd : p.Drawn machine g₀) (hstill : g₀.Still g)
include hd hstill

/-- A certain write after another access is at the end of an edge, so it can be looked up. -/
theorem Drawn.valid_of_kill (hloop : p.isLoop = false) (ha : g.regOf a ra = some old)
    (hab : a.val < b.val) (hb : p.KillsAt old b.val) : b ≠ .invalid := by
  obtain ⟨pa, hpa, hea, -⟩ := hd.exists_move hstill ha
  obtain ⟨pb, hpb, hdst, hguard⟩ := hb
  have hpath := path_or_waived (f := { place := .register old, write := true }) hab hpa hpb hea
    (mem_uses_write.2 hdst) rfl (.inr rfl)
  rcases hpath with hpath | hwaived
  · have hlast : ∃ x, g₀.Before x b := by
      cases hpath with
      | single h => exact ⟨_, hd.before_of_leads hloop h⟩
      | tail _ h => exact ⟨_, hd.before_of_leads hloop h⟩
    obtain ⟨x, d, ⟨e, he⟩, -⟩ := hlast
    exact (hd.unbroken e _ he).2.2
  · have := hwaived.excludes
    simp [excludes, accessAt, hguard] at this

variable (hg : g.Linked) (ht : g.ValuesAgree) (hrange : g.ClosedRange range w old)
  (hcertain : p.KillsAt old w.val) (hrel : g.Relabels range w new edges g₁ g₂ g₃ g')
include hg ht hrange hcertain hrel

/-- Without a certain write between them, outside the range, two accesses are joined by an edge. -/
theorem Drawn.before_of_neighbours (ha : g.Outside range w old a ra) (hb : g.Outside range w old b rb)
    (hab : a.val < b.val) (hw : ra = .dest ∨ rb = .dest) (hex : g.Compatible a b)
    (hself : ra ≠ .dest → ¬ p.KillsAt old a.val)
    (hno : ∀ k, a.val < k → k < b.val → p.KillsAt old k → k = w.val) : g'.Before a b := by
  have hwin : w ∈ range.inRole .dest := hrange.mem_writes.2 rfl
  obtain ⟨hwreg, hwguard⟩ := hd.regOf_of_kill hstill hcertain
  by_cases hbetween : a.val < w.val ∧ w.val < b.val
  · obtain ⟨haw, hwb⟩ := hbetween
    have hout := hd.hasLink_of_accesses hstill hwreg hb.reg hwb (.inl rfl)
      (compatible_unguarded hwguard).1 (fun h => absurd rfl h) fun k hwk hkb hk =>
        absurd (hno k (Nat.lt_trans haw hwk) hkb hk) (Nat.ne_of_gt hwk)
    -- a read after the write would be one of the range
    have hrb : rb = .dest := by
      by_contra hrb
      obtain ⟨e, he⟩ := hout
      have hread := (hrange.read_of_write hg ht he rfl (by cases rb <;> first | rfl | simp at hrb) rfl).2.2
      have hrole : (Role.dep .dest rb old).readRole = rb := by cases rb <;> first | rfl | simp at hrb
      exact hb.apart (hrole ▸ hread)
    subst hrb
    have hinc := hd.hasLink_of_accesses hstill ha.reg hwreg haw (.inr rfl)
      (compatible_unguarded hwguard).2 hself fun k hak hkw hk =>
        absurd (hno k hak (Nat.lt_trans hkw hwb) hk) (Nat.ne_of_lt hkw)
    have hknown {n : MoveId} {role : Role} (h : g.regOf n role = some old) : (g.move? n).isSome := by
      obtain ⟨m, hm, -⟩ := regOf_eq_some.1 h
      simp [hm]
    have hexcluding := hrel.excluding ha.guard hb.guard
      (hex.excluding ha.valid hb.valid (hknown ha.reg) (hknown hb.reg))
    have hbridge := hrel.hasLink_of_between hinc hout hexcluding fun h => by
      rw [h] at hab
      exact absurd hab (Nat.lt_irrefl _)
    refine ⟨_, hrel.hasLink_of_apart hwin hbridge ?_ ?_, Role.loopDepth_dep⟩
    · rw [Role.tailRole_dep]
      exact ha.apart
    · rw [Role.headRole_dep (.inr rfl)]
      exact hb.apart
  · have hlink := hd.hasLink_of_accesses hstill ha.reg hb.reg hab hw hex hself fun k hak hkb hk => by
      obtain rfl := hno k hak hkb hk
      exact hbetween ⟨hak, hkb⟩
    have hlink3 := (hrel.hasLink_reregistered hlink).rewires hrel.bridged
    refine ⟨_, hrel.hasLink_of_apart hwin hlink3 ?_ ?_, Role.loopDepth_dep⟩
    · rw [Role.tailRole_dep]
      exact ha.apart
    · rw [Role.headRole_dep hw]
      exact hb.apart

/-- Accesses to the old register outside the range are in the order of the program. -/
theorem Drawn.path_of_outside (hloop : p.isLoop = false) (ha : g.Outside range w old a ra)
    (hb : g.Outside range w old b rb) (hab : a.val < b.val) (hw : ra = .dest ∨ rb = .dest)
    (hex : g.Compatible a b) : TransGen g'.Before a b := by
  -- a certain write is taken as such, because it hides what else the move does with the register
  have hdest {n : MoveId} {role : Role} (hn : g.Outside range w old n role)
      (hk : p.KillsAt old n.val) : g.Outside range w old n .dest :=
    ⟨hn.valid, (hd.regOf_of_kill hstill hk).1, fun h => hn.ne (hrange.mem_writes.1 h), hn.guard, hn.ne⟩
  induction hlen : b.val - a.val using Nat.strongRecOn generalizing a b ra rb with
  | _ len ih =>
    by_cases hkill : ∃ k, a.val < k ∧ k < b.val ∧ p.KillsAt old k ∧ k ≠ w.val
    · obtain ⟨k, hak, hkb, hk, hkw⟩ := hkill
      obtain ⟨hkreg, hkguard⟩ := hd.regOf_of_kill (n := ⟨k⟩) hstill hk
      have hout : g.Outside range w old ⟨k⟩ .dest := by
        refine ⟨hd.valid_of_kill hstill hloop ha.reg hak hk, hkreg, ?_, ?_, ?_⟩
        · exact fun h => hkw (congrArg Id.val (hrange.mem_writes.1 h))
        · intro h
          obtain ⟨m, hm, hreg⟩ := regOf_eq_some.1 (hrange.regOf hg ht h)
          rw [hm, Option.map_some, Option.some.injEq] at hkguard
          simp [Move.regAt?, hkguard] at hreg
        · exact fun h => hkw (congrArg Id.val h)
      have hfirst := ih (k - a.val) (by omega) ha hout hak (.inr rfl) (compatible_unguarded hkguard).2 rfl
      have hsecond := ih (b.val - k) (by omega) hout hb hkb (.inl rfl) (compatible_unguarded hkguard).1 rfl
      exact hfirst.trans hsecond
    · have hno : ∀ k, a.val < k → k < b.val → p.KillsAt old k → k = w.val := by
        intro k hak hkb hk
        by_contra hne
        exact hkill ⟨k, hak, hkb, hk, hne⟩
      by_cases hself : p.KillsAt old a.val
      · exact .single (hd.before_of_neighbours hstill hg ht hrange hcertain hrel (hdest ha hself) hb hab
          (.inl rfl) hex (fun h => absurd rfl h) hno)
      · exact .single (hd.before_of_neighbours hstill hg ht hrange hcertain hrel ha hb hab hw hex
          (fun _ => hself) hno)

end

end Program

/-! ## The renaming -/

/-- `g'` is `g` with moves placed, or taken from their places, one after the other. -/
def Graph.Reseats (g g' : Graph) : Prop := ReflTransGen (fun g g' => ∃ n p, g.Places n p g') g g'

theorem Graph.Reseats.still {g g' : Graph} (h : g.Reseats g') : g.Still g' ∧ (g.Linked → g'.Linked) := by
  induction h with
  | refl => exact ⟨.refl, id⟩
  | tail _ hp ih =>
    obtain ⟨n, p, hp⟩ := hp
    exact ⟨ih.1.trans (.of_places hp), fun hg => hp.linked (ih.2 hg)⟩

theorem Graph.Reseats.of_setPlacement {g g' : Graph} {n : MoveId} {p : Option Placement}
    (h : g.setPlacement n p = .ok g') : g.Reseats g' := by
  obtain ⟨m, hm, -⟩ := setPlacement_ok h
  obtain ⟨hvalid, hm⟩ := move_eq_ok.1 hm
  exact .single ⟨n, p, places_of_rebinds .refl hvalid hm h⟩

namespace Program

open Transport.Graph

variable {p : Program} {machine : Machine} {g₀ g g' : Graph} {range : LiveRange} {w : MoveId} {new : Reg}
  {regs : List Reg} {rn' : Renamer} {mode : RenameMode} {u : RenameRecord}

section

variable (hd : p.Drawn machine g₀) (hstill : g₀.Still g)
include hd hstill

theorem Drawn.access_of_regOf {n : MoveId} {role : Role}
    {r : Reg} (hreg : g.regOf n role = some r) : (n, role) ∈ g.accesses r := by
  obtain ⟨m, hm, hr⟩ := regOf_eq_some.1 hreg
  have hlive := hstill.live n
  have hbare := hd.move? n
  rw [hm, Option.map_some] at hlive
  obtain ⟨m0, hm0, hsame⟩ := Option.map_eq_some_iff.1 hlive.symm
  rw [hm0, Option.map_some] at hbare
  obtain ⟨pm, -, hmarked⟩ := Option.map_eq_some_iff.1 hbare.symm
  refine mem_accesses.2 ⟨m, hm, ?_, hr⟩
  have hmarkedLive : (p.marked machine pm).live = true :=
    marked_field Move.live fun _ _ _ => rfl
  rw [← hsame, ← hmarkedLive, hmarked]
  rfl

theorem Drawn.lt_of_path (hs : p.Staged) {a b : MoveId} (h : TransGen g.Before a b) : a.val < b.val := by
  have hstep {a b : MoveId} (h : g.Before a b) : a.val < b.val := by
    obtain ⟨d, ⟨e, he⟩, h0⟩ := h
    exact hd.lt_of_before hs ⟨d, ⟨e, (hstill.link? e).symm.trans he⟩, h0⟩
  induction h with
  | single h => exact hstep h
  | tail _ h ih => exact Nat.lt_trans ih (hstep h)

theorem Drawn.relabels_of_rename {rn : Renamer}
    (hg : g.Linked) (ht : g.ValuesAgree) (hrange : g.liveRange w .dest = .ok range)
    (h : rn.rename g range new mode = .ok (some (u, rn', g'))) :
    g.ClosedRange range w u.old ∧ p.KillsAt u.old w.val ∧ g'.ValuesAgree ∧
      ∃ edges g₁ g₂ g₃, g.Relabels range w new edges g₁ g₂ g₃ g' := by
  obtain ⟨w', old, planned, needed, us, hmov, -, hplanned, hneeded, happlied, rfl, -⟩ :=
    Renamer.rename_eq_some h
  have hclosed := closedRange_of_movable hg hrange hmov ht
  obtain rfl := hclosed.eq_of_liveRange hg hrange
  obtain ⟨g₁, g₂, g₃, hrel⟩ := relabels_of_applyRename hg hclosed.writes happlied
  refine ⟨hclosed, ?_, ?_, needed, g₁, g₂, g₃, hrel⟩
  · obtain ⟨-, -, m, hm, -, hguard, -⟩ := movable_eq_some hmov
    obtain ⟨pm, hpm, heffect, hsame⟩ := hd.exists_move hstill (hclosed.regOf hg ht (hclosed.mem_writes.2 rfl))
    rw [hm, Option.map_some, hguard, Option.some.injEq] at hsame
    exact ⟨pm, hpm, writes_of_mem_uses heffect rfl, hsame.symm⟩
  · exact hrel.valuesAgree hg ht hclosed fun t h d hx =>
      separating_of_separatingEdges hclosed.writes hplanned (mem_of_neededEdges hneeded hx).1

end

/-- **A renaming keeps lifetimes apart.** The block may have moves placed. However the moves are placed in
the end, if all edges are kept then no other write of the new register comes between the write and a read
of the renamed range, and the write comes between no other write of the new register and a read of its
value. Accesses to the old register, outside the range and one of them a write, stay in order. -/
theorem rename_keeps_apart (hloop : p.isLoop = false) (hbuilt : p.graph machine = .ok g₀)
    (hplaced : g₀.Reseats g) (hrange : g.liveRange w .dest = .ok range)
    (hrename : (Renamer.ofGraph regs g).rename g range new mode = .ok (some (u, rn', g'))) :
    (∀ c, g'.Completes c →
      (∀ x y role, x ≠ w → (x, .dest) ∈ g'.accesses new → role ≠ .dest → y ∈ range.inRole role →
        ¬ (c w ≤ c x ∧ c x < g'.readTime c new role y)) ∧
      ∀ e l, g'.link? e = some l → l.live → l.dep.carries .raw new → range.contains l.tail = false →
        range.contains l.head = false →
          ¬ (c l.tail ≤ c w ∧ c w < g'.readTime c new l.dep.readRole l.head)) ∧
    ∀ a b ra rb, (a, ra) ∈ g.accesses u.old → (b, rb) ∈ g.accesses u.old → ra = .dest ∨ rb = .dest →
      range.contains a = false → range.contains b = false → g.excluding a b = .ok false →
        (a.val < b.val → TransGen g'.Before a b) ∧
          (p.Staged → TransGen g.Before a b → TransGen g'.Before a b) := by
  have hd := graph_drawn hbuilt
  obtain ⟨hstill, hlinked⟩ := hplaced.still
  have hg := hlinked hd.linked
  have ht := ((truthful_of_graph hbuilt).still hstill).valuesAgree
  obtain ⟨hclosed, hcertain, ht', edges, g₁, g₂, g₃, hrel⟩ :=
    hd.relabels_of_rename hstill hg ht hrange hrename
  have hw : w ∈ range.inRole .dest := hclosed.mem_writes.2 rfl
  have hnotin {x : MoveId} (hx : range.contains x = false) (role : Role) : x ∉ range.inRole role :=
    fun h => by rw [contains_eq_true.2 ⟨role, h⟩] at hx; cases hx
  -- what moves outside the range access they accessed before
  have haccess {x : MoveId} {role : Role} {r : Reg} (hx : x ∉ range.inRole role)
      (h : g'.regOf x role = some r) : (x, role) ∈ g.accesses r :=
    hd.access_of_regOf hstill (by rw [← hrel.regOf_other hx, ← hrel.regOf_settled, h])
  refine ⟨fun c hc => ?_, fun a b ra rb ha hb hwrite hina hinb hex => ?_⟩
  · have hdistinct := distinct_of_rename hg ht hrange hrename hc
    refine ⟨fun x y role hx hwrites hrole hy => ?_, fun e l hl hlive hcarries htail hhead => ?_⟩
    · exact hdistinct.not_overwritten
        (haccess (fun h => hx (hclosed.mem_writes.1 h)) (regOf_of_access hwrites)) hrole hy
    · have htag := hcarries
      simp only [Dependence.carries, Bool.and_eq_true, decide_eq_true_eq] at htag
      obtain ⟨r, hr, hwrites, hreads⟩ := ht'.carries hl hlive (by simp [Dependence.isRaw, htag.1])
      simp only [Dependence.carries, Bool.and_eq_true, decide_eq_true_eq] at hr
      obtain rfl : new = r := Option.some.inj (htag.2.symm.trans hr.2)
      exact hdistinct.not_disturbed hw (haccess (hnotin htail _) hwrites)
        (by unfold Dependence.readRole; split <;> simp) (haccess (hnotin hhead _) hreads)
  · obtain ⟨hva, hvb⟩ : a ≠ .invalid ∧ b ≠ .invalid := by
      simp only [excluding, bind_eq_ok] at hex
      obtain ⟨_, ha, _, hb, -⟩ := hex
      exact ⟨(move_eq_ok.1 ha).1, (move_eq_ok.1 hb).1⟩
    have hout {n : MoveId} {role : Role} (hv : n ≠ .invalid) (hn : (n, role) ∈ g.accesses u.old)
        (hin : range.contains n = false) : g.Outside range w u.old n role :=
      ⟨hv, regOf_of_access hn, hnotin hin role, hnotin hin .guard, fun h => hnotin hin .dest (h ▸ hw)⟩
    have hpath (hab : a.val < b.val) : TransGen g'.Before a b :=
      hd.path_of_outside hstill hg ht hclosed hcertain hrel hloop (hout hva ha hina) (hout hvb hb hinb)
        hab hwrite (compatible_of_excluding hex)
    exact ⟨hpath, fun hs h => hpath (hd.lt_of_path hstill hs h)⟩

/-! ### A register that is over -/

/-- The second value in `r0` can go to `r1` once the moves 0 and 1 are placed. -/
def overwritesTwice : Program :=
  let reg (i : Nat) : Terminal := .register ⟨⟨0⟩, i⟩
  { moves := #[{ src := .immediate 5, dst := reg 1 }, { src := reg 1, dst := reg 2 },
      { src := .immediate 1, dst := reg 0 }, { src := reg 0, dst := reg 2 },
      { src := .immediate 6, dst := reg 0 }, { src := reg 0, dst := reg 2 },
      { src := .immediate 7, dst := reg 0 }, { src := reg 0, dst := reg 3 }]
    liveOut := some ∅ }

/-- Place two moves, then give the range that move 4 writes the register `r1`. -/
def renameSecond (g₀ : Graph) : Checked (Graph × LiveRange × Option (RenameRecord × Renamer × Graph)) := do
  let g₁ ← g₀.setPlacement ⟨0⟩ (some ⟨0, ⟨0⟩⟩)
  let g ← g₁.setPlacement ⟨1⟩ (some ⟨1, ⟨0⟩⟩)
  let range ← g.liveRange ⟨4⟩ .dest
  let x ← (Renamer.ofGraph adder.usableRegisters g).rename g range ⟨⟨0⟩, 1⟩ .reuseBefore
  return (g, range, x)

theorem rename_keeps_apart_overwritesTwice : ∃ g₀ g range u rn' g',
    overwritesTwice.graph adder = .ok g₀ ∧ g₀.Reseats g ∧ g.liveRange ⟨4⟩ .dest = .ok range ∧
    (Renamer.ofGraph adder.usableRegisters g).rename g range ⟨⟨0⟩, 1⟩ .reuseBefore =
      .ok (some (u, rn', g')) ∧
    g'.Completes (fun n => n.val) ∧
    (∀ c, g'.Completes c → ¬ (c ⟨4⟩ ≤ c ⟨0⟩ ∧ c ⟨0⟩ < c ⟨5⟩)) ∧ TransGen g'.Before ⟨3⟩ ⟨6⟩ := by
  obtain ⟨g₀, hg₀, hrun⟩ := exists_ok_of_any (p := fun g₀ => (renameSecond g₀).toOption.any fun x =>
      x.2.2.any fun y => decide (y.2.2.Completes (fun n => n.val)) &&
        decide ((⟨0⟩, Role.dest) ∈ y.2.2.accesses ⟨⟨0⟩, 1⟩) && decide (⟨5⟩ ∈ x.2.1.inRole .source) &&
        decide ((⟨3⟩, Role.source) ∈ x.1.accesses y.1.old) &&
        decide ((⟨6⟩, Role.dest) ∈ x.1.accesses y.1.old) &&
        !x.2.1.contains ⟨3⟩ && !x.2.1.contains ⟨6⟩ &&
        (x.1.excluding ⟨3⟩ ⟨6⟩).toOption.any (!·))
    (show (overwritesTwice.graph adder).toOption.any _ by decide +kernel)
  obtain ⟨⟨_, _, x⟩, hrun, hfacts⟩ := exists_ok_of_any hrun
  simp only [Option.any_eq_true, Bool.and_eq_true, decide_eq_true_eq, Bool.not_eq_true'] at hfacts
  obtain ⟨⟨u, rn', g'⟩, rfl, ⟨⟨⟨⟨⟨⟨hc, h0⟩, h5⟩, h3⟩, h6⟩, hout3⟩, hout6⟩, excluding, hex, rfl⟩ := hfacts
  simp only [renameSecond, bind_eq_ok, pure_eq_ok, Prod.mk.injEq] at hrun
  obtain ⟨g₁, hplace₁, g, hplace, range, hrange, _, hrename, rfl, rfl, rfl⟩ := hrun
  have hplaced := (Graph.Reseats.of_setPlacement hplace₁).trans (Graph.Reseats.of_setPlacement hplace)
  have hkeeps := rename_keeps_apart rfl hg₀ hplaced hrange hrename
  refine ⟨g₀, g, range, u, rn', g', hg₀, hplaced, hrange, hrename, hc, fun c hc => ?_, ?_⟩
  · exact (hkeeps.1 c hc).1 ⟨0⟩ ⟨5⟩ .source (by decide) h0 (by decide) h5
  · have hex : g.excluding ⟨3⟩ ⟨6⟩ = .ok false := by
      revert hex
      cases g.excluding ⟨3⟩ ⟨6⟩ <;> simp [Except.toOption]
    exact (hkeeps.2 ⟨3⟩ ⟨6⟩ .source .dest h3 h6 (.inr rfl) hout3 hout6 hex).1 (by decide)

end Program

end Transport
