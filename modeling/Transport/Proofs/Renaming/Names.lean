import Transport.Proofs.Renaming.Range

/-!
# Tags name what moves access

The tag of a register edge is the register that both of its moves access, each in the role that the
kind of the edge gives it: `Agrees`. A renaming gives a whole live range another register, and its
decisions about the edges around the range follow what the moves then access. So where the tags
agreed before, they agree afterwards.
-/

namespace Transport

namespace Dependence

/-- In which role the reading end of the edge reads. -/
def readRole (d : Dependence) : Role := if d.guardUse then .guard else .source

/-- In which role the tail of a register edge accesses the register. -/
def tailRole (d : Dependence) : Role :=
  match d.hazard with
  | .war => d.readRole
  | _ => .dest

/-- In which role the head of a register edge accesses the register. -/
def headRole (d : Dependence) : Role :=
  match d.hazard with
  | .raw => d.readRole
  | _ => .dest

variable {d d' : Dependence}

theorem tailRole_of_untagged (h : d'.untagged = d.untagged) : d'.tailRole = d.tailRole :=
  show d'.untagged.tailRole = d.untagged.tailRole by rw [h]

theorem headRole_of_untagged (h : d'.untagged = d.untagged) : d'.headRole = d.headRole :=
  show d'.untagged.headRole = d.untagged.headRole by rw [h]

end Dependence

namespace Graph

/-- The register that a move accesses in a role. -/
def regOf (g : Graph) (n : MoveId) (role : Role) : Option Reg := (g.move? n).bind (·.regAt? role)

/-- A register edge is tagged with the register that both ends access. -/
def Agrees (g : Graph) (l : Link) : Prop :=
  l.dep.reason = .register → l.dep.hazard ≠ .unknown → l.dep.reg?.isSome ∧
    g.regOf l.tail l.dep.tailRole = l.dep.reg? ∧ g.regOf l.head l.dep.headRole = l.dep.reg?

instance {g : Graph} {l : Link} : Decidable (g.Agrees l) :=
  inferInstanceAs (Decidable (_ → _ → _ ∧ _ ∧ _))

/-- By the registers `ρ`, a register edge is tagged with what its tail accesses, and with what its
head accesses if `P` holds. -/
def AgreesBy (ρ : MoveId → Role → Option Reg) (P : Prop) (l : Link) : Prop :=
  l.dep.reason = .register → l.dep.hazard ≠ .unknown → l.dep.reg?.isSome ∧
    ρ l.tail l.dep.tailRole = l.dep.reg? ∧ (P → ρ l.head l.dep.headRole = l.dep.reg?)

/-- Every edge in the graph agrees. -/
def Agreeing (g : Graph) : Prop := ∀ e l, g.link? e = some l → l.live → g.Agrees l

/-- Every edge along which a value travels agrees. -/
def ValuesAgree (g : Graph) : Prop :=
  ∀ e l, g.link? e = some l → l.live → l.dep.isRaw → g.Agrees l

variable {g g' g1 g2 g3 : Graph} {n w x : MoveId} {m : Move} {e : EdgeId} {l l' : Link}
  {old new r : Reg} {range : LiveRange} {role : Role} {start : MoveId × Role}
  {edges : List (MoveId × MoveId × Dependence)}

theorem Agreeing.values (h : g.Agreeing) : g.ValuesAgree := fun e l hl hlive _ => h e l hl hlive

theorem regOf_congr (h : g.SameMoves g') : g'.regOf n role = g.regOf n role :=
  h.bind_eq fun _ => regAt?_bare rfl role

theorem regOf_eq_some : g.regOf n role = some r ↔ ∃ m, g.move? n = some m ∧ m.regAt? role = some r :=
  Option.bind_eq_some_iff

theorem agreesBy_true : AgreesBy g.regOf True l ↔ g.Agrees l := by
  simp only [AgreesBy, Agrees, forall_const]

theorem AgreesBy.mono {ρ : MoveId → Role → Option Reg} {P Q : Prop} (h : AgreesBy ρ P l) (hP : Q → P) :
    AgreesBy ρ Q l := by
  intro hreason hknown
  obtain ⟨hsome, htail, hhead⟩ := h hreason hknown
  exact ⟨hsome, htail, fun hQ => hhead (hP hQ)⟩

/-! ## The range -/

theorem ValuesAgree.carries (ht : g.ValuesAgree) (hl : g.link? e = some l) (hlive : l.live)
    (hraw : l.dep.isRaw) : ∃ r, l.dep.carries .raw r ∧ g.regOf l.tail .dest = some r ∧
      g.regOf l.head l.dep.readRole = some r := by
  have hag := ht e l hl hlive hraw
  rw [Dependence.isRaw_iff] at hraw
  obtain ⟨hsome, htail, hhead⟩ := hag hraw.1 (by simp [hraw.2])
  obtain ⟨r, hr⟩ := Option.isSome_iff_exists.1 hsome
  refine ⟨r, by simp [Dependence.carries, hraw, hr], ?_, ?_⟩
  · simpa [Dependence.tailRole, hraw.2, hr] using htail
  · simpa [Dependence.headRole, hraw.2, hr] using hhead

theorem ValuesAgree.regOf (ht : g.ValuesAgree) (hl : g.link? e = some l) (hlive : l.live)
    (hr : l.dep.carries .raw r) : g.regOf l.tail .dest = some r ∧ g.regOf l.head l.dep.readRole = some r := by
  obtain ⟨r', hr', hends⟩ := ht.carries hl hlive (Dependence.isRaw_of_carries hr)
  rw [Dependence.carries_iff] at hr hr'
  obtain rfl : r' = r := Option.some.inj (hr'.2.symm.trans hr.2)
  exact hends

/-- Every move of the range accesses the register in its role. -/
theorem Ranging.regOf (h : g.Ranging r start [] range []) (hg : g.Linked) (ht : g.ValuesAgree)
    (hstart : g.regOf start.1 start.2 = some r) (hx : x ∈ range.inRole role) :
    g.regOf x role = some r := by
  rcases h.justified hx with hs | ⟨role', y, l, -, hl, hend⟩
  · rw [← hs] at hstart
    exact hstart
  · obtain ⟨⟨e, he⟩, hlive, -, hcarries⟩ := (mem_valueEdges hg).1 hl
    obtain ⟨htail, hhead⟩ := ht.regOf he hlive hcarries
    cases hb : decide (role' = .dest) with
    | true =>
      rw [hb, otherEnd, if_pos rfl, Prod.mk.injEq] at hend
      rw [← hend.1, ← hend.2]
      exact hhead
    | false =>
      rw [hb, otherEnd, if_neg (by simp), Prod.mk.injEq] at hend
      rw [← hend.1, ← hend.2]
      exact htail

/-- A closed live range of `old` with one write, `w`. -/
structure ClosedRange (g : Graph) (range : LiveRange) (w : MoveId) (old : Reg) : Prop where
  ranging : ∃ start, g.Ranging old start [] range [] ∧ g.regOf start.1 start.2 = some old
  writes : range.writes.toList = [w]

namespace ClosedRange

section

variable (h : g.ClosedRange range w old)
include h

theorem mem_writes : x ∈ range.inRole .dest ↔ x = w := LiveRange.mem_dest h.writes

theorem regOf (hg : g.Linked) (ht : g.ValuesAgree) (hx : x ∈ range.inRole role) : g.regOf x role = some old := by
  obtain ⟨start, hranging, hstart⟩ := h.ranging
  exact hranging.regOf hg ht hstart hx

/-- The edges of the register at a move of the range stay in the range. -/
theorem handled (hx : x ∈ range.inRole role) : g.Handled old range (decide (role = .dest)) x := by
  obtain ⟨start, hranging, -⟩ := h.ranging
  exact hranging.handled hx

section

variable (hg : g.Linked) (ht : g.ValuesAgree) (hl : g.link? e = some l) (hlive : l.live) (hraw : l.dep.isRaw)
include hg ht hl hlive hraw

/-- The value of the write reaches moves of the range only, and in the same iteration. -/
theorem read_of_write (htail : l.tail = w) :
    l.dep.isBack = false ∧ l.dep.isPseudo = false ∧ l.head ∈ range.inRole l.dep.readRole := by
  have hw : w ∈ range.inRole .dest := h.mem_writes.2 rfl
  obtain ⟨r, hcarries, hdst, -⟩ := ht.carries hl hlive hraw
  rw [htail, h.regOf hg ht hw] at hdst
  cases hdst
  exact h.handled hw l ((mem_valueEdges hg).2 ⟨⟨e, hl⟩, hlive, htail, hcarries⟩)

/-- The reads of the range have no other value to read. -/
theorem write_of_read (hhead : l.head ∈ range.inRole l.dep.readRole) : l.tail = w := by
  obtain ⟨r, hcarries, -, hread⟩ := ht.carries hl hlive hraw
  rw [h.regOf hg ht hhead] at hread
  cases hread
  have hrole : decide (l.dep.readRole = .dest) = false := by
    cases hguard : l.dep.guardUse <;> simp [Dependence.readRole, hguard]
  have hclosed := h.handled hhead
  rw [hrole] at hclosed
  have hmem := hclosed l ((mem_valueEdges hg).2 ⟨⟨e, hl⟩, hlive, rfl, hcarries⟩)
  exact h.mem_writes.1 hmem.2.2

end

end

end ClosedRange

/-! ## What a renaming consists of -/

theorem closedRange_of_movable (hg : g.Linked) (hrange : g.liveRange n role = .ok range)
    (hmov : Renamer.movable g range = .ok (some (w, old))) (ht : g.ValuesAgree) :
    g.ClosedRange range w old := by
  obtain ⟨hw, -, m, hm, hdst, -⟩ := movable_eq_some hmov
  obtain ⟨m0, r, hm0, hr, hranging⟩ := ranging_of_liveRange hg hrange (by simp [hw])
  have hstart : g.regOf n role = some r := regOf_eq_some.2 ⟨m0, hm0, hr⟩
  have hreg : g.regOf w .dest = some r := hranging.regOf hg ht hstart ((LiveRange.mem_dest hw).2 rfl)
  have hold : g.regOf w .dest = some old :=
    regOf_eq_some.2 ⟨m, hm, by simp [Move.regAt?, hdst, Terminal.reg?]⟩
  rw [hreg] at hold
  cases hold
  exact ⟨⟨(n, role), hranging, hstart⟩, hw⟩

/-- An end of an edge that keeps a range apart accesses the new register, or will. -/
def Meets (g : Graph) (range : LiveRange) (r : Reg) (n : MoveId) (role : Role) : Prop :=
  g.regOf n role = some r ∨ n ∈ range.inRole role

/-- An edge that keeps a range with the write `w` apart from the other lifetimes of `r`. -/
structure Separating (g : Graph) (range : LiveRange) (r : Reg) (t h : MoveId) (d : Dependence) :
    Prop where
  reason : d.reason = .register
  hazard : d.hazard = .war ∨ d.hazard = .waw
  reg : d.reg? = some r
  pseudo : d.isPseudo = false
  depth : d.loopDepth = 0
  tail : g.Meets range r t d.tailRole
  head : g.Meets range r h d.headRole

theorem regOf_of_access (h : (n, role) ∈ g.accesses r) : g.regOf n role = some r := by
  obtain ⟨m, hm, -, hr⟩ := mem_accesses.1 h
  exact regOf_eq_some.2 ⟨m, hm, hr⟩

theorem separating_behind {t h : MoveId} (ht : g.Meets range r t role) (hh : g.Meets range r h .dest) :
    g.Separating range r t h (behind r role) := by
  cases role with
  | dest => exact ⟨rfl, .inr rfl, rfl, rfl, rfl, ht, hh⟩
  | source => exact ⟨rfl, .inl rfl, rfl, rfl, rfl, ht, hh⟩
  | guard => exact ⟨rfl, .inl rfl, rfl, rfl, rfl, ht, hh⟩

theorem separating_of_separatingEdges {rn : Renamer} {mode : RenameMode}
    {planned : List (MoveId × MoveId × Dependence)} {t h : MoveId} {d : Dependence}
    (hw : range.writes.toList = [w])
    (hplanned : g.separatingEdges rn range w r mode = .ok (some planned))
    (hd : (t, h, d) ∈ planned) : g.Separating range r t h d := by
  rcases separatingEdges_eq_some hplanned with ⟨-, rfl⟩ | ⟨-, rfl, -⟩ | ⟨-, -, rfl, -⟩
  · cases hd
  · obtain ⟨role, ht, rfl, rfl⟩ := access_of_mem_edgesBehind hd
    exact separating_behind (.inl (regOf_of_access ht)) (.inr ((LiveRange.mem_dest hw).2 rfl))
  · obtain ⟨role, ht, hh, rfl⟩ := (mem_edgesBefore hw).1 hd
    exact separating_behind (.inr ht) (.inl (regOf_of_access (access_of_mem hh)))

/-! ## The registers afterwards -/

theorem Reregisters.regOf_self (h : g.Reregisters r range.roles g') (hx : x ∈ range.inRole role)
    (hreg : (g.regOf x role).isSome) : g'.regOf x role = some r := by
  obtain ⟨r', hr'⟩ := Option.isSome_iff_exists.1 hreg
  obtain ⟨m, hm, hr'⟩ := regOf_eq_some.1 hr'
  have hm' : g'.move? x = some (m.setRegs r range.roles x) := by rw [h.move?, hm]; rfl
  refine regOf_eq_some.2 ⟨_, hm', h.regAt_self hx hm' ?_⟩
  rintro rfl
  obtain ⟨guard, hguard, -⟩ := Option.map_eq_some_iff.1 hr'
  simp [Move.setRegs, hguard, mem_roles.2 hx]

theorem Reregisters.regOf_other (h : g.Reregisters r range.roles g') (hx : x ∉ range.inRole role) :
    g'.regOf x role = g.regOf x role := by
  have hrole : (x, role) ∉ range.roles := fun hmem => hx (mem_roles.1 hmem)
  rw [regOf, regOf, h.move?]
  cases g.move? x with
  | none => rfl
  | some m => cases role <;> simp [Move.regAt?, Move.setRegs, hrole]

namespace Relabels

variable (h : g.Relabels range w r edges g1 g2 g3 g')
include h

theorem regOf_settled : g'.regOf x role = g2.regOf x role :=
  (regOf_congr h.settled.moves).trans (regOf_congr h.bridged.moves)

theorem regOf_self (hx : x ∈ range.inRole role) (hreg : (g.regOf x role).isSome) :
    g2.regOf x role = some r :=
  h.reregisters.regOf_self hx (by rwa [regOf_congr h.planned.moves])

theorem regOf_other (hx : x ∉ range.inRole role) : g2.regOf x role = g.regOf x role :=
  (h.reregisters.regOf_other hx).trans (regOf_congr h.planned.moves)

/-- The edges that the write has when the order around it is bridged. -/
theorem origin (hl : g2.link? e = some l) (hlive : l.live) :
    g.link? e = some l ∨ (l.tail, l.head, l.dep) ∈ edges := by
  rw [h.reregisters.link?] at hl
  rcases h.planned.live_or_new hl hlive with hold | hnew
  · exact .inl hold
  · exact .inr hnew

/-- Where an edge that the renaming settles comes from. -/
theorem origin_bridged (hl : g3.link? e = some l) (hlive : l.live) :
    g.link? e = some l ∨ (l.tail, l.head, l.dep) ∈ edges ∨ g2.IsBridge w l.tail l.head l.dep := by
  rcases h.bridged.live_or_new hl hlive with hold | hnew
  · exact (h.origin hold hlive).imp id .inl
  · exact .inr (.inr hnew)

/-- An edge after the renaming is one that was settled. -/
theorem settled_link (hl : g'.link? e = some l) (hlive : l.live) :
    ∃ l0, g3.link? e = some l0 ∧ l0.live ∧ l = settle r (g2.decisions range w r) l0 := by
  rw [h.settled.link?] at hl
  obtain ⟨l0, hl0, rfl⟩ := Option.map_eq_some_iff.1 hl
  refine ⟨l0, hl0, ?_, rfl⟩
  cases hdead : l0.live with
  | true => rfl
  | false => rw [settle_of_dead hdead, hdead] at hlive; cases hlive

end Relabels

theorem tag_of_bridge {inc out : Link} {d : Dependence} (h : g.bridge inc out = .ok (some d)) :
    inc.dep.reg? = out.dep.reg? := by
  unfold bridge at h
  split at h
  case isFalse => simp at h
  rename_i hcond
  simp only [Bool.and_eq_true, decide_eq_true_eq] at hcond
  exact hcond.2

/-! ## Decisions follow the registers -/

section Decisions

/-- One of the two ends accesses the register of the range. -/
def Reaches (range : LiveRange) (l : Link) : Prop :=
  l.tail ∈ range.inRole l.dep.tailRole ∨ l.head ∈ range.inRole l.dep.headRole

variable {d : Link → Option Bool}

/-- Only edges at the range are decided about. -/
theorem reaches_of_decision (hw : w ∈ range.inRole .dest) (hd : d ∈ g.decisions range w r)
    (hne : d l ≠ none) : Reaches range l := by
  simp only [decisions, List.mem_append, List.mem_cons, List.not_mem_nil, or_false, List.mem_map,
    Std.ExtTreeSet.mem_toList] at hd
  rcases hd with ((rfl | rfl) | ⟨y, hy, rfl⟩) | ⟨y, hy, rfl⟩
  · unfold entryDecision at hne
    split at hne
    case isFalse => exact absurd rfl hne
    rename_i hhead
    refine .inr ?_
    have hrole : l.dep.headRole = .dest := by
      cases hhazard : l.dep.hazard <;> simp [Dependence.headRole, hhazard]
      simp only [entryGone?, hhazard] at hne
      split at hne
      · exact absurd rfl hne
      · cases hm : g.move? l.tail <;> simp [hm] at hne
    rw [hhead, hrole]
    exact hw
  · unfold exitDecision at hne
    split at hne
    case isFalse => exact absurd rfl hne
    rename_i htail
    refine .inl ?_
    have hrole : l.dep.tailRole = .dest := by
      cases hhazard : l.dep.hazard <;> simp [Dependence.tailRole, hhazard]
      simp [exitGone?, hhazard] at hne
    rw [htail, hrole]
    exact hw
  all_goals
    unfold readDecision isReadOrder at hne
    split at hne
    case isFalse => exact absurd rfl hne
    rename_i hcond
    simp only [Bool.and_eq_true, decide_eq_true_eq] at hcond
    obtain ⟨⟨⟨⟨rfl, -⟩, hwar⟩, -⟩, hguard⟩ := hcond
    exact .inl (by
      simpa [Dependence.tailRole, Dependence.readRole, hwar, hguard, LiveRange.inRole] using hy)

theorem writesOther_eq_false {ρ : Reg} (h : g.writesOther n r = false)
    (hreg : g.regOf n .dest = some ρ) : ρ = r := by
  have hreg : ((g.move? n).bind fun m => m.dst.reg?) = some ρ := hreg
  simpa [writesOther, hreg] using h

theorem mem_decisions_read (hx : x ∈ range.inRole l.dep.readRole) :
    g.readDecision r l.dep.guardUse x ∈ g.decisions range w r := by
  simp only [decisions, List.mem_append, List.mem_map, Std.ExtTreeSet.mem_toList]
  cases hguard : l.dep.guardUse with
  | true => exact .inr ⟨x, by simpa [Dependence.readRole, hguard, LiveRange.inRole] using hx, rfl⟩
  | false => exact .inl (.inr ⟨x, by simpa [Dependence.readRole, hguard, LiveRange.inRole] using hx, rfl⟩)

section

variable (hreason : l.dep.reason = .register)
include hreason

theorem readDecision_self (hpseudo : l.dep.isPseudo = false) (hwar : l.dep.hazard = .war) :
    g.readDecision r l.dep.guardUse l.tail l = some (g.writesOther l.head r) := by
  simp only [Dependence.isPseudo, Bool.or_eq_false_iff] at hpseudo
  simp [readDecision, isReadOrder, hreason, hwar, hpseudo]

theorem entryDecision_self {ρ : Reg}
    (hpseudo : l.dep.isPseudo = false) (hhazard : l.dep.hazard = .war ∨ l.dep.hazard = .waw)
    (htail : g.regOf l.tail l.dep.tailRole = some ρ) :
    g.entryDecision l.head r l = some (decide (ρ ≠ r)) := by
  simp only [Dependence.isPseudo, Bool.or_eq_false_iff] at hpseudo
  obtain ⟨m, hm, hreg⟩ := regOf_eq_some.1 htail
  rcases hhazard with hhazard | hhazard
  · cases hguard : l.dep.guardUse with
    | true =>
      simp only [Dependence.tailRole, Dependence.readRole, hhazard, hguard, if_true] at hreg
      obtain ⟨guard, hguard', rfl⟩ := Option.map_eq_some_iff.1 hreg
      simp [entryDecision, entryGone?, hreason, hpseudo, hm, hhazard, hguard, hguard']
    | false =>
      simp only [Dependence.tailRole, Dependence.readRole, hhazard, hguard, Bool.false_eq_true,
        if_false] at hreg
      have hreg : m.src.reg? = some ρ := hreg
      simp [entryDecision, entryGone?, hreason, hpseudo, hm, hhazard, hguard, hreg]
  · simp only [Dependence.tailRole, hhazard] at hreg
    have hreg : m.dst.reg? = some ρ := hreg
    simp [entryDecision, entryGone?, hreason, hpseudo, hm, hhazard, hreg]

/-- An edge at the range that is not cut joins two accesses to the new register. -/
theorem regOf_of_decisions (hknown : l.dep.hazard ≠ .unknown)
    (hpseudo : l.dep.isPseudo = false) (hmem : ∀ x, x ∈ range.inRole .dest ↔ x = w)
    (hin : ∀ x role, x ∈ range.inRole role → (g.regOf x role).isSome → g.regOf x role = some r)
    (htail : (g.regOf l.tail l.dep.tailRole).isSome)
    (hvalue : l.dep.isRaw → (l.tail = w ↔ l.head ∈ range.inRole l.dep.readRole))
    (hlive : ∀ d ∈ g.decisions range w r, d l ≠ some true) (hreach : Reaches range l) :
    g.regOf l.tail l.dep.tailRole = some r ∧
      ((g.regOf l.head l.dep.headRole).isSome → g.regOf l.head l.dep.headRole = some r) ∧
      ∃ d ∈ g.decisions range w r, d l = some false := by
  obtain ⟨ρ, hρ⟩ := Option.isSome_iff_exists.1 htail
  -- the edge enters the write
  have hentry (hh : l.head = w) (hhazard : l.dep.hazard = .war ∨ l.dep.hazard = .waw) :
      g.regOf l.tail l.dep.tailRole = some r ∧ ∃ d ∈ g.decisions range w r, d l = some false := by
    have hd : g.entryDecision w r ∈ g.decisions range w r := by simp [decisions]
    have hdecided := entryDecision_self (r := r) hreason hpseudo hhazard hρ
    rw [hh] at hdecided
    have heq : ρ = r := by
      by_contra hne
      exact hlive _ hd (by rw [hdecided]; simp [hne])
    exact ⟨heq ▸ hρ, _, hd, by rw [hdecided]; simp [heq]⟩
  -- the edge leaves a move of the range for a move that may write something else
  have hexit {d : Link → Option Bool} (hd : d ∈ g.decisions range w r)
      (hdecided : d l = some (g.writesOther l.head r)) (hrole : l.dep.headRole = .dest) :
      ((g.regOf l.head l.dep.headRole).isSome → g.regOf l.head l.dep.headRole = some r) ∧
        ∃ d ∈ g.decisions range w r, d l = some false := by
    have hother : g.writesOther l.head r = false := by
      by_contra hne
      exact hlive d hd (by rw [hdecided]; simpa using hne)
    refine ⟨fun hhead => ?_, d, hd, by rw [hdecided, hother]⟩
    obtain ⟨σ, hσ⟩ := Option.isSome_iff_exists.1 hhead
    rw [hrole] at hσ ⊢
    exact writesOther_eq_false hother hσ ▸ hσ
  have hleaves : g.exitDecision w r ∈ g.decisions range w r := by simp [decisions]
  have hno := hpseudo
  simp only [Dependence.isPseudo, Bool.or_eq_false_iff] at hno
  cases hhazard : l.dep.hazard with
  | unknown => exact absurd hhazard hknown
  | raw =>
    have hraw : l.dep.isRaw := by simp [Dependence.isRaw, hreason, hhazard]
    have ht : l.dep.tailRole = .dest := by simp [Dependence.tailRole, hhazard]
    have hh : l.dep.headRole = l.dep.readRole := by simp [Dependence.headRole, hhazard]
    have hw : l.tail = w := by
      rcases hreach with hreach | hreach
      · exact (hmem _).1 (ht ▸ hreach)
      · exact (hvalue hraw).2 (hh ▸ hreach)
    refine ⟨hin _ _ (ht ▸ (hmem _).2 hw) htail, hin _ _ (hh ▸ (hvalue hraw).1 hw), _, hleaves, ?_⟩
    simp [exitDecision, exitGone?, hw, hreason, hno, hhazard]
  | war =>
    have ht : l.dep.tailRole = l.dep.readRole := by simp [Dependence.tailRole, hhazard]
    have hh : l.dep.headRole = .dest := by simp [Dependence.headRole, hhazard]
    rcases hreach with hreach | hreach
    · exact ⟨hin _ _ hreach htail, hexit (mem_decisions_read (ht ▸ hreach))
        (readDecision_self hreason hpseudo hhazard) hh⟩
    · have hentered := hentry ((hmem _).1 (hh ▸ hreach)) (.inl hhazard)
      exact ⟨hentered.1, hin _ _ hreach, hentered.2⟩
  | waw =>
    have ht : l.dep.tailRole = .dest := by simp [Dependence.tailRole, hhazard]
    have hh : l.dep.headRole = .dest := by simp [Dependence.headRole, hhazard]
    rcases hreach with hreach | hreach
    · have hw : l.tail = w := (hmem _).1 (ht ▸ hreach)
      exact ⟨hin _ _ hreach htail, hexit hleaves
        (by simp [exitDecision, exitGone?, hw, hreason, hno, hhazard]) hh⟩
    · have hentered := hentry ((hmem _).1 (hh ▸ hreach)) (.inr hhazard)
      exact ⟨hentered.1, hin _ _ hreach, hentered.2⟩

end

/-- What is settled about an edge at the range follows the registers of its moves, and other edges
are left alone. -/
theorem agreesBy_settle {P : Prop} (hlive : l.live) (hsettled : (settle r (g.decisions range w r) l).live)
    (hpseudo : Reaches range l → l.dep.isPseudo = false)
    (hmem : ∀ x, x ∈ range.inRole .dest ↔ x = w)
    (hin : ∀ x role, x ∈ range.inRole role → (g.regOf x role).isSome → g.regOf x role = some r)
    (hends : l.dep.reason = .register → l.dep.hazard ≠ .unknown →
      (g.regOf l.tail l.dep.tailRole).isSome ∧ (P → (g.regOf l.head l.dep.headRole).isSome))
    (hvalue : l.dep.isRaw → (l.tail = w ↔ l.head ∈ range.inRole l.dep.readRole)) :
    AgreesBy g.regOf P (settle r (g.decisions range w r) l) ∨
      ¬ Reaches range l ∧ settle r (g.decisions range w r) l = l := by
  by_cases hreach : Reaches range l
  · refine .inl fun hreason hknown => ?_
    obtain ⟨heqt, heqh, hdep⟩ := @settle_ends l r (g.decisions range w r)
    rw [Dependence.reason_of_untagged hdep] at hreason
    rw [Dependence.hazard_of_untagged hdep] at hknown
    obtain ⟨htail, hhead⟩ := hends hreason hknown
    obtain ⟨ht, hh, d, hd, hfalse⟩ := regOf_of_decisions hreason hknown (hpseudo hreach) hmem hin htail
      hvalue ((settle_live (fun d => stable_of_mem_decisions) hlive).1 hsettled) hreach
    rw [heqt, heqh, Dependence.tailRole_of_untagged hdep, Dependence.headRole_of_untagged hdep]
    rcases settle_tag (fun d => stable_of_mem_decisions) hsettled hlive with ⟨htag, -⟩ | ⟨-, hnone⟩
    · rw [htag]
      exact ⟨rfl, ht, fun hP => hh (hhead hP)⟩
    · rw [hnone d hd] at hfalse
      cases hfalse
  · rcases settle_tag (fun d => stable_of_mem_decisions) hsettled hlive with
      ⟨-, d, hd, hfalse⟩ | ⟨hsame, -⟩
    · exact absurd (reaches_of_decision ((hmem w).2 rfl) hd (by simp [hfalse])) hreach
    · exact .inr ⟨hreach, hsame⟩

end Decisions

/-! ## The renaming as a whole -/

/-- What is said of a move while a range is given the register `new`: it accesses `ρ` in a role, or
it is about to. -/
def Names (g : Graph) (range : LiveRange) (new ρ : Reg) (x : MoveId) (role : Role) : Prop :=
  g.regOf x role = some ρ ∨ ρ = new ∧ x ∈ range.inRole role

/-- The tag of an edge is what is said of its tail, and of its head if `P` holds. -/
def Tells (g : Graph) (range : LiveRange) (new : Reg) (P : Prop) (l : Link) : Prop :=
  l.dep.reason = .register → l.dep.hazard ≠ .unknown → ∃ ρ, l.dep.reg? = some ρ ∧
    g.Names range new ρ l.tail l.dep.tailRole ∧ (P → g.Names range new ρ l.head l.dep.headRole)

theorem AgreesBy.tells {P : Prop} (h : AgreesBy g.regOf P l) : g.Tells range new P l := by
  intro hreason hknown
  obtain ⟨hsome, htail, hhead⟩ := h hreason hknown
  obtain ⟨ρ, hρ⟩ := Option.isSome_iff_exists.1 hsome
  rw [hρ] at htail hhead
  exact ⟨ρ, hρ, .inl htail, fun hP => .inl (hhead hP)⟩

theorem Meets.names (h : g.Meets range r x role) : g.Names range r r x role :=
  h.imp id fun hx => ⟨rfl, hx⟩

theorem Separating.tells {P : Prop} (h : g.Separating range r l.tail l.head l.dep) :
    g.Tells range r P l :=
  fun _ _ => ⟨r, h.reg, h.tail.names, fun _ => h.head.names⟩

/-- The order that a write imposes on its neighbours is about the register of both edges. -/
theorem Bridged.tells {inc out : Link} {P Q : Prop} (h : g2.Bridged w l.tail l.head l.dep inc out)
    (hinc : g.Tells range new P inc) (hout : g.Tells range new True out)
    (hreturn : out.dep.reason = .returnAddress → out.dep.reg? = none) : g.Tells range new Q l := by
  obtain ⟨-, hhazard, -, hd⟩ := bridge_eq_some h.bridge
  have hreasons : l.dep.reason = inc.dep.reason := by rw [hd]
  have htails : l.dep.tailRole = inc.dep.tailRole := by rw [hd]; rfl
  have hheads : l.dep.headRole = out.dep.headRole := by
    rcases hhazard with hhazard | hhazard <;> simp [hd, Dependence.headRole, hhazard, h.hazard]
  have hinc_known : inc.dep.hazard ≠ .unknown := by
    rcases hhazard with hhazard | hhazard <;> simp [hhazard]
  rintro hreason -
  obtain ⟨ρ, hρ, htail, -⟩ := hinc (hreasons ▸ hreason) hinc_known
  have hout_tag : out.dep.reg? = some ρ := by rw [← tag_of_bridge h.bridge, hρ]
  have hout_reason : out.dep.reason = .register := by
    have hstorage := h.storage
    cases hr : out.dep.reason with
    | register => rfl
    | returnAddress => rw [hreturn hr] at hout_tag; cases hout_tag
    | memory | operation | unknown => simp [hr, isStorage] at hstorage
  obtain ⟨σ, hσ, -, hhead⟩ := hout hout_reason (by simp [h.hazard])
  obtain rfl : σ = ρ := Option.some.inj (hσ.symm.trans hout_tag)
  refine ⟨σ, by rw [hd]; exact hρ, ?_, ?_⟩
  · rw [htails, ← h.inc_tail]
    exact htail
  · intro _
    rw [hheads, ← h.out_head]
    exact hhead trivial

namespace Relabels

variable (h : g.Relabels range w new edges g1 g2 g3 g') (hrange : g.ClosedRange range w old)
  (hg : g.Linked) (ht : g.ValuesAgree)
include h hrange hg ht

theorem regOf_range (hx : x ∈ range.inRole role) : g2.regOf x role = some new :=
  h.regOf_self hx (by simp [hrange.regOf hg ht hx])

theorem regOf_of_names {ρ : Reg} (hx : g.Names range new ρ x role) :
    (g2.regOf x role).isSome ∧ (x ∉ range.inRole role → g2.regOf x role = some ρ) := by
  by_cases hmem : x ∈ range.inRole role
  · exact ⟨by simp [h.regOf_range hrange hg ht hmem], fun hnot => absurd hmem hnot⟩
  · rcases hx with hx | ⟨-, hx⟩
    · rw [h.regOf_other hmem, hx]
      exact ⟨rfl, fun _ => rfl⟩
    · exact absurd hx hmem

theorem agreesBy_settled {P : Prop} (hl : l.live) (htells : g.Tells range new P l)
    (hpseudo : Reaches range l → l.dep.isPseudo = false)
    (hvalue : l.dep.isRaw → (l.tail = w ↔ l.head ∈ range.inRole l.dep.readRole))
    (hsettled : (settle new (g2.decisions range w new) l).live) :
    AgreesBy g'.regOf P (settle new (g2.decisions range w new) l) := by
  have hends (hreason : l.dep.reason = .register) (hknown : l.dep.hazard ≠ .unknown) :
      (g2.regOf l.tail l.dep.tailRole).isSome ∧
        (P → (g2.regOf l.head l.dep.headRole).isSome) := by
    obtain ⟨ρ, -, htail, hhead⟩ := htells hreason hknown
    exact ⟨(h.regOf_of_names hrange hg ht htail).1,
      fun hP => (h.regOf_of_names hrange hg ht (hhead hP)).1⟩
  have hregs : g'.regOf = g2.regOf := funext fun _ => funext fun _ => h.regOf_settled
  rw [hregs]
  rcases agreesBy_settle hl hsettled hpseudo (fun x => hrange.mem_writes)
    (fun x role hx _ => h.regOf_range hrange hg ht hx) hends hvalue with hagrees | ⟨haway, hsame⟩
  · exact hagrees
  · rw [hsame]
    intro hreason hknown
    obtain ⟨ρ, hρ, htail, hhead⟩ := htells hreason hknown
    rw [hρ]
    exact ⟨rfl, (h.regOf_of_names hrange hg ht htail).2 fun hx => haway (.inl hx),
      fun hP => (h.regOf_of_names hrange hg ht (hhead hP)).2 fun hx => haway (.inr hx)⟩

end Relabels

/-- The values are those of before, and a value of the range stays in it. -/
theorem Relabels.raw (h : g.Relabels range w new edges g1 g2 g3 g')
    (hedges : ∀ t h d, (t, h, d) ∈ edges → g.Separating range new t h d)
    (hl : g3.link? e = some l) (hlive : l.live) (hraw : l.dep.isRaw) : g.link? e = some l := by
  have hazard_eq : l.dep.hazard = .raw := by
    simp only [Dependence.isRaw, Bool.and_eq_true, decide_eq_true_eq] at hraw
    exact hraw.2
  rcases h.origin_bridged hl hlive with hl | hl | ⟨inc, out, hbr⟩
  · exact hl
  · rcases (hedges _ _ _ hl).hazard with hhazard | hhazard <;> cases hazard_eq.symm.trans hhazard
  · obtain ⟨-, hhazard, -, hd⟩ := bridge_eq_some hbr.bridge
    rw [hd] at hazard_eq
    rcases hhazard with hhazard | hhazard <;> cases hazard_eq.symm.trans hhazard

theorem ClosedRange.value_iff (hrange : g.ClosedRange range w old) (hg : g.Linked)
    (ht : g.ValuesAgree) (hl : g.link? e = some l) (hlive : l.live) (hraw : l.dep.isRaw) :
    l.tail = w ↔ l.head ∈ range.inRole l.dep.readRole :=
  ⟨fun htail => (hrange.read_of_write hg ht hl hlive hraw htail).2.2,
    hrange.write_of_read hg ht hl hlive hraw⟩

/-- The values still travel in the registers that their edges name. -/
theorem Relabels.valuesAgree (h : g.Relabels range w new edges g1 g2 g3 g') (hg : g.Linked)
    (ht : g.ValuesAgree) (hrange : g.ClosedRange range w old)
    (hedges : ∀ t h d, (t, h, d) ∈ edges → g.Separating range new t h d) : g'.ValuesAgree := by
  intro e l' hl' hlive' hraw'
  obtain ⟨l, hl3, hlive, rfl⟩ := h.settled_link hl' hlive'
  obtain ⟨-, -, hdep⟩ := @settle_ends l new (g2.decisions range w new)
  have hraw : l.dep.isRaw := Dependence.isRaw_of_untagged hdep ▸ hraw'
  have hl := h.raw hedges hl3 hlive hraw
  have hvalue := hrange.value_iff hg ht hl hlive hraw
  have htells : g.Tells range new True l := (agreesBy_true.2 (ht e l hl hlive hraw)).tells
  refine agreesBy_true.1 (h.agreesBy_settled hrange hg ht hlive htells (fun hreach => ?_)
    (fun _ => hvalue) hlive')
  -- an edge of the range starts at the write
  have htail : l.tail = w := by
    rw [Dependence.isRaw_iff] at hraw
    rcases hreach with hreach | hreach
    · exact hrange.mem_writes.1 (by simpa [Dependence.tailRole, hraw.2] using hreach)
    · exact hvalue.2 (by simpa [Dependence.headRole, hraw.2] using hreach)
  exact (hrange.read_of_write hg ht hl hlive hraw htail).2.1

/-- A closed range is moved from `old` to `new`, apart from other lifetimes by `edges`; `us` records
what happens to the edges. -/
structure Transfers (g : Graph) (range : LiveRange) (w : MoveId) (old new : Reg)
    (edges : List (MoveId × MoveId × Dependence)) (us : List EdgeRecord) (g' : Graph) : Prop
    extends g.ClosedRange range w old where
  separating {t h : MoveId} {d : Dependence} : (t, h, d) ∈ edges → g.Separating range new t h d
  distinct {t h : MoveId} {d : Dependence} : (t, h, d) ∈ edges → t ≠ h
  applied : g.applyRename range new edges = .ok (g', us)

theorem ClosedRange.eq_of_liveRange (h : g.ClosedRange range w old) (hg : g.Linked)
    (hrange : g.liveRange n .dest = .ok range) : n = w := by
  obtain ⟨m, r, hm, hr, hranging⟩ := ranging_of_liveRange hg hrange (by simp [h.writes])
  exact h.mem_writes.1 hranging.begins

theorem transfers_of_rename {rn rn' : Renamer} {mode : RenameMode} {u : RenameRecord} (hg : g.Linked)
    (ht : g.ValuesAgree) (hrange : g.liveRange n role = .ok range)
    (h : rn.rename g range new mode = .ok (some (u, rn', g'))) :
    ∃ w edges, g.Transfers range w u.old new edges u.edges g' ∧ (role = .dest → n = w) ∧
      u.new = new ∧ u.moves = range.roles ∧ u.membership = rn.membership new ∧
      u.oldUse = rn.lifetimes.regs[new]? ∧ rn' = rn.take range new mode := by
  obtain ⟨w, old, planned, needed, us, hmov, -, hplanned, hneeded, happly, rfl, rfl⟩ :=
    Renamer.rename_eq_some h
  have hclosed := closedRange_of_movable hg hrange hmov ht
  refine ⟨w, needed, ⟨hclosed, fun hx => ?_, fun hx => (mem_of_neededEdges hneeded hx).2, happly⟩, ?_,
    rfl, rfl, rfl, rfl, rfl⟩
  · exact separating_of_separatingEdges hclosed.writes hplanned (mem_of_neededEdges hneeded hx).1
  · rintro rfl
    exact hclosed.eq_of_liveRange hg hrange

theorem Transfers.relabels {us : List EdgeRecord} (h : g.Transfers range w old new edges us g')
    (hg : g.Linked) : ∃ g1 g2 g3, g.Relabels range w new edges g1 g2 g3 g' :=
  relabels_of_applyRename hg h.writes h.applied

theorem Transfers.valuesAgree {us : List EdgeRecord} (h : g.Transfers range w old new edges us g')
    (hg : g.Linked) (ht : g.ValuesAgree) : g'.ValuesAgree := by
  obtain ⟨g1, g2, g3, hrel⟩ := h.relabels hg
  exact hrel.valuesAgree hg ht h.toClosedRange fun _ _ _ => h.separating

end Graph

end Transport
