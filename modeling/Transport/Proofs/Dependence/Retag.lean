import Transport.Dependence.Retag
import Transport.Proofs.Dependence.Surgery

/-!
# What a renaming does to the edges

Edges are cut or tagged with the new register, and the neighbours of a renamed write are given the
order it imposed on them. `Retags` is what such changes have in common. It has the new edges and
the edges that may be cut or tagged as parameters; neither depends on tags.
-/

namespace Transport

/-- The dependence without its register. -/
def Dependence.untagged (d : Dependence) : Dependence := { d with reg? := none }

namespace Dependence

variable {d d' : Dependence}

section

variable (h : d'.untagged = d.untagged)
include h

theorem reason_of_untagged : d'.reason = d.reason :=
  (congrArg Dependence.reason h :)

theorem hazard_of_untagged : d'.hazard = d.hazard :=
  (congrArg Dependence.hazard h :)

theorem isRaw_of_untagged : d'.isRaw = d.isRaw := by
  rw [isRaw, isRaw, reason_of_untagged h, hazard_of_untagged h]

theorem isPseudo_of_untagged : d'.isPseudo = d.isPseudo :=
  (congrArg Dependence.isPseudo h :)

end

end Dependence

/-- Which edges may be cut (`true`) and which may get another tag (`false`). -/
abbrev Touching := Bool → MoveId → MoveId → Dependence → Prop

/-- A link after it was cut or tagged with `r`. -/
structure Link.Evolves (r : Reg) (Touch : Touching) (l l' : Link) : Prop where
  tail : l'.tail = l.tail
  head : l'.head = l.head
  untagged : l'.dep.untagged = l.dep.untagged
  tag : l'.dep.reg? = l.dep.reg? ∨ l'.dep.reg? = some r ∧ Touch false l.tail l.head l.dep.untagged
  live : l'.live → l.live
  cut : l.live → l'.live = false → Touch true l.tail l.head l.dep.untagged

namespace Link.Evolves

variable {r : Reg} {Touch : Touching} {l l' l'' : Link}

theorem refl : l.Evolves r Touch l := ⟨rfl, rfl, rfl, .inl rfl, id, by simp +contextual⟩

section

variable (h : l.Evolves r Touch l')
include h

theorem trans (h' : l'.Evolves r Touch l'') : l.Evolves r Touch l'' where
  tail := h'.tail.trans h.tail
  head := h'.head.trans h.head
  untagged := h'.untagged.trans h.untagged
  tag := by
    rcases h'.tag with ht | ⟨ht, htouch⟩
    · rw [ht]; exact h.tag
    · rw [h.tail, h.head, h.untagged] at htouch
      exact .inr ⟨ht, htouch⟩
  live := h.live ∘ h'.live
  cut hlive hdead := by
    cases hmid : l'.live with
    | false => exact h.cut hlive hmid
    | true =>
      have htouch := h'.cut hmid hdead
      rwa [h.tail, h.head, h.untagged] at htouch

theorem reason : l'.dep.reason = l.dep.reason :=
  (congrArg Dependence.reason h.untagged :)

theorem hazard : l'.dep.hazard = l.dep.hazard :=
  (congrArg Dependence.hazard h.untagged :)

theorem guardUse : l'.dep.guardUse = l.dep.guardUse :=
  (congrArg Dependence.guardUse h.untagged :)

theorem isPseudo : l'.dep.isPseudo = l.dep.isPseudo :=
  (congrArg Dependence.isPseudo h.untagged :)

theorem isRaw : l'.dep.isRaw = l.dep.isRaw :=
  (congrArg Dependence.isRaw h.untagged :)

/-- An edge that may be neither cut nor tagged stays as it is. -/
theorem eq_of_untouched (hlive : l.live) (ht : ∀ b, ¬ Touch b l.tail l.head l.dep.untagged) : l' = l := by
  have htag := h.tag.resolve_right fun hx => ht _ hx.2
  have hlive' : l'.live := by
    cases hx : l'.live with
    | true => rfl
    | false => exact absurd (h.cut hlive hx) (ht _)
  obtain ⟨hreason, hhazard, -, hguard, htp, hhp, hdepth⟩ := Dependence.mk.inj h.untagged
  have htail := h.tail
  have hhead := h.head
  obtain ⟨t, hd, ⟨_, _, _, _, _, _, _⟩, lv⟩ := l
  obtain ⟨t', hd', ⟨_, _, _, _, _, _, _⟩, lv'⟩ := l'
  simp_all

end

end Link.Evolves

namespace Graph

/-- Some edges that `Touch` allows are cut or tagged with `r`, and some that `New` allows are
added. -/
structure Retags (g g' : Graph) (r : Reg) (New : MoveId → MoveId → Dependence → Prop)
    (Touch : Touching) : Prop where
  moves : g.SameMoves g'
  linked : g.Linked → g'.Linked
  kept {e : EdgeId} {l : Link} : g.link? e = some l →
    ∃ l', g'.link? e = some l' ∧ l.Evolves r Touch l' ∧ (l.live = false → l' = l)
  fresh {e : EdgeId} {l' : Link} : g.link? e = none → g'.link? e = some l' →
    ∃ l : Link, New l.tail l.head l.dep ∧ l.Evolves r Touch l'

variable {g g' g'' : Graph} {r : Reg} {e : EdgeId} {l : Link}
  {New : MoveId → MoveId → Dependence → Prop} {Touch : Touching} {gone : Bool}

namespace Retags

theorem trans (h : g.Retags g' r New Touch) (h' : g'.Retags g'' r New Touch) :
    g.Retags g'' r New Touch where
  moves := h.moves.trans h'.moves
  linked := h'.linked ∘ h.linked
  kept {e l} hl := by
    obtain ⟨l1, hl1, hev, heq⟩ := h.kept hl
    obtain ⟨l2, hl2, hev', heq'⟩ := h'.kept hl1
    refine ⟨l2, hl2, hev.trans hev', fun hdead => ?_⟩
    obtain rfl := heq hdead
    exact heq' hdead
  fresh {e l2} hnone hl2 := by
    cases hl1 : g'.link? e with
    | none => exact h'.fresh hl1 hl2
    | some l1 =>
      obtain ⟨l, hnew, hev⟩ := h.fresh hnone hl1
      obtain ⟨hev', -⟩ := of_some (h'.kept hl1) hl2
      exact ⟨l, hnew, hev.trans hev'⟩

theorem cases_live (h : g.Retags g' r New Touch) {l' : Link} (hl' : g'.link? e = some l')
    (hlive : l'.live) : (∃ l, g.link? e = some l ∧ l.live ∧ l.Evolves r Touch l') ∨
      ∃ l : Link, New l.tail l.head l.dep ∧ l.Evolves r Touch l' := by
  cases hl : g.link? e with
  | none => exact .inr (h.fresh hl hl')
  | some l =>
    obtain ⟨hev, -⟩ := of_some (h.kept hl) hl'
    exact .inl ⟨l, rfl, hev.live hlive, hev⟩

end Retags

/-- Edges that are only added are neither cut nor tagged. -/
theorem Rewires.retags {Added : MoveId → MoveId → Dependence → Prop} (h : g.Rewires g' Added NoneBack NoneBack)
    (hnew : ∀ t h d, Added t h d → New t h d) : g.Retags g' r New Touch where
  moves := h.moves
  linked := h.linked
  kept hl := ⟨_, h.uncut hl id (fun _ => id), .refl, fun _ => rfl⟩
  fresh hnone hl' := ⟨_, hnew _ _ _ (h.fresh hnone hl'), .refl⟩

/-! ## Destinations -/

/-- An order between two moves that a write between them stands for. -/
structure Bridges (g : Graph) (w t h : MoveId) (d : Dependence) : Prop where
  ne : t ≠ h
  spans : ∃ e inc e' out, g.link? e = some inc ∧ inc.live ∧ inc.tail = t ∧ inc.head = w ∧
    g.link? e' = some out ∧ out.live ∧ out.tail = w ∧ out.head = h ∧
    (inc.dep.hazard = .waw ∨ inc.dep.hazard = .war) ∧ out.dep.hazard = .waw ∧
    isStorage inc.dep.reason ∧ isStorage out.dep.reason ∧
    d = { inc.dep with headPseudo := out.dep.headPseudo
                       loopDepth := inc.dep.loopDepth + out.dep.loopDepth }

theorem bridge_eq_some {inc out : Link} {d : Dependence} (h : g.bridge inc out = .ok (some d)) :
    isStorage inc.dep.reason ∧ (inc.dep.hazard = .waw ∨ inc.dep.hazard = .war) ∧
      inc.tail ≠ out.head ∧ d = { inc.dep with headPseudo := out.dep.headPseudo
                                               loopDepth := inc.dep.loopDepth + out.dep.loopDepth } := by
  have hrest (copied : Bool) (h : (if !copied || inc.tail = out.head then pure none else do
      let loopDepth ← addByte inc.dep.loopDepth out.dep.loopDepth
      return some { inc.dep with headPseudo := out.dep.headPseudo, loopDepth } : Checked _) =
        .ok (some d)) : copied ∧ inc.tail ≠ out.head ∧
        d = { inc.dep with headPseudo := out.dep.headPseudo
                           loopDepth := inc.dep.loopDepth + out.dep.loopDepth } := by
    split at h
    · simp at h
    rename_i hcond
    simp only [Bool.or_eq_true, Bool.not_eq_true', decide_eq_true_eq, not_or, Bool.not_eq_false] at hcond
    simp only [bind_eq_ok, pure_eq_ok, Option.some.injEq, addByte, addBelow] at h
    obtain ⟨depth, hdepth, rfl⟩ := h
    split at hdepth
    · simp only [pure_eq_ok] at hdepth
      exact ⟨hcond.1, hcond.2, by rw [hdepth]⟩
    · simp at hdepth
  unfold bridge at h
  split at h
  case isFalse => simp at h
  rename_i hstorage
  simp only [Bool.and_eq_true] at hstorage
  split at h
  · rename_i hwaw
    simp only [bind_eq_ok, pure_eq_ok, exists_eq_left'] at h
    obtain ⟨x, -, h⟩ := h
    obtain ⟨-, hne, hd⟩ := hrest _ h
    exact ⟨hstorage.1, .inl hwaw, hne, hd⟩
  · rename_i hwar
    simp only [bind_eq_ok, pure_eq_ok, exists_eq_left'] at h
    obtain ⟨x, -, h⟩ := h
    obtain ⟨-, hne, hd⟩ := hrest _ h
    exact ⟨hstorage.1, .inr hwar, hne, hd⟩
  · simp only [bind_eq_ok, pure_eq_ok, exists_eq_left'] at h
    exact absurd (hrest _ h).1 (by simp)

/-- The register edges at a write `w` of `r`, leaving aside reads from elsewhere. The reads of `w` stay. If
a write waits for a guard read and goes on doing so, the guard is in the file of `r`. -/
def WriteOrder (g : Graph) (w : MoveId) (r : Reg) : Touching := fun gone t h d =>
  d.reason = .register ∧ (t = w ∧ d.hazard ≠ .war ∧ (gone → d.hazard ≠ .raw) ∨ h = w ∧ d.hazard ≠ .raw ∧
    (gone = false → d.hazard = .war → d.guardUse →
      ∃ m guard, g.move? t = some m ∧ m.guard = some guard ∧ guard.reg = r))

theorem writeOrder_of_entryGone? (h : g.entryGone? l r = some gone) :
    WriteOrder g l.head r gone l.tail l.head l.dep.untagged := by
  by_cases hreason : l.dep.reason = .register
  · have hraw : l.dep.hazard ≠ .raw := fun hraw => by simp [entryGone?, hraw] at h
    refine ⟨hreason, .inr ⟨rfl, hraw, ?_⟩⟩
    rintro rfl hwar hguard
    have hwar : l.dep.hazard = .war := hwar
    have hguard : l.dep.guardUse = true := hguard
    cases hm : g.move? l.tail with
    | none => simp [entryGone?, hm] at h
    | some m =>
      cases hgd : m.guard with
      | none => simp [entryGone?, hreason, hwar, hguard, hm, hgd] at h
      | some guard =>
        simp [entryGone?, hreason, hwar, hguard, hm, hgd] at h
        exact ⟨m, guard, rfl, hgd, h.2.2⟩
  · simp [entryGone?, hreason] at h

theorem writeOrder_of_exitGone? (h : g.exitGone? l r = some gone) :
    WriteOrder g l.tail r gone l.tail l.head l.dep.untagged := by
  by_cases hreason : l.dep.reason = .register
  · refine ⟨hreason, .inl ⟨rfl, fun hwar => ?_, fun hgone hraw => ?_⟩⟩
    · have hwar : l.dep.hazard = .war := hwar
      simp [exitGone?, hwar] at h
    · have hraw : l.dep.hazard = .raw := hraw
      simp [exitGone?, hraw, hgone] at h
  · simp [exitGone?, hreason] at h

theorem exitGone?_of_raw (hraw : l.dep.isRaw) (hpseudo : l.dep.isPseudo = false) :
    g.exitGone? l r = some false := by
  rw [Dependence.isRaw_iff] at hraw
  simp only [Dependence.isPseudo, Bool.or_eq_false_iff] at hpseudo
  simp [exitGone?, hraw, hpseudo]

end Graph

end Transport
