import Mathlib.Data.List.Nodup
import Transport.Proofs.Dependence.Surgery

/-!
# Records of edges are replayed

A record says which edges a change took away, added and tagged anew: `Records`. Replaying it on the
changed graph, or on any graph that looks like it, gives a graph that looks like the one before the
change: `Records.undo`. Two graphs look alike if they have the same moves, operations and edges
and differ at most in the order of the edge lists and in table entries of edges that are gone.
-/

namespace Transport.Graph

/-- Each edge stands in the lists of its two moves, once in each. -/
structure Consistent (g : Graph) : Prop extends g.Linked where
  ins_nodup {n : MoveId} {m : Move} : g.move? n = some m → m.ins.Nodup
  outs_nodup {n : MoveId} {m : Move} : g.move? n = some m → m.outs.Nodup

/-- Only the edges change, and the edge lists with them. -/
structure Rearranges (g g' : Graph) : Prop where
  moves : g.SameMoves g'
  frame : g'.frame = g.frame
  linked : g.Linked → g'.Linked
  consistent : g.Consistent → g'.Consistent

/-- `h` looks like `g`: the entries that `h` has beyond those of `g` belong to removed edges. -/
structure Resembles (g h : Graph) : Prop where
  moves : g.SameMoves h
  frame : h.frame = g.frame
  links {e : EdgeId} {l : Link} : g.link? e = some l → h.link? e = some l
  spare {e : EdgeId} {l : Link} : g.link? e = none → h.link? e = some l → l.live = false
  consistent : h.Consistent

/-- The edge table of `h` has the entries of that of `g`, and others that are not in the graph. -/
structure Extends (g h : Graph) : Prop where
  links {e : EdgeId} {l : Link} : g.link? e = some l → h.link? e = some l
  spare {e : EdgeId} {l : Link} : g.link? e = none → h.link? e = some l → l.live = false

variable {g g' g'' h h' : Graph} {u : EdgeRecord} {e x : EdgeId} {l : Link} {n : MoveId} {m : Move} {b : Bool}
  {f : Graph → EdgeId → Checked Graph} {cs : List (EdgeId × Option Reg)} {es : List EdgeId}

theorem SameEdges.consistent (h : g.SameEdges g') (hg : g.Consistent) : g'.Consistent := by
  refine ⟨h.linked hg.toLinked, fun hm => ?_, fun hm => ?_⟩
  · obtain ⟨m0, hm0, hins, -⟩ := h.move? hm
    exact hins ▸ hg.ins_nodup hm0
  · obtain ⟨m0, hm0, -, houts⟩ := h.move? hm
    exact houts ▸ hg.outs_nodup hm0

namespace Rearranges

theorem refl : g.Rearranges g := ⟨.refl, rfl, id, id⟩

theorem trans (h : g.Rearranges g') (h' : g'.Rearranges g'') : g.Rearranges g'' :=
  ⟨h.moves.trans h'.moves, h'.frame.trans h.frame, h'.linked ∘ h.linked,
    h'.consistent ∘ h.consistent⟩

end Rearranges

namespace Extends

theorem of_links (hl : ∀ e, h.link? e = g.link? e) : g.Extends h :=
  ⟨fun {e _} hg => (hl e).trans hg, fun {e _} hnone hs =>
    (Option.some_ne_none _ (hs.symm.trans ((hl e).trans hnone))).elim⟩

theorem trans (hr : g.Extends h) (hr' : h.Extends h') : g.Extends h' := by
  refine ⟨fun hg => hr'.links (hr.links hg), fun {e l} hnone hl => ?_⟩
  cases hh : h.link? e with
  | none => exact hr'.spare hh hl
  | some k =>
    rw [hr'.links hh] at hl
    cases hl
    exact hr.spare hnone hh

theorem live (hr : g.Extends h) (hl : h.link? e = some l) (hlive : l.live) : g.link? e = some l := by
  cases hold : g.link? e with
  | none => rw [hr.spare hold hl] at hlive; cases hlive
  | some l' =>
    rw [hr.links hold] at hl
    cases hl
    rfl

end Extends

namespace Resembles

theorem toExtends (hr : g.Resembles h) : g.Extends h := ⟨hr.links, hr.spare⟩

theorem refl (hg : g.Consistent) : g.Resembles g :=
  ⟨.refl, rfl, id, fun hnone hl => (Option.some_ne_none _ (hl.symm.trans hnone)).elim, hg⟩

theorem trans (hr : g.Resembles h) (hr' : h.Resembles h') : g.Resembles h' where
  moves := hr.moves.trans hr'.moves
  frame := hr'.frame.trans hr.frame
  links := (hr.toExtends.trans hr'.toExtends).links
  spare := (hr.toExtends.trans hr'.toExtends).spare
  consistent := hr'.consistent

theorem live_iff (hr : g.Resembles h) {P : Link → Prop} :
    (∃ l, h.link? e = some l ∧ l.live ∧ P l) ↔ ∃ l, g.link? e = some l ∧ l.live ∧ P l := by
  constructor
  · rintro ⟨l, hl, hlive, hn⟩
    exact ⟨l, hr.toExtends.live hl hlive, hlive, hn⟩
  · rintro ⟨l, hl, hlive, hn⟩
    exact ⟨l, hr.links hl, hlive, hn⟩

section

variable {m' : Move} (hr : g.Resembles h) (hg : g.Consistent) (hm : g.move? n = some m) (hm' : h.move? n = some m')
include hr hg hm hm'

theorem ins_perm : m'.ins.Perm m.ins := by
  rw [List.perm_ext_iff_of_nodup (hr.consistent.ins_nodup hm') (hg.ins_nodup hm)]
  intro e
  rw [hr.consistent.mem_ins hm', hg.mem_ins hm, hr.live_iff]

theorem outs_perm : m'.outs.Perm m.outs := by
  rw [List.perm_ext_iff_of_nodup (hr.consistent.outs_nodup hm') (hg.outs_nodup hm)]
  intro e
  rw [hr.consistent.mem_outs hm', hg.mem_outs hm, hr.live_iff]

end

end Resembles

/-! ## Edges that come and go -/

/-- The edges of a list come into the graph (`b`) or go, and nothing else changes. -/
structure Flips (g : Graph) (b : Bool) (es : List EdgeId) (g' : Graph) : Prop
    extends g.Rearranges g' where
  link? (x : EdgeId) : g'.link? x =
    if x ∈ es then (g.link? x).map fun l => { l with live := b } else g.link? x

/-- An edge that is not in the graph is in no list. -/
theorem Consistent.attach {y : Graph} {tail head : MoveId} (hg : g.Consistent)
    (hmove : ∀ n, y.move? n = g.move? n) (hdead : ∀ l, g.link? e = some l → l.live = false)
    (hlinked : (y.attach e tail head).forgetDistances.Linked) :
    (y.attach e tail head).forgetDistances.Consistent := by
  have hno {P : Link → Prop} : ¬ ∃ l, g.link? e = some l ∧ l.live ∧ P l := by
    rintro ⟨l, hl, hlive, -⟩
    rw [hdead l hl] at hlive
    cases hlive
  have hsnoc {es : List EdgeId} (hes : es.Nodup) (he : e ∉ es) : (es ++ [e]).Nodup := by
    rw [← List.concat_eq_append]
    exact hes.concat he
  refine ⟨hlinked, fun {n m'} hm' => ?_, fun {n m'} hm' => ?_⟩
  all_goals
    rw [move?_forgetDistances, move?_attach, hmove] at hm'
    obtain ⟨m, hm, rfl⟩ := Option.map_eq_some_iff.1 hm'
    dsimp only
    split
  · exact hsnoc (hg.ins_nodup hm) (by rw [hg.mem_ins hm]; exact hno)
  · exact hg.ins_nodup hm
  · exact hsnoc (hg.outs_nodup hm) (by rw [hg.mem_outs hm]; exact hno)
  · exact hg.outs_nodup hm

theorem flips_of_removeEdge (h : g.removeEdge e = .ok g') : g.Flips false [e] g' := by
  have hrew : g.Rewires g' NoneNew NoneBack (· = e) := rewires_of_removeEdge h rfl
  obtain ⟨l, -, -, rfl⟩ := removeEdge_eq_ok h
  refine ⟨⟨hrew.moves, rfl, hrew.linked, fun hg => ⟨hrew.linked hg.toLinked, fun {n m'} hm' => ?_,
    fun {n m'} hm' => ?_⟩⟩, fun x => ?_⟩
  case refine_3 => simp only [link?_forgetDistances, link?_detach, link?_modifyLink, List.mem_singleton]
  all_goals
    rw [move?_forgetDistances, move?_detach, move?_modifyLink] at hm'
    obtain ⟨m, hm, rfl⟩ := Option.map_eq_some_iff.1 hm'
    dsimp only
    split
  · exact (hg.ins_nodup hm).filter _
  · exact hg.ins_nodup hm
  · exact (hg.outs_nodup hm).filter _
  · exact hg.outs_nodup hm

theorem flips_of_restoreEdge (h : g.restoreEdge e = .ok g') : g.Flips true [e] g' := by
  have hrew : g.Rewires g' NoneNew (· = e) NoneBack := rewires_of_restoreEdge h rfl
  obtain ⟨l, hl, hdead, rfl⟩ := restoreEdge_eq_ok h
  refine ⟨⟨hrew.moves, rfl, hrew.linked, fun hg => ?_⟩, fun x => ?_⟩
  · refine hg.attach (fun _ => move?_modifyLink) ?_ (hrew.linked hg.toLinked)
    intro l' hl'
    rw [link?_of_link hl] at hl'
    cases hl'
    exact hdead
  · simp only [link?_forgetDistances, link?_attach, link?_modifyLink, List.mem_singleton]

theorem exists_removeEdge (hne : e ≠ .invalid) (hl : g.link? e = some l) (hlive : l.live) :
    ∃ g', g.removeEdge e = .ok g' := by
  simp only [removeEdge, link_eq_ok.2 ⟨hne, hl⟩, ok_bind, hlive, if_true]
  exact exists_pure_eq_ok

theorem exists_restoreEdge (hne : e ≠ .invalid) (hl : g.link? e = some l) (hdead : l.live = false) :
    ∃ g', g.restoreEdge e = .ok g' := by
  simp only [restoreEdge, link_eq_ok.2 ⟨hne, hl⟩, ok_bind, hdead, Bool.false_eq_true, if_false]
  exact exists_pure_eq_ok

theorem Flips.cons (hfirst : g.Flips b [e] g') (hrest : g'.Flips b es g'') : g.Flips b (e :: es) g'' := by
  refine ⟨hfirst.toRearranges.trans hrest.toRearranges, fun x => ?_⟩
  rw [hrest.link?, hfirst.link?]
  by_cases hx : x = e <;> by_cases hx' : x ∈ es <;> simp [hx, hx', Function.comp_def]

theorem flips_of_each (hf : ∀ {g g' e}, f g e = .ok g' → g.Flips b [e] g') (h : es.foldlM f g = .ok g') :
    g.Flips b es g' := by
  induction es generalizing g with
  | nil =>
    cases pure_eq_ok.1 h
    exact ⟨.refl, by simp⟩
  | cons e es ih =>
    obtain ⟨g1, h1, h⟩ := foldlM_cons_eq_ok.1 h
    exact (hf h1).cons (ih h)

/-- Edges brought in, or taken out, one after another. -/
theorem exists_flips (hf : ∀ {g g' e}, f g e = .ok g' → g.Flips b [e] g')
    (hok : ∀ {g e l}, e ≠ .invalid → g.link? e = some l → l.live = !b → ∃ g', f g e = .ok g')
    (hnodup : es.Nodup)
    (hes : ∀ e ∈ es, e ≠ .invalid ∧ ∃ l, g.link? e = some l ∧ l.live = !b) :
    ∃ g', es.foldlM f g = .ok g' ∧ g.Flips b es g' := by
  induction es generalizing g with
  | nil => exact ⟨g, rfl, .refl, by simp⟩
  | cons e es ih =>
    obtain ⟨hnot, hnodup⟩ := List.nodup_cons.1 hnodup
    obtain ⟨hne, l, hl, hlive⟩ := hes e (.head _)
    obtain ⟨g1, h1⟩ := hok hne hl hlive
    have hfirst := hf h1
    have hrest : ∀ x ∈ es, x ≠ .invalid ∧ ∃ l, g1.link? x = some l ∧ l.live = !b := by
      intro x hx
      obtain ⟨hne, l, hl, hlive⟩ := hes x (.tail _ hx)
      refine ⟨hne, l, ?_, hlive⟩
      rw [hfirst.link?, if_neg, hl]
      rintro h
      exact hnot (List.mem_singleton.1 h ▸ hx)
    obtain ⟨g2, h2, hsecond⟩ := ih hnodup hrest
    exact ⟨g2, foldlM_cons_eq_ok.2 ⟨g1, h1, h2⟩, hfirst.cons hsecond⟩

/-! ## Tags that change -/

/-- The link with another register. -/
def withTag (l : Link) (t : Option Reg) : Link := { l with dep := { l.dep with reg? := t } }

/-- The edges of a list get other tags, the first mention of an edge last. -/
def Retagged (g : Graph) (cs : List (EdgeId × Option Reg)) (g' : Graph) : Prop :=
  ∀ x, g'.link? x = (g.link? x).map fun l => withTag l ((cs.lookup x).getD l.dep.reg?)

/-- A tag says nothing about the lists an edge is in. -/
theorem rearranges_modifyLink {f : Link → Link} (hlive : ∀ l, (f l).live = l.live)
    (htail : ∀ l, (f l).tail = l.tail) (hhead : ∀ l, (f l).head = l.head) :
    g.Rearranges (g.modifyLink e f) := by
  have hiff {P : Link → Prop} (hP : ∀ l, P (f l) ↔ P l) {x : EdgeId} :
      (∃ l, (g.modifyLink e f).link? x = some l ∧ l.live ∧ P l) ↔
        ∃ l, g.link? x = some l ∧ l.live ∧ P l := by
    rw [link?_modifyLink]
    split
    · simp [hlive, hP]
    · rfl
  have horigin {x : EdgeId} {l : Link} (hl : (g.modifyLink e f).link? x = some l) :
      ∃ l', g.link? x = some l' ∧ l.tail = l'.tail ∧ l.head = l'.head := by
    rw [link?_modifyLink] at hl
    split at hl
    · obtain ⟨l', hl', rfl⟩ := Option.map_eq_some_iff.1 hl
      exact ⟨l', hl', htail l', hhead l'⟩
    · exact ⟨l, hl, rfl, rfl⟩
  have hlinked (hg : g.Linked) : (g.modifyLink e f).Linked := by
    refine ⟨?_, ?_, ?_, ?_⟩
    · intro n m x hm
      rw [hiff (by simp [hhead]), hg.mem_ins hm]
    · intro n m x hm
      rw [hiff (by simp [htail]), hg.mem_outs hm]
    · intro x l hl
      obtain ⟨l', hl', ht, -⟩ := horigin hl
      rw [ht]
      exact hg.tail_known hl'
    · intro x l hl
      obtain ⟨l', hl', -, hh⟩ := horigin hl
      rw [hh]
      exact hg.head_known hl'
  exact ⟨sameMoves_modifyLink, rfl, hlinked,
    fun hg => ⟨hlinked hg.toLinked, hg.ins_nodup, hg.outs_nodup⟩⟩

theorem Retagged.cons {c : EdgeId × Option Reg}
    (h : g.Retagged cs g') : g.Retagged (c :: cs) (g'.modifyLink c.1 (withTag · c.2)) := by
  intro x
  rw [link?_modifyLink, List.lookup_cons]
  by_cases hx : x = c.1
  · subst hx
    rw [if_pos rfl, beq_self_eq_true, h, Option.map_map]
    rfl
  · rw [if_neg hx, beq_eq_false_iff_ne.2 hx, h]

theorem retagged_nil : g.Retagged [] g := fun x => by cases hl : g.link? x <;> simp [withTag]

theorem retagged_of_restoreTags
    (h : cs.reverse.foldlM restoreTag g = .ok g') : g.Rearranges g' ∧ g.Retagged cs g' := by
  induction cs generalizing g' with
  | nil =>
    cases pure_eq_ok.1 h
    exact ⟨.refl, retagged_nil⟩
  | cons c cs ih =>
    rw [List.reverse_cons, List.foldlM_append] at h
    obtain ⟨g1, h1, h⟩ := bind_eq_ok.1 h
    simp only [List.foldlM_cons, List.foldlM_nil, restoreTag, bind_eq_ok, pure_eq_ok] at h
    obtain ⟨_, ⟨-, -, rfl⟩, rfl⟩ := h
    obtain ⟨hmoves, htags⟩ := ih h1
    exact ⟨hmoves.trans (rearranges_modifyLink (fun _ => rfl) (fun _ => rfl) fun _ => rfl), htags.cons⟩

theorem exists_retags (hcs : ∀ c ∈ cs, c.1 ≠ .invalid ∧ ∃ l, g.link? c.1 = some l) :
    ∃ g', cs.reverse.foldlM restoreTag g = .ok g' ∧ g.Rearranges g' ∧ g.Retagged cs g' := by
  induction cs with
  | nil => exact ⟨g, rfl, .refl, retagged_nil⟩
  | cons c cs ih =>
    obtain ⟨g1, h1, hrest, htags⟩ := ih fun c hc => hcs c (.tail _ hc)
    obtain ⟨hne, l, hl⟩ := hcs c (.head _)
    have hl1 : ∃ l, g1.link? c.1 = some l := by
      rw [htags, hl]
      exact ⟨_, rfl⟩
    obtain ⟨l1, hl1⟩ := hl1
    refine ⟨g1.modifyLink c.1 (withTag · c.2), ?_,
      hrest.trans (rearranges_modifyLink (fun _ => rfl) (fun _ => rfl) fun _ => rfl),
      htags.cons⟩
    rw [List.reverse_cons, List.foldlM_append, h1, ok_bind, List.foldlM_cons, restoreTag,
      link_eq_ok.2 ⟨hne, hl1⟩]
    rfl

/-- Replaying a record is about edges only. -/
theorem rearranges_of_undoEdges (h : g.undoEdges u = .ok g') : g.Rearranges g' := by
  obtain ⟨g1, h1, h⟩ := bind_eq_ok.1 h
  obtain ⟨g2, h2, h3⟩ := bind_eq_ok.1 h
  exact ((flips_of_each flips_of_removeEdge h1).toRearranges.trans (retagged_of_restoreTags h2).1).trans
    (flips_of_each flips_of_restoreEdge h3).toRearranges

/-! ## Records -/

/-- What an edge of the record was before, by what it is now. -/
def before (u : EdgeRecord) (e : EdgeId) (l : Link) : Link :=
  { withTag l ((u.changed.lookup e).getD l.dep.reg?) with live := l.live || decide (e ∈ u.removed) }

/-- The record tells how the edges of `g'` came from those of `g`. -/
structure Records (g : Graph) (u : EdgeRecord) (g' : Graph) : Prop extends g.Rearranges g' where
  removed_nodup : u.removed.Nodup
  added_nodup : u.added.Nodup
  kept {e : EdgeId} {l : Link} : g.link? e = some l →
    ∃ l', g'.link? e = some l' ∧ before u e l' = l ∧ (e ∈ u.removed → l'.live = false)
  removed {e : EdgeId} : e ∈ u.removed → ∃ l, g.link? e = some l
  added {e : EdgeId} : e ∈ u.added → g.link? e = none ∧ ∃ l, g'.link? e = some l ∧ l.live
  fresh {e : EdgeId} {l : Link} : g.link? e = none → g'.link? e = some l → e ∈ u.added
  changed {c : EdgeId × Option Reg} : c ∈ u.changed → ∃ l, g'.link? c.1 = some l

/-- Entries of the edge table are never taken away. -/
theorem links_size_le (hknown : ∀ e l, g.link? e = some l → ∃ l', g'.link? e = some l') :
    g.links.size ≤ g'.links.size := by
  by_contra hlt
  have hg : g.link? ⟨g'.links.size⟩ = some g.links[g'.links.size] := by
    simp [link?, Nat.lt_of_not_le hlt]
  obtain ⟨l, hl⟩ := hknown _ _ hg
  exact absurd (lt_of_link? hl) (Nat.lt_irrefl _)

/-- The edges are few enough for their identifiers. -/
def EdgesFit (g : Graph) : Prop := g.links.size ≤ 4294967295

instance : Decidable g.EdgesFit := inferInstanceAs (Decidable (_ ≤ _))

theorem EdgesFit.ne_invalid (hfit : g.EdgesFit) (hl : g.link? e = some l) : e ≠ .invalid := by
  exact Id.ne_invalid hfit (lt_of_link? hl)

namespace Records

variable {dep : Dependence} {s : Graph × EdgeRecord} {tail head : MoveId}

theorem refl : g.Records {} g where
  toRearranges := .refl
  removed_nodup := .nil
  added_nodup := .nil
  kept {e l} hl := ⟨l, hl, by simp [before, withTag], by simp⟩
  removed := by simp
  added := by simp
  fresh hnone hl := (Option.some_ne_none _ (hl.symm.trans hnone)).elim
  changed := by simp

section

variable (hu : g.Records u g')
include hu

theorem size_le : g.links.size ≤ g'.links.size := by
  refine links_size_le fun e l hl => ?_
  obtain ⟨l', hl', -⟩ := hu.kept hl
  exact ⟨l', hl'⟩

theorem cut (hcut : g'.removeEdge e = .ok g'') (hold : ∃ l, g.link? e = some l) :
    g.Records { u with removed := u.removed ++ [e] } g'' := by
  have hflips := flips_of_removeEdge hcut
  obtain ⟨k, hk, hlive, -⟩ := live_of_removeEdge hcut
  have hnew : e ∉ u.removed := by
    intro he
    obtain ⟨l, hl⟩ := hu.removed he
    obtain ⟨-, hdead⟩ := of_some (hu.kept hl) hk
    rw [hdead he] at hlive
    cases hlive
  have hnot : e ∉ u.added := by
    intro he
    obtain ⟨l, hl⟩ := hold
    rw [(hu.added he).1] at hl
    cases hl
  refine ⟨hu.toRearranges.trans hflips.toRearranges, ?_, hu.added_nodup, ?_, ?_, ?_, ?_, ?_⟩
  · rw [← List.concat_eq_append]
    exact hu.removed_nodup.concat hnew
  · intro x l hl
    obtain ⟨l', hl', hbefore, hdead⟩ := hu.kept hl
    rw [hflips.link?, hl']
    by_cases hx : x = e
    · subst hx
      rw [hk] at hl'
      cases hl'
      refine ⟨{ k with live := false }, by simp, ?_, fun _ => rfl⟩
      rw [← hbefore]
      simp [before, withTag, hlive]
    · refine ⟨l', by simp [hx], ?_, fun hmem => hdead (by simpa [hx] using hmem)⟩
      rw [← hbefore]
      simp [before, hx]
  · intro x hx
    rcases List.mem_append.1 hx with hx | hx
    · exact hu.removed hx
    · exact List.mem_singleton.1 hx ▸ hold
  · intro x hx
    obtain ⟨hnone, l, hl, hlive⟩ := hu.added hx
    refine ⟨hnone, l, ?_, hlive⟩
    rw [hflips.link?, if_neg, hl]
    intro h
    exact hnot (List.mem_singleton.1 h ▸ hx)
  · intro x l hnone hl
    rw [hflips.link?] at hl
    split at hl
    · rename_i hx
      obtain ⟨l', hl'⟩ := hold
      rw [List.mem_singleton.1 hx, hl'] at hnone
      cases hnone
    · exact hu.fresh hnone hl
  · intro c hc
    obtain ⟨l, hl⟩ := hu.changed hc
    rw [hflips.link?, hl]
    split <;> exact ⟨_, rfl⟩

theorem grow (hgrow : g'.connect tail head dep = .ok (g'', e)) :
    g.Records { u with added := u.added ++ [e] } g'' := by
  have hrew : g'.Rewires g'' (fun _ _ _ => True) NoneBack NoneBack := rewires_of_connect hgrow trivial
  have hl := link?_of_connect hgrow
  obtain ⟨-, -, rfl, rfl⟩ := connect_eq_ok hgrow
  generalize hk : ({ tail, head, dep } : Link) = k at hl hrew ⊢
  have hnone : g'.link? ⟨g'.links.size⟩ = none := by simp [link?]
  have hlink (x : EdgeId) : ((({ g' with links := g'.links.push k } : Graph).attach
      ⟨g'.links.size⟩ tail head).forgetDistances).link? x =
        if x = ⟨g'.links.size⟩ then some k else g'.link? x := by
    rw [link?_forgetDistances, link?_attach, link?_pushLink]
    simp only [← Id.val_inj]
  have hknown {x : EdgeId} {l : Link} (hx : g'.link? x = some l) : x ≠ ⟨g'.links.size⟩ := by
    rintro rfl
    rw [hnone] at hx
    cases hx
  have hrearranges : g'.Rearranges ((({ g' with links := g'.links.push k } : Graph).attach
      ⟨g'.links.size⟩ tail head).forgetDistances) := by
    refine ⟨hrew.moves, rfl, hrew.linked, fun hg => ?_⟩
    refine hg.attach (fun _ => rfl) ?_ (hrew.linked hg.toLinked)
    simp [hnone]
  refine ⟨hu.toRearranges.trans hrearranges, hu.removed_nodup, ?_, ?_, hu.removed, ?_, ?_, ?_⟩
  · rw [← List.concat_eq_append]
    refine hu.added_nodup.concat fun he => ?_
    obtain ⟨-, l, hl, -⟩ := hu.added he
    exact hknown hl rfl
  · intro x l hx
    obtain ⟨l', hl', hrest⟩ := hu.kept hx
    exact ⟨l', by rw [hlink, if_neg (hknown hl'), hl'], hrest⟩
  · intro x hx
    rcases List.mem_append.1 hx with hx | hx
    · obtain ⟨hno, l, hl, hlive⟩ := hu.added hx
      exact ⟨hno, l, by rw [hlink, if_neg (hknown hl), hl], hlive⟩
    · cases List.mem_singleton.1 hx
      refine ⟨?_, k, hl, hk ▸ rfl⟩
      cases hold : g.link? ⟨g'.links.size⟩ with
      | none => rfl
      | some l =>
        obtain ⟨l', hl', -⟩ := hu.kept hold
        exact absurd rfl (hknown hl')
  · intro x l hno hx
    rw [hlink] at hx
    split at hx
    · rename_i h; exact List.mem_append.2 (.inr (List.mem_singleton.2 h))
    · exact List.mem_append.2 (.inl (hu.fresh hno hx))
  · intro c hc
    obtain ⟨l, hl⟩ := hu.changed hc
    exact ⟨l, by rw [hlink, if_neg (hknown hl), hl]⟩

theorem growEdge (hgrow : g'.growEdge u tail head dep = .ok s) : g.Records s.2 s.1 := by
  obtain ⟨y, hy, hrec⟩ := growEdge_eq_ok hgrow
  rw [hrec]
  rcases ensureEdge_eq_ok hy with ⟨hg, rfl, -⟩ | ⟨e, rfl, hc⟩
  · simpa [hg] using hu
  · exact hu.grow hc

theorem cutEdge (hcut : g'.cutEdge u e = .ok s) (hold : ∃ l, g.link? e = some l) : g.Records s.2 s.1 := by
  obtain ⟨hremove, hrec⟩ := cutEdge_eq_ok hcut
  rw [hrec]
  exact hu.cut hremove hold

/-- Replaying a record on a table of edges gives back the table before it. -/
theorem extends_of_undoEdges (hr : g'.Extends h') (hrun : h'.undoEdges u = .ok h) : g.Extends h := by
  obtain ⟨h1, hrun1, hrun⟩ := bind_eq_ok.1 hrun
  obtain ⟨h2, hrun2, hrun3⟩ := bind_eq_ok.1 hrun
  have hgone := flips_of_each flips_of_removeEdge hrun1
  obtain ⟨-, htags⟩ := retagged_of_restoreTags hrun2
  have hback := flips_of_each flips_of_restoreEdge hrun3
  constructor
  · intro x l hx
    obtain ⟨l', hl', rfl, -⟩ := hu.kept hx
    have hold : x ∉ u.added.reverse := by
      intro hmem
      rw [(hu.added (List.mem_reverse.1 hmem)).1] at hx
      cases hx
    rw [hback.link?, htags, hgone.link?, if_neg hold, hr.links hl']
    by_cases hmem : x ∈ u.removed <;> simp [hmem, before, withTag]
  · intro x l hnone hl
    have hnot : x ∉ u.removed.reverse := by
      intro hx
      obtain ⟨l', hl'⟩ := hu.removed (List.mem_reverse.1 hx)
      rw [hnone] at hl'
      cases hl'
    rw [hback.link?, if_neg hnot, htags] at hl
    obtain ⟨l1, hl1, rfl⟩ := Option.map_eq_some_iff.1 hl
    rw [hgone.link?] at hl1
    split at hl1
    · obtain ⟨l0, -, rfl⟩ := Option.map_eq_some_iff.1 hl1
      rfl
    · rename_i hadded
      cases hl' : g'.link? x with
      | none =>
        have hdead := hr.spare hl' hl1
        exact hdead
      | some l' => exact absurd (List.mem_reverse.2 (hu.fresh hnone hl')) hadded

/-- Where a record is replayed, the graph looks as it did before the change. -/
theorem resembles_of_undoEdges (hr : g'.Resembles h') (hrun : h'.undoEdges u = .ok h) : g.Resembles h := by
  have hback := rearranges_of_undoEdges hrun
  have hlinks := hu.extends_of_undoEdges hr.toExtends hrun
  exact ⟨(hu.moves.trans hr.moves).trans hback.moves, hback.frame.trans (hr.frame.trans hu.frame),
    hlinks.links, hlinks.spare, hback.consistent hr.consistent⟩

/-- Replaying a record gives back the graph before it. -/
theorem undo (hr : g'.Resembles h') (hfit : g'.EdgesFit) : ∃ h, h'.undoEdges u = .ok h ∧ g.Resembles h := by
  have hne {x : EdgeId} {l : Link} (hx : g'.link? x = some l) : x ≠ .invalid := hfit.ne_invalid hx
  -- The new edges go.
  have hadded : ∀ x ∈ u.added.reverse, x ≠ .invalid ∧ ∃ l, h'.link? x = some l ∧ l.live = !false := by
    intro x hx
    obtain ⟨-, l, hl, hlive⟩ := hu.added (List.mem_reverse.1 hx)
    exact ⟨hne hl, l, hr.links hl, hlive⟩
  obtain ⟨h1, hrun1, hflip1⟩ := exists_flips flips_of_removeEdge exists_removeEdge
    (List.nodup_reverse.2 hu.added_nodup) hadded
  -- The old tags come back.
  have hchanged : ∀ c ∈ u.changed, c.1 ≠ .invalid ∧ ∃ l, h1.link? c.1 = some l := by
    intro c hc
    obtain ⟨l, hl⟩ := hu.changed hc
    refine ⟨hne hl, ?_⟩
    rw [hflip1.link?, hr.links hl]
    split <;> exact ⟨_, rfl⟩
  obtain ⟨h2, hrun2, hmoves2, htags2⟩ := exists_retags hchanged
  -- The edges that were cut come back.
  have hremoved : ∀ x ∈ u.removed.reverse, x ≠ .invalid ∧
      ∃ l, h2.link? x = some l ∧ l.live = !true := by
    intro x hx
    have hx := List.mem_reverse.1 hx
    obtain ⟨l, hl⟩ := hu.removed hx
    obtain ⟨l', hl', -, hdead⟩ := hu.kept hl
    have hold : x ∉ u.added.reverse := by
      intro hmem
      rw [(hu.added (List.mem_reverse.1 hmem)).1] at hl
      cases hl
    refine ⟨hne hl', withTag l' ((u.changed.lookup x).getD l'.dep.reg?), ?_, hdead hx⟩
    rw [htags2, hflip1.link?, if_neg hold, hr.links hl', Option.map_some]
  obtain ⟨h3, hrun3, hflip3⟩ := exists_flips flips_of_restoreEdge exists_restoreEdge
    (List.nodup_reverse.2 hu.removed_nodup) hremoved
  have hmoves := (hflip1.toRearranges.trans hmoves2).trans hflip3.toRearranges
  have hrun : h'.undoEdges u = .ok h3 := by rw [undoEdges, hrun1, ok_bind, hrun2, ok_bind, hrun3]
  have hext := hu.extends_of_undoEdges hr.toExtends hrun
  exact ⟨h3, hrun, (hu.moves.trans hr.moves).trans hmoves.moves,
    hmoves.frame.trans (hr.frame.trans hu.frame), hext.links, hext.spare,
    hmoves.consistent hr.consistent⟩

end

end Records

theorem SameMoves.move_cases (h : g.SameMoves g') (n : MoveId) :
    (∃ m m', g.move n = .ok m ∧ g'.move n = .ok m' ∧ m'.bare = m.bare) ∨
      ∃ fault, g.move n = .error fault ∧ g'.move n = .error fault := by
  by_cases hn : n = .invalid
  · refine .inr ⟨.assertion, ?_, ?_⟩ <;> simp only [move, Id.fetch, Id.index, hn] <;> rfl
  · cases hm : g.move? n with
    | some m =>
      obtain ⟨m', hm', hbare⟩ := h.move? hm
      exact .inl ⟨m, m', move_eq_ok.2 ⟨hn, hm⟩, move_eq_ok.2 ⟨hn, hm'⟩, hbare⟩
    | none =>
      have hm' : g'.move? n = none := by
        have hmap := h.moves n
        rw [hm] at hmap
        simpa using hmap
      have hthrow {x : Graph} (hx : x.move? n = none) : x.move n = .error .outOfRange := by
        have hx : x.moves[n.val]? = none := hx
        simp only [move, Id.fetch, Id.index, hn, if_false, pure_bind, hx]
        rfl
      exact .inr ⟨.outOfRange, hthrow hm, hthrow hm'⟩

theorem excluding_congr {a b : MoveId} (h : g.SameMoves g') : g'.excluding a b = g.excluding a b := by
  have hexcludes {m m' k k' : Move} (hm : m'.bare = m.bare) (hk : k'.bare = k.bare) :
      m'.excludes k' = m.excludes k := by
    rw [Move.eq_of_bare hm, Move.eq_of_bare hk]
    rfl
  unfold excluding
  rcases h.move_cases a with ⟨m, m', hm, hm', hbare⟩ | ⟨fault, hm, hm'⟩
  · rcases h.move_cases b with ⟨k, k', hk, hk', hbare'⟩ | ⟨fault, hk, hk'⟩
    · rw [hm, hm', hk, hk']
      simp only [ok_bind, hexcludes hbare hbare']
    · rw [hm, hm', hk, hk']
      rfl
  · rw [hm, hm']
    rfl

/-! ## Changes under way -/

/-- A change that began with `g` and is under way: the record is right so far, and the edges that
are new are as `New` says. -/
structure Recording (g : Graph) (New : MoveId → MoveId → Dependence → Prop)
    (s : Graph × EdgeRecord) : Prop where
  records : g.Records s.2 s.1
  rewires : g.Rewires s.1 New NoneBack fun _ => True

namespace Recording

variable {New : MoveId → MoveId → Dependence → Prop} {s s' : Graph × EdgeRecord}

theorem refl : g.Recording New (g, {}) := ⟨.refl, .refl⟩

theorem growEdge {tail head : MoveId} {dep : Dependence} (hs : g.Recording New s)
    (h : s.1.growEdge s.2 tail head dep = .ok s') (hnew : New tail head dep) :
    g.Recording New s' := by
  obtain ⟨y, hy, -⟩ := growEdge_eq_ok h
  exact ⟨hs.records.growEdge h, hs.rewires.trans' (rewires_of_ensureEdge hy hnew)⟩

/-- An edge that is not as the new ones are was there before. -/
theorem cutEdge (hs : g.Recording New s) (h : s.1.cutEdge s.2 e = .ok s')
    (hl : s.1.link? e = some l) (hold : ¬ New l.tail l.head l.dep) : g.Recording New s' := by
  refine ⟨hs.records.cutEdge h ?_, hs.rewires.trans' (rewires_of_removeEdge (cutEdge_eq_ok h).1 trivial)⟩
  cases hg : g.link? e with
  | none => exact absurd (hs.rewires.fresh hg hl) hold
  | some l0 => exact ⟨l0, rfl⟩

end Recording

end Transport.Graph
