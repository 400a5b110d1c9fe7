import Transport.Dependence.Surgery
import Transport.Proofs.Dependence.Tables

/-!
# Edges and the lists that hold them

The edge lists of the moves and the edge table tell the same story: `Linked`. Adding, removing and
restoring edges changes nothing else about the moves; `Rewires` says what such changes can do to
the table, with the edges that are new and the edges that come back as parameters.
-/

namespace Transport

namespace Dependence

variable {d : Dependence} {hazard : Hazard} {r : Reg}

theorem isRaw_iff : d.isRaw ↔ d.reason = .register ∧ d.hazard = .raw := by
  simp [isRaw]

theorem carries_iff : d.carries hazard r ↔ (d.reason = .register ∧ d.hazard = hazard) ∧ d.reg? = some r := by
  simp [carries]

theorem isRaw_of_carries (h : d.carries .raw r) : d.isRaw :=
  isRaw_iff.2 (carries_iff.1 h).1

end Dependence

/-- Everything about a move but its edge lists. -/
def Move.bare (m : Move) : Move := { m with ins := [], outs := [] }

theorem Move.eq_of_bare {m m' : Move} (h : m'.bare = m.bare) :
    m' = { m with ins := m'.ins, outs := m'.outs } := by
  cases m; cases m'; simp_all [Move.bare]

namespace Graph

/-- The edge lists of the moves hold exactly the edges in the graph. -/
structure Linked (g : Graph) : Prop where
  mem_ins {n : MoveId} {m : Move} {e : EdgeId} : g.move? n = some m →
    (e ∈ m.ins ↔ ∃ l, g.link? e = some l ∧ l.live ∧ l.head = n)
  mem_outs {n : MoveId} {m : Move} {e : EdgeId} : g.move? n = some m →
    (e ∈ m.outs ↔ ∃ l, g.link? e = some l ∧ l.live ∧ l.tail = n)
  tail_known {e : EdgeId} {l : Link} : g.link? e = some l → ∃ m, g.move? l.tail = some m
  head_known {e : EdgeId} {l : Link} : g.link? e = some l → ∃ m, g.move? l.head = some m

/-- Two graphs that differ in nothing but their edges. -/
structure SameMoves (g g' : Graph) : Prop where
  moves (n : MoveId) : (g'.move? n).map Move.bare = (g.move? n).map Move.bare
  size : g'.moves.size = g.moves.size
  ops : g'.ops = g.ops
  guardLatencies : g'.guardLatencies = g.guardLatencies
  forcedFiles : g'.forcedFiles = g.forcedFiles
  liveOut : g'.liveOut = g.liveOut

/-- Some edges of `g` are cut, some come back and some are new in `g'`. -/
structure Rewires (g g' : Graph) (New : MoveId → MoveId → Dependence → Prop)
    (Back Cut : EdgeId → Prop) : Prop where
  moves : g.SameMoves g'
  linked : g.Linked → g'.Linked
  kept {e : EdgeId} {l : Link} : g.link? e = some l →
    ∃ b, g'.link? e = some { l with live := b } ∧ (l.live → b = false → Cut e)
  live {e : EdgeId} {l : Link} : g'.link? e = some l → l.live → g.link? e = some l ∨
    (Back e ∧ g.link? e = some { l with live := false }) ∨
      (g.link? e = none ∧ New l.tail l.head l.dep)
  fresh {e : EdgeId} {l : Link} : g.link? e = none → g'.link? e = some l → New l.tail l.head l.dep

variable {g g' g'' : Graph} {n : MoveId} {m : Move} {e : EdgeId} {l : Link}
  {New : MoveId → MoveId → Dependence → Prop} {Back Cut : EdgeId → Prop} {dep : Dependence} {e' : EdgeId}
  {l0 : Link} {tail head : MoveId}

namespace Linked

theorem mem_entries_iff {es : List EdgeId} {f : Link → MoveId}
    (hes : e ∈ es ↔ ∃ l, g.link? e = some l ∧ l.live ∧ f l = n) :
    (e, l) ∈ g.entries es ↔ g.link? e = some l ∧ l.live ∧ f l = n := by
  rw [mem_entries, hes]
  constructor
  · rintro ⟨⟨l', hl', h⟩, hl⟩
    cases hl.symm.trans hl'
    exact ⟨hl, h⟩
  · rintro ⟨hl, h⟩
    exact ⟨⟨l, hl, h⟩, hl⟩

theorem mem_entering (hg : g.Linked) :
    (e, l) ∈ g.entering n ↔ g.link? e = some l ∧ l.live ∧ l.head = n := by
  unfold entering
  cases hm : g.move? n with
  | some m => exact mem_entries_iff (hg.mem_ins hm)
  | none =>
    refine ⟨nofun, ?_⟩
    rintro ⟨hl, -, rfl⟩
    obtain ⟨m, hm'⟩ := hg.head_known hl
    cases hm.symm.trans hm'

theorem mem_leaving (hg : g.Linked) :
    (e, l) ∈ g.leaving n ↔ g.link? e = some l ∧ l.live ∧ l.tail = n := by
  unfold leaving
  cases hm : g.move? n with
  | some m => exact mem_entries_iff (hg.mem_outs hm)
  | none =>
    refine ⟨nofun, ?_⟩
    rintro ⟨hl, -, rfl⟩
    obtain ⟨m, hm'⟩ := hg.tail_known hl
    cases hm.symm.trans hm'

end Linked

theorem entering_eq (hm : g.move? n = some m) : g.entering n = g.entries m.ins := by
  simp [entering, hm]

theorem leaving_eq (hm : g.move? n = some m) : g.leaving n = g.entries m.outs := by
  simp [leaving, hm]

/-! ## Graphs with the same edges -/

/-- Two graphs with the same edges. -/
structure SameEdges (g g' : Graph) : Prop where
  ends (n : MoveId) : (g'.move? n).map (fun m => (m.ins, m.outs)) =
    (g.move? n).map fun m => (m.ins, m.outs)
  link? (e : EdgeId) : g'.link? e = g.link? e

namespace SameEdges

theorem symm (h : g.SameEdges g') : g'.SameEdges g :=
  ⟨fun n => (h.ends n).symm, fun e => (h.link? e).symm⟩

theorem move? (h : g.SameEdges g') (hm : g'.move? n = some m) :
    ∃ m0, g.move? n = some m0 ∧ m.ins = m0.ins ∧ m.outs = m0.outs := by
  obtain ⟨m0, hm0, heq⟩ := exists_of_map_eq (h.ends n) hm
  exact ⟨m0, hm0, (congrArg Prod.fst heq).symm, (congrArg Prod.snd heq).symm⟩

theorem linked (h : g.SameEdges g') (hg : g.Linked) : g'.Linked := by
  have hknown {x : MoveId} (hx : ∃ m, g.move? x = some m) : ∃ m, g'.move? x = some m := by
    obtain ⟨m0, hm0⟩ := hx
    obtain ⟨m, hm, -⟩ := h.symm.move? hm0
    exact ⟨m, hm⟩
  refine ⟨fun hm => ?_, fun hm => ?_, fun hl => ?_, fun hl => ?_⟩
  · obtain ⟨m0, hm0, hins, -⟩ := h.move? hm
    rw [hins, hg.mem_ins hm0, h.link?]
  · obtain ⟨m0, hm0, -, houts⟩ := h.move? hm
    rw [houts, hg.mem_outs hm0, h.link?]
  · exact hknown (hg.tail_known (h.link? _ ▸ hl))
  · exact hknown (hg.head_known (h.link? _ ▸ hl))

end SameEdges

/-! ## Graphs with the same moves -/

namespace SameMoves

theorem refl : g.SameMoves g := ⟨fun _ => rfl, rfl, rfl, rfl, rfl, rfl⟩

theorem trans (h : g.SameMoves g') (h' : g'.SameMoves g'') : g.SameMoves g'' where
  moves n := (h'.moves n).trans (h.moves n)
  size := h'.size.trans h.size
  ops := h'.ops.trans h.ops
  guardLatencies := h'.guardLatencies.trans h.guardLatencies
  forcedFiles := h'.forcedFiles.trans h.forcedFiles
  liveOut := h'.liveOut.trans h.liveOut

theorem symm (h : g.SameMoves g') : g'.SameMoves g :=
  ⟨fun n => (h.moves n).symm, h.size.symm, h.ops.symm, h.guardLatencies.symm, h.forcedFiles.symm,
    h.liveOut.symm⟩

theorem move? (h : g.SameMoves g') (hm : g.move? n = some m) :
    ∃ m', g'.move? n = some m' ∧ m'.bare = m.bare :=
  exists_of_map_eq (h.moves n).symm hm

theorem known (h : g.SameMoves g') (hn : ∃ m, g.move? n = some m) : ∃ m, g'.move? n = some m := by
  obtain ⟨m, hm⟩ := hn
  obtain ⟨m', hm', -⟩ := h.move? hm
  exact ⟨m', hm'⟩

theorem op? (h : g.SameMoves g') (o : OpId) : g'.op? o = g.op? o := by
  simp only [Graph.op?, h.ops]

variable {α : Type}

/-- What does not depend on edge lists is the same for the moves of both graphs. -/
theorem bind_eq (h : g.SameMoves g') {f : Move → Option α} (hf : ∀ m, f m.bare = f m) :
    (g'.move? n).bind f = (g.move? n).bind f := by
  have hbare (x : Option Move) : x.bind f = (x.map Move.bare).bind f := by
    cases x <;> simp [hf]
  rw [hbare, h.moves, ← hbare]

theorem map_eq (h : g.SameMoves g') {f : Move → α} (hf : ∀ m, f m.bare = f m) :
    (g'.move? n).map f = (g.move? n).map f := by
  rw [Option.map_eq_bind, Option.map_eq_bind]
  exact h.bind_eq fun m => congrArg some (hf m)

end SameMoves

/-! ## One edge more or less -/

theorem move?_attach : (g.attach e tail head).move? n = (g.move? n).map fun m =>
    { m with ins := if n = head then m.ins ++ [e] else m.ins
             outs := if n = tail then m.outs ++ [e] else m.outs } := by
  simp only [attach, move?_modifyMove]
  cases g.move? n <;> split <;> split <;> simp_all

theorem move?_detach : (g.detach e tail head).move? n = (g.move? n).map fun m =>
    { m with ins := if n = head then m.ins.filter (· ≠ e) else m.ins
             outs := if n = tail then m.outs.filter (· ≠ e) else m.outs } := by
  simp only [detach, move?_modifyMove]
  cases g.move? n <;> split <;> split <;> simp_all

theorem link?_attach : (g.attach e tail head).link? e' = g.link? e' := rfl

theorem link?_detach : (g.detach e tail head).link? e' = g.link? e' := rfl

theorem sameMoves_attach : g.SameMoves (g.attach e tail head) := by
  refine ⟨fun n => ?_, ?_, rfl, rfl, rfl, rfl⟩
  · rw [move?_attach]
    cases g.move? n <;> rfl
  · simp [attach, modifyMove]

theorem sameMoves_detach : g.SameMoves (g.detach e tail head) := by
  refine ⟨fun n => ?_, ?_, rfl, rfl, rfl, rfl⟩
  · rw [move?_detach]
    cases g.move? n <;> rfl
  · simp [detach, modifyMove]

theorem sameMoves_forgetDistances : g.SameMoves g.forgetDistances :=
  ⟨fun _ => rfl, rfl, rfl, rfl, rfl, rfl⟩

theorem sameMoves_modifyLink {f : Link → Link} : g.SameMoves (g.modifyLink e f) :=
  ⟨fun _ => rfl, rfl, rfl, rfl, rfl, rfl⟩

theorem link?_pushLink : ({ g with links := g.links.push l } : Graph).link? e' =
    if e'.val = g.links.size then some l else g.link? e' := by
  simp only [link?, Array.getElem?_push]

namespace Rewires

theorem refl : g.Rewires g New Back Cut where
  moves := .refl
  linked := id
  kept {_ l} h := ⟨l.live, h, by simp +contextual⟩
  live h _ := .inl h
  fresh h h' := by rw [h] at h'; cases h'

theorem trans (hback : ∀ e, Back e → ∃ l, g.link? e = some l)
    (h : g.Rewires g' New Back Cut) (h' : g'.Rewires g'' New Back Cut) : g.Rewires g'' New Back Cut where
  moves := h.moves.trans h'.moves
  linked hg := h'.linked (h.linked hg)
  kept he := by
    obtain ⟨b, hb, hcut⟩ := h.kept he
    obtain ⟨b', hb', hcut'⟩ := h'.kept hb
    refine ⟨b', hb', fun hlive hdead => ?_⟩
    cases b with
    | false => exact hcut hlive rfl
    | true => exact hcut' rfl hdead
  live {e l} he hlive := by
    rcases h'.live he hlive with hl | ⟨hb, hl⟩ | ⟨hnone, hn⟩
    · exact h.live hl hlive
    · obtain ⟨l0, hl0⟩ := hback e hb
      obtain ⟨b, hl1, -⟩ := h.kept hl0
      have heq : l = { l0 with live := true } := by
        rw [hl] at hl1
        cases l; cases l0; simp_all
      cases hold : l0.live with
      | true => left; rw [hl0, heq, ← hold]
      | false => right; left; refine ⟨hb, ?_⟩; rw [hl0, heq, ← hold]
    · refine .inr (.inr ⟨?_, hn⟩)
      cases hold : g.link? e with
      | none => rfl
      | some l0 =>
        obtain ⟨b, hb, -⟩ := h.kept hold
        rw [hnone] at hb
        cases hb
  fresh {e l} hnone hl := by
    cases hl1 : g'.link? e with
    | none => exact h'.fresh hl1 hl
    | some l1 =>
      obtain ⟨b, hb, -⟩ := h'.kept hl1
      rw [hl] at hb
      cases hb
      have hnew : New l1.tail l1.head l1.dep := h.fresh hnone hl1
      exact hnew

section

variable (h : g.Rewires g' New Back Cut)
include h

theorem mono {New' : MoveId → MoveId → Dependence → Prop} {Back' Cut' : EdgeId → Prop} (hnew : ∀ t h d, New t h d → New' t h d)
    (hback : ∀ e, Back e → Back' e) (hcut : ∀ e, Cut e → Cut' e) : g.Rewires g' New' Back' Cut' where
  moves := h.moves
  linked := h.linked
  kept he := by
    obtain ⟨b, hb, hb'⟩ := h.kept he
    exact ⟨b, hb, fun hlive hdead => hcut _ (hb' hlive hdead)⟩
  live he hl := (h.live he hl).imp_right (.imp (.imp_left (hback _)) (.imp_right (hnew _ _ _)))
  fresh hnone he := hnew _ _ _ (h.fresh hnone he)

theorem dead (hl : g.link? e = some l) (hdead : l.live = false)
    (hback : ¬ Back e) {l' : Link} (hl' : g'.link? e = some l') : l'.live = false := by
  cases hlive : l'.live with
  | false => rfl
  | true =>
    rcases h.live hl' hlive with hl'' | ⟨hb, -⟩ | ⟨hnone, -⟩
    · rw [hl] at hl''; cases hl''; rw [hdead] at hlive; cases hlive
    · exact absurd hb hback
    · rw [hl] at hnone; cases hnone

theorem uncut (hl : g.link? e = some l) (hback : ¬ Back e) (hcut : l.live → ¬ Cut e) : g'.link? e = some l := by
  obtain ⟨b, hb, hcut'⟩ := h.kept hl
  suffices b = l.live by rw [hb, this]
  cases hlive : l.live with
  | true =>
    cases b with
    | true => rfl
    | false => exact absurd (hcut' hlive rfl) (hcut hlive)
  | false => exact h.dead hl hlive hback hb

end

end Rewires

/-- The edge lists stay right if they change for one edge as its table entry does. -/
theorem Linked.update (hg : g.Linked) (hsame : g.SameMoves g')
    (hlinks : ∀ e', g'.link? e' = if e' = e then some l0 else g.link? e')
    (hins : ∀ n m m', g.move? n = some m → g'.move? n = some m' →
      ∀ e', e' ∈ m'.ins ↔ if e' = e then l0.live ∧ l0.head = n else e' ∈ m.ins)
    (houts : ∀ n m m', g.move? n = some m → g'.move? n = some m' →
      ∀ e', e' ∈ m'.outs ↔ if e' = e then l0.live ∧ l0.tail = n else e' ∈ m.outs)
    (htail : ∃ m, g.move? l0.tail = some m) (hhead : ∃ m, g.move? l0.head = some m) :
    g'.Linked where
  mem_ins {n m' e'} hm' := by
    obtain ⟨m, hm, -⟩ := hsame.symm.move? hm'
    rw [hins n m m' hm hm', hlinks]
    split
    · simp
    · exact hg.mem_ins hm
  mem_outs {n m' e'} hm' := by
    obtain ⟨m, hm, -⟩ := hsame.symm.move? hm'
    rw [houts n m m' hm hm', hlinks]
    split
    · simp
    · exact hg.mem_outs hm
  tail_known {e' l} hl := by
    rw [hlinks] at hl
    refine hsame.known ?_
    split at hl
    · cases hl; exact htail
    · exact hg.tail_known hl
  head_known {e' l} hl := by
    rw [hlinks] at hl
    refine hsame.known ?_
    split at hl
    · cases hl; exact hhead
    · exact hg.head_known hl

/-- An edge that was not in the graph is put into the lists of its moves. -/
theorem Linked.attach {x : Graph} (hg : g.Linked) (hmove : ∀ n, x.move? n = g.move? n)
    (hlink : ∀ e', x.link? e' = if e' = e then some l0 else g.link? e') (hlive : l0.live)
    (hdead : ∀ l, g.link? e = some l → l.live = false) (htail : ∃ m, g.move? l0.tail = some m)
    (hhead : ∃ m, g.move? l0.head = some m) (hsame : g.SameMoves (x.attach e l0.tail l0.head)) :
    (x.attach e l0.tail l0.head).Linked := by
  have hno {P : Link → Prop} : ¬ ∃ l, g.link? e = some l ∧ l.live ∧ P l := by
    rintro ⟨l, hl, hl', -⟩
    rw [hdead l hl] at hl'
    cases hl'
  have hlist {es : List EdgeId} {x n : MoveId} {e' : EdgeId} (hno : e ∉ es) :
      e' ∈ (if n = x then es ++ [e] else es) ↔ if e' = e then l0.live ∧ x = n else e' ∈ es := by
    by_cases he : e' = e
    · subst he
      by_cases hn : n = x
      · simp [hn, hlive]
      · simp [hn, hno, Ne.symm hn]
    · by_cases hn : n = x <;> simp [hn, he]
  refine hg.update hsame hlink ?_ ?_ htail hhead
  all_goals
    intro n m m' hm hm' e'
    rw [move?_attach, hmove, hm, Option.map_some] at hm'
    cases hm'
  · exact hlist (by rw [hg.mem_ins hm]; exact hno)
  · exact hlist (by rw [hg.mem_outs hm]; exact hno)

theorem Linked.forgetDistances (hg : g.Linked) : g.forgetDistances.Linked :=
  ⟨hg.mem_ins, hg.mem_outs, hg.tail_known, hg.head_known⟩

theorem rewires_of_connect (h : g.connect tail head dep = .ok (g', e)) (hnew : New tail head dep) :
    g.Rewires g' New Back Cut := by
  obtain ⟨⟨mt, hmt, -⟩, ⟨mh, hmh, -⟩, rfl, rfl⟩ := connect_eq_ok h
  generalize hx : ({ g with links := g.links.push { tail, head, dep } } : Graph) = x
  have hmove (n : MoveId) : x.move? n = g.move? n := by subst hx; rfl
  have hlink (e' : EdgeId) : x.link? e' =
      if e' = ⟨g.links.size⟩ then some { tail, head, dep } else g.link? e' := by
    subst hx
    rw [link?_pushLink]
    simp only [← Id.val_inj]
  have hfresh : g.link? ⟨g.links.size⟩ = none := by simp [link?]
  have hsame : g.SameMoves (x.attach ⟨g.links.size⟩ tail head) := by
    have hbase : g.SameMoves x := by subst hx; exact ⟨fun _ => rfl, rfl, rfl, rfl, rfl, rfl⟩
    exact hbase.trans sameMoves_attach
  refine ⟨hsame.trans sameMoves_forgetDistances, fun hg => ?_,
    fun {e' l} he' => ⟨l.live, ?_, by simp +contextual⟩, fun {e' l} he' _ => ?_,
    fun {e' l} hnone he' => ?_⟩
  · refine (hg.attach hmove hlink rfl ?_ ⟨mt, move?_of_move hmt⟩ ⟨mh, move?_of_move hmh⟩
      hsame).forgetDistances
    simp [hfresh]
  · have hne : e' ≠ ⟨g.links.size⟩ := by rintro rfl; rw [hfresh] at he'; cases he'
    rw [link?_forgetDistances, link?_attach, hlink, if_neg hne, he']
  · rw [link?_forgetDistances, link?_attach, hlink] at he'
    split at he'
    · rename_i he
      cases he'
      exact .inr (.inr ⟨he ▸ hfresh, hnew⟩)
    · exact .inl he'
  · rw [link?_forgetDistances, link?_attach, hlink] at he'
    split at he'
    · cases he'; exact hnew
    · rw [hnone] at he'; cases he'

theorem rewires_of_flip {b : Bool} (hl : g.link? e = some l) (hold : l.live = !b) (hcut : b = false → Cut e)
    (hback : b = true → Back e) (hsame : g.SameMoves g')
    (hlink : ∀ e', g'.link? e' = if e' = e then some { l with live := b } else g.link? e')
    (hlinked : g.Linked → g'.Linked) : g.Rewires g' New Back Cut := by
  refine ⟨hsame, hlinked, fun {e' k} he' => ?_, fun {e' k} he' hk => ?_, fun {e' k} hnone he' => ?_⟩
  · rw [hlink]
    split
    · rename_i he; subst he; rw [hl] at he'; cases he'; exact ⟨b, rfl, fun _ => hcut⟩
    · exact ⟨k.live, he', by simp +contextual⟩
  · rw [hlink] at he'
    split at he'
    · rename_i he
      cases he'
      obtain rfl : b = true := hk
      have hdead : l.live = false := hold
      refine .inr (.inl ⟨he ▸ hback rfl, ?_⟩)
      rw [he, hl, ← hdead]
    · exact .inl he'
  · rw [hlink, hnone] at he'
    split at he'
    · rename_i he; rw [← he, hnone] at hl; cases hl
    · cases he'

theorem link?_setLive {b : Bool} (hl : g.link? e = some l) (e' : EdgeId) :
    (g.modifyLink e fun l => { l with live := b }).link? e' =
      if e' = e then some { l with live := b } else g.link? e' := by
  rw [link?_modifyLink]
  split
  · rename_i he; rw [he, hl]; rfl
  · rfl

theorem rewires_of_removeEdge (h : g.removeEdge e = .ok g') (hcut : Cut e) :
    g.Rewires g' New Back Cut := by
  obtain ⟨l, hl, hlive, rfl⟩ := removeEdge_eq_ok h
  have hl := link?_of_link hl
  have hsame : g.SameMoves (((g.modifyLink e fun l => { l with live := false }).detach e l.tail
      l.head).forgetDistances) :=
    (sameMoves_modifyLink.trans sameMoves_detach).trans sameMoves_forgetDistances
  refine rewires_of_flip (b := false) hl hlive (fun _ => hcut) nofun hsame (link?_setLive hl) fun hg => ?_
  have htail := hg.tail_known hl
  have hhead := hg.head_known hl
  -- The edge is taken out of the list at its end `x`, and is in no other list.
  have hlist {es : List EdgeId} {f : Link → MoveId} {n : MoveId} {e' : EdgeId}
      (hmem : e ∈ es ↔ ∃ l, g.link? e = some l ∧ l.live ∧ f l = n) :
      e' ∈ (if n = f l then es.filter (· ≠ e) else es) ↔ if e' = e then false ∧ f l = n else e' ∈ es := by
    by_cases he : e' = e
    · subst he
      by_cases hn : n = f l
      · simp [hn]
      · simp only [if_neg hn, hmem, hl, Option.some.injEq, Bool.false_eq_true, false_and, if_true, iff_false]
        rintro ⟨_, rfl, -, hend⟩
        exact hn hend.symm
    · by_cases hn : n = f l <;> simp [hn, he]
  refine hg.update hsame (link?_setLive hl) ?_ ?_ htail hhead
  all_goals
    intro n m m' hm hm' e'
    rw [move?_forgetDistances, move?_detach, move?_modifyLink, hm, Option.map_some] at hm'
    cases hm'
  · exact hlist (hg.mem_ins hm)
  · exact hlist (hg.mem_outs hm)

theorem rewires_of_restoreEdge (h : g.restoreEdge e = .ok g') (hback : Back e) :
    g.Rewires g' New Back Cut := by
  obtain ⟨l, hl, hdead, rfl⟩ := restoreEdge_eq_ok h
  have hl := link?_of_link hl
  have hsame : g.SameMoves ((g.modifyLink e fun l => { l with live := true }).attach e l.tail
      l.head) := sameMoves_modifyLink.trans sameMoves_attach
  refine rewires_of_flip (b := true) hl hdead nofun (fun _ => hback) (hsame.trans sameMoves_forgetDistances)
    (link?_setLive hl) fun hg => ?_
  have htail := hg.tail_known hl
  have hhead := hg.head_known hl
  refine (hg.attach (fun _ => move?_modifyLink) (link?_setLive hl) rfl ?_ htail hhead hsame).forgetDistances
  intro l' hl'
  rw [hl] at hl'
  cases hl'
  exact hdead

theorem rewires_of_ensureEdge {x : Option EdgeId}
    (h : g.ensureEdge tail head dep = .ok (g', x)) (hnew : New tail head dep) :
    g.Rewires g' New Back Cut := by
  rcases ensureEdge_eq_ok h with ⟨rfl, -, -⟩ | ⟨e, -, hc⟩
  · exact .refl
  · exact rewires_of_connect hc hnew

end Graph

end Transport
