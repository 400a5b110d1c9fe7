import Transport.Proofs.Dependence.Replay
import Transport.Proofs.Renaming.Graph

/-!
# Exactly what a renaming does to the edges

The walks that repair the edges around a renamed move decide about each edge by what the moves at
its two ends access: the edge is left alone, cut, or tagged with the new register. So each walk maps
the edge table entry by entry (`Reworks`), and a renaming is: edges are added, moves get the new
register, the order that the write imposed is bridged, and the table is mapped.
-/

namespace Transport

/-- The link after a decision about it: cut if the order is gone, tagged with `r` if it is not. -/
def Link.act (r : Reg) (gone? : Option Bool) (l : Link) : Link :=
  match gone? with
  | none => l
  | some true => { l with live := false }
  | some false => { l with dep := { l.dep with reg? := some r } }

namespace Link

variable {r : Reg} {d : Option Bool} {l : Link}

@[simp] theorem act_none : l.act r none = l := rfl

theorem act_act : (l.act r d).act r d = l.act r d := by
  rcases d with _ | _ | _ <;> rfl

end Link

namespace Graph

/-- Every entry of the edge table is changed by `f`, and the edge lists follow. -/
structure Reworks (g : Graph) (f : Link → Link) (g' : Graph) : Prop extends g.Rearranges g' where
  link? (e : EdgeId) : g'.link? e = (g.link? e).map f

variable {g g' g'' : Graph} {u : EdgeRecord} {e x : EdgeId} {l : Link} {n : MoveId} {r : Reg}
  {s s' : Graph × EdgeRecord} {guardUse : Bool} {d : Dependence} {decision : Link → Option Bool}
  {ds : List (Link → Option Bool)} {range : LiveRange} {m : Move} {w t h : MoveId} {role : Role}

theorem Reworks.trans {f f' : Link → Link} (h : g.Reworks f g') (h' : g'.Reworks f' g'') :
    g.Reworks (f' ∘ f) g'' :=
  ⟨h.toRearranges.trans h'.toRearranges, fun e => by rw [h'.link?, h.link?, Option.map_map]⟩

/-! ## One edge -/

theorem act_of_cutOrRetag {gone : Bool} (h : g.cutOrRetag u e r gone = .ok s') :
    g.Rearranges s'.1 ∧ ∀ x, s'.1.link? x =
      if x = e then (g.link? x).map (Link.act r (some gone)) else g.link? x := by
  cases gone with
  | true =>
    have hflips := flips_of_removeEdge (cutEdge_eq_ok h).1
    exact ⟨hflips.toRearranges, fun x => by simp only [hflips.link?, List.mem_singleton]; rfl⟩
  | false =>
    cases pure_eq_ok.1 h
    unfold retagEdge
    split
    · rename_i l hl
      split
      · rename_i htag
        refine ⟨.refl, fun x => ?_⟩
        by_cases hx : x = e
        · rw [if_pos hx, hx, hl, Option.map_some, Link.act, ← htag]
        · rw [if_neg hx]
      · refine ⟨rearranges_modifyLink (fun _ => rfl) (fun _ => rfl) fun _ => rfl, fun x => ?_⟩
        rw [link?_modifyLink]
        rfl
    · rename_i hl
      refine ⟨.refl, fun x => ?_⟩
      by_cases hx : x = e
      · rw [if_pos hx, hx, hl]
        rfl
      · rw [if_neg hx]

/-! ## Walks over edges -/

section Walks

variable {f : Graph × EdgeRecord → EdgeId × Link → Checked (Graph × EdgeRecord)}
  {xs : List (EdgeId × Link)}

/-- A walk whose steps decide by the entry alone. -/
theorem acts_of_walk (done : List EdgeId) (hxs : ∀ x ∈ xs, g.link? x.1 = some x.2)
    (hf : ∀ t x, g.SameMoves t.1 → f t x = (decision x.2).elim (pure t) (t.1.cutOrRetag t.2 x.1 r))
    (hmoves : g.Rearranges s.1)
    (hs : ∀ e, s.1.link? e =
      (g.link? e).map fun l => if e ∈ done then l.act r (decision l) else l)
    (h : xs.foldlM f s = .ok s') : g.Rearranges s'.1 ∧ ∀ e, s'.1.link? e =
      (g.link? e).map fun l => if e ∈ done ++ xs.map Prod.fst then l.act r (decision l) else l := by
  induction xs generalizing s done with
  | nil =>
    cases pure_eq_ok.1 h
    exact ⟨hmoves, by simpa using hs⟩
  | cons x xs ih =>
    obtain ⟨s1, hstep, hrest⟩ := foldlM_cons_eq_ok.1 h
    have hx := hxs x (.head _)
    have hnext : g.Rearranges s1.1 ∧ ∀ e, s1.1.link? e =
        (g.link? e).map fun l => if e ∈ done ++ [x.1] then l.act r (decision l) else l := by
      rw [hf s x hmoves.moves] at hstep
      cases hd : decision x.2 with
      | none =>
        rw [hd] at hstep
        cases pure_eq_ok.1 hstep
        refine ⟨hmoves, fun e => ?_⟩
        rw [hs]
        by_cases he : e = x.1
        · simp [he, hx, hd]
        · simp [he]
      | some gone =>
        rw [hd] at hstep
        obtain ⟨hrearranges, hlink⟩ := act_of_cutOrRetag hstep
        refine ⟨hmoves.trans hrearranges, fun e => ?_⟩
        rw [hlink, hs]
        by_cases he : e = x.1
        · by_cases hdone : x.1 ∈ done <;> simp [he, hx, hdone, hd, Link.act_act]
        · simp [he]
    have hdone : done ++ (x :: xs).map Prod.fst = done ++ [x.1] ++ xs.map Prod.fst := by simp
    rw [hdone]
    exact ih _ (fun y hy => hxs y (.tail _ hy)) hnext.1 hnext.2 hrest

/-- One decision about every edge. -/
abbrev decide₁ (r : Reg) (decision : Link → Option Bool) (l : Link) : Link :=
  if l.live then l.act r (decision l) else l

theorem reworks_of_walk (decision : Link → Option Bool) {P : Link → Prop} [DecidablePred P]
    (hxs : ∀ e l, (e, l) ∈ xs ↔ s.1.link? e = some l ∧ l.live ∧ P l)
    (hf : ∀ t x, s.1.SameMoves t.1 → f t x = (decision x.2).elim (pure t) (t.1.cutOrRetag t.2 x.1 r))
    (h : xs.foldlM f s = .ok s') : s.1.Reworks (decide₁ r fun l => if P l then decision l else none) s'.1 := by
  obtain ⟨hmoves, hlinks⟩ := acts_of_walk [] (fun x hx => ((hxs x.1 x.2).1 hx).1) hf .refl
    (fun e => by simp) h
  refine ⟨hmoves, fun e => (hlinks e).trans ?_⟩
  cases hl : s.1.link? e with
  | none => rfl
  | some l =>
    have hmem : e ∈ xs.map Prod.fst ↔ l.live ∧ P l := by
      rw [List.mem_map]
      constructor
      · rintro ⟨⟨e', l'⟩, hx, rfl⟩
        obtain ⟨hl', hP⟩ := (hxs e' l').1 hx
        rw [hl] at hl'
        cases hl'
        exact hP
      · exact fun hP => ⟨(e, l), (hxs e l).2 ⟨hl, hP⟩, rfl⟩
    simp only [List.nil_append, Option.map_some, hmem, decide₁]
    by_cases hP : P l <;> simp [hP]

end Walks

/-! ## Decisions -/

/-- What a decision about an edge depends on: not on its tag and not on whether it was cut. -/
def Stable (decision : Link → Option Bool) : Prop :=
  ∀ r d l, decision (Link.act r d l) = decision l

/-- Decisions about an edge, carried out one after another. -/
def settle (r : Reg) (ds : List (Link → Option Bool)) (l : Link) : Link :=
  ds.foldl (fun l decision => if l.live then l.act r (decision l) else l) l

/-- The decision about an edge into `n`, which now writes `r`. -/
def entryDecision (g : Graph) (n : MoveId) (r : Reg) (l : Link) : Option Bool :=
  if l.head = n then g.entryGone? l r else none

/-- The decision about an edge out of `n`, which now writes `r`. -/
def exitDecision (g : Graph) (n : MoveId) (r : Reg) (l : Link) : Option Bool :=
  if l.tail = n then g.exitGone? l r else none

/-- Is the edge about a read of `n` and a later write? -/
def isReadOrder (n : MoveId) (guardUse : Bool) (l : Link) : Bool :=
  l.tail = n && l.dep.reason = .register && l.dep.hazard = .war && !l.dep.tailPseudo &&
    l.dep.guardUse = guardUse

/-- The decision about such an edge when `n` now reads `r`. -/
def readDecision (g : Graph) (r : Reg) (guardUse : Bool) (n : MoveId) (l : Link) : Option Bool :=
  if isReadOrder n guardUse l then some (l.dep.headPseudo || g.writesOther l.head r) else none

/-- The decisions about the edges of a range with the write `w` that is moved to `r`. -/
def decisions (g : Graph) (range : LiveRange) (w : MoveId) (r : Reg) : List (Link → Option Bool) :=
  [g.entryDecision w r, g.exitDecision w r] ++ range.reads.toList.map (g.readDecision r false) ++
    range.guards.toList.map (g.readDecision r true)

theorem stable_entryDecision : Stable (g.entryDecision n r) := by
  rintro r' (_ | _ | _) l <;> rfl

theorem stable_exitDecision : Stable (g.exitDecision n r) := by
  rintro r' (_ | _ | _) l <;> rfl

theorem stable_readDecision : Stable (g.readDecision r guardUse n) := by
  rintro r' (_ | _ | _) l <;> rfl

/-- An edge is decided about where it enters, where it leaves, and where the register is read. -/
theorem of_mem_decisions {P : (Link → Option Bool) → Prop} (h : decision ∈ g.decisions range w r)
    (hentry : P (g.entryDecision w r)) (hexit : P (g.exitDecision w r))
    (hread : ∀ guardUse x, P (g.readDecision r guardUse x)) : P decision := by
  simp only [decisions, List.mem_append, List.mem_cons, List.not_mem_nil, or_false, List.mem_map] at h
  rcases h with ((rfl | rfl) | ⟨x, -, rfl⟩) | ⟨x, -, rfl⟩
  · exact hentry
  · exact hexit
  · exact hread _ x
  · exact hread _ x

theorem stable_of_mem_decisions (h : decision ∈ g.decisions range w r) : Stable decision :=
  of_mem_decisions h stable_entryDecision stable_exitDecision fun _ _ => stable_readDecision

section Settle

theorem settle_of_dead (hdead : l.live = false) : settle r ds l = l := by
  induction ds with
  | nil => rfl
  | cons d ds ih =>
    simp only [settle, List.foldl_cons, hdead, Bool.false_eq_true, if_false]
    exact ih

theorem settle_cons {d : Link → Option Bool} (hlive : l.live) :
    settle r (d :: ds) l = settle r ds (l.act r (d l)) := by
  simp only [settle, List.foldl_cons, hlive, if_true]

/-- An edge is cut or tagged if a decision says so. -/
theorem settle_evolves {Touch : Touching}
    (hds : ∀ d ∈ ds, ∀ l gone, d l = some gone → Touch gone l.tail l.head l.dep.untagged) :
    l.Evolves r Touch (settle r ds l) := by
  induction ds generalizing l with
  | nil => exact .refl
  | cons d ds ih =>
    cases hlive : l.live with
    | false =>
      rw [settle_of_dead hlive]
      exact .refl
    | true =>
      rw [settle_cons hlive]
      refine .trans ?_ (ih fun d' hd' => hds d' (.tail _ hd'))
      have htouch := hds d (.head _) l
      rcases hd : d l with _ | _ | _
      · exact .refl
      · exact ⟨rfl, rfl, rfl, .inr ⟨rfl, htouch _ hd⟩, id, fun hl hdead => by simp_all [Link.act]⟩
      · exact ⟨rfl, rfl, rfl, .inl rfl, fun _ => hlive, fun _ _ => htouch _ hd⟩

theorem settle_ends : (settle r ds l).tail = l.tail ∧ (settle r ds l).head = l.head ∧
    (settle r ds l).dep.untagged = l.dep.untagged :=
  have hev : l.Evolves r (fun _ _ _ _ => True) (settle r ds l) := settle_evolves fun _ _ _ _ _ => trivial
  ⟨hev.tail, hev.head, hev.untagged⟩

/-- An edge stays unless one of the decisions is that it goes. -/
theorem settle_live (hds : ∀ d ∈ ds, Stable d) (hlive : l.live) :
    (settle r ds l).live = true ↔ ∀ d ∈ ds, d l ≠ some true := by
  induction ds generalizing l with
  | nil => simp [settle, hlive]
  | cons d ds ih =>
    rw [settle_cons hlive, List.forall_mem_cons]
    have hrest : ∀ d ∈ ds, Stable d := fun d hd => hds d (.tail _ hd)
    by_cases hd : d l = some true
    · rw [hd, settle_of_dead (by rfl)]
      simp [Link.act]
    · have hlive' : (l.act r (d l)).live := by
        rcases hx : d l with _ | _ | _
        · exact hlive
        · exact hlive
        · exact absurd hx hd
      rw [ih hrest hlive']
      simp only [ne_eq, hd, not_false_eq_true, true_and]
      exact forall₂_congr fun d' hd' => by rw [hrest d' hd']

/-- An edge that stays is tagged if one of the decisions is to tag it. -/
theorem settle_tag (hds : ∀ d ∈ ds, Stable d) (hlive : (settle r ds l).live) (hl : l.live) :
    (settle r ds l).dep.reg? = some r ∧ (∃ d ∈ ds, d l = some false) ∨
      settle r ds l = l ∧ ∀ d ∈ ds, d l = none := by
  induction ds generalizing l with
  | nil => exact .inr ⟨rfl, by simp⟩
  | cons d ds ih =>
    have hrest : ∀ d ∈ ds, Stable d := fun d hd => hds d (.tail _ hd)
    rw [settle_cons hl] at hlive ⊢
    have hlive' : (l.act r (d l)).live := by
      cases hx : (l.act r (d l)).live with
      | true => rfl
      | false => rw [settle_of_dead hx, hx] at hlive; cases hlive
    have hstable {d' : Link → Option Bool} (hd' : d' ∈ ds) : d' (l.act r (d l)) = d' l :=
      hrest d' hd' r (d l) l
    rcases ih hrest hlive hlive' with ⟨htag, d', hd', hfalse⟩ | ⟨heq, hnone⟩
    · exact .inl ⟨htag, d', .tail _ hd', (hstable hd').symm.trans hfalse⟩
    · rw [heq]
      rcases hx : d l with _ | _ | _
      · refine .inr ⟨rfl, ?_⟩
        rintro d' (_ | ⟨_, hd'⟩)
        · exact hx
        · exact (hstable hd').symm.trans (hnone d' hd')
      · exact .inl ⟨rfl, d, .head _, hx⟩
      · rw [hx] at hlive'
        cases hlive'

end Settle

/-! ## Edges that are added -/

/-- An edge with these ends and these data is in the graph. -/
def HasLink (g : Graph) (t h : MoveId) (d : Dependence) : Prop :=
  ∃ e, g.link? e = some { tail := t, head := h, dep := d }

theorem hasLink_of_growEdge (hg : g.Linked) (hgrow : g.growEdge u t h d = .ok s') : s'.1.HasLink t h d := by
  obtain ⟨x, hx, -⟩ := growEdge_eq_ok hgrow
  rcases ensureEdge_eq_ok hx with ⟨heq, -, hhas⟩ | ⟨e, -, hc⟩
  · simp only [hasEdge, bind_eq_ok, pure_eq_ok, List.any_eq_true, Bool.and_eq_true,
      decide_eq_true_eq, Prod.exists] at hhas
    obtain ⟨m, hm, e, l, hmem, rfl, rfl⟩ := hhas
    rw [← leaving_eq (move?_of_move hm), hg.mem_leaving] at hmem
    obtain ⟨hl, hlive, rfl⟩ := hmem
    refine ⟨e, ?_⟩
    rw [heq, hl]
    cases l
    simp_all
  · exact ⟨e, link?_of_connect hc⟩

theorem HasLink.rewires {New : MoveId → MoveId → Dependence → Prop}
    (hl : g.HasLink t h d) (hrew : g.Rewires g' New NoneBack NoneBack) : g'.HasLink t h d := by
  obtain ⟨e, he⟩ := hl
  exact ⟨e, hrew.uncut he id fun _ => id⟩

theorem bridge_congr {inc out : Link} (h : g.SameMoves g') : g'.bridge inc out = g.bridge inc out := by
  unfold bridge
  rw [excluding_congr h]

/-- An order that the write `w` imposes on two other moves. -/
structure Bridged (g : Graph) (w t h : MoveId) (d : Dependence) (inc out : Link) : Prop where
  inc_link : ∃ e, g.link? e = some inc
  inc_live : inc.live
  inc_tail : inc.tail = t
  inc_head : inc.head = w
  out_link : ∃ e, g.link? e = some out
  out_live : out.live
  out_tail : out.tail = w
  out_head : out.head = h
  storage : isStorage out.dep.reason
  hazard : out.dep.hazard = .waw
  bridge : g.bridge inc out = .ok (some d)

/-- The order is imposed by some pair of edges at `w`. -/
abbrev IsBridge (g : Graph) (w t h : MoveId) (d : Dependence) : Prop :=
  ∃ inc out, g.Bridged w t h d inc out

section Bridging

variable {e' : EdgeId} {inc out : Link}

theorem rewires_of_bridge (hg : g.Linked) (hinc : (e, inc) ∈ g.entering n)
    (hout : (e', out) ∈ (g.leaving n).filter fun x =>
      isStorage x.2.dep.reason && decide (x.2.dep.hazard = .waw))
    (hs : g.Rewires s.1 (g.IsBridge n) NoneBack NoneBack)
    (h : growBridge s inc out = .ok s') :
    s.1.Rewires s'.1 (g.IsBridge n) NoneBack NoneBack ∧
      ∀ d, g.bridge inc out = .ok (some d) → s'.1.HasLink inc.tail out.head d := by
  simp only [growBridge, bridge_congr hs.moves, bind_eq_ok] at h
  obtain ⟨x, hx, h⟩ := h
  rw [hx]
  cases x with
  | none =>
    cases pure_eq_ok.1 h
    exact ⟨.refl, by simp⟩
  | some d =>
    obtain ⟨hl, hlive, hh⟩ := hg.mem_entering.1 hinc
    simp only [List.mem_filter, hg.mem_leaving, Bool.and_eq_true, decide_eq_true_eq] at hout
    obtain ⟨⟨hl', hlive', ht'⟩, hstorage, hwaw⟩ := hout
    obtain ⟨y, hy, -⟩ := growEdge_eq_ok h
    refine ⟨rewires_of_ensureEdge hy ⟨inc, out, ⟨e, hl⟩, hlive, rfl, hh, ⟨e', hl'⟩, hlive', ht', rfl,
      hstorage, hwaw, hx⟩, ?_⟩
    rintro d' hd'
    cases hd'
    exact hasLink_of_growEdge (hs.linked hg) h

/-- The order that a write imposes is bridged, and nothing else is added. -/
theorem rewires_of_bridgeOver (hg : g.Linked) (h : g.bridgeOver n = .ok s') :
    g.Rewires s'.1 (g.IsBridge n) NoneBack NoneBack ∧
      ∀ t h d inc out, g.Bridged n t h d inc out → s'.1.HasLink t h d := by
  unfold bridgeOver at h
  refine ⟨?_, fun t hd d inc out hb => ?_⟩
  · refine foldlM_keeps (P := fun s => g.Rewires s.1 _ NoneBack NoneBack) ?_ .refl h
    rintro ⟨e', out⟩ hout s1 s2 hs1 h1
    refine foldlM_keeps (P := fun s => g.Rewires s.1 _ NoneBack NoneBack) ?_ hs1 h1
    rintro ⟨e, inc⟩ hinc s3 s4 hs3 h3
    exact hs3.trans' (rewires_of_bridge hg hinc hout hs3 h3).1
  · obtain ⟨⟨e, hinc⟩, hilive, rfl, hihead, ⟨e', hout⟩, holive, hotail, rfl, hstorage, hwaw, hbridge⟩ := hb
    have hinc : (e, inc) ∈ g.entering n := hg.mem_entering.2 ⟨hinc, hilive, hihead⟩
    have hout : (e', out) ∈ (g.leaving n).filter fun x =>
        isStorage x.2.dep.reason && decide (x.2.dep.hazard = .waw) := by
      rw [List.mem_filter, hg.mem_leaving]
      exact ⟨⟨hout, holive, hotail⟩, by simp [hstorage, hwaw]⟩
    -- Once the edge is there, later rounds keep it.
    refine foldlM_reaches (P := fun s => g.Rewires s.1 (g.IsBridge n) NoneBack NoneBack)
      (Q := fun s => s.1.HasLink inc.tail out.head d) ?_ hout ?_ .refl h
    · rintro ⟨e', out'⟩ hout' s1 s2 hs1 h1
      have hkeeps : s1.1.Rewires s2.1 (g.IsBridge n) NoneBack NoneBack := by
        refine (foldlM_keeps (P := fun s => g.Rewires s.1 (g.IsBridge n) NoneBack NoneBack ∧
          s1.1.Rewires s.1 (g.IsBridge n) NoneBack NoneBack) ?_ ⟨hs1, .refl⟩ h1).2
        rintro ⟨e, inc'⟩ hinc' s3 s4 ⟨hs3, hs3'⟩ h3
        have hstep := (rewires_of_bridge hg hinc' hout' hs3 h3).1
        exact ⟨hs3.trans' hstep, hs3'.trans' hstep⟩
      exact ⟨hs1.trans' hkeeps, fun hlink => hlink.rewires hkeeps⟩
    · intro s1 s2 hs1 h1
      refine foldlM_reaches (P := fun s => g.Rewires s.1 (g.IsBridge n) NoneBack NoneBack)
        (Q := fun s => s.1.HasLink inc.tail out.head d) ?_ hinc ?_ hs1 h1
      · rintro ⟨e, inc'⟩ hinc' s3 s4 hs3 h3
        have hstep := (rewires_of_bridge hg hinc' hout hs3 h3).1
        exact ⟨hs3.trans' hstep, fun hlink => hlink.rewires hstep⟩
      · intro s3 s4 hs3 h3
        exact (rewires_of_bridge hg hinc hout hs3 h3).2 d hbridge

end Bridging

/-! ## The walks of a renaming -/

theorem writesOther_congr (h : g.SameMoves g') : g'.writesOther n r = g.writesOther n r := by
  rw [writesOther, writesOther, h.bind_eq fun _ => rfl]

theorem entryGone?_congr (h : g.SameMoves g') : g'.entryGone? l r = g.entryGone? l r := by
  have hm := h.moves l.tail
  unfold entryGone?
  cases hg : g.move? l.tail <;> cases hg' : g'.move? l.tail <;> rw [hg, hg'] at hm
  case some.some m m' =>
    simp only [Option.map_some, Option.some.injEq] at hm
    rw [Move.eq_of_bare hm]
    rfl
  all_goals simp at hm

theorem exitGone?_congr (h : g.SameMoves g') : g'.exitGone? l r = g.exitGone? l r := by
  unfold exitGone?
  rw [writesOther_congr h]

theorem reworks_of_retagReads (hg : g.Linked) (h : g.retagReads n r guardUse = .ok s') :
    g.Reworks (decide₁ r (g.readDecision r guardUse n)) s'.1 := by
  refine reworks_of_walk (fun l => some (l.dep.headPseudo || g.writesOther l.head r)) (s := (g, {}))
    (P := fun l => isReadOrder n guardUse l) ?_ ?_ h
  · intro e l
    simp only [List.mem_filter, hg.mem_leaving, isReadOrder, Bool.and_eq_true, decide_eq_true_eq]
    constructor
    · rintro ⟨⟨hl, hlive, ht⟩, hrest⟩
      exact ⟨hl, hlive, ⟨⟨⟨ht, hrest.1.1.1⟩, hrest.1.1.2⟩, hrest.1.2⟩, hrest.2⟩
    · rintro ⟨hl, hlive, ⟨⟨⟨ht, h1⟩, h2⟩, h3⟩, h4⟩
      exact ⟨⟨hl, hlive, ht⟩, ⟨⟨h1, h2⟩, h3⟩, h4⟩
  · intro t x hmoves
    rw [← writesOther_congr hmoves]
    rfl

section

variable {f : Graph × EdgeRecord → EdgeId × Link → Checked (Graph × EdgeRecord)} (hmoves : g.SameMoves s.1)
  (hg : s.1.Linked)
include hmoves hg

theorem reworks_of_entering
    (hf : ∀ t x, f t x = (t.1.entryGone? x.2 r).elim (pure t) (t.1.cutOrRetag t.2 x.1 r))
    (h : (s.1.entering n).foldlM f s = .ok s') : s.1.Reworks (decide₁ r (g.entryDecision n r)) s'.1 := by
  refine reworks_of_walk (g.entryGone? · r) (fun e l => hg.mem_entering) (fun t x hsame => ?_) h
  rw [hf, entryGone?_congr (hmoves.trans hsame)]

theorem reworks_of_leaving
    (hf : ∀ t x, f t x = (t.1.exitGone? x.2 r).elim (pure t) (t.1.cutOrRetag t.2 x.1 r))
    (h : (s.1.leaving n).foldlM f s = .ok s') : s.1.Reworks (decide₁ r (g.exitDecision n r)) s'.1 := by
  refine reworks_of_walk (g.exitGone? · r) (fun e l => hg.mem_leaving) (fun t x hsame => ?_) h
  rw [hf, exitGone?_congr (hmoves.trans hsame)]

end

/-- A renamed destination: the order it imposed is bridged, then its edges are decided about. -/
theorem reworks_of_retagDest (hg : g.Linked) (hm : g.move? n = some m)
    (hr : m.dst.reg? = some r) (h : g.retagDest n = .ok s') : ∃ s1, g.bridgeOver n = .ok s1 ∧
      s1.1.Reworks (decide₁ r (g.exitDecision n r) ∘ decide₁ r (g.entryDecision n r)) s'.1 := by
  have h := of_move_bind hm h
  simp only [hr, bind_eq_ok] at h
  obtain ⟨s1, h1, s2, h2, h3⟩ := h
  have hrew := (rewires_of_bridgeOver hg h1).1
  have hg1 := hrew.linked hg
  have hentry := reworks_of_entering hrew.moves hg1 (fun t x => by cases t.1.entryGone? x.2 r <;> rfl) h2
  have hexit := reworks_of_leaving (hrew.moves.trans hentry.moves) (hentry.linked hg1)
    (fun t x => by cases t.1.exitGone? x.2 r <;> rfl) h3
  exact ⟨s1, h1, hentry.trans hexit⟩

/-! ## The renaming as a whole -/

theorem settle_append {d : Link → Option Bool} : settle r (ds ++ [d]) = decide₁ r d ∘ settle r ds := by
  funext l
  simp [settle, List.foldl_append]

theorem readDecision_congr (h : g.SameMoves g') : g'.readDecision r guardUse n = g.readDecision r guardUse n := by
  funext l
  simp only [readDecision, writesOther_congr h]

theorem reworks_of_renamedAt (hg : g.Linked) (hrole : role ≠ .dest)
    (hm : g.move? n = some m) (hreg : m.regAt? role = some r) (h : g.renamedAt n role = .ok s') :
    g.Reworks (decide₁ r (g.readDecision r (decide (role = .guard)) n)) s'.1 := by
  cases role with
  | dest => exact absurd rfl hrole
  | source =>
    have h := of_move_bind hm h
    have hsrc : m.src.reg? = some r := hreg
    simp only [hsrc] at h
    exact reworks_of_retagReads hg h
  | guard =>
    have h := of_move_bind hm h
    obtain ⟨guard, hguard, rfl⟩ := Option.map_eq_some_iff.1 hreg
    simp only [hguard] at h
    exact reworks_of_retagReads hg h

theorem known_of_renamedAt (h : g.renamedAt n role = .ok s') :
    ∃ m, g.move? n = some m ∧ (role = .guard → m.guard.isSome) := by
  cases role with
  | dest =>
    simp only [renamedAt, retagDest, bind_eq_ok] at h
    obtain ⟨m, hm, -⟩ := h
    exact ⟨m, move?_of_move hm, by simp⟩
  | source =>
    simp only [renamedAt, retagSource, bind_eq_ok] at h
    obtain ⟨m, hm, -⟩ := h
    exact ⟨m, move?_of_move hm, by simp⟩
  | guard =>
    simp only [renamedAt, retagGuard, bind_eq_ok] at h
    obtain ⟨m, hm, h⟩ := h
    refine ⟨m, move?_of_move hm, fun _ => ?_⟩
    cases hguard : m.guard with
    | none => simp [hguard] at h
    | some guard => rfl

theorem reworks_of_renamedReads {g0 : Graph} {roles : List (MoveId × Role)} {s s' : Graph × List EdgeRecord} (hg : g.Linked)
    (hmoves : g0.SameMoves g)
    (hroles : ∀ p ∈ roles, p.2 ≠ .dest ∧ ∀ m, g0.move? p.1 = some m →
      (p.2 = .guard → m.guard.isSome) → m.regAt? p.2 = some r)
    (hs : g.Reworks (settle r ds) s.1)
    (h : roles.foldlM (fun x p => do
      let (g, u) ← x.1.renamedAt p.1 p.2
      return (g, x.2 ++ [u])) s = .ok s') :
    g.Reworks (settle r (ds ++ roles.map fun p => g0.readDecision r (decide (p.2 = .guard)) p.1))
      s'.1 := by
  induction roles generalizing s ds with
  | nil =>
    cases pure_eq_ok.1 h
    simpa using hs
  | cons p roles ih =>
    obtain ⟨s1, hstep, hrest⟩ := foldlM_cons_eq_ok.1 h
    simp only [bind_eq_ok, pure_eq_ok] at hstep
    obtain ⟨s2, hren, rfl⟩ := hstep
    obtain ⟨hne, hreg⟩ := hroles p (.head _)
    obtain ⟨m, hm, hguard⟩ := known_of_renamedAt hren
    have hsame := hmoves.trans hs.moves
    obtain ⟨m0, hm0, hbare⟩ := hsame.symm.move? hm
    have hm0guard : m0.guard = m.guard := (congrArg Move.guard (Move.eq_of_bare hbare) :)
    have hwork := reworks_of_renamedAt (hs.linked hg) hne hm
      ((regAt?_bare hbare p.2).symm.trans (hreg m0 hm0 fun hp => hm0guard ▸ hguard hp)) hren
    rw [readDecision_congr hsame] at hwork
    have hnext := hs.trans hwork
    rw [← settle_append] at hnext
    have := ih (fun q hq => hroles q (.tail _ hq)) hnext hrest
    rwa [List.append_assoc] at this

/-- A range with the write `w` is moved to register `r`: the edges that keep it apart are added
(`g₁`), the register is written into its moves (`g₂`), the order that `w` imposed is bridged (`g₃`),
and the edges are decided about. -/
structure Relabels (g : Graph) (range : LiveRange) (w : MoveId) (r : Reg)
    (edges : List (MoveId × MoveId × Dependence)) (g₁ g₂ g₃ g' : Graph) : Prop where
  planned : g.Rewires g₁ (Planned edges) NoneBack NoneBack
  separated {t h : MoveId} {d : Dependence} : (t, h, d) ∈ edges → g₁.HasLink t h d
  reregisters : g₁.Reregisters r range.roles g₂
  bridged : g₂.Rewires g₃ (g₂.IsBridge w) NoneBack NoneBack
  spanned {t h : MoveId} {d : Dependence} {inc out : Link} :
    g₂.Bridged w t h d inc out → g₃.HasLink t h d
  settled : g₃.Reworks (settle r (g₂.decisions range w r)) g'

theorem Reregisters.regAt_self
    (h : g.Reregisters r range.roles g') (hn : n ∈ range.inRole role) (hm : g'.move? n = some m)
    (hguard : role = .guard → m.guard.isSome) : m.regAt? role = some r := by
  cases hr : m.regAt? role with
  | some r' => rw [h.regAt hn hm hr]
  | none =>
    rw [h.move?] at hm
    obtain ⟨m0, -, rfl⟩ := Option.map_eq_some_iff.1 hm
    have hmem := mem_roles.2 hn
    cases role with
    | dest => simp [Move.regAt?, Move.setRegs, hmem, Terminal.reg?] at hr
    | source => simp [Move.regAt?, Move.setRegs, hmem, Terminal.reg?] at hr
    | guard =>
      have hsome := hguard rfl
      simp only [Move.regAt?, Option.map_eq_none_iff] at hr
      rw [hr] at hsome
      cases hsome

theorem relabels_of_applyRename {edges : List (MoveId × MoveId × Dependence)} {us : List EdgeRecord} (hg : g.Linked) (hw : range.writes.toList = [w])
    (h : g.applyRename range r edges = .ok (g', us)) :
    ∃ g1 g2 g3, g.Relabels range w r edges g1 g2 g3 g' := by
  obtain ⟨g1, added, g2, s2, hgrow, hrew, hset, hg2, hwrite, hdest, h⟩ := applyRename_eq_ok hg hw h
  have hsep : ∀ t hd d, (t, hd, d) ∈ edges → g1.HasLink t hd d := by
    intro t hd d hx
    refine foldlM_reaches (P := fun s => g.Rewires s.1 (Planned edges) NoneBack NoneBack)
      (Q := fun s => s.1.HasLink t hd d) ?_ hx ?_ .refl hgrow
    · rintro ⟨t', hd', d'⟩ hy s1 s2 hs1 hstep
      obtain ⟨y, hy', -⟩ := growEdge_eq_ok hstep
      have hone : s1.1.Rewires s2.1 (Planned edges) NoneBack NoneBack := rewires_of_ensureEdge hy' hy
      exact ⟨hs1.trans' hone, fun hlink => hlink.rewires hone⟩
    · exact fun s1 s2 hs1 hstep => hasLink_of_growEdge (hs1.linked hg) hstep
  have hreg := reregisters_of_setRegs hset
  obtain ⟨m, hm, -⟩ := known_of_renamedAt (show g2.renamedAt w .dest = .ok s2 from hdest)
  obtain ⟨s3, hbridge, hwork⟩ :=
    reworks_of_retagDest hg2 hm (hreg.regAt_self hwrite hm (by simp)) hdest
  obtain ⟨hbridged, hspanned⟩ := rewires_of_bridgeOver hg2 hbridge
  refine ⟨g1, g2, s3.1, hrew, hsep _ _ _, hreg, hbridged, hspanned _ _ _ _ _, ?_⟩
  have hfirst : s3.1.Reworks (settle r [g2.entryDecision w r, g2.exitDecision w r]) s2.1 := hwork
  have hreads := reworks_of_renamedReads (s := (s2.1, [added, s2.2])) (hbridged.linked hg2)
    hbridged.moves ?_ hfirst h
  · simpa [decisions, Function.comp_def] using hreads
  · intro p hp
    have hmem : p.2 ≠ .dest ∧ p.1 ∈ range.inRole p.2 := by
      simp only [List.mem_append, List.mem_map, Std.ExtTreeSet.mem_toList] at hp
      rcases hp with ⟨x, hx, rfl⟩ | ⟨x, hx, rfl⟩
      · exact ⟨by simp, hx⟩
      · exact ⟨by simp, hx⟩
    exact ⟨hmem.1, fun m hm hguard => hreg.regAt_self hmem.2 hm hguard⟩

/-- The decisions are about edges that a renaming may touch. -/
theorem rangeOrder_of_decision {gone : Bool} (hd : decision ∈ g.decisions range w r)
    (h : decision l = some gone) : g.RangeOrder range w r gone l.tail l.head l.dep.untagged := by
  have hread {n : MoveId} {guardUse : Bool} (hn : n ∈ range.inRole (if guardUse then .guard else .source))
      (h : g.readDecision r guardUse n l = some gone) :
      g.RangeOrder range w r gone l.tail l.head l.dep.untagged := by
    unfold readDecision at h
    split at h
    · rename_i horder
      simp only [isReadOrder, Bool.and_eq_true, decide_eq_true_eq] at horder
      obtain ⟨⟨⟨⟨rfl, hreason⟩, hwar⟩, -⟩, rfl⟩ := horder
      exact .inr ⟨hreason, hwar, hn⟩
    · cases h
  simp only [decisions, List.mem_append, List.mem_cons, List.not_mem_nil, or_false, List.mem_map,
    Std.ExtTreeSet.mem_toList] at hd
  rcases hd with ((rfl | rfl) | ⟨n, hn, rfl⟩) | ⟨n, hn, rfl⟩
  · unfold entryDecision at h
    split at h
    · rename_i hhead
      exact .inl (hhead ▸ writeOrder_of_entryGone? h)
    · cases h
  · unfold exitDecision at h
    split at h
    · rename_i htail
      exact .inl (htail ▸ writeOrder_of_exitGone? h)
    · cases h
  · exact hread hn h
  · exact hread hn h

theorem Bridged.bridges {inc out : Link} (hb : g.Bridged w t h d inc out) : g.Bridges w t h d := by
  obtain ⟨⟨e, hinc⟩, hilive, rfl, hihead, ⟨e', hout⟩, holive, hotail, rfl, hstorage, hwaw, hbridge⟩ := hb
  obtain ⟨hstorage', hhazard, hne, hd⟩ := bridge_eq_some hbridge
  exact ⟨hne, e, inc, e', out, hinc, hilive, rfl, hihead, hout, holive, hotail, rfl, hhazard, hwaw, hstorage',
    hstorage, hd⟩

theorem Relabels.renames {edges : List (MoveId × MoveId × Dependence)} {g1 g2 g3 : Graph}
    (h : g.Relabels range w r edges g1 g2 g3 g') : g.Renames range w r edges g' := by
  have hsettled : g3.Retags g' r (g2.Bridges w) (g2.RangeOrder range w r) := by
    refine ⟨h.settled.moves, h.settled.linked, fun {e l} hl => ?_, fun {e l'} hnone hl' => ?_⟩
    · exact ⟨_, by rw [h.settled.link?, hl, Option.map_some], settle_evolves fun d hd l gone => rangeOrder_of_decision hd,
        settle_of_dead⟩
    · simp [h.settled.link?, hnone] at hl'
  refine ⟨g1, g2, h.planned, h.reregisters, .trans ?_ hsettled, fun e l hl hlive htail hraw hpseudo => ?_⟩
  · exact h.bridged.retags fun _ _ _ ⟨_, _, hb⟩ => hb.bridges
  · rw [h.settled.link?] at hl
    obtain ⟨l0, hl0, rfl⟩ := Option.map_eq_some_iff.1 hl
    obtain ⟨heqt, -, hdep⟩ := @settle_ends l0 r (g2.decisions range w r)
    have hlive0 : l0.live := by
      cases hx : l0.live with
      | true => rfl
      | false => rw [settle_of_dead hx, hx] at hlive; cases hlive
    refine ((settle_tag (fun _ => stable_of_mem_decisions) hlive hlive0).resolve_right fun hnone => ?_).1
    have hexit := hnone.2 (g2.exitDecision w r) (by simp [decisions])
    rw [exitDecision, if_pos (heqt ▸ htail), exitGone?_of_raw (Dependence.isRaw_of_untagged hdep ▸ hraw)
      (Dependence.isPseudo_of_untagged hdep ▸ hpseudo)] at hexit
    cases hexit

end Graph

end Transport
