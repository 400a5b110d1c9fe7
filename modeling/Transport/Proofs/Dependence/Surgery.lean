import Transport.Proofs.Dependence.EdgeLists

/-!
# What surgery does to a graph

The edges that bypasses and removals take away, add and bring back, and the moves they change.
-/

namespace Transport.Graph

variable {g g' : Graph} {u : EdgeRecord} {e : EdgeId} {l : Link} {n source dest : MoveId}
  {New : MoveId → MoveId → Dependence → Prop} {Cut : EdgeId → Prop} {s s' : Graph × EdgeRecord}
  {dep : Dependence} {xs : List (EdgeId × Link)} {es : List EdgeId} {m : Move} {f : Move → Move}
  {tail head : MoveId} {o o' : OpId} {k : Operation → Operation} {red : Redirection} {r : Reg}
  {rm : RemovedMove} {α : Type}

/-- What a graph is made of besides moves, edges and operations. -/
def frame (g : Graph) : Graph := { g with moves := #[], links := #[], ops := #[], distances := {} }

/-- No edge comes back. -/
abbrev NoneBack : EdgeId → Prop := fun _ => False

/-- No edge is new. -/
abbrev NoneNew : MoveId → MoveId → Dependence → Prop := fun _ _ _ => False

theorem Rewires.trans' {g'' : Graph} (h : g.Rewires g' New NoneBack Cut)
    (h' : g'.Rewires g'' New NoneBack Cut) : g.Rewires g'' New NoneBack Cut :=
  h.trans (by simp) h'

theorem Rewires.live_or_new (h : g.Rewires g' New NoneBack Cut) (hl : g'.link? e = some l)
    (hlive : l.live) : g.link? e = some l ∨ New l.tail l.head l.dep := by
  rcases h.live hl hlive with hl | ⟨hb, -⟩ | ⟨-, hn⟩
  · exact .inl hl
  · exact hb.elim
  · exact .inr hn

theorem Rewires.live_of_live (h : g.Rewires g' NoneNew NoneBack Cut) (hl : g'.link? e = some l)
    (hlive : l.live) : g.link? e = some l :=
  (h.live_or_new hl hlive).resolve_right id

/-! ## Walks that cut and grow edges -/

theorem cutEdge_eq_ok (h : g.cutEdge u e = .ok s') :
    g.removeEdge e = .ok s'.1 ∧ s'.2 = { u with removed := u.removed ++ [e] } := by
  simp only [cutEdge, bind_eq_ok, pure_eq_ok] at h
  obtain ⟨g1, hg1, rfl⟩ := h
  exact ⟨hg1, rfl⟩

theorem growEdge_eq_ok (h : g.growEdge u tail head dep = .ok s') :
    ∃ x, g.ensureEdge tail head dep = .ok (s'.1, x) ∧
      s'.2 = { u with added := u.added ++ x.toList } := by
  simp only [growEdge, bind_eq_ok, pure_eq_ok] at h
  obtain ⟨⟨g1, x⟩, hg1, rfl⟩ := h
  exact ⟨x, hg1, rfl⟩

theorem live_of_removeEdge (h : g.removeEdge e = .ok g') : ∃ l, g.link? e = some l ∧ l.live ∧
    g'.link? e = some { l with live := false } := by
  obtain ⟨l, hl, hlive, rfl⟩ := removeEdge_eq_ok h
  refine ⟨l, link?_of_link hl, hlive, ?_⟩
  rw [link?_forgetDistances, link?_detach, link?_modifyLink, if_pos rfl, link?_of_link hl]
  rfl

theorem link?_of_connect (h : g.connect tail head dep = .ok (g', e)) : g'.link? e = some { tail, head, dep } := by
  obtain ⟨-, -, rfl, rfl⟩ := connect_eq_ok h
  rw [link?_forgetDistances, link?_attach, link?_pushLink, if_pos rfl]

theorem rewires_of_cuts (Cut : EdgeId → Prop) {f : Graph × EdgeRecord → EdgeId × Link → Checked (Graph × EdgeRecord)}
    (hf : ∀ s x, f s x = s.1.cutEdge s.2 x.1)
    (hcut : ∀ x ∈ xs, Cut x.1) (h : xs.foldlM f s = .ok s') :
    s.1.Rewires s'.1 NoneNew NoneBack Cut ∧
      s'.2 = { s.2 with removed := s.2.removed ++ xs.map Prod.fst } ∧
      ∀ x ∈ xs, ∃ l, s.1.link? x.1 = some l ∧ l.live ∧ s'.1.link? x.1 = some { l with live := false } := by
  induction xs generalizing s with
  | nil =>
    cases pure_eq_ok.1 h
    exact ⟨.refl, by simp, by simp⟩
  | cons x xs ih =>
    obtain ⟨s1, h1, h⟩ := foldlM_cons_eq_ok.1 h
    rw [hf] at h1
    obtain ⟨hremove, hrec⟩ := cutEdge_eq_ok h1
    obtain ⟨hrest, hrec', hcuts⟩ := ih (fun y hy => hcut y (.tail _ hy)) h
    have hfirst : s.1.Rewires s1.1 NoneNew NoneBack Cut :=
      rewires_of_removeEdge hremove (hcut x (.head _))
    refine ⟨hfirst.trans' hrest, by simp [hrec', hrec], ?_⟩
    intro y hy
    obtain ⟨l, hl, hlive, hdead⟩ := live_of_removeEdge hremove
    rcases List.mem_cons.1 hy with rfl | hy
    · obtain ⟨b, hb, -⟩ := hrest.kept hdead
      have := hrest.dead hdead rfl id hb
      exact ⟨l, hl, hlive, by simp_all⟩
    · obtain ⟨k, hk, hklive, hkdead⟩ := hcuts y hy
      rcases hfirst.live hk hklive with hk' | ⟨hb, -⟩ | ⟨-, hn⟩
      · exact ⟨k, hk', hklive, hkdead⟩
      · exact hb.elim
      · exact hn.elim

theorem rewires_of_grows (tail head : α → MoveId) (dep : α → Dependence)
    {f : Graph × EdgeRecord → α → Checked (Graph × EdgeRecord)}
    (hf : ∀ s x, f s x = s.1.growEdge s.2 (tail x) (head x) (dep x)) {xs : List α}
    (hnew : ∀ x ∈ xs, New (tail x) (head x) (dep x)) (h : xs.foldlM f s = .ok s') :
    s.1.Rewires s'.1 New NoneBack Cut ∧ s'.2.removed = s.2.removed ∧ s'.2.changed = s.2.changed ∧
      ∀ e ∈ s'.2.added, e ∈ s.2.added ∨ ∃ l, s'.1.link? e = some l ∧ New l.tail l.head l.dep := by
  induction xs generalizing s with
  | nil =>
    cases pure_eq_ok.1 h
    exact ⟨.refl, rfl, rfl, fun e he => .inl he⟩
  | cons x xs ih =>
    obtain ⟨s1, h1, h⟩ := foldlM_cons_eq_ok.1 h
    rw [hf] at h1
    obtain ⟨y, hy, hrec⟩ := growEdge_eq_ok h1
    obtain ⟨hrest, hremoved, hchanged, hadded⟩ := ih (fun z hz => hnew z (.tail _ hz)) h
    have hx : New (tail x) (head x) (dep x) := hnew x (.head _)
    have hfirst : s.1.Rewires s1.1 New NoneBack Cut := rewires_of_ensureEdge hy hx
    refine ⟨hfirst.trans' hrest, by rw [hremoved, hrec], by rw [hchanged, hrec], ?_⟩
    intro e he
    rcases hadded e he with he | hl
    · rw [hrec, List.mem_append] at he
      rcases he with he | he
      · exact .inl he
      · rcases ensureEdge_eq_ok hy with ⟨-, rfl, -⟩ | ⟨e', rfl, hc⟩
        · cases he
        · obtain rfl : e = e' := by simpa using he
          obtain ⟨b, hb, -⟩ := hrest.kept (link?_of_connect hc)
          exact .inr ⟨_, hb, hx⟩
    · exact .inr hl

/-! ## Bypasses -/

/-- An edge that a bypass of `source` into `dest` adds: an edge into `source` led on to `dest`. The
edges that are about the guard of `source` or about the register `r` it writes are not. -/
structure Inherits (g : Graph) (source dest : MoveId) (r : Reg) (t h : MoveId) (d : Dependence) :
    Prop where
  head : h = dest
  tail : t ≠ dest
  guardUse : d.guardUse = false
  war : d.carries .war r = false
  waw : d.carries .waw r = false
  origin : ∃ e l, g.link? e = some l ∧ l.live ∧ l.tail = t ∧ l.head = source ∧ l.dep = d

theorem Inherits.of_rewires {t h : MoveId} {d : Dependence} (hrew : g.Rewires g' NoneNew NoneBack Cut)
    (hin : g'.Inherits source dest r t h d) : g.Inherits source dest r t h d := by
  obtain ⟨e, l, hl, hlive, hends⟩ := hin.origin
  exact ⟨hin.head, hin.tail, hin.guardUse, hin.war, hin.waw, e, l, hrew.live_of_live hl hlive, hlive, hends⟩

/-- The read of `r` that a bypass of `source` into `dest` does away with. -/
structure Bypassed (source dest : MoveId) (r : Reg) (l : Link) : Prop where
  tail : l.tail = source
  head : l.head = dest
  carries : l.dep.carries .raw r
  guardUse : l.dep.guardUse = false

/-- The order between that read and a later write of `r`. -/
structure Overwritten (dest : MoveId) (r : Reg) (l : Link) : Prop where
  tail : l.tail = dest
  carries : l.dep.carries .war r
  guardUse : l.dep.guardUse = false

/-- The edges of a bypass of `source`, which reads no register and writes `r`, into `dest`. -/
structure Merges (g : Graph) (source dest : MoveId) (r : Reg) (g' : Graph) (u : EdgeRecord) :
    Prop where
  ne : source ≠ dest
  live : ∃ s d, g.move? source = some s ∧ s.live ∧ g.move? dest = some d ∧ d.live
  rewires : g.Rewires g' (g.Inherits source dest r) NoneBack (· ∈ u.removed)
  bypassed : ∃ e ∈ u.removed, ∃ l, g.link? e = some l ∧ Bypassed source dest r l
  cut {e : EdgeId} {l : Link} : g.link? e = some l → l.live → Bypassed source dest r l →
    g'.link? e = some { l with live := false }
  dropped {e : EdgeId} {l : Link} : g.link? e = some l → l.live → Overwritten dest r l →
    g'.link? e = some { l with live := false }
  removed {e : EdgeId} : e ∈ u.removed → ∃ l, g.link? e = some l ∧ l.live ∧
    (Bypassed source dest r l ∨ Overwritten dest r l)
  added {e : EdgeId} : e ∈ u.added → ∃ l, g'.link? e = some l ∧
    g.Inherits source dest r l.tail l.head l.dep
  changed : u.changed = []

theorem mem_connecting (hg : g.Linked) (h : g.connecting source dest = .ok xs) :
    (e, l) ∈ xs ↔ g.link? e = some l ∧ l.live ∧ l.tail = source ∧ l.head = dest := by
  simp only [connecting, bind_eq_ok, pure_eq_ok] at h
  obtain ⟨m, hm, rfl⟩ := h
  rw [List.mem_filter, ← leaving_eq (move?_of_move hm), hg.mem_leaving]
  simp [and_assoc]

theorem mem_bypassedEdges (hg : g.Linked) (h : g.bypassedEdges source dest r = .ok xs) :
    (e, l) ∈ xs ↔ g.link? e = some l ∧ l.live ∧ Bypassed source dest r l := by
  simp only [bypassedEdges, bind_eq_ok, pure_eq_ok] at h
  obtain ⟨ys, hys, rfl⟩ := h
  rw [List.mem_filter, mem_connecting hg hys]
  constructor
  · rintro ⟨⟨hl, hlive, ht, hh⟩, hc⟩
    simp only [Bool.and_eq_true, Bool.not_eq_true'] at hc
    exact ⟨hl, hlive, ht, hh, hc.1, hc.2⟩
  · rintro ⟨hl, hlive, ht, hh, hc, hguard⟩
    exact ⟨⟨hl, hlive, ht, hh⟩, by simp [hc, hguard]⟩

theorem canMerge_eq_true {force : Bool} (h : g.canMerge source dest force = .ok true) : source ≠ dest ∧
    ∃ s d r xs, g.move source = .ok s ∧ s.live ∧ g.move dest = .ok d ∧ d.live ∧
      s.dst.reg? = some r ∧ g.bypassedEdges source dest r = .ok xs ∧ (force = false → xs ≠ []) ∧
      ∀ read, s.src.reg? = some read → ∀ e l, (e, l) ∈ overwrites read (g.leaving source) → l.head ≠ dest →
        g.excluding dest l.head = .ok false → g.hasPath l.head dest = .ok false := by
  unfold canMerge at h
  split at h
  · simp at h
  rename_i hne
  simp only [bind_eq_ok] at h
  obtain ⟨s, hs, h⟩ := h
  split at h
  case isFalse => simp at h
  rename_i hlive
  simp only [bind_eq_ok] at h
  obtain ⟨d, hd, h⟩ := h
  split at h
  case isFalse => simp at h
  rename_i hdlive
  split at h
  case h_2 => simp at h
  rename_i r hr
  simp only [bind_eq_ok] at h
  obtain ⟨xs, hxs, h⟩ := h
  split at h
  · simp at h
  rename_i hraw
  refine ⟨hne, s, d, r, xs, hs, hlive, hd, hdlive, hr, hxs, ?_, fun read hread e l hl hh hex => ?_⟩
  · rintro rfl rfl
    simp at hraw
  split at h
  · simp at h
  simp only [hread, bind_eq_ok, pure_eq_ok, Bool.not_eq_true'] at h
  obtain ⟨closes, hcloses, rfl⟩ := h
  rw [leaving_eq (move?_of_move hs)] at hl
  simpa [hex, hh] using anyM_eq_false.1 hcloses _ hl

theorem rewires_of_inheritIns (hg : g.Linked) (h : g.inheritIns u source dest r = .ok s') :
    g.Rewires s'.1 (g.Inherits source dest r) NoneBack NoneBack ∧ s'.2.removed = u.removed ∧
      s'.2.changed = u.changed ∧
      ∀ e ∈ s'.2.added, e ∈ u.added ∨
        ∃ l, s'.1.link? e = some l ∧ g.Inherits source dest r l.tail l.head l.dep := by
  unfold inheritIns at h
  refine rewires_of_grows (fun x : EdgeId × Link => x.2.tail) (fun _ => dest) (fun x => x.2.dep)
    (s := (g, u)) (fun _ _ => rfl) ?_ h
  rintro ⟨e, l⟩ hx
  simp only [List.mem_filter, hg.mem_entering, Bool.not_eq_true', Bool.or_eq_false_iff,
    decide_eq_false_iff_not] at hx
  obtain ⟨⟨hl, hlive, hh⟩, ⟨⟨hguard, ht⟩, hwar⟩, hwaw⟩ := hx
  exact ⟨rfl, ht, hguard, hwar, hwaw, e, l, hl, hlive, rfl, hh, rfl⟩

theorem rewires_of_dropOverwrites (hg : g.Linked) (h : g.dropOverwrites u dest r = .ok s') :
    g.Rewires s'.1 NoneNew NoneBack (· ∈ s'.2.removed) ∧ s'.2.added = u.added ∧
      s'.2.changed = u.changed ∧ (∀ e ∈ u.removed, e ∈ s'.2.removed) ∧
      (∀ e ∈ s'.2.removed, e ∈ u.removed ∨ ∃ l, g.link? e = some l ∧ l.live ∧ Overwritten dest r l) ∧
      ∀ e l, g.link? e = some l → l.live → Overwritten dest r l →
        s'.1.link? e = some { l with live := false } := by
  unfold dropOverwrites at h
  obtain ⟨hrew, hrec, hcuts⟩ := rewires_of_cuts (fun e => ∃ l, (e, l) ∈ _) (s := (g, u))
    (fun _ _ => rfl) (fun x hx => ⟨x.2, hx⟩) h
  refine ⟨hrew.mono (by simp) (fun _ => id) ?_, by rw [hrec], by rw [hrec],
    by simp +contextual [hrec], ?_, ?_⟩
  · rintro e ⟨l, hx⟩
    rw [hrec, List.mem_append]
    exact .inr (List.mem_map.2 ⟨_, hx, rfl⟩)
  · intro e he
    simp only [hrec, List.mem_append, List.mem_map, List.mem_filter] at he
    rcases he with he | ⟨⟨e', l⟩, ⟨hmem, hc⟩, rfl⟩
    · exact .inl he
    · obtain ⟨hl, hlive, ht⟩ := hg.mem_leaving.1 hmem
      simp only [Bool.and_eq_true, Bool.not_eq_true'] at hc
      exact .inr ⟨l, hl, hlive, ht, hc.1, hc.2⟩
  · intro e l hl hlive hover
    obtain ⟨-, hdead⟩ :=
      of_some (hcuts (e, l) (List.mem_filter.2 ⟨hg.mem_leaving.2 ⟨hl, hlive, hover.tail⟩, by simp [hover.carries, hover.guardUse]⟩)) hl
    exact hdead

theorem merges_of_mergeEdges (hg : g.Linked) (hm : g.move? source = some m)
    (hsrc : m.src.reg? = none) (h : g.mergeEdges source dest false = .ok (some (g', u))) :
    ∃ r, m.dst.reg? = some r ∧ g.Merges source dest r g' u := by
  unfold mergeEdges at h
  simp only [bind_eq_ok] at h
  obtain ⟨b, hb, h⟩ := h
  cases b with
  | false => simp at h
  | true =>
    obtain ⟨hne, s, d, r, xs, hs, hslive, hd, hdlive, hr, hxs, hnil, -⟩ := canMerge_eq_true hb
    rw [move?_of_move hs] at hm
    cases hm
    simp only [if_true, bind_eq_ok, hs, Except.ok.injEq, exists_eq_left', hr, hxs, hsrc, pure_eq_ok,
      reduceCtorEq, if_false, Option.some.injEq] at h
    obtain ⟨s1, hcut, s2, hgrow, s3, hdrop, rfl⟩ := h
    obtain ⟨hrew1, hrec1, hcuts⟩ := rewires_of_cuts (fun e => ∃ l, (e, l) ∈ xs)
      (fun _ _ => rfl) (fun x hx => ⟨x.2, hx⟩) hcut
    have hg1 := hrew1.linked hg
    obtain ⟨hrew2, hremoved2, hchanged2, hadded2⟩ := rewires_of_inheritIns hg1 hgrow
    have hg2 := hrew2.linked hg1
    obtain ⟨hrew3, hadded3, hchanged3, hkept3, hremoved3, hdropped3⟩ := rewires_of_dropOverwrites hg2 hdrop
    have hremoved1 (e : EdgeId) : e ∈ s2.2.removed ↔ ∃ l, (e, l) ∈ xs := by
      simp [hremoved2, hrec1]
    have hrew1' : g.Rewires s1.1 (g.Inherits source dest r) NoneBack (· ∈ u.removed) :=
      hrew1.mono (by simp) (fun _ => id) fun e he => hkept3 e ((hremoved1 e).2 he)
    have hrew2' : s1.1.Rewires s2.1 (g.Inherits source dest r) NoneBack (· ∈ u.removed) :=
      hrew2.mono (fun _ _ _ => .of_rewires hrew1) (fun _ => id) (by simp)
    have hrew3' : s2.1.Rewires g' (g.Inherits source dest r) NoneBack (· ∈ u.removed) :=
      hrew3.mono (by simp) (fun _ => id) fun _ => id
    have hmem {e : EdgeId} {l : Link} := mem_bypassedEdges (e := e) (l := l) hg hxs
    refine ⟨r, hr, hne, ⟨m, d, move?_of_move hs, hslive, move?_of_move hd, hdlive⟩,
      (hrew1'.trans' hrew2').trans' hrew3', ?_, ?_, ?_, ?_, ?_, ?_⟩
    · obtain ⟨⟨e, l⟩, hx⟩ := List.exists_mem_of_ne_nil xs (hnil rfl)
      obtain ⟨hl, -, hby⟩ := hmem.1 hx
      exact ⟨e, hkept3 e ((hremoved1 e).2 ⟨l, hx⟩), l, hl, hby⟩
    · intro e l hl hlive hby
      obtain ⟨-, hdead⟩ := of_some (hcuts (e, l) (hmem.2 ⟨hl, hlive, hby⟩)) hl
      have hrest := hrew2'.trans' hrew3'
      obtain ⟨b, hb, -⟩ := hrest.kept hdead
      have := hrest.dead hdead rfl id hb
      simp_all
    · intro e l hl hlive hover
      obtain ⟨b1, hl1, hcut1⟩ := hrew1.kept hl
      have hlive1 : b1 = true := by
        refine eq_true_of_ne_false fun hb => ?_
        obtain ⟨k, hx⟩ := hcut1 hlive hb
        obtain ⟨hk, -, hby⟩ := hmem.1 hx
        rw [hl] at hk
        cases hk
        exact hne (hby.tail.symm.trans hover.tail)
      obtain ⟨b2, hl2, hcut2⟩ := hrew2.kept hl1
      have hlive2 : b2 = true := eq_true_of_ne_false fun hb => hcut2 hlive1 hb
      exact hdropped3 e { l with live := b2 } hl2 hlive2 ⟨hover.tail, hover.carries, hover.guardUse⟩
    · intro e he
      rcases hremoved3 e he with he | ⟨l, hl, hlive, hover⟩
      · obtain ⟨l, hx⟩ := (hremoved1 e).1 he
        obtain ⟨hl, hlive, hby⟩ := hmem.1 hx
        exact ⟨l, hl, hlive, .inl hby⟩
      · -- A new edge ends in `dest`, so the one that is cut was there before.
        rcases hrew2'.live hl hlive with hl1 | ⟨hb, -⟩ | ⟨-, hn⟩
        · exact ⟨l, hrew1.live_of_live hl1 hlive, hlive, .inr hover⟩
        · exact hb.elim
        · exact absurd hover.tail hn.tail
    · intro e he
      rw [hadded3] at he
      rcases hadded2 e he with he | ⟨l, hl, hn⟩
      · simp [hrec1] at he
      · obtain ⟨b, hb, -⟩ := hrew3.kept hl
        exact ⟨_, hb, hn.of_rewires hrew1⟩
    · rw [hchanged3, hchanged2, hrec1]

theorem rewires_of_removeEdges (hcut : ∀ e ∈ es, Cut e)
    (h : es.foldlM removeEdge g = .ok g') : g.Rewires g' NoneNew NoneBack Cut := by
  refine foldlM_keeps (P := fun x => g.Rewires x NoneNew NoneBack Cut) ?_ .refl h
  intro e he x x' hx hstep
  exact hx.trans' (rewires_of_removeEdge hstep (hcut e he))

theorem dead_of_removeEdges (h : es.foldlM removeEdge g = .ok g') :
    ∀ e ∈ es, ∃ l, g'.link? e = some l ∧ l.live = false := by
  induction es generalizing g with
  | nil => simp
  | cons e0 es ih =>
    obtain ⟨g1, hfirst, hrest⟩ := foldlM_cons_eq_ok.1 h
    intro e he
    rcases List.mem_cons.1 he with rfl | he
    · obtain ⟨l, -, -, hdead⟩ := live_of_removeEdge hfirst
      have hrew : g1.Rewires g' NoneNew NoneBack (fun _ => True) :=
        rewires_of_removeEdges (fun _ _ => trivial) hrest
      exact ⟨_, hrew.uncut hdead id nofun, rfl⟩
    · exact ih hrest e he

theorem rewires_of_restoreEdges (hknown : ∀ e ∈ es, ∃ l, g.link? e = some l)
    (h : es.foldlM restoreEdge g = .ok g') : g.Rewires g' NoneNew (· ∈ es) Cut := by
  refine foldlM_keeps (P := fun x => g.Rewires x NoneNew (· ∈ es) Cut) ?_ .refl h
  intro e he x x' hx hstep
  exact hx.trans hknown (rewires_of_restoreEdge hstep he)

theorem rewires_of_undoEdges (hchanged : u.changed = [])
    (hknown : ∀ e ∈ u.removed, ∃ l, g.link? e = some l) (h : g.undoEdges u = .ok g') :
    g.Rewires g' NoneNew (· ∈ u.removed) (· ∈ u.added) := by
  simp only [undoEdges, bind_eq_ok, hchanged, List.reverse_nil, List.foldlM_nil, pure_eq_ok,
    exists_eq_left'] at h
  obtain ⟨g1, hremove, hrestore⟩ := h
  have hfirst : g.Rewires g1 NoneNew NoneBack (· ∈ u.added) :=
    rewires_of_removeEdges (fun e he => List.mem_reverse.1 he) hremove
  have hknown1 : ∀ e ∈ u.removed.reverse, ∃ l, g1.link? e = some l := by
    intro e he
    obtain ⟨l, hl⟩ := hknown e (List.mem_reverse.1 he)
    obtain ⟨b, hb, -⟩ := hfirst.kept hl
    exact ⟨_, hb⟩
  have hsecond : g1.Rewires g' NoneNew (· ∈ u.removed.reverse) (· ∈ u.added) :=
    rewires_of_restoreEdges hknown1 hrestore
  exact (hfirst.mono (by simp) (by simp) fun _ => id).trans hknown
    (hsecond.mono (by simp) (fun e he => List.mem_reverse.1 he) fun _ => id)

/-! ## Changed moves -/

/-- One move, and operations that list it, are changed; the edges stay. -/
structure Alters (g : Graph) (n : MoveId) (f : Move → Move) (k : OpId → Operation → Operation)
    (g' : Graph) : Prop where
  move? (x : MoveId) : g'.move? x = if x = n then (g.move? x).map f else g.move? x
  op? (o : OpId) : g'.op? o = (g.op? o).map (k o)
  link? (e : EdgeId) : g'.link? e = g.link? e
  size : g'.moves.size = g.moves.size
  guardLatencies : g'.guardLatencies = g.guardLatencies
  forcedFiles : g'.forcedFiles = g.forcedFiles
  liveOut : g'.liveOut = g.liveOut

section

variable {k : OpId → Operation → Operation} (h : g.Alters n f k g')
include h

/-- What the change leaves alone about its move is left alone about every move. -/
theorem Alters.keeps {α : Type} {q : Option Move → α}
    (hq : ∀ m, g.move? n = some m → q (some (f m)) = q (some m)) (x : MoveId) : q (g'.move? x) = q (g.move? x) := by
  rw [h.move?]
  split
  · subst x
    cases hm : g.move? n with
    | none => rfl
    | some m => exact hq m hm
  · rfl

theorem Alters.map_op? {α : Type} {p : Operation → α} (hp : ∀ o op, p (k o op) = p op) (o : OpId) :
    (g'.op? o).map p = (g.op? o).map p := by
  rw [h.op?, Option.map_map]
  exact congrArg (Option.map · (g.op? o)) (funext (hp o))

variable (hins : ∀ m, (f m).ins = m.ins) (houts : ∀ m, (f m).outs = m.outs)
include hins houts

theorem Alters.sameEdges : g.SameEdges g' :=
  ⟨h.keeps (q := Option.map _) fun m _ => congrArg some (Prod.ext (hins m) (houts m)), h.link?⟩

theorem Alters.linked (hg : g.Linked) : g'.Linked := (h.sameEdges hins houts).linked hg

end

theorem Alters.forgetDistances {k : OpId → Operation → Operation}
    (h : g.Alters n f k g') : g.Alters n f k g'.forgetDistances :=
  ⟨h.move?, h.op?, h.link?, h.size, h.guardLatencies, h.forcedFiles, h.liveOut⟩

theorem modifyOp_modifyMove : (g.modifyOp o k).modifyMove n f = (g.modifyMove n f).modifyOp o k := rfl

theorem alters_of_modifyMove (h : (g.modifyMove n f).forgetDistances = g') : g.Alters n f (fun _ op => op) g' := by
  subst h
  refine ⟨fun _ => move?_modifyMove, fun o => ?_, fun _ => rfl, ?_, rfl, rfl, rfl⟩
  · cases hop : g.op? o <;> simp [hop]
  · simp [modifyMove, forgetDistances]

theorem alters_modifyOp :
    g.Alters n f (fun o op => if o = o' then k op else op) ((g.modifyMove n f).modifyOp o' k) := by
  refine ⟨fun _ => move?_modifyMove, fun o => ?_, fun _ => rfl, ?_, rfl, rfl, rfl⟩
  · rw [op?_modifyOp, op?_modifyMove]
    by_cases ho : o = o' <;> cases hop : g.op? o <;> simp [ho]
  · simp [modifyMove, modifyOp]

theorem alters_of_modifyOp (h : ((g.modifyMove n f).modifyOp o' k).forgetDistances = g') :
    g.Alters n f (fun o op => if o = o' then k op else op) g' := by
  subst h
  exact alters_modifyOp.forgetDistances

/-- The operation with another output, if it is the one meant. -/
def addOutputTo (x : Option OpId) (n : MoveId) (o : OpId) (op : Operation) : Operation :=
  { op with outputs := op.outputs ++ if x = some o then [n] else [] }

/-- Redirecting a move: it reads what `s` reads, as an output of the same operation. -/
theorem alters_of_redirect (h : g.redirect source dest = .ok (g', red)) :
    ∃ s d f, g.move? source = some s ∧ g.move? dest = some d ∧
      red = { move := dest, src := d.src, srcOp := d.srcOp, srcUnits := d.srcUnits,
              linkedOp := s.srcOp } ∧
      g.Alters dest f (addOutputTo s.srcOp dest) g' ∧
      ∀ m, ∃ units, f m = { m with src := s.src, srcOp := s.srcOp, srcUnits := units } := by
  simp only [redirect, bind_eq_ok, pure_eq_ok, Prod.mk.injEq] at h
  obtain ⟨s, hs, d, hd, units, -, hg', hred⟩ := h
  cases ho : s.srcOp with
  | none =>
    rw [ho] at hg'
    dsimp only at hg'
    have halt := alters_of_modifyMove hg'
    have hk : addOutputTo s.srcOp dest = fun _ op => op := by
      funext o op; simp [addOutputTo, ho]
    rw [← hk] at halt
    exact ⟨s, d, _, move?_of_move hs, move?_of_move hd, hred.symm, halt, fun m => ⟨_, by rw [ho]⟩⟩
  | some o' =>
    rw [ho] at hg'
    dsimp only at hg'
    have halt := alters_of_modifyOp hg'
    have hk : addOutputTo s.srcOp dest = fun o op =>
        if o = o' then { op with outputs := op.outputs ++ [dest] } else op := by
      funext o op
      by_cases heq : o = o'
      · simp [addOutputTo, ho, heq]
      · simp [addOutputTo, ho, heq, Ne.symm heq]
    rw [← hk] at halt
    exact ⟨s, d, _, move?_of_move hs, move?_of_move hd, hred.symm, halt, fun m => ⟨_, by rw [ho]⟩⟩

/-- A redirected move is as before but for what it reads. -/
theorem keeps_of_redirected {s : Move}
    (hf : ∀ m, ∃ units, f m = { m with src := s.src, srcOp := s.srcOp, srcUnits := units }) (k : Move → α)
    (hk : ∀ m src op units, k { m with src := src, srcOp := op, srcUnits := units } = k m) (m : Move) :
    k (f m) = k m := by
  obtain ⟨units, hfm⟩ := hf m
  rw [hfm, hk]

/-- The operation without the last mention of an output, if it is the one meant. -/
def dropOutputFrom (x : Option OpId) (n : MoveId) (o : OpId) (op : Operation) : Operation :=
  { op with outputs := if x = some o then (op.outputs.reverse.erase n).reverse else op.outputs }

theorem alters_of_undoRedirect (h : g.undoRedirect red = .ok g') : (∃ m, g.move? red.move = some m) ∧
      g.Alters red.move
        (fun m => { m with src := red.src, srcOp := red.srcOp, srcUnits := red.srcUnits })
        (dropOutputFrom red.linkedOp red.move) g' := by
  unfold undoRedirect at h
  cases ho : red.linkedOp with
  | none =>
    simp only [ho, bind_eq_ok, pure_eq_ok, exists_eq_left'] at h
    obtain ⟨m, hm, hg'⟩ := h
    have halt := alters_of_modifyMove hg'
    have hk : dropOutputFrom none red.move = fun _ op => op := by
      funext o op; simp [dropOutputFrom]
    exact ⟨⟨m, move?_of_move hm⟩, hk ▸ halt⟩
  | some o' =>
    simp only [ho, bind_eq_ok] at h
    obtain ⟨op0, hop0, h⟩ := h
    split at h
    case h_2 => simp only [bind_eq_ok, throw_ne_ok, false_and, exists_false] at h
    rename_i outs houts
    unfold eraseLast at houts
    split at houts
    case isFalse => cases houts
    cases houts
    simp only [bind_eq_ok, pure_eq_ok, exists_eq_left'] at h
    obtain ⟨m, hm, hg'⟩ := h
    rw [modifyOp_modifyMove] at hg'
    have halt := alters_of_modifyOp hg'
    refine ⟨⟨m, move?_of_move hm⟩, ⟨halt.move?, fun o => ?_, halt.link?, halt.size,
      halt.guardLatencies, halt.forcedFiles, halt.liveOut⟩⟩
    rw [halt.op?]
    by_cases heq : o = o'
    · subst heq
      simp [op?_of_op hop0, dropOutputFrom]
    · cases hop : g.op? o with
      | none => rfl
      | some op => simp [dropOutputFrom, heq, Ne.symm heq]

/-- An operation that loses the output at a place. -/
def dropSlot (slot : Option (OpId × Nat)) (o : OpId) (op : Operation) : Operation :=
  match slot with
  | some (o', pos) => if o = o' then { op with outputs := op.outputs.eraseIdx pos } else op
  | none => op

theorem dropSlot_eq (slot : Option (OpId × Nat)) (o : OpId) (op : Operation) :
    dropSlot slot o op = { op with outputs := (dropSlot slot o op).outputs } := by
  unfold dropSlot
  split
  · split <;> rfl
  · rfl

/-- An operation that gets an output at a place. -/
def fillSlot (slot : Option (OpId × Nat)) (n : MoveId) (o : OpId) (op : Operation) : Operation :=
  match slot with
  | some (o', pos) => if o = o' then { op with outputs := op.outputs.insertIdx pos n } else op
  | none => op

section

variable (h : g.removeMove n = .ok (g', rm))
include h

/-- A move that is taken out: first its edges, then the move itself. -/
theorem removeMove_eq_ok :
    ∃ m g1, g.move n = .ok m ∧ rm.move = n ∧ rm.edges = m.ins ++ m.outs ∧
      rm.edges.foldlM removeEdge g = .ok g1 ∧ g1.outputSlot m n = .ok rm.slot ∧
      g1.Alters n (fun m => { m with live := false }) (dropSlot rm.slot) g' ∧
      g'.frame = g1.frame ∧ m.placement = none := by
  simp only [removeMove, bind_eq_ok] at h
  obtain ⟨m, hm, h⟩ := h
  split at h
  · simp [bind_eq_ok] at h
  rename_i hplaced
  simp only [bind_eq_ok, pure_eq_ok, Prod.mk.injEq] at h
  obtain ⟨g1, hcut, slot, hslot, rfl, rfl⟩ := h
  have hoff : m.placement = none := by simpa [Move.isPlaced] using hplaced
  refine ⟨m, g1, hm, rfl, rfl, hcut, hslot, ?_⟩
  cases slot with
  | none => exact ⟨alters_of_modifyMove rfl, rfl, hoff⟩
  | some p => exact ⟨alters_of_modifyOp rfl, rfl, hoff⟩

theorem rewires_of_removeMove :
    ∃ g1, g.Rewires g1 NoneNew NoneBack (· ∈ rm.edges) ∧
      g1.Alters n (fun m => { m with live := false }) (dropSlot rm.slot) g' := by
  obtain ⟨m, g1, -, -, -, hcut, -, halters, -⟩ := removeMove_eq_ok h
  exact ⟨g1, rewires_of_removeEdges (fun _ => id) hcut, halters⟩

theorem live_of_removeMove (hl : g'.link? e = some l) (hlive : l.live) :
    g.link? e = some l := by
  obtain ⟨g1, hrew, ha⟩ := rewires_of_removeMove h
  rw [ha.link?] at hl
  exact hrew.live_of_live hl hlive

theorem move_of_removeMove : rm.move = n := by
  obtain ⟨m, g1, -, hmove, -⟩ := removeMove_eq_ok h
  exact hmove

end

theorem mem_edges_of_removeMove (hg : g.Linked) (h : g.removeMove n = .ok (g', rm)) :
    e ∈ rm.edges ↔ ∃ l, g.link? e = some l ∧ l.live ∧ (l.tail = n ∨ l.head = n) := by
  obtain ⟨m, g1, hm, -, hedges, -⟩ := removeMove_eq_ok h
  rw [hedges, List.mem_append, hg.mem_ins (move?_of_move hm), hg.mem_outs (move?_of_move hm), ← exists_or]
  simp only [← and_or_left, or_comm]

theorem placement_of_removeMove (hm : g.move? n = some m)
    (h : g.removeMove n = .ok (g', rm)) : m.placement = none := by
  obtain ⟨m', g1, hm', -, -, -, -, -, -, hoff⟩ := removeMove_eq_ok h
  rw [move?_of_move hm'] at hm
  cases hm
  exact hoff

/-- A move that is brought back: first the move itself, then its edges. -/
theorem restoreMove_eq (hm : g.move rm.move = .ok m) (hdead : m.live = false)
    (hslot : ∀ o pos, rm.slot = some (o, pos) → ∃ op, g.op o = .ok op ∧ pos ≤ op.outputs.length) :
    ∃ g1, g.Alters rm.move (fun m => { m with live := true }) (fillSlot rm.slot rm.move) g1 ∧
      g1.frame = g.frame ∧ g.restoreMove rm = rm.edges.reverse.foldlM restoreEdge g1 := by
  have hsize {f : Move → Move} : (g.modifyMove rm.move f).moves.size = g.moves.size := by
    simp [modifyMove]
  simp only [restoreMove, isLive, hm, ok_bind, pure_bind, hdead, Bool.false_eq_true, if_false]
  cases hs : rm.slot with
  | none =>
    refine ⟨_, ⟨fun _ => move?_modifyMove, fun o => ?_, fun _ => rfl, hsize, rfl, rfl, rfl⟩, rfl, rfl⟩
    cases ho : g.op? o <;> simp [fillSlot, ho]
  | some p =>
    obtain ⟨op, hop, hpos⟩ := hslot p.1 p.2 hs
    have hop' {f : Move → Move} : (g.modifyMove rm.move f).op p.1 = .ok op := hop
    refine ⟨_, alters_modifyOp, rfl, ?_⟩
    simp only [hop', ok_bind, Nat.not_lt.2 hpos, if_false]

theorem restoreMove_eq_ok (h : g.restoreMove rm = .ok g') :
    ∃ m g1, g.move? rm.move = some m ∧ m.live = false ∧
      g.Alters rm.move (fun m => { m with live := true }) (fillSlot rm.slot rm.move) g1 ∧
      rm.edges.reverse.foldlM restoreEdge g1 = .ok g' ∧
      ∀ o pos, rm.slot = some (o, pos) → ∃ op, g.op o = .ok op ∧ pos ≤ op.outputs.length := by
  have hok := h
  simp only [restoreMove, isLive, bind_eq_ok, pure_eq_ok] at h
  obtain ⟨_, ⟨m, hm, rfl⟩, h⟩ := h
  split at h
  · simp [bind_eq_ok] at h
  rename_i hdead
  have hslot : ∀ o pos, rm.slot = some (o, pos) →
      ∃ op, g.op o = .ok op ∧ pos ≤ op.outputs.length := by
    intro o pos hs
    simp only [hs, bind_eq_ok] at h
    obtain ⟨op, hop, h⟩ := h
    split at h
    · simp [bind_eq_ok] at h
    · exact ⟨op, hop, by omega⟩
  obtain ⟨g1, halters, -, hrun⟩ := restoreMove_eq hm (by simpa using hdead) hslot
  exact ⟨m, g1, move?_of_move hm, by simpa using hdead, halters, hrun.symm.trans hok, hslot⟩

/-- The same for a move that goes back to a place among the outputs of an operation. -/
theorem alters_of_restoreMove {pos : Nat}
    (hslot : rm.slot = some (o, pos)) (hknown : ∀ e ∈ rm.edges, ∃ l, g.link? e = some l)
    (h : g.restoreMove rm = .ok g') : ∃ m op g1, g.move? rm.move = some m ∧ m.live = false ∧
      g.op? o = some op ∧ pos ≤ op.outputs.length ∧
      g.Alters rm.move (fun m => { m with live := true })
        (fun o' op => if o' = o then { op with outputs := op.outputs.insertIdx pos rm.move } else op)
        g1 ∧
      g1.Rewires g' NoneNew (· ∈ rm.edges) NoneBack := by
  obtain ⟨m, g1, hm, hdead, halters, hrun, hplace⟩ := restoreMove_eq_ok h
  obtain ⟨op, hop, hpos⟩ := hplace o pos hslot
  rw [hslot] at halters
  refine ⟨m, op, g1, hm, hdead, op?_of_op hop, hpos, halters, ?_⟩
  refine (rewires_of_restoreEdges (fun e he => ?_) hrun).mono (by simp) (fun e he => List.mem_reverse.1 he)
    fun _ => id
  rw [halters.link?]
  exact hknown e (List.mem_reverse.1 he)

end Transport.Graph
