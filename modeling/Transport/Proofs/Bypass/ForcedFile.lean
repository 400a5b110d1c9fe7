import Transport.Proofs.Scheduling.EdgeOrigin

/-!
# Registers of forced-bypass files

Of the moves that name a register of a forced-bypass file, a run takes out some. No move comes to name
one that it did not name before (`Echoes`), and no operand is placed while it reads one. A producer that
was read by operands has readers left, or is taken out or waits to be (`Served`). So the moves that
still name such a register in the end are those that `Graph.Strays` tells from the built graph.
-/

namespace Transport

open Transport.Graph

/-- The terminal is a register of a forced-bypass file. -/
def Graph.Forces (g : Graph) (t : Terminal) : Prop := t.reg?.any g.isForced

/-- The terminal is as it was, or it may change and is no forced-bypass register unless it was one. -/
def Graph.Follows (g : Graph) (change : Prop) (t t' : Terminal) : Prop :=
  t' = t ∨ change ∧ (g.Forces t' → g.Forces t)

namespace Graph

variable {machine : Machine} {g0 g g' g'' : Graph} {change : Prop} {X : MoveId → Prop} {x w : MoveId}
  {old new : Reg} {t t' t'' : Terminal} {m : Move}

theorem Framed.forces (h : g0.Framed g) : g.Forces t ↔ g0.Forces t := by
  rw [Forces, Forces, h.isForced]

namespace Follows

section

variable (h : g.Follows change t t')
include h

theorem forces (ht : g.Forces t') : g.Forces t := by
  rcases h with rfl | ⟨-, h⟩
  · exact ht
  · exact h ht

theorem trans (h' : g.Follows change t' t'') : g.Follows change t t'' := by
  rcases h' with rfl | ⟨hc, h'⟩
  · exact h
  · exact .inr ⟨hc, fun ht => h.forces (h' ht)⟩

theorem mono {change' : Prop} (hc : change → change') : g.Follows change' t t' :=
  h.imp_right fun hr => ⟨hc hr.1, hr.2⟩

theorem eq_of_not (hc : ¬ change) : t' = t :=
  h.resolve_right fun hchange => hc hchange.1

end

end Follows

/-- What the moves name in `g'` follows what they name in `g`, sources of moves in `X` apart. -/
structure Echoes (g₀ : Graph) (change : Prop) (X : MoveId → Prop) (g g' : Graph) : Prop where
  known {x : MoveId} {m' : Move} : g'.move? x = some m' → ∃ m, g.move? x = some m
  dst {x : MoveId} {m m' : Move} : g.move? x = some m → g'.move? x = some m' → g₀.Follows change m.dst m'.dst
  src {x : MoveId} {m m' : Move} : g.move? x = some m → g'.move? x = some m' → ¬ X x →
    g₀.Follows change m.src m'.src

namespace Echoes

theorem refl : Echoes g0 change X g g := by
  refine ⟨fun hm => ⟨_, hm⟩, fun hm hm' => .inl ?_, fun hm hm' _ => .inl ?_⟩
  all_goals
    rw [hm] at hm'
    cases hm'
    rfl

theorem trans (h : Echoes g0 change X g g') (h' : Echoes g0 change X g' g'') : Echoes g0 change X g g'' := by
  refine ⟨fun hm'' => ?_, fun hm hm'' => ?_, fun hm hm'' hx => ?_⟩
  · obtain ⟨m', hm'⟩ := h'.known hm''
    exact h.known hm'
  · obtain ⟨m', hm'⟩ := h'.known hm''
    exact (h.dst hm hm').trans (h'.dst hm' hm'')
  · obtain ⟨m', hm'⟩ := h'.known hm''
    exact (h.src hm hm' hx).trans (h'.src hm' hm'' hx)

theorem mono {change' : Prop} {Y : MoveId → Prop} (h : Echoes g0 change X g g') (hc : change → change')
    (hX : ∀ x, X x → Y x) : Echoes g0 change' Y g g' :=
  ⟨h.known, fun hm hm' => (h.dst hm hm').mono hc, fun hm hm' hx => (h.src hm hm' (hx ∘ hX _)).mono hc⟩

end Echoes

theorem SameTargets.known (h : g.SameTargets g') (hm' : g'.move? x = some m) :
    ∃ m0, g.move? x = some m0 := by
  obtain ⟨m0, hm0, -⟩ := exists_of_map_eq (h x) hm'
  exact ⟨m0, hm0⟩

theorem Retains.echoes (h : g.Retains g' X) : Echoes g0 change X g g' := by
  refine ⟨h.targets.known, fun hm hm' => .inl ?_, fun hm hm' hx => .inl ?_⟩
  · obtain ⟨hdst, -⟩ := of_some (h.targets.move? hm) hm'
    exact hdst
  · obtain ⟨-, hsrc⟩ := of_some (h.ops hm) hm'
    exact (hsrc hx).1

/-- A renaming leads into a forced-bypass file only if it stays in it. -/
theorem Relocates.echoes {direction : Direction} {start : MoveId × Role} {range : LiveRange}
    (h : g.Relocates direction start range w old new g') (hu : Upheld machine g0 g) (hchange : change)
    (hfile : new.file = old.file ∨ new.file ∉ g0.forcedFiles) : Echoes g0 change X g g' := by
  have hforced (hnew : g0.Forces (.register new)) : g0.Forces (.register old) := by
    simp only [Forces, Terminal.reg?, Option.any_some, Graph.isForced] at hnew ⊢
    rcases hfile with hfile | hno
    · rwa [← hfile]
    · exact absurd (by simpa using hnew) hno
  have hframed := h.framed hu.linked hu.tagged
  refine ⟨fun {x m'} hm' => ?_, fun {x m m'} hm hm' => .inr ⟨hchange, fun hforces => ?_⟩,
    fun {x m m'} hm hm' _ => .inr ⟨hchange, fun hforces => ?_⟩⟩
  · obtain ⟨m, hm, -⟩ := exists_of_map_eq (hframed.moves x) hm'
    exact ⟨m, hm⟩
  all_goals
    have hbare := of_some (h.move? hm) hm'
  · have hdst : m'.bare.dst = (m.setRegs new range.roles x).bare.dst := by rw [hbare]
    simp only [Move.bare, Move.setRegs] at hdst
    rw [hdst] at hforces
    by_cases hx : (x, .dest) ∈ range.roles
    · have hold : m.dst = .register old := h.holds hu.linked hu.tagged (mem_roles.1 hx) hm
      rw [if_pos hx] at hforces
      rw [hold]
      exact hforced hforces
    · rwa [if_neg hx] at hforces
  · have hsrc : m'.bare.src = (m.setRegs new range.roles x).bare.src := by rw [hbare]
    simp only [Move.bare, Move.setRegs] at hsrc
    rw [hsrc] at hforces
    by_cases hx : (x, .source) ∈ range.roles
    · have hold : m.src = .register old := h.holds hu.linked hu.tagged (mem_roles.1 hx) hm
      rw [if_pos hx] at hforces
      rw [hold]
      exact hforced hforces
    · rwa [if_neg hx] at hforces

end Graph

/-! ## What the operands of a unit read -/

variable {j : Job} {g0 g g' : Graph} {r : Region} {s s' : Moment} {e : EdgeId} {n : MoveId}
  {opened : List Frame} {dead dead' : List MoveId}

/-- While a unit is placed: only its operands come to read other things, and once they are checked none
of them reads a forced-bypass register. -/
structure Moment.Shuns (j : Job) (g₀ : Graph) (r : Region) (s : Moment) : Prop where
  echoes : Echoes g₀ (r.renamer ≠ none) (· ∈ j.operands) r.graph s.graph
  dests : ∀ f ∈ s.opened, ∀ n, f.dest? = some n → n ∈ j.operands
  checked : s.checked → ∀ n ∈ j.operands, ∀ m, s.graph.move? n = some m → ¬ g₀.Forces m.src

namespace Moment.Shuns

/-- Sources that follow what they were keep the operands checked. -/
theorem checked_of_echoes {change : Prop} (h : s.Shuns j g0 r)
    (he : Echoes g0 change (fun _ => False) s.graph s'.graph) (hc : s'.checked → s.checked) :
    s'.checked → ∀ n ∈ j.operands, ∀ m, s'.graph.move? n = some m → ¬ g0.Forces m.src := by
  intro hchecked n hn m' hm' hforces
  obtain ⟨m, hm⟩ := he.known hm'
  exact h.checked (hc hchecked) n hn m hm ((he.src hm hm' id).forces hforces)

theorem effect (h : s.Shuns j g0 r) (hs : Steady j g0 s) (hs' : Steady j g0 s')
    (hfiles : s.machine.forcedFiles = g0.forcedFiles) (hr : s.renamer ≠ none → r.renamer ≠ none)
    (he : Effect j g0 s s') : s'.Shuns j g0 r := by
  have hretains {X : MoveId → Prop} (hret : s.graph.Retains s'.graph X) (hX : ∀ x, X x → x ∈ j.operands) :
      Echoes g0 (r.renamer ≠ none) (· ∈ j.operands) r.graph s'.graph :=
    h.echoes.trans (hret.mono hX).echoes
  have hquiet (hret : s.graph.Retains s'.graph fun _ => False) (hc : s'.checked → s.checked) :=
    h.checked_of_echoes (hret.echoes : Echoes g0 False (fun _ => False) s.graph s'.graph) hc
  cases he with
  | still graph opened _ checked =>
    refine ⟨hretains graph.retains fun _ => False.elim, opened ▸ h.dests, fun hc n hn m' hm' => ?_⟩
    rcases checked hc with hc' | hfree
    · exact hquiet graph.retains (fun _ => hc') hc n hn m' hm'
    · rw [← hs'.upheld.framed.forces, Forces, hfree n hn m' hm']
      exact Bool.false_ne_true
  | divert enabled mem before upheld diverts after opened _ checked =>
    refine ⟨hretains (X := (· ∈ j.operands)) ?_ fun _ => id, ?_, by simp [checked]⟩
    · have hdest := diverts.retains.mono (Y := (· ∈ j.operands)) (by rintro _ rfl; exact mem)
      exact ((before.retains.mono fun _ => False.elim).trans hdest).trans (after.retains.mono fun _ => False.elim)
    · simp only [opened, List.mem_cons, forall_eq_or_imp]
      exact ⟨fun n hn => Option.some.inj hn ▸ mem, h.dests⟩
  | undivert opened back undo restore _ checked =>
    have hmem := h.dests _ (opened ▸ List.mem_cons_self) _ rfl
    refine ⟨hretains (back.retains_of_undo undo restore) ?_, fun f hf => ?_, by simp [checked]⟩
    · rintro _ rfl
      exact hmem
    · exact h.dests f (opened ▸ List.mem_cons_of_mem _ hf)
  | drop _ move live result _ remove opened _ checked =>
    have hret := retains_of_removeMove (X := fun _ => False) remove
    refine ⟨hretains hret fun _ => False.elim, ?_, hquiet hret (checked ▸ id)⟩
    simp only [opened, List.mem_cons, forall_eq_or_imp]
    exact ⟨fun n hn => (by cases hn), h.dests⟩
  | restore opened back restore _ checked =>
    have hret := back.retains_of_restore (X := fun _ => False) restore
    exact ⟨hretains hret fun _ => False.elim, fun f hf => h.dests f (opened ▸ List.mem_cons_of_mem _ hf),
      hquiet hret (checked ▸ id)⟩
  | rename _ _ renamer _ relocates file opened _ checked =>
    rw [hfiles] at file
    exact ⟨h.echoes.trans (relocates.echoes hs.upheld (hr renamer) file), opened ▸ h.dests,
      h.checked_of_echoes (relocates.echoes hs.upheld (hr renamer) file) (checked ▸ id)⟩
  | commit graph opened _ _ checked =>
    refine ⟨graph ▸ h.echoes, by simp [opened], ?_⟩
    rw [graph, checked]
    exact h.checked

theorem acts (hfiles : r.machine.forcedFiles = g0.forcedFiles) (hu : Upheld r.machine g0 r.graph)
    (ha : Acts j { toRegion := r } s) : s.Shuns j g0 r := by
  have hstart : Steady j g0 { toRegion := r } := ⟨hu, by simp, .nil⟩
  induction ha with
  | refl => exact ⟨.refl, by simp, by simp⟩
  | @tail s s' hacts hact ih =>
    have hs := hstart.acts hacts
    refine ih.effect hs (hs.act hact) ?_ (fun hne hnone => hne (renamer_of_acts hacts hnone)) (hs.effect hact)
    rw [(fixed_of_acts hacts).2]
    exact hfiles

end Moment.Shuns

/-! ## The readers of a producer -/

namespace Graph

variable {machine : Machine} {g1 : Graph} {source dest w : MoveId} {reg old new : Reg} {ms md m : Move} {l : Link}
  {u : EdgeRecord} {red : Redirection} {rm : RemovedMove}

/-- The edge passes a value of `n` on to an operand. -/
structure Feeds (g : Graph) (e : EdgeId) (n : MoveId) (l : Link) : Prop where
  link : g.link? e = some l
  tail : l.tail = n
  raw : l.dep.isRaw
  head : ∃ m, g.move? l.head = some m ∧ m.isOperand

theorem Feeds.descends (h : g0.Feeds e n l) (hd : g0.Descends g) (hf : g0.Framed g) : ∃ l', g.Feeds e n l' := by
  obtain ⟨l', hl', htail, hhead, hdep⟩ := hd.kept h.link
  obtain ⟨m0, hm0, hop⟩ := h.head
  obtain ⟨m, hm, hfixed⟩ := hf.move? hm0
  refine ⟨l', hl', htail.trans h.tail, by rw [Dependence.isRaw_of_untagged hdep]; exact h.raw, m, hhead ▸ hm, ?_⟩
  have hsame : m.dstOp = m0.dstOp := congrArg Move.Fixed.dstOp hfixed
  rw [Move.isOperand, hsame]
  exact hop

/-- An edge that is still in the graph. -/
def Alive (g : Graph) (e : EdgeId) : Prop := ∃ l, g.link? e = some l ∧ l.live

theorem Feeds.live (h : g.Feeds e n l) (he : g.Alive e) : l.live := by
  obtain ⟨l', hl', hlive⟩ := he
  rw [h.link] at hl'
  cases hl'
  exact hlive

/-- A bypass cuts the values that the bypassed producer passes on, and no others. -/
theorem Diverts.alive (h : g.Diverts source dest reg ms md u red g1 g') (hf : g.Feeds e n l) (he : g.Alive e) :
    g'.Alive e ∨ source = n ∧ e ∈ u.removed := by
  obtain ⟨f, ha, -⟩ := h.redirects
  obtain ⟨b, hb, hcut⟩ := h.merges.rewires.kept hf.link
  cases b with
  | true => exact .inl ⟨_, (ha.link? e).trans hb, rfl⟩
  | false =>
    have hmem := hcut (hf.live he) rfl
    obtain ⟨l1, hl1, -, hby | hover⟩ := h.merges.removed hmem
    · rw [hf.link] at hl1
      cases hl1
      exact .inr ⟨hby.tail.symm.trans hf.tail, hmem⟩
    · rw [hf.link] at hl1
      cases hl1
      have := hf.raw
      rw [Dependence.isRaw_of_carries_war hover.carries] at this
      cases this

/-- Taking a bypass back brings its edges back, and cuts no value. -/
theorem Unbypassable.alive_of_undo (h : Unbypassable g0 g source dest reg u red)
    (hred : g.undoRedirect red = .ok g1) (hundo : g1.undoEdges u = .ok g') (hf : g.Feeds e n l)
    (he : g.Alive e ∨ e ∈ u.removed) : g'.Alive e := by
  obtain ⟨-, ha⟩ := alters_of_undoRedirect hred
  simp only [undoEdges, bind_eq_ok, h.changed, List.reverse_nil, List.foldlM_nil, pure_eq_ok,
    exists_eq_left'] at hundo
  obtain ⟨g2, hremove, hrestore⟩ := hundo
  have hlink := (flips_of_each flips_of_restoreEdge hrestore).link? e
  rw [(flips_of_each flips_of_removeEdge hremove).link?, ha.link?, hf.link] at hlink
  simp only [List.mem_reverse] at hlink
  by_cases hremoved : e ∈ u.removed
  · rw [if_pos hremoved] at hlink
    split at hlink <;> exact ⟨_, hlink, rfl⟩
  have hadded : e ∉ u.added := by
    intro hmem
    obtain ⟨l', hl', hraw, -⟩ := h.added hmem
    rw [hf.link] at hl'
    cases hl'
    exact absurd hf.raw (by simp [hraw])
  rw [if_neg hremoved, if_neg hadded] at hlink
  exact ⟨l, hlink, hf.live (he.resolve_right hremoved)⟩

/-- A producer that is taken out had no readers, and operands stay. -/
theorem alive_of_removeMove (hu : Upheld machine g0 g) (hm : g.move? w = some m)
    (hneed : g.resultNeeded w = .ok false) (h : g.removeMove w = .ok (g', rm)) (hf : g.Feeds e n l) (he : g.Alive e) : g'.Alive e := by
  obtain ⟨hoperand, hraw⟩ := hu.of_not_resultNeeded hm hneed
  obtain ⟨g1, hrew, ha⟩ := rewires_of_removeMove h
  obtain ⟨b, hb, hcut⟩ := hrew.kept hf.link
  cases b with
  | true => exact ⟨_, (ha.link? e).trans hb, rfl⟩
  | false =>
    obtain ⟨l', hl', -, hends⟩ := (mem_edges_of_removeMove hu.linked h).1 (hcut (hf.live he) rfl)
    obtain rfl := Option.some.inj (hf.link.symm.trans hl')
    rcases hends with htail | hhead
    · have := hf.raw
      rw [hraw e l hf.link (hf.live he) htail] at this
      cases this
    · obtain ⟨mh, hmh, hmop⟩ := hf.head
      rw [hhead, hm] at hmh
      cases hmh
      rw [hoperand] at hmop
      cases hmop

theorem Restorable.alive_of_restore (h : g.Restorable rm) (hrm : g.restoreMove rm = .ok g') (he : g.Alive e) :
    g'.Alive e := by
  obtain ⟨o, pos, g1, ha, hrew⟩ := h.alters_of_restore hrm
  obtain ⟨l, hl, hlive⟩ := he
  obtain ⟨b, hb, hcut⟩ := hrew.kept ((ha.link? e).trans hl)
  cases b with
  | true => exact ⟨_, hb, rfl⟩
  | false => exact (hcut hlive rfl).elim

theorem Relocates.alive {direction : Direction} {start : MoveId × Role} {range : LiveRange}
    (h : g.Relocates direction start range w old new g') (hf : g.Feeds e n l) (he : g.Alive e) : g'.Alive e := by
  obtain ⟨edges, ⟨g1, g2, hrew, hreg, hret, -⟩, -⟩ := h.renames
  obtain ⟨b, hb, hcut⟩ := hrew.kept hf.link
  have hb' : b = true := Bool.not_eq_false _ ▸ fun hfalse => hcut (hf.live he) hfalse
  obtain ⟨l', hl', hev, -⟩ := hret.kept ((hreg.link? e).trans hb)
  refine ⟨l', hl', ?_⟩
  by_contra hdead
  have hraw := hf.raw
  rw [Dependence.isRaw_iff] at hraw
  have htouch := hev.cut hb' (by simpa using hdead)
  rcases htouch with ⟨-, ⟨-, -, hx⟩ | ⟨-, hx, -⟩⟩ | ⟨-, hx, -⟩
  · exact hx rfl hraw.2
  · exact hx hraw.2
  · exact absurd (hraw.2.symm.trans hx) (by decide)

end Graph

/-- What became of the edge `e`, on which `n` passed a value to an operand. -/
inductive Served (g : Graph) (dead : List MoveId) (opened : List Frame) (e : EdgeId) (n : MoveId) : Prop
  | fed (alive : g.Alive e)
  | spare (mem : n ∈ dead)
  | bypassed {dest : MoveId} {u : EdgeRecord} {red : Redirection} (mem : .merged n dest u red ∈ opened)
      (removed : e ∈ u.removed)
  /-- The producer is gone for good. -/
  | gone (out : ¬ g.Has n) (kept : n ∉ opened.filterMap Frame.gone?)

theorem Served.congr {opened' : List Frame} (h : Served g dead opened e n)
    (halive : g.Alive e → g'.Alive e) (hdead : n ∈ dead → n ∈ dead')
    (hmerged : ∀ dest u red, .merged n dest u red ∈ opened → .merged n dest u red ∈ opened')
    (hgone : ¬ g.Has n → n ∉ opened.filterMap Frame.gone? →
      ¬ g'.Has n ∧ n ∉ opened'.filterMap Frame.gone?) : Served g' dead' opened' e n := by
  cases h with
  | fed alive => exact .fed (halive alive)
  | spare mem => exact .spare (hdead mem)
  | bypassed mem removed => exact .bypassed (hmerged _ _ _ mem) removed
  | gone out kept => exact .gone (hgone out kept).1 (hgone out kept).2

/-- The readers of all producers are accounted for. What has been taken out is out, and only once. -/
structure Serves (g₀ g : Graph) (dead : List MoveId) (opened : List Frame) : Prop where
  served {e : EdgeId} {n : MoveId} {l : Link} : g₀.Feeds e n l → l.live → Served g dead opened e n
  out : ∀ n ∈ opened.filterMap Frame.gone?, ¬ g.Has n
  once : (opened.filterMap Frame.gone?).Nodup

/-- Nothing is opened or closed, and no move comes or goes. -/
theorem Serves.of_same (h : Serves g0 g dead opened)
    (hhas : ∀ n, g'.Has n ↔ g.Has n) (hdead : ∀ n ∈ dead, n ∈ dead')
    (halive : ∀ e n l, g0.Feeds e n l → g.Alive e → g'.Alive e) : Serves g0 g' dead' opened := by
  refine ⟨fun hf hlive => ?_, fun n hn => ?_, h.once⟩
  · refine (h.served hf hlive).congr (halive _ _ _ hf) (hdead _) (fun _ _ _ => id) fun hout hkept => ?_
    rw [hhas]
    exact ⟨hout, hkept⟩
  · rw [hhas]
    exact h.out n hn

theorem Serves.still (h : Serves g0 g dead opened)
    (hs : g.Still g') (hdead : ∀ n ∈ dead, n ∈ dead') : Serves g0 g' dead' opened := by
  refine h.of_same hs.has_iff hdead fun e n l _ halive => ?_
  rwa [Graph.Alive, hs.link?]

abbrev Moment.Serves (g₀ : Graph) (s : Moment) : Prop :=
  Transport.Serves g₀ s.graph s.bypasser.deadCandidates s.opened

namespace Moment.Serves

theorem effect (h : s.Serves g0) (hs : Steady j g0 s) (hd : g0.Descends s.graph) (he : Effect j g0 s s') :
    s'.Serves g0 := by
  have hfeeds {e : EdgeId} {n : MoveId} {l : Link} (hf : g0.Feeds e n l) := hf.descends hd hs.upheld.framed
  cases he with
  | still graph opened dead checked =>
    rw [Moment.Serves, opened]
    exact h.still graph dead
  | @divert g g1 g' source dest reg ms md u red enabled mem before upheld diverts after opened dead checked =>
    have hhas (n : MoveId) : s'.graph.Has n ↔ s.graph.Has n :=
      (after.has_iff n).trans ((diverts.samePresence.has_iff n).trans (before.has_iff n))
    have hgone : s'.opened.filterMap Frame.gone? = s.opened.filterMap Frame.gone? := by rw [opened]; rfl
    refine ⟨fun {e n l} hf hlive => ?_, fun n hn => ?_, hgone ▸ h.once⟩
    · by_cases hcut : source = n ∧ e ∈ u.removed
      · exact .bypassed (by rw [opened, hcut.1]; exact List.mem_cons_self) hcut.2
      refine (h.served hf hlive).congr (fun halive => ?_) (by simp [dead]) ?_ fun hout hkept => ?_
      · obtain ⟨l', hf'⟩ := hf.descends (hd.trans (.of_links before.link?)) upheld.framed
        rw [Graph.Alive, ← before.link?] at halive
        rw [Graph.Alive, after.link?]
        exact (diverts.alive hf' halive).resolve_right hcut
      · exact fun dest u red hmem => opened ▸ List.mem_cons_of_mem _ hmem
      · rw [hgone, hhas]
        exact ⟨hout, hkept⟩
    · rw [hhas]
      exact h.out n (hgone ▸ hn)
  | @undivert g1 source dest reg u red opened back undo restore dead checked =>
    have hhas := (back.samePresence_of_undo undo restore).has_iff
    have hgone : s.opened.filterMap Frame.gone? = s'.opened.filterMap Frame.gone? := by rw [opened]; rfl
    refine ⟨fun {e n l} hf hlive => ?_, fun n hn => ?_, hgone ▸ h.once⟩
    · obtain ⟨l', hf'⟩ := hfeeds hf
      by_cases hback : e ∈ u.removed
      · exact .fed (back.alive_of_undo undo restore hf' (.inr hback))
      cases h.served hf hlive with
      | fed alive => exact .fed (back.alive_of_undo undo restore hf' (.inl alive))
      | spare mem => exact .spare (dead ▸ mem)
      | bypassed mem removed =>
        rw [opened, List.mem_cons] at mem
        rcases mem with heq | mem
        · cases heq
          exact absurd removed hback
        · exact .bypassed mem removed
      | gone out kept => exact .gone (by rwa [hhas]) (hgone ▸ kept)
    · rw [hhas]
      exact h.out n (hgone ▸ hn)
  | @drop w m rm _ move live result unneeded remove opened dead checked =>
    have hw := move_of_removeMove remove
    have hhas := has_of_removeMove remove
    have hgone : s'.opened.filterMap Frame.gone? = w :: s.opened.filterMap Frame.gone? := by
      rw [opened, ← hw]
      rfl
    have hin : s.graph.Has w := ⟨m, move, live⟩
    refine ⟨fun {e n l} hf hlive => ?_, fun n hn => ?_, ?_⟩
    · obtain ⟨l', hf'⟩ := hfeeds hf
      refine (h.served hf hlive).congr (alive_of_removeMove hs.upheld move unneeded remove hf')
        (by simp [dead]) (fun dest u red hmem => opened ▸ List.mem_cons_of_mem _ hmem) fun hout hkept => ?_
      rw [hgone, hhas, List.mem_cons]
      refine ⟨fun hnot => hout hnot.1, fun hmem => hmem.elim (fun heq => ?_) hkept⟩
      exact hout (heq ▸ hin)
    · rw [hhas]
      rw [hgone, List.mem_cons] at hn
      rcases hn with rfl | hn
      · exact fun hnot => hnot.2 rfl
      · exact fun hnot => h.out n hn hnot.1
    · rw [hgone, List.nodup_cons]
      exact ⟨fun hmem => h.out w hmem hin, h.once⟩
  | @restore rm opened back restore dead checked =>
    have hgone : s.opened.filterMap Frame.gone? = rm.move :: s'.opened.filterMap Frame.gone? := by
      rw [opened]
      rfl
    have honce := h.once
    rw [hgone, List.nodup_cons] at honce
    refine ⟨fun {e n l} hf hlive => ?_, fun n hn => ?_, honce.2⟩
    · refine (h.served hf hlive).congr (back.alive_of_restore restore) (by simp [dead]) ?_ fun hout hkept => ?_
      · intro dest u red hmem
        rw [opened, List.mem_cons] at hmem
        exact hmem.resolve_left (by simp)
      · rw [hgone, List.mem_cons, not_or] at hkept
        rw [back.has_of_restore restore hkept.1]
        exact ⟨hout, hkept.2⟩
    · rw [back.has_of_restore restore fun heq => honce.1 (heq ▸ hn)]
      exact h.out n (hgone ▸ List.mem_cons_of_mem _ hn)
  | rename _ _ renamer _ relocates file opened dead checked =>
    rw [Moment.Serves, opened]
    refine h.of_same relocates.samePresence.has_iff (by simp [dead]) fun e n l hf halive => ?_
    obtain ⟨l', hf'⟩ := hfeeds hf
    exact relocates.alive hf' halive
  | commit graph opened kept dead checked =>
    refine ⟨fun {e n l} hf hlive => ?_, by simp [opened], by simp [opened]⟩
    rw [graph, opened, dead]
    cases h.served hf hlive with
    | fed alive => exact .fed alive
    | spare mem => exact .spare mem
    | bypassed mem removed =>
      rcases kept _ _ _ _ mem with hmem | ⟨rm, hmem, hrm⟩
      · exact .spare hmem
      · exact .gone (h.out n (List.mem_filterMap.2 ⟨_, hmem, congrArg some hrm⟩)) (by simp)
    | gone out kept => exact .gone out (by simp)

theorem acts (hserves : Transport.Serves g0 r.graph r.bypasser.deadCandidates []) (hu : Upheld r.machine g0 r.graph)
    (hd : g0.Descends r.graph) (ha : Acts j { toRegion := r } s) : s.Serves g0 := by
  have hstart : Steady j g0 { toRegion := r } := ⟨hu, by simp, .nil⟩
  induction ha with
  | refl => exact hserves
  | @tail s s' hacts hact ih =>
    have hs := hstart.acts hacts
    exact ih.effect hs (hd.trans (hstart.descends hacts)) (hs.effect hact)

end Moment.Serves

/-! ## Between two units -/

/-- No move names a forced-bypass register that it did not name in the built graph, operands that are placed
read none, and the readers of all producers are accounted for. -/
structure Round.Shuns (g₀ : Graph) (change : Prop) (s : Round) : Prop where
  echoes : Echoes g₀ change (fun x => ∃ m, g₀.move? x = some m ∧ m.isOperand) g₀ s.graph
  free {n : MoveId} {m : Move} : s.graph.move? n = some m → m.isOperand → s.graph.cycleOf n ≠ none →
    ¬ g₀.Forces m.src
  serves : Serves g₀ s.graph s.bypasser.deadCandidates []
  /-- Operands stay. -/
  stays {n : MoveId} {m₀ : Move} : g₀.move? n = some m₀ → m₀.isOperand → s.graph.Has n
  descends : g₀.Descends s.graph
  files : s.machine.forcedFiles = g₀.forcedFiles
  renamer : s.renamer ≠ none → change

namespace Round.Shuns

variable {change : Prop} {way : Direction} {s s' : Round}

theorem turn (h : s.Shuns g0 change) (ho : Orderly g0 s) (ht : Turn way g0 s s') : s'.Shuns g0 change := by
  cases ht with
  | tell => exact ⟨h.echoes, h.free, h.serves, h.stays, h.descends, h.files, h.renamer⟩
  | offer _ offer =>
    have halike := Selector.alike_of_offer offer
    have hstill := Still.of_alike halike
    refine ⟨h.echoes.trans (hstill.retains.mono fun _ => False.elim).echoes, fun hm => ?_,
      h.serves.still hstill fun _ => id, fun hm0 hop => (hstill.has_iff _).2 (h.stays hm0 hop),
      h.descends.trans (.of_links hstill.link?), h.files, h.renamer⟩
    obtain ⟨d, rfl⟩ := halike
    exact h.free hm
  | hand => exact ⟨h.echoes, h.free, h.serves, h.stays, h.descends, h.files, h.renamer⟩
  | @unit u us j s' left along fits pending acts settled =>
    have hstart : Steady j g0 { toRegion := s.toRegion } := ⟨ho.upheld, by simp, .nil⟩
    have hsteady := hstart.acts acts
    have hshuns := Moment.Shuns.acts h.files ho.upheld acts
    have hserves := Moment.Serves.acts h.serves ho.upheld h.descends acts
    rw [Moment.Serves, settled.opened] at hserves
    refine ⟨h.echoes.trans (hshuns.echoes.mono h.renamer fun x hx => ?_), fun {n m'} hm' hop hplaced => ?_, hserves,
      fun hm0 hop => hstart.has acts hm0 (.inl hop) (h.stays hm0 hop),
      h.descends.trans (hstart.descends acts), ?_, fun hne => h.renamer fun hnone => ?_⟩
    · obtain ⟨m0, hm0, hiff⟩ := fits.known (fits.operands x hx)
      exact ⟨m0, hm0, hiff.1 hx⟩
    · -- The operands of the unit have been checked, the others are where they were.
      by_cases hmem : n ∈ j.moves
      · obtain ⟨m0, hm0, hiff⟩ := fits.known hmem
        have hn : n ∈ j.operands := hiff.2 (hsteady.upheld.isOperand hm' hm0 ▸ hop)
        exact hshuns.checked (settled.checked.resolve_left (List.ne_nil_of_mem hn)) n hn m' hm'
      · obtain ⟨m, hm⟩ := hshuns.echoes.known hm'
        obtain ⟨m0, hm0⟩ := h.echoes.known hm
        have hsame : m.isOperand = m'.isOperand :=
          (ho.upheld.isOperand hm hm0).trans (hsteady.upheld.isOperand hm' hm0).symm
        rw [hstart.cycleOf fits.operands acts hmem] at hplaced
        exact fun hforces => h.free hm (hsame ▸ hop) hplaced
          ((hshuns.echoes.src hm hm' fun hn => hmem (fits.operands n hn)).forces hforces)
    · rw [← h.files]
      exact congrArg Machine.forcedFiles (fixed_of_acts acts).2
    · exact hne (renamer_of_acts acts hnone)

theorem turns (h : s.Shuns g0 change) (ho : Orderly g0 s) (ht : Turns way g0 s s') : s'.Shuns g0 change := by
  induction ht with
  | refl => exact h
  | tail hturns hturn ih => exact ih.turn (ho.turns hturns) hturn

end Round.Shuns
end Transport
