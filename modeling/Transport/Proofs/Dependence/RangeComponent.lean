import Transport.Proofs.Program.Order
import Transport.Proofs.Renaming.Names

/-!
# A live range is a component

Along edges that carry a value of one register, a move leads to others that read or write the same value. The live
range of a move has the ends of all edges that are joined to it, each in its role, and there is none if one of the
edges crosses an iteration or stands for an access elsewhere: `liveRange_isComponent`. Which of its moves the range
is found from does not matter.
-/

namespace Transport

open Relation (ReflTransGen)

namespace Link

/-- The move is an end of the edge, in the role. -/
def Ends (l : Link) (x : MoveId) (role : Role) : Prop :=
  l.tail = x ∧ role = .dest ∨ l.head = x ∧ role = l.dep.readRole

/-- The end of the edge that writes its value, or the one that reads it. -/
def endAs (l : Link) (role : Role) : MoveId := if role = .dest then l.tail else l.head

theorem endAs_readRole {l : Link} {d : Dependence} : l.endAs d.readRole = l.head := by
  rw [endAs, Dependence.readRole]
  split <;> rfl

theorem Ends.endAs {l : Link} {x : MoveId} {role : Role} (h : l.Ends x role) : l.endAs role = x := by
  rcases h with ⟨h, rfl⟩ | ⟨h, rfl⟩
  · exact h
  · rwa [endAs_readRole]

end Link

namespace Graph

variable {g : Graph} {r : Reg} {n x : MoveId} {m : Move} {l l' : Link} {role role' : Role} {lr range : LiveRange}
  {work : List (Bool × MoveId)} {start : MoveId × Role}

/-- A value of `r` travels along the edge. -/
def Conveys (g : Graph) (r : Reg) (l : Link) : Prop :=
  (∃ e, g.link? e = some l) ∧ l.live ∧ l.dep.carries .raw r

/-- Values of `r` travel along both edges, from one move or to one move. -/
def Adjoins (g : Graph) (r : Reg) (l l' : Link) : Prop :=
  g.Conveys r l ∧ g.Conveys r l' ∧ (l.tail = l'.tail ∨ l.head = l'.head)

/-- The edges that carry a value of `r` from `n` if it writes the value and to `n` if it reads it, and with each
edge those that share its tail or its head. -/
def Joined (g : Graph) (r : Reg) (n : MoveId) (role : Role) (l : Link) : Prop :=
  ∃ k, g.Conveys r k ∧ k.endAs role = n ∧ ReflTransGen (g.Adjoins r) k l

theorem mem_valueEdges_iff (hg : g.Linked) : l ∈ g.valueEdges r (decide (role = .dest)) n ↔
    g.Conveys r l ∧ l.endAs role = n := by
  rw [mem_valueEdges hg, Conveys, Link.endAs]
  grind

theorem ends_otherEnd {b : Bool} : l.Ends (otherEnd b l).1 (otherEnd b l).2 := by
  cases b with
  | false => exact .inl ⟨rfl, rfl⟩
  | true => exact .inr ⟨rfl, rfl⟩

instance : Std.Symm (g.Adjoins r) where
  symm _ _ h := ⟨h.2.1, h.1, h.2.2.imp .symm .symm⟩

theorem Adjoins.of_endAs (hl : g.Conveys r l) (hl' : g.Conveys r l') (h : l.endAs role = l'.endAs role) :
    g.Adjoins r l l' := by
  refine ⟨hl, hl', ?_⟩
  unfold Link.endAs at h
  split at h
  · exact .inl h
  · exact .inr h

/-! ## Edges of a closed range -/

section

variable (hr : g.Ranging r start [] range []) (hg : g.Linked) (hl : g.Conveys r l)
include hr hg hl

theorem Ranging.tail_mem (hx : x ∈ range.inRole role) (hend : l.endAs role = x) : l.tail ∈ range.inRole .dest := by
  obtain ⟨-, -, hmem⟩ := hr.handled hx l ((mem_valueEdges_iff hg).2 ⟨hl, hend⟩)
  by_cases hrole : role = .dest
  · subst hrole hend
    exact hx
  · simpa [otherEnd, hrole] using hmem

theorem Ranging.within (htail : l.tail ∈ range.inRole .dest) : (l.dep.isBack || l.dep.isPseudo) = false ∧
    ∀ x role, l.Ends x role → x ∈ range.inRole role := by
  obtain ⟨hback, hpseudo, hmem⟩ := hr.handled htail l ((mem_valueEdges_iff hg).2 ⟨hl, rfl⟩)
  refine ⟨by simp [hback, hpseudo], ?_⟩
  rintro x role (⟨rfl, rfl⟩ | ⟨rfl, rfl⟩)
  · exact htail
  · exact hmem

end

/-! ## The component -/

namespace Joined

section

variable (h : g.Joined r n role l)
include h

theorem carried : g.Conveys r l := by
  obtain ⟨k, hk, -, hpath⟩ := h
  cases hpath with
  | refl => exact hk
  | tail _ hstep => exact hstep.2.1

/-- The edges of the component stay within a closed range, and within an iteration. -/
theorem within (hg : g.Linked) (hr : g.Ranging r (n, role) [] range []) :
    (l.dep.isBack || l.dep.isPseudo) = false ∧ ∀ x role', l.Ends x role' → x ∈ range.inRole role' := by
  refine hr.within hg h.carried ?_
  obtain ⟨k, hk, hend, hpath⟩ := h
  induction hpath with
  | refl => exact hr.tail_mem hg hk hr.begins hend
  | tail _ hstep ih =>
    obtain ⟨hfrom, hto, hsame | hsame⟩ := hstep
    · exact hsame ▸ ih
    · have hhead := (hr.within hg hfrom ih).2 _ _ (.inr ⟨rfl, rfl⟩)
      refine hr.tail_mem hg hto hhead ?_
      rw [Link.endAs_readRole, hsame]

variable (hends : l.Ends x role')
include hends

/-- It does not matter at which of its ends a component is entered. -/
theorem iff_of_ends : g.Joined r x role' l' ↔ g.Joined r n role l' := by
  have hl := h.carried
  obtain ⟨k, hk, hn, hpath⟩ := h
  constructor
  · rintro ⟨k', hk', hx, hpath'⟩
    have hadjoins : g.Adjoins r l k' := .of_endAs hl hk' (hends.endAs.trans hx.symm)
    exact ⟨k, hk, hn, (hpath.tail hadjoins).trans hpath'⟩
  · rintro ⟨k', hk', hn', hpath'⟩
    have hadjoins : g.Adjoins r k k' := .of_endAs hk hk' (hn.trans hn'.symm)
    have hback : ReflTransGen (g.Adjoins r) l k := symm hpath
    exact ⟨l, hl, hends.endAs, (hback.tail hadjoins).trans hpath'⟩

end

end Joined

/-- What goes over along the edges that are followed holds of every move of the range that is found. If none is
found, an edge of a move that it holds of crosses an iteration or stands for an access elsewhere. -/
theorem growRange_spread {P : MoveId × Role → Prop} (hg : g.Linked) (fuel : Nat)
    (step : ∀ x role l, P (x, role) → l ∈ g.valueEdges r (decide (role = .dest)) x →
      P (otherEnd (decide (role = .dest)) l))
    (hr : g.Ranging r start [] lr work) (h : ∀ x role, x ∈ lr.inRole role → P (x, role)) :
    (∀ range, g.growRange r fuel work lr = some range → ∀ x role, x ∈ range.inRole role → P (x, role)) ∧
      (g.growRange r fuel work lr = none → ∃ x role l, P (x, role) ∧
        l ∈ g.valueEdges r (decide (role = .dest)) x ∧ (l.dep.isBack || l.dep.isPseudo)) := by
  induction fuel generalizing work lr with
  | zero => cases work <;> exact ⟨fun _ heq => Option.some.inj heq ▸ h, by simp [growRange]⟩
  | succ fuel ih =>
    cases work with
    | nil => exact ⟨fun _ heq => Option.some.inj heq ▸ h, by simp [growRange]⟩
    | cons w work =>
      obtain ⟨b, n⟩ := w
      obtain ⟨role, rfl, hn⟩ := hr.work (.head _)
      rw [growRange]
      by_cases hbad : (g.valueEdges r (decide (role = .dest)) n).any fun l => l.dep.isBack || l.dep.isPseudo
      · rw [if_pos hbad]
        obtain ⟨l, hl, hbad⟩ := List.any_eq_true.1 hbad
        exact ⟨by simp, fun _ => ⟨n, role, l, h n role hn, hl, hbad⟩⟩
      · rw [if_neg hbad]
        refine ih (hr.step hg hn (by simpa using hbad) rfl).1 ?_
        refine List.foldlRecOn (motive := fun s : LiveRange × _ => ∀ x role, x ∈ s.1.inRole role → P (x, role)) _ _ h ?_
        intro s hs l hl x role' hx
        rw [followEdge_eq] at hx
        rcases LiveRange.mem_take.1 hx with hx | ⟨rfl, rfl⟩
        · exact hs x role' hx
        · exact step n role l (h n role hn) hl

/-- The moves that the component of `n` puts into its range: `n` in its role, and the ends of the edges. -/
def Spanned (g : Graph) (r : Reg) (n : MoveId) (role : Role) (x : MoveId) (role' : Role) : Prop :=
  x = n ∧ role' = role ∨ ∃ l, g.Joined r n role l ∧ l.Ends x role'

theorem Spanned.joined (h : g.Spanned r n role x role') (hc : g.Conveys r l)
    (hend : l.endAs role' = x) : g.Joined r n role l := by
  rcases h with ⟨rfl, rfl⟩ | ⟨k, hk, hends⟩
  · exact ⟨l, hc, hend, .refl⟩
  · exact (hk.iff_of_ends hends).1 ⟨l, hc, hend, .refl⟩

theorem liveRange_spans (hg : g.Linked) (hm : g.move n = .ok m) (hrole : m.regAt? role = some r) :
    ∃ range, g.liveRange n role = .ok range ∧
      ((∃ l, g.Joined r n role l ∧ (l.dep.isBack || l.dep.isPseudo)) → range = {}) ∧
      ((∀ l, g.Joined r n role l → (l.dep.isBack || l.dep.isPseudo) = false) →
        ∀ x role', x ∈ range.inRole role' ↔ g.Spanned r n role x role') := by
  have hstep : ∀ x role' l, g.Spanned r n role x role' → l ∈ g.valueEdges r (decide (role' = .dest)) x →
      g.Joined r n role l := by
    intro x role' l hx hl
    obtain ⟨hc, hend⟩ := (mem_valueEdges_iff hg).1 hl
    exact hx.joined hc hend
  have hspread := growRange_spread hg (P := fun p => g.Spanned r n role p.1 p.2) (3 * g.moves.size + 1)
    (fun x role' l hx hl => .inr ⟨l, hstep x role' l hx hl, ends_otherEnd⟩) (ranging_single (move?_of_move hm))
    fun x role' hx => .inl (mem_single.1 hx).symm
  refine ⟨_, by simp only [liveRange, hm, ok_bind, hrole]; rfl, ?_⟩
  cases hgrow : g.growRange r (3 * g.moves.size + 1) [(decide (role = .dest), n)] (.single n role) with
  | none =>
    obtain ⟨x, role', l, hx, hl, hbad⟩ := hspread.2 hgrow
    have hjoined := hstep x role' l hx hl
    exact ⟨fun _ => rfl, fun hall => absurd hbad (by simp [hall l hjoined])⟩
  | some range =>
    have hr := ranging_of_growRange_single hg (move?_of_move hm) hgrow
    refine ⟨?_, fun _ x role' => ⟨hspread.1 range hgrow x role', fun hx => ?_⟩⟩
    · rintro ⟨l, hl, hbad⟩
      rw [(hl.within hg hr).1] at hbad
      cases hbad
    · rcases hx with ⟨rfl, rfl⟩ | ⟨l, hl, hends⟩
      · exact hr.begins
      · exact (hl.within hg hr).2 x role' hends

theorem range_ext {a b : LiveRange} (h : ∀ x role, x ∈ a.inRole role ↔ x ∈ b.inRole role) : a = b := by
  cases a
  cases b
  congr 1
  · exact Std.ExtTreeSet.ext_mem fun {x} => h x .dest
  · exact Std.ExtTreeSet.ext_mem fun {x} => h x .source
  · exact Std.ExtTreeSet.ext_mem fun {x} => h x .guard

/-- An end of an edge accesses the register that the edge carries. -/
theorem regOf_of_ends (ht : g.ValuesAgree) (hc : g.Conveys r l) (h : l.Ends x role) : g.regOf x role = some r := by
  obtain ⟨⟨e, he⟩, hlive, hcarries⟩ := hc
  obtain ⟨htail, hhead⟩ := ht.regOf he hlive hcarries
  rcases h with ⟨rfl, rfl⟩ | ⟨rfl, rfl⟩
  · exact htail
  · exact hhead

theorem Joined.spanned_iff (h : g.Joined r n .dest l) (hl : l.Ends x role) {y : MoveId} :
    g.Spanned r x role y role' ↔ g.Spanned r n .dest y role' := by
  obtain ⟨k, hk, hn, -⟩ := id h
  have hjoined (l' : Link) : g.Joined r x role l' ↔ g.Joined r n .dest l' := h.iff_of_ends hl
  constructor
  · rintro (⟨rfl, rfl⟩ | ⟨l', hl', hends⟩)
    · exact .inr ⟨l, h, hl⟩
    · exact .inr ⟨l', (hjoined l').1 hl', hends⟩
  · rintro (⟨rfl, rfl⟩ | ⟨l', hl', hends⟩)
    · exact .inr ⟨k, (hjoined k).2 ⟨k, hk, hn, .refl⟩, .inl ⟨hn, rfl⟩⟩
    · exact .inr ⟨l', (hjoined l').2 hl', hends⟩

/-- A live range has the ends of the component of its start, each in its role, if all edges of the component stay
within an iteration and the graph, and there is none otherwise. From a write on, every member that an edge of the
component puts there finds the same range. -/
theorem liveRange_isComponent (hg : g.Linked) (ht : g.ValuesAgree) (hsize : g.moves.size ≤ 4294967295)
    (hm : g.move n = .ok m) (hrole : m.regAt? role = some r) :
    ∃ range, g.liveRange n role = .ok range ∧
      ((∃ l, g.Joined r n role l ∧ (l.dep.isBack || l.dep.isPseudo)) → range = {}) ∧
      ((∀ l, g.Joined r n role l → (l.dep.isBack || l.dep.isPseudo) = false) →
        ∀ x role', x ∈ range.inRole role' ↔
          x = n ∧ role' = role ∨ ∃ l, g.Joined r n role l ∧ l.Ends x role') ∧
      (role = .dest → range ≠ {} → ∀ l x role', g.Joined r n role l → l.Ends x role' →
        g.liveRange x role' = .ok range) := by
  obtain ⟨range, hrange, hbad, hgood⟩ := liveRange_spans hg hm hrole
  refine ⟨range, hrange, hbad, hgood, ?_⟩
  rintro rfl hne l x role' hl hends
  obtain ⟨m', hm', hrole'⟩ := regOf_eq_some.1 (regOf_of_ends ht hl.carried hends)
  have hx : g.move x = .ok m' := move_eq_ok.2 ⟨Id.ne_invalid hsize (lt_of_move? hm'), hm'⟩
  obtain ⟨range', hrange', -, hgood'⟩ := liveRange_spans hg hx hrole'
  have hall (k : Link) (hk : g.Joined r n .dest k) : (k.dep.isBack || k.dep.isPseudo) = false := by
    by_contra hk'
    exact hne (hbad ⟨k, hk, eq_true_of_ne_false hk'⟩)
  have hmem (y : MoveId) (role : Role) : y ∈ range'.inRole role ↔ y ∈ range.inRole role := by
    rw [hgood hall, hgood' fun k hk => hall k ((hl.iff_of_ends hends).1 hk)]
    exact hl.spanned_iff hends
  rw [hrange', range_ext hmem]

end Graph

namespace Program

/-- The guard is computed by the third move. -/
theorem liveRange_isComponent_newGuard : ∃ g range, newGuard.graph adder = .ok g ∧
    g.liveRange ⟨2⟩ .dest = .ok range ∧ range ≠ {} ∧ ∀ l x role, g.Joined ⟨⟨0⟩, 3⟩ ⟨2⟩ .dest l → l.Ends x role →
      g.liveRange x role = .ok range := by
  obtain ⟨g, hg, h⟩ := exists_ok_of_any (x := newGuard.graph adder) (p := fun g => decide (g.moves.size = 4 ∧
    ((g.move ⟨2⟩).toOption.any fun m => m.regAt? .dest = some ⟨⟨0⟩, 3⟩) ∧ (∀ l ∈ g.links, g.Agrees l) ∧
    (g.liveRange ⟨2⟩ .dest).toOption.any fun range => !range.isEmpty)) (by decide +kernel)
  obtain ⟨hsize, hmove, hagrees, hrange⟩ := of_decide_eq_true h
  obtain ⟨m, hm, hrole⟩ := exists_ok_of_any hmove
  obtain ⟨range, hlive, hne⟩ := exists_ok_of_any hrange
  have ht : g.ValuesAgree := fun e l hl _ _ => hagrees l (Array.mem_of_getElem? hl)
  obtain ⟨range', hlive', -, -, hsame⟩ := Graph.liveRange_isComponent (graph_drawn hg).linked ht
    (by omega) hm (of_decide_eq_true hrole)
  obtain rfl : range = range' := Except.ok.inj (hlive.symm.trans hlive')
  have hnonempty : range ≠ {} := by
    rintro rfl
    exact absurd hne (by decide)
  exact ⟨g, range, hg, hlive, hnonempty, hsame rfl hnonempty⟩

end Program

end Transport
