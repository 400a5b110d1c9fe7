import Mathlib.Data.List.Perm.Subperm
import Transport.Dependence.Graph
import Transport.Proofs.Run.Checked

/-!
# The tables of a graph

What the lookups `move?`, `link?` and `op?` give after a table was changed, and how the checked
lookups relate to them.
-/

namespace Transport

theorem Id.ext_val {k : Kind} {i j : Id k} (h : i.val = j.val) : i = j := by
  cases i; cases j; simp_all

theorem Id.val_inj {k : Kind} {i j : Id k} : i.val = j.val ↔ i = j :=
  ⟨Id.ext_val, fun h => h ▸ rfl⟩

theorem Id.nodup_below {k : Kind} {n : Nat} : (Id.below n : List (Id k)).Nodup :=
  List.pairwise_map.2 (List.nodup_range.imp fun hne h => hne (congrArg Id.val h))

theorem Id.ne_invalid {k : Kind} {i : Id k} {n : Nat} (hn : n ≤ 4294967295) (h : i.val < n) : i ≠ .invalid := by
  rintro rfl
  simp only [Id.invalid] at h
  omega

theorem fetch_ok {k : Kind} {α : Type} {xs : Array α} {i : Id k} {y : α}
    (hsize : xs.size ≤ 4294967295) (h : xs[i.val]? = some y) : i.fetch xs = .ok y :=
  Id.fetch_eq_ok_iff.2 ⟨Id.ne_invalid hsize (Array.getElem?_eq_some_iff.1 h).1, h⟩

/-- There are no more entries than places in the table. -/
theorem length_le_of_known {k : Kind} {is : List (Id k)} {n : Nat} (hnodup : is.Nodup) (h : ∀ i ∈ is, i.val < n) :
    is.length ≤ n := by
  have hlen := (hnodup.subperm fun i hi => Id.mem_below.2 (h i hi)).length_le
  rwa [Id.below, List.length_map, List.length_range] at hlen

/-! ## Entries that come and go -/

section

variable {κ ν : Type} [Ord κ] [Std.TransOrd κ] [Std.LawfulEqOrd κ] {t : Std.ExtTreeMap κ ν} {k : κ} {v w : ν}

theorem insert_back (h : t[k]? = some v) : (t.insert k w).insert k v = t := by
  refine Std.ExtTreeMap.ext_getElem? fun x => ?_
  by_cases hx : x = k
  · simp [hx, h]
  · simp [Std.ExtTreeMap.getElem?_insert, Ne.symm hx]

theorem erase_back (h : t[k]? = none) : (t.insert k v).erase k = t := by
  refine Std.ExtTreeMap.ext_getElem? fun x => ?_
  by_cases hx : x = k
  · simp [hx, h]
  · simp [Std.ExtTreeMap.getElem?_erase, Std.ExtTreeMap.getElem?_insert, Ne.symm hx]

end

namespace Graph

variable {g g' : Graph} {n n' : MoveId} {e e' : EdgeId} {o o' : OpId} {dep : Dependence} {l : Link} {m : Move}
  {f : Move → Move} {tail head : MoveId} {op : Operation}

theorem move_eq_ok : g.move n = .ok m ↔ n ≠ .invalid ∧ g.move? n = some m :=
  Id.fetch_eq_ok_iff

theorem link_eq_ok : g.link e = .ok l ↔ e ≠ .invalid ∧ g.link? e = some l :=
  Id.fetch_eq_ok_iff

theorem op_eq_ok : g.op o = .ok op ↔ o ≠ .invalid ∧ g.op? o = some op :=
  Id.fetch_eq_ok_iff

theorem move?_of_move (h : g.move n = .ok m) : g.move? n = some m := (move_eq_ok.1 h).2

/-- What is computed from a move is computed from the one in the table. -/
theorem of_move_bind {α : Type} {f : Move → Checked α} {a : α} (hm : g.move? n = some m)
    (h : (g.move n >>= f) = .ok a) : f m = .ok a := by
  obtain ⟨m', hm', h⟩ := bind_eq_ok.1 h
  cases hm.symm.trans (move?_of_move hm')
  exact h

theorem link?_of_link (h : g.link e = .ok l) : g.link? e = some l := (link_eq_ok.1 h).2

theorem op?_of_op (h : g.op o = .ok op) : g.op? o = some op := (op_eq_ok.1 h).2

theorem lt_of_move? (h : g.move? n = some m) : n.val < g.moves.size :=
  (Array.getElem?_eq_some_iff.1 h).1

theorem lt_of_link? (h : g.link? e = some l) : e.val < g.links.size :=
  (Array.getElem?_eq_some_iff.1 h).1

theorem lt_of_op? (h : g.op? o = some op) : o.val < g.ops.size :=
  (Array.getElem?_eq_some_iff.1 h).1

theorem mem_moveIds : n ∈ g.moveIds ↔ ∃ m, g.move? n = some m ∧ m.live := by
  simp only [moveIds, List.mem_filter, Id.mem_below, Option.any_eq_true]
  constructor
  · exact And.right
  · rintro ⟨m, hm, hl⟩; exact ⟨lt_of_move? hm, m, hm, hl⟩

theorem mem_edgeIds : e ∈ g.edgeIds ↔ ∃ l, g.link? e = some l ∧ l.live := by
  simp only [edgeIds, List.mem_filter, Id.mem_below, Option.any_eq_true]
  constructor
  · exact And.right
  · rintro ⟨l, hl, hl'⟩; exact ⟨lt_of_link? hl, l, hl, hl'⟩

theorem mem_opIds : o ∈ g.opIds ↔ ∃ op, g.op? o = some op := by
  simp only [opIds, Id.mem_below]
  constructor
  · intro h; exact ⟨g.ops[o.val], by simp [op?, h]⟩
  · rintro ⟨op, h⟩; exact lt_of_op? h

theorem mem_entries {es : List EdgeId} : (e, l) ∈ g.entries es ↔ e ∈ es ∧ g.link? e = some l := by
  simp only [entries, List.mem_filterMap, Option.map_eq_some_iff, Prod.mk.injEq]
  constructor
  · rintro ⟨e', he, l', hl, rfl, rfl⟩; exact ⟨he, hl⟩
  · rintro ⟨he, hl⟩; exact ⟨e, he, l, hl, rfl, rfl⟩

/-! ## Changed tables -/

@[simp] theorem move?_modifyMove :
    (g.modifyMove n f).move? n' = if n' = n then (g.move? n').map f else g.move? n' := by
  simp only [modifyMove, move?, Array.getElem?_modify, Id.val_inj, eq_comm (a := n)]

theorem setPlacement_ok {p : Option Placement} (h : g.setPlacement n p = .ok g') :
    ∃ m, g.move n = .ok m ∧ g' = g.modifyMove n fun m => { m with placement := p } := by
  simp only [setPlacement, bind_eq_ok, pure_eq_ok] at h
  obtain ⟨m, hm, rfl⟩ := h
  exact ⟨m, hm, rfl⟩

@[simp] theorem op?_modifyMove : (g.modifyMove n f).op? o = g.op? o := rfl

@[simp] theorem move?_modifyLink {f : Link → Link} : (g.modifyLink e f).move? n = g.move? n := rfl

@[simp] theorem link?_modifyLink {f : Link → Link} :
    (g.modifyLink e f).link? e' = if e' = e then (g.link? e').map f else g.link? e' := by
  simp only [modifyLink, link?, Array.getElem?_modify, Id.val_inj, eq_comm (a := e)]

@[simp] theorem move?_modifyOp {f : Operation → Operation} :
    (g.modifyOp o f).move? n = g.move? n := rfl

@[simp] theorem op?_modifyOp {f : Operation → Operation} :
    (g.modifyOp o f).op? o' = if o' = o then (g.op? o').map f else g.op? o' := by
  simp only [modifyOp, op?, Array.getElem?_modify, Id.val_inj, eq_comm (a := o)]

@[simp] theorem move?_forgetDistances : g.forgetDistances.move? n = g.move? n := rfl

@[simp] theorem link?_forgetDistances : g.forgetDistances.link? e = g.link? e := rfl

@[simp] theorem op?_forgetDistances : g.forgetDistances.op? o = g.op? o := rfl

/-! ## Edges -/

theorem connect_eq_ok (h : g.connect tail head dep = .ok (g', e)) :
    (∃ m, g.move tail = .ok m ∧ m.live) ∧ (∃ m, g.move head = .ok m ∧ m.live) ∧
      e = ⟨g.links.size⟩ ∧ g' = (({ g with links := g.links.push { tail, head, dep } } : Graph).attach
        ⟨g.links.size⟩ tail head).forgetDistances := by
  simp only [connect, isLive, bind_eq_ok, pure_eq_ok] at h
  obtain ⟨_, ⟨m, hm, rfl⟩, h⟩ := h
  split at h
  case isFalse => simp [bind_eq_ok] at h
  rename_i hl
  simp only [bind_eq_ok, pure_eq_ok] at h
  obtain ⟨_, ⟨m', hm', rfl⟩, h⟩ := h
  split at h
  case isFalse => simp only [bind_eq_ok, throw_ne_ok, false_and, exists_false] at h
  rename_i hl'
  simp only [pure_eq_ok, Prod.mk.injEq] at h
  exact ⟨⟨m, hm, hl⟩, ⟨m', hm', hl'⟩, h.2.symm, h.1.symm⟩

theorem ensureEdge_eq_ok {x : Option EdgeId} (h : g.ensureEdge tail head dep = .ok (g', x)) :
    (g' = g ∧ x = none ∧ g.hasEdge tail head dep = .ok true) ∨
      ∃ e, x = some e ∧ g.connect tail head dep = .ok (g', e) := by
  simp only [ensureEdge, bind_eq_ok] at h
  obtain ⟨b, hb, h⟩ := h
  cases b with
  | true =>
    simp only [if_true, pure_eq_ok, Prod.mk.injEq] at h
    exact .inl ⟨h.1.symm, h.2.symm, hb⟩
  | false =>
    simp only [Bool.false_eq_true, if_false, bind_eq_ok, pure_eq_ok, Prod.mk.injEq, Prod.exists] at h
    obtain ⟨g1, e, hc, rfl, rfl⟩ := h
    exact .inr ⟨e, rfl, hc⟩

theorem removeEdge_eq_ok (h : g.removeEdge e = .ok g') : ∃ l, g.link e = .ok l ∧ l.live ∧
    g' = ((g.modifyLink e fun l => { l with live := false }).detach e l.tail l.head).forgetDistances := by
  simp only [removeEdge, bind_eq_ok] at h
  obtain ⟨l, hl, h⟩ := h
  split at h
  · simp only [pure_eq_ok] at h
    exact ⟨l, hl, by assumption, h.symm⟩
  · simp only [bind_eq_ok, throw_ne_ok, false_and, exists_false] at h

theorem restoreEdge_eq_ok (h : g.restoreEdge e = .ok g') : ∃ l, g.link e = .ok l ∧ l.live = false ∧
    g' = ((g.modifyLink e fun l => { l with live := true }).attach e l.tail l.head).forgetDistances := by
  simp only [restoreEdge, bind_eq_ok] at h
  obtain ⟨l, hl, h⟩ := h
  split at h
  · simp only [bind_eq_ok, throw_ne_ok, false_and, exists_false] at h
  · simp only [pure_eq_ok] at h
    exact ⟨l, hl, by simp_all, h.symm⟩

end Graph

end Transport
