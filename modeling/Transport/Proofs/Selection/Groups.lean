import Mathlib.Data.List.Nodup
import Mathlib.Logic.Relation
import Transport.Proofs.Dependence.Tables
import Transport.Proofs.Run.Region

/-!
# Groups are closures

Two moves are companions if they belong to one operation or hand on a value through a forced-bypass
register. The group that is collected for a move from a work list is everything that companions
reach from it: `Graph.mem_groupOf`.
-/

namespace Transport.Graph

open Relation (ReflTransGen)

variable {g : Graph} {n k : MoveId} {ks : List MoveId} {notes notes' : List Note}

/-- `k` is decided on together with `n`. The relation is not symmetric: a value with several producers
draws its reader into the group of each, but none of them into the group of the reader. -/
inductive Companion (g : Graph) (n : MoveId) : MoveId → Prop
  | sibling {m : Move} {o : OpId} {op : Operation} {k : MoveId} (move : g.move? n = some m)
      (takesPart : o ∈ m.ops) (known : g.op? o = some op) (mem : k ∈ op.moves) : Companion g n k
  | producer {m : Move} {r : Reg} {k : MoveId} (move : g.move? n = some m) (reads : m.src.reg? = some r)
      (forced : g.isForced r) (source : g.rawSource n = .ok (some k)) : Companion g n k
  | consumer {m : Move} {r : Reg} {e : EdgeId} {l : Link} (move : g.move? n = some m)
      (writes : m.dst.reg? = some r) (forced : g.isForced r) (edge : (e, l) ∈ g.entries m.outs)
      (raw : l.dep.isRaw) (within : l.dep.isBack = false) : Companion g n l.head

/-! ## Companions -/

theorem forcedSource_ok {m : Move} : Gives notes (g.forcedSource n m) fun source _ => ∀ k,
    k ∈ source.toList ↔ ∃ r, m.src.reg? = some r ∧ g.isForced r ∧ g.rawSource n = .ok (some k) := by
  unfold forcedSource
  cases hr : m.src.reg? with
  | none => exact .pure (by simp)
  | some r =>
    refine .ite (fun hforced => .logged fun x hx => ?_) fun hforced => .pure (by simp [hforced])
    have hmem (k : MoveId) : k ∈ x.toList ↔ ∃ r', some r = some r' ∧ g.isForced r' ∧ g.rawSource n = .ok (some k) := by
      simp [hforced, hx]
    exact .ite (fun _ => .bind fun _ _ _ => .pure hmem) fun _ => .pure hmem

theorem mem_forcedReaders {m : Move} : k ∈ g.forcedReaders m ↔ ∃ r e l, m.dst.reg? = some r ∧
    g.isForced r ∧ (e, l) ∈ g.entries m.outs ∧ l.dep.isRaw ∧ l.dep.isBack = false ∧ l.head = k := by
  unfold forcedReaders
  cases hr : m.dst.reg? with
  | none => simp
  | some r =>
    cases hforced : g.isForced r with
    | false => simp [hforced]
    | true => simp [hforced, and_assoc]

theorem companions_ok (h : g.companions n notes = .ok ks notes') :
    n ≠ .invalid ∧ (∃ m, g.move? n = some m) ∧ ∀ k, k ∈ ks ↔ g.Companion n k := by
  simp only [companions, run_bind_ok, logged_lift_ok, run_pure_ok] at h
  obtain ⟨m, _, ⟨hm, rfl⟩, source, _, hsource, rfl, rfl⟩ := h
  obtain ⟨hvalid, hm⟩ := move_eq_ok.1 hm
  refine ⟨hvalid, ⟨m, hm⟩, fun k => ?_⟩
  simp only [List.mem_append, List.mem_flatMap, List.mem_filterMap, forcedSource_ok hsource k,
    mem_forcedReaders]
  constructor
  · rintro ((⟨op, ⟨o, ho, hop⟩, hk⟩ | ⟨r, hr, hforced, hk⟩) | ⟨r, e, l, hr, hforced, he, hraw, hin, rfl⟩)
    · exact .sibling hm ho hop hk
    · exact .producer hm hr hforced hk
    · exact .consumer hm hr hforced he hraw hin
  · intro hk
    cases hk with
    | sibling move takesPart known mem =>
      cases hm.symm.trans move
      exact .inl (.inl ⟨_, ⟨_, takesPart, known⟩, mem⟩)
    | producer move reads forced source =>
      cases hm.symm.trans move
      exact .inl (.inr ⟨_, reads, forced, source⟩)
    | consumer move writes forced edge raw within =>
      cases hm.symm.trans move
      exact .inr ⟨_, _, _, writes, forced, edge, raw, within, rfl⟩

/-! ## The work list -/

theorem mem_insert_iff {s : MoveIdSet} : k ∈ s.insert n ↔ k = n ∨ k ∈ s := by
  rw [Std.ExtTreeSet.mem_insert, Std.LawfulEqCmp.compare_eq_iff_eq, eq_comm]

/-- Moves are put on a work list one after the other, unless they are marked, and are marked then. -/
theorem fresh_of_push {σ : Type} {H : σ → MoveId → Prop} {f : σ → List MoveId → List MoveId → σ × List MoveId}
    (hnil : ∀ s work, f s work [] = (s, work))
    (hskip : ∀ s work n ns, H s n → f s work (n :: ns) = f s work ns)
    (hmark : ∀ s work n ns, ¬ H s n →
      ∃ s', (∀ k, H s' k ↔ k = n ∨ H s k) ∧ f s work (n :: ns) = f s' (n :: work) ns)
    (s : σ) (work ns : List MoveId) : ∃ fresh, (f s work ns).2 = fresh ++ work ∧ fresh.Nodup ∧
      (∀ k, k ∈ fresh ↔ k ∈ ns ∧ ¬ H s k) ∧ ∀ k, H (f s work ns).1 k ↔ k ∈ ns ∨ H s k := by
  induction ns generalizing s work with
  | nil => exact ⟨[], by simp [hnil]⟩
  | cons n ns ih =>
    by_cases hn : H s n
    · obtain ⟨fresh, hwork, hnodup, hfresh, hhas⟩ := ih s work
      rw [hskip s work n ns hn]
      refine ⟨fresh, hwork, hnodup, fun k => ?_, fun k => ?_⟩ <;> grind
    · obtain ⟨s', hs', hpush⟩ := hmark s work n ns hn
      obtain ⟨fresh, hwork, hnodup, hfresh, hhas⟩ := ih s' (n :: work)
      rw [hpush]
      refine ⟨fresh ++ [n], by simp [hwork], ?_, fun k => ?_, fun k => ?_⟩ <;> grind

/-- A work list is worked off that began with `n`: what is `done` and what is still on the list is within reach of
`n`, and what is done leads to nothing else. -/
structure Exploring (R : MoveId → MoveId → Prop) (n : MoveId) (work done : List MoveId) : Prop where
  start : n ∈ work ++ done
  nodup : (work ++ done).Nodup
  reach {k : MoveId} : k ∈ work ++ done → ReflTransGen R n k
  closed {k k' : MoveId} : k ∈ done → R k k' → k' ∈ work ++ done

namespace Exploring

variable {R : MoveId → MoveId → Prop} {work done fresh : List MoveId}

theorem begin : Exploring R n [n] [] :=
  ⟨by simp, by simp, fun hk => by rw [List.mem_singleton.1 hk], fun hk => absurd hk List.not_mem_nil⟩

/-- The top of the work list is worked off. -/
theorem step {top : MoveId} (h : Exploring R n (top :: work) done) (hks : ∀ k, k ∈ ks ↔ R top k) (hnodup : fresh.Nodup)
    (hfresh : ∀ k, k ∈ fresh ↔ k ∈ ks ∧ k ∉ top :: work ++ done) : Exploring R n (fresh ++ work) (top :: done) := by
  have hperm : (fresh ++ work ++ top :: done).Perm (fresh ++ (top :: work ++ done)) := by
    rw [List.append_assoc]
    exact List.perm_middle.append_left fresh
  have hold {k : MoveId} (hk : k ∈ top :: work ++ done) : k ∈ fresh ++ work ++ top :: done :=
    hperm.mem_iff.2 (List.mem_append_right _ hk)
  refine ⟨hold h.start, hperm.nodup_iff.2 (List.nodup_append'.2 ⟨hnodup, h.nodup, fun k hk => ((hfresh k).1 hk).2⟩),
    fun {k} hk => ?_, fun {k k'} hk hkk' => ?_⟩
  · rcases List.mem_append.1 (hperm.mem_iff.1 hk) with hk | hk
    · exact (h.reach List.mem_cons_self).tail ((hks k).1 ((hfresh k).1 hk).1)
    · exact h.reach hk
  · by_cases hseen : k' ∈ top :: work ++ done
    · exact hold hseen
    · rcases List.mem_cons.1 hk with rfl | hk
      · exact List.mem_append_left _ (List.mem_append_left _ ((hfresh k').2 ⟨(hks k').2 hkk', hseen⟩))
      · exact absurd (h.closed hk hkk') hseen

/-- When the list is worked off, all within reach is done. -/
theorem mem_done (h : Exploring R n [] done) : k ∈ done ↔ ReflTransGen R n k := by
  refine ⟨h.reach, fun hk => ?_⟩
  induction hk with
  | refl => exact h.start
  | tail _ hstep hmem => exact h.closed hmem hstep

end Exploring

theorem mem_closeGroup {fuel : Nat} {seen : MoveIdSet} {work group : List MoveId}
    (h : Exploring g.Companion n work group) (hseen : ∀ k, k ∈ seen ↔ k ∈ work ++ group)
    (hknown : ∀ k ∈ group, k.val < g.moves.size) (hfuel : g.moves.size < fuel + group.length)
    (hrun : g.closeGroup fuel seen work group notes = .ok ks notes') : k ∈ ks ↔ ReflTransGen g.Companion n k := by
  induction fuel generalizing seen work group notes with
  | zero =>
    have := length_le_of_known (List.nodup_append.1 h.nodup).2.1 hknown
    omega
  | succ fuel ih =>
    cases work with
    | nil =>
      obtain ⟨rfl, -⟩ := run_pure_ok.1 hrun
      exact h.mem_done
    | cons top work =>
      simp only [closeGroup, run_bind_ok] at hrun
      obtain ⟨comps, _, hcomps, hrun⟩ := hrun
      obtain ⟨-, ⟨m, hm⟩, hcomp⟩ := companions_ok hcomps
      obtain ⟨fresh, hwork, hnodup, hfresh, hmem⟩ := fresh_of_push (f := pushUnseen) (H := fun s k => k ∈ s)
        (fun _ _ => rfl) (fun s work n ns hn => by simp [pushUnseen, hn]) (fun s work n ns hn => ⟨s.insert n, fun _ => mem_insert_iff, by simp [pushUnseen, hn]⟩)
        seen work comps
      have hnext := h.step hcomp hnodup fun k => by rw [hfresh, hseen]
      rw [hwork] at hrun
      refine ih hnext (fun k => ?_) ?_ (by rw [List.length_cons]; omega) hrun
      · rw [hmem, hseen]
        have := hfresh k
        grind
      · exact List.forall_mem_cons.2 ⟨lt_of_move? hm, hknown⟩

theorem mem_sortMoves {ns : List MoveId} : n ∈ sortMoves ns ↔ n ∈ ns := by
  simp only [sortMoves, Std.ExtTreeSet.mem_toList, Std.ExtTreeSet.mem_ofList, List.contains_iff_mem]

theorem nodup_sortMoves (ns : List MoveId) : (sortMoves ns).Nodup :=
  (Std.ExtTreeSet.distinct_toList (t := Std.ExtTreeSet.ofList ns compare)).imp
    fun hne heq => hne (by rw [heq]; exact Std.ReflCmp.compare_self)

/-- The group of a move is the closure of the move under companions. -/
theorem mem_groupOf (h : g.groupOf n notes = .ok ks notes') :
    k ∈ ks ↔ ReflTransGen g.Companion n k := by
  simp only [groupOf, run_bind_ok, run_pure_ok] at h
  obtain ⟨all, _, hall, rfl, -⟩ := h
  rw [mem_sortMoves]
  exact mem_closeGroup .begin (fun k => mem_insert_iff.trans (by simp)) (by simp) (by simp) hall

theorem nodup_groupOf (h : g.groupOf n notes = .ok ks notes') : ks.Nodup := by
  simp only [groupOf, run_bind_ok, run_pure_ok] at h
  obtain ⟨all, _, -, rfl, -⟩ := h
  exact nodup_sortMoves all

end Transport.Graph
