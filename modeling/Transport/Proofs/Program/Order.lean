import Transport.Proofs.Program.Edges
import Transport.Proofs.Program.Walk

/-!
# A built graph orders conflicting moves

Two moves of a program conflict if they touch one place and one of them writes it. The graph then
has a path from the earlier to the later one, unless their guards exclude each other and keep doing
so up to the later move: `Program.graph_orders_conflicts`. Edges inside an iteration go from
earlier to later moves if the moves of every operation do.
-/

namespace Transport

open Relation Transport.Flow

/-- An edge inside one iteration leads from `t` to `h`. -/
def Graph.Before (g : Graph) (t h : MoveId) : Prop := ∃ d, g.Arc t h d ∧ d.loopDepth = 0

namespace Program

variable {p : Program} {machine : Machine} {g : Graph} {pm : ProgramMove} {q : Place} {e : Effect} {x : Guard}
  {t h : MoveId} {a b : ProgramMove}

/-! ## What a move touches -/

/-- The move triggers a call. -/
def calls (p : Program) (machine : Machine) (pm : ProgramMove) : Bool :=
  pm.dst.isTrigger && (p.target pm).any fun d => isControl machine d.opcode && d.opcode = "call"

/-- How the move accesses memory: by triggering an operation that does. -/
def access? (p : Program) (pm : ProgramMove) : Option MemoryAccess :=
  if pm.dst.isTrigger then (p.target pm).bind OperationDecl.memory else none

def Reads (p : Program) (pm : ProgramMove) : Place → Prop
  | .register r => pm.src = .register r ∨ ∃ x, pm.guard = some x ∧ x.reg = r
  | .returnAddress => pm.src = .returnAddress
  | .memory => p.access? pm = some .load

def Writes (p : Program) (machine : Machine) (pm : ProgramMove) : Place → Prop
  | .register r => pm.dst = .register r
  | .returnAddress => pm.dst = .returnAddress ∨ p.calls machine pm
  | .memory => p.access? pm = some .store

/-- Both moves touch `q`, and one of them writes it. -/
def Conflict (p : Program) (machine : Machine) (q : Place) (a b : ProgramMove) : Prop :=
  p.Writes machine a q ∧ p.Writes machine b q ∨ p.Writes machine a q ∧ p.Reads b q ∨
    p.Reads a q ∧ p.Writes machine b q

/-- The accesses of a program's move. -/
def uses (p : Program) (machine : Machine) (pm : ProgramMove) : List Effect :=
  touches (p.marked machine pm) ((p.target pm).bind OperationDecl.memory)

theorem call_marked : (p.marked machine pm).call = p.calls machine pm := by
  unfold marked calls
  cases p.target pm with
  | none => simp [entry]
  | some d =>
    simp only [Option.elim_some, signal, Option.any_some]
    show (if pm.dst.isTrigger && _ then _ else _ : Move).call = _
    split
    · rename_i h
      simp_all
    · rename_i h
      cases htr : pm.dst.isTrigger <;> simp_all [entry]

theorem mem_uses_write :
    { place := q, write := true } ∈ p.uses machine pm ↔ p.Writes machine pm q := by
  rw [uses, mem_touches]
  cases q with
  | register r => simp [Writes]
  | returnAddress => simp [Writes, call_marked]
  | memory => simp [Writes, access?]

theorem writes_of_mem_uses (he : e ∈ p.uses machine pm) (hw : e.write = true) : p.Writes machine pm e.place := by
  have hg : e.guardUse = false := by
    rcases mem_touches.1 he with ⟨_, -, rfl⟩ | ⟨_, -, rfl⟩ | ⟨_, -, rfl⟩ | ⟨-, rfl⟩ | ⟨-, rfl⟩ |
      ⟨-, _, -, rfl⟩ <;> simp_all
  refine mem_uses_write.1 ?_
  rwa [← hw, ← hg]

theorem exists_mem_uses_read :
    (∃ u, { place := q, write := false, guardUse := u } ∈ p.uses machine pm) ↔ p.Reads pm q := by
  simp only [uses, mem_touches]
  cases q with
  | register r =>
    have hsymm : ∀ {x y : Reg}, x = y ↔ y = x := eq_comm
    simp [Reads, hsymm (x := r)]
  | returnAddress => simp [Reads]
  | memory =>
    cases hx : (p.target pm).bind OperationDecl.memory with
    | none => simp [Reads, access?, hx]
    | some x => cases x <;> simp [Reads, access?, hx]

theorem mem_uses_guard (hx : pm.guard = some x) :
    { place := .register x.reg, write := false, guardUse := true } ∈ p.uses machine pm := by
  rw [uses, mem_touches]
  exact .inr (.inl ⟨x, by simpa using hx, rfl⟩)

/-! ## Accesses in program order -/

/-- The access of the move at `i`. -/
def accessAt (i : Nat) (pass : Nat) (pm : ProgramMove) : Access :=
  { move := ⟨i⟩, pass, guard := pm.guard }

theorem mem_events {pass : Nat} {a : Access} : (a, e) ∈ events pass (p.flow machine) ↔
      ∃ i pm, p.moves[i]? = some pm ∧ a = accessAt i pass pm ∧ e ∈ p.uses machine pm := by
  simp only [events, flow, List.mem_flatMap, List.mem_map, Prod.exists, List.mem_zipIdx_iff_getElem?,
    Prod.mk.injEq]
  constructor
  · rintro ⟨m, n, memory, ⟨pm, i, hpm, rfl, rfl, rfl⟩, e', he, rfl, rfl⟩
    exact ⟨i, pm, by simpa using hpm, by simp [accessAt], he⟩
  · rintro ⟨i, pm, hpm, rfl, he⟩
    exact ⟨_, _, _, ⟨pm, i, by simpa using hpm, rfl, rfl, rfl⟩, e, he, by simp [accessAt], rfl⟩

theorem events_sorted (p : Program) (machine : Machine) (pass : Nat) :
    (events pass (p.flow machine)).Pairwise fun x y => x.1.move.val ≤ y.1.move.val := by
  have hflow : (p.flow machine).Pairwise fun x y => x.2.1.val < y.2.1.val := by
    have hidx : (p.moves.toList.zipIdx.map Prod.snd).Pairwise (· < ·) := by
      rw [List.zipIdx_map_snd]
      exact List.pairwise_lt_range'
    rw [flow, List.pairwise_map]
    exact List.pairwise_map.1 hidx
  rw [events, List.pairwise_flatMap]
  refine ⟨fun x _ => ?_, hflow.imp fun {x y} hxy u hu v hv => ?_⟩
  · rw [List.pairwise_map]
    exact List.pairwise_of_forall fun _ _ => Nat.le_refl _
  · obtain ⟨_, -, rfl⟩ := List.mem_map.1 hu
    obtain ⟨_, -, rfl⟩ := List.mem_map.1 hv
    exact Nat.le_of_lt hxy

/-- Of two accesses by different moves, that of the earlier move comes first. -/
theorem exists_split {α : Type} {key : α → Nat} {xs : List α} {x y : α}
    (hsorted : xs.Pairwise fun x y => key x ≤ key y) (hx : x ∈ xs) (hy : y ∈ xs)
    (hlt : key x < key y) : ∃ pre post, xs = pre ++ y :: post ∧ x ∈ pre := by
  obtain ⟨pre, post, rfl⟩ := List.append_of_mem hy
  refine ⟨pre, post, rfl, ?_⟩
  rcases List.mem_append.1 hx with hx | hx
  · exact hx
  · rcases List.mem_cons.1 hx with rfl | hx
    · exact absurd hlt (Nat.lt_irrefl _)
    · have hle := (List.pairwise_cons.1 (List.pairwise_append.1 hsorted).2.1).1 x hx
      omega

/-- Accesses of two moves to one place, one a write: the later comes after the earlier on a path,
or the guards of the two waive that. -/
theorem path_or_waived {i j : Nat} {f : Effect} (hij : i < j)
    (ha : p.moves[i]? = some a) (hb : p.moves[j]? = some b) (he : e ∈ p.uses machine a)
    (hf : f ∈ p.uses machine b) (hq : e.place = f.place) (hw : e.write ∨ f.write) :
    TransGen (Leads (events 0 (p.flow machine))) ⟨i⟩ ⟨j⟩ ∨
      Waived (accessAt i 0 a) e (accessAt j 0 b) f := by
  have hea : (accessAt i 0 a, e) ∈ events 0 (p.flow machine) := mem_events.2 ⟨i, a, ha, rfl, he⟩
  have hfb : (accessAt j 0 b, f) ∈ events 0 (p.flow machine) := mem_events.2 ⟨j, b, hb, rfl, hf⟩
  obtain ⟨pre, post, heq, hpre⟩ := exists_split (events_sorted p machine 0) hea hfb hij
  have hpass : ∀ x ∈ pre, x.1.pass = 0 := by
    rintro ⟨a', e'⟩ hx
    obtain ⟨_, _, -, rfl, -⟩ := mem_events.1 (heq ▸ List.mem_append_left _ hx)
    rfl
  have hne : (accessAt i 0 a).move ≠ (accessAt j 0 b).move := by
    intro h
    exact Nat.ne_of_lt hij (congrArg Id.val h)
  refine (leads_or_waived hpass hpre rfl hq hw hne).imp_left fun hpath => ?_
  rw [heq, ← List.singleton_append, ← List.append_assoc]
  exact TransGen.mono (fun _ _ => Leads.append) _ _ hpath

/-! ## Paths in the graph -/

theorem Drawn.before_of_leads (hd : p.Drawn machine g) (hloop : p.isLoop = false)
    (hl : Leads (events 0 (p.flow machine)) t h) : g.Before t h := by
  obtain ⟨d, hdraw, h0⟩ := hl
  refine ⟨d, (hd.arc t h d).2 (.inl (mem_edges.2 ?_)), h0⟩
  simpa [timeline, hloop] using hdraw

/-- The moves of every operation are in order: operands, the trigger, results. -/
def Staged (p : Program) : Prop := ∀ i j, p.Precedes i j → i < j

instance (i j : Nat) : Decidable (p.Precedes i j) :=
  decidable_of_iff (∃ a ∈ p.moves[i]?, ∃ b ∈ p.moves[j]?, ∃ k ∈ a.dstOp,
      b.dstOp = some k ∧ a.dst.isTrigger = false ∧ b.dst.isTrigger ∨ a.dst.isTrigger ∧ b.srcOp = some k) <| by
    simp only [Precedes, Option.mem_def]
    grind

instance : Decidable p.Staged :=
  decidable_of_iff (∀ i < p.moves.size, ∀ j < p.moves.size, p.Precedes i j → i < j) <| by
    refine ⟨fun h i j hij => ?_, fun h i _ j _ => h i j⟩
    obtain ⟨a, b, k, ha, hb, -⟩ := id hij
    exact h i (Array.getElem?_eq_some_iff.1 ha).1 j (Array.getElem?_eq_some_iff.1 hb).1 hij

/-- The walk finds only what happened before in the same iteration. -/
theorem lt_of_mem_edges {d : Dependence}
    (he : (t, h, d) ∈ Flow.edges p.isLoop (p.flow machine)) (h0 : d.loopDepth = 0) :
    t.val < h.val := by
  obtain hd | hd := draws_append.1 (mem_edges.1 he)
  · obtain ⟨pre, a, e, post, w, e', heq, hw, rfl, rfl, hf, -⟩ := exists_of_draws hd
    have hsorted := events_sorted p machine 0
    rw [heq, List.pairwise_append] at hsorted
    have hle := hsorted.2.2 (w, e') hw (a, e) (.head _)
    have hne : w.move.val ≠ a.move.val := by
      intro h
      simp [follows, Id.ext_val h] at hf
    simp only at hle
    omega
  · cases hloop : p.isLoop with
    | false => simp [hloop, Draws] at hd
    | true =>
      rw [hloop, if_pos rfl] at hd
      obtain ⟨⟨a, e⟩, hx, -, hpass⟩ := hd.head_mem
      obtain ⟨_, _, -, rfl, -⟩ := mem_events.1 hx
      rw [h0] at hpass
      cases hpass

theorem Drawn.lt_of_before (hd : p.Drawn machine g) (hs : p.Staged) (hb : g.Before t h) : t.val < h.val := by
  obtain ⟨d, ha, h0⟩ := hb
  rcases (hd.arc t h d).1 ha with he | ⟨-, hp⟩
  · exact lt_of_mem_edges he h0
  · exact hs _ _ hp

/-- A move between two guarded ones, or one of the two, writes the register that guards them. -/
theorem path_of_guard_written {i j k : Nat} {c : ProgramMove} {y : Guard} (hij : i < j)
    (hik : i ≤ k) (hkj : k ≤ j) (ha : p.moves[i]? = some a) (hb : p.moves[j]? = some b)
    (hc : p.moves[k]? = some c) (hx : a.guard = some x) (hy : b.guard = some y)
    (hreg : x.reg = y.reg) (hdst : c.dst = .register x.reg) :
    TransGen (Leads (events 0 (p.flow machine))) ⟨i⟩ ⟨j⟩ := by
  have hgx : _ ∈ p.uses machine a := mem_uses_guard hx
  have hgy : _ ∈ p.uses machine b := mem_uses_guard hy
  have hwc : { place := .register x.reg, write := true } ∈ p.uses machine c :=
    mem_uses_write.2 hdst
  have hfirst : i < k → TransGen (Leads (events 0 (p.flow machine))) ⟨i⟩ ⟨k⟩ := fun hlt =>
    (path_or_waived hlt ha hc hgx hwc rfl (.inr rfl)).resolve_right
      fun hwaived => hwaived.first ⟨rfl, rfl⟩
  have hsecond : k < j → TransGen (Leads (events 0 (p.flow machine))) ⟨k⟩ ⟨j⟩ := fun hlt =>
    (path_or_waived hlt hc hb hwc hgy (by rw [hreg]) (.inl rfl)).resolve_right
      fun hwaived => hwaived.second ⟨rfl, rfl⟩
  rcases Nat.eq_or_lt_of_le hik with rfl | hik
  · exact hsecond hij
  · rcases Nat.eq_or_lt_of_le hkj with rfl | hkj
    · exact hfirst hik
    · exact (hfirst hik).trans (hsecond hkj)

theorem exists_uses_of_conflict (h : p.Conflict machine q a b) :
    ∃ e ∈ p.uses machine a, ∃ f ∈ p.uses machine b,
      e.place = q ∧ f.place = q ∧ (e.write ∨ f.write) := by
  rcases h with ⟨ha, hb⟩ | ⟨ha, hb⟩ | ⟨ha, hb⟩
  · exact ⟨_, mem_uses_write.2 ha, _, mem_uses_write.2 hb, rfl, rfl, .inl rfl⟩
  · obtain ⟨u, hu⟩ := exists_mem_uses_read.2 hb
    exact ⟨_, mem_uses_write.2 ha, _, hu, rfl, rfl, .inl rfl⟩
  · obtain ⟨u, hu⟩ := exists_mem_uses_read.2 ha
    exact ⟨_, hu, _, mem_uses_write.2 hb, rfl, rfl, .inr rfl⟩

/-- The graph of a block has a path from a move to every later one that conflicts with it, unless
the two are guarded by one register with opposite polarity that no move from the first to the
second writes; and if the moves of every operation are in order, its edges go from earlier to
later moves, so that no path leads back. -/
theorem graph_orders_conflicts (hloop : p.isLoop = false) (h : p.graph machine = .ok g) :
    (∀ i j a b q, i < j → p.moves[i]? = some a → p.moves[j]? = some b →
      p.Conflict machine q a b → TransGen g.Before ⟨i⟩ ⟨j⟩ ∨
      q ≠ .memory ∧ ∃ x y, a.guard = some x ∧ b.guard = some y ∧ x.reg = y.reg ∧
        x.inverted ≠ y.inverted ∧
        ∀ k c, i ≤ k → k ≤ j → p.moves[k]? = some c → c.dst ≠ .register x.reg) ∧
    (p.Staged → (∀ t h, g.Before t h → t.val < h.val) ∧ ∀ n, ¬ TransGen g.Before n n) := by
  have hd := graph_drawn h
  have hlift : ∀ {t h}, TransGen (Leads (events 0 (p.flow machine))) t h → TransGen g.Before t h :=
    fun hp => TransGen.mono (fun _ _ => hd.before_of_leads hloop) _ _ hp
  constructor
  · intro i j a b q hij ha hb hc
    obtain ⟨e, he, f, hf, rfl, hq, hw⟩ := exists_uses_of_conflict hc
    rcases path_or_waived hij ha hb he hf hq.symm hw with hpath | hwaived
    · exact .inl (hlift hpath)
    have hex := hwaived.excludes
    simp only [Flow.excludes, accessAt] at hex
    cases hx : a.guard with
    | none => simp [hx] at hex
    | some x =>
      cases hy : b.guard with
      | none => simp [hx, hy] at hex
      | some y =>
        simp only [hx, hy, Guard.excludes, Bool.and_eq_true, decide_eq_true_eq, bne_iff_ne] at hex
        by_cases hk : ∃ k c, i ≤ k ∧ k ≤ j ∧ p.moves[k]? = some c ∧ c.dst = .register x.reg
        · obtain ⟨k, c, hik, hkj, hkc, hdst⟩ := hk
          exact .inl (hlift (path_of_guard_written hij hik hkj ha hb hkc hx hy hex.1 hdst))
        · exact .inr ⟨hwaived.place, x, y, rfl, rfl, hex.1, hex.2,
            fun k c hik hkj hkc hdst => hk ⟨k, c, hik, hkj, hkc, hdst⟩⟩
  · intro hs
    have hlt : ∀ t h, g.Before t h → t.val < h.val := fun t h => hd.lt_of_before hs
    refine ⟨hlt, fun n hn => ?_⟩
    have hrel : ∀ {t h}, TransGen g.Before t h → t.val < h.val := by
      intro t h hp
      induction hp with
      | single hb => exact hlt _ _ hb
      | tail _ hb ih => exact Nat.lt_trans ih (hlt _ _ hb)
    exact Nat.lt_irrefl _ (hrel hn)

/-! ## A guard that is computed in between -/

/-- One unit that adds, and one bus. -/
def adder : Machine where
  name := "m"
  files := #[{ name := "r", size := 4, readPorts := 2, writePorts := 2 }]
  units := #[⟨"alu", [⟨"add", 1, 2, 1⟩], 1, false⟩]
  buses := #[⟨"b0", 8, [.fileRead ⟨0⟩, .fileWrite ⟨0⟩, .unitIn ⟨0⟩ 1, .unitOut ⟨0⟩ 2]⟩]

/-- `?r3 r0 -> r1`, then `r3` is computed from `r2`, then `!r3 r1 -> r0`. -/
def newGuard : Program where
  operations := #[{ opcode := "add" }]
  moves := #[{ src := .register ⟨⟨0⟩, 0⟩, dst := .register ⟨⟨0⟩, 1⟩, guard := some ⟨⟨⟨0⟩, 3⟩, false⟩ },
    { src := .register ⟨⟨0⟩, 2⟩, dst := .input 1 true, dstOp := some 0 },
    { src := .output 2, dst := .register ⟨⟨0⟩, 3⟩, srcOp := some 0 },
    { src := .register ⟨⟨0⟩, 1⟩, dst := .register ⟨⟨0⟩, 0⟩, guard := some ⟨⟨⟨0⟩, 3⟩, true⟩ }]

/-- The two guarded moves share `r1` and exclude each other, but not once the guard is new. -/
theorem graph_orders_conflicts_newGuard : ∃ g, newGuard.graph adder = .ok g ∧
    TransGen g.Before ⟨0⟩ ⟨3⟩ ∧ ∀ n, ¬ TransGen g.Before n n := by
  obtain ⟨g, hg, -⟩ := exists_ok_of_any (x := newGuard.graph adder) (p := fun _ => true)
    (by decide +kernel)
  obtain ⟨hpaths, hstaged⟩ := graph_orders_conflicts rfl hg
  refine ⟨g, hg, ?_, (hstaged ?_).2⟩
  · refine (hpaths 0 3 _ _ (.register ⟨⟨0⟩, 1⟩) (by decide) rfl rfl
      (.inr (.inl ⟨rfl, .inl rfl⟩))).resolve_right ?_
    rintro ⟨-, x, y, hx, -, -, -, hk⟩
    cases hx
    exact hk 2 _ (by decide) (by decide) rfl rfl
  · rintro i j ⟨a, b, k, ha, hb, hka, hs⟩
    rcases i with _ | _ | _ | _ | i
    case succ.zero =>
      cases ha
      rcases hs with ⟨-, htr, -⟩ | ⟨-, hsrc⟩
      · cases htr
      · rcases j with _ | _ | j
        case succ.succ => omega
        all_goals cases hb; cases hsrc
    all_goals cases ha
    all_goals cases hka

end Program

end Transport
