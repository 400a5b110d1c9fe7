import Transport.Proofs.Program.Order

/-!
# The edges that values travel along

A block is executed move by move. A move reads the value that another one delivered if no executed
move wrote the register in between. The graph then has an edge from the one to the other exactly if
their guards do not exclude each other, and if they do, the register that guards them was written
in between: `Program.raw_edge_iff_of_delivers`.
-/

namespace Transport

open Relation Transport.Flow

/-- Does the guard let its move take place? -/
def Guard.holds (x : Guard) (value : Reg → Int) : Bool := (value x.reg ≠ 0) != x.inverted

namespace ProgramMove

def executes (pm : ProgramMove) (value : Reg → Int) : Bool := pm.guard.all (·.holds value)

/-- Results of operations and the return address have the value that is given. -/
def carried (pm : ProgramMove) (given : Int) (value : Reg → Int) : Int :=
  match pm.src with
  | .register r => value r
  | .immediate v => v
  | _ => given

def execute (pm : ProgramMove) (given : Int) (value : Reg → Int) : Reg → Int := fun r =>
  if pm.executes value ∧ pm.dst = .register r then pm.carried given value else value r

end ProgramMove

namespace Program

variable {p : Program} {machine : Machine} {g : Graph} {given : Nat → Int} {start : Reg → Int}
  {pre : List (Access × Effect)} {d m : Nat} {b a : ProgramMove} {r : Reg}

/-- The register values before the move at `n`. -/
def before (p : Program) (given : Nat → Int) (start : Reg → Int) : Nat → Reg → Int
  | 0 => start
  | n + 1 => match p.moves[n]? with
    | some pm => pm.execute (given n) (p.before given start n)
    | none => p.before given start n

/-- The move at `n` takes place and writes `r`. -/
def Stores (p : Program) (given : Nat → Int) (start : Reg → Int) (n : Nat) (r : Reg) : Prop :=
  ∃ pm, p.moves[n]? = some pm ∧ pm.executes (p.before given start n) ∧ pm.dst = .register r

/-- The move at `m` takes place and reads from `r` what the move at `d` wrote there. -/
structure Delivers (p : Program) (given : Nat → Int) (start : Reg → Int) (d m : Nat) (r : Reg) :
    Prop where
  lt : d < m
  stores : p.Stores given start d r
  last {k : Nat} : d < k → k < m → ¬ p.Stores given start k r
  reads : ∃ pm, p.moves[m]? = some pm ∧ pm.executes (p.before given start m) ∧
    pm.src = .register r

/-- A register keeps its value while no executed move writes it. -/
theorem before_eq (hdm : d ≤ m) (hno : ∀ k, d ≤ k → k < m → ¬ p.Stores given start k r) :
    p.before given start m r = p.before given start d r := by
  induction hdm with
  | refl => rfl
  | @step m hdm ih =>
    rw [← ih fun k hk hkm => hno k hk (by omega), before]
    cases hpm : p.moves[m]? with
    | none => rfl
    | some pm =>
      simp only [ProgramMove.execute]
      rw [if_neg]
      rintro ⟨hx, hdst⟩
      exact hno m hdm (by omega) ⟨pm, hpm, hx, hdst⟩

/-- Moves that exclude each other both take place only if their guard is written in between. -/
theorem exists_stores_of_excludes {x y : Guard} (hdm : d ≤ m)
    (hex : x.excludes y) (hx : x.holds (p.before given start d))
    (hy : y.holds (p.before given start m)) :
    ∃ k, d ≤ k ∧ k < m ∧ p.Stores given start k x.reg := by
  by_contra! hno
  have heq := before_eq hdm hno
  simp only [Guard.excludes, Bool.and_eq_true, decide_eq_true_eq] at hex
  simp only [Guard.holds, ← hex.1, heq] at hx hy
  cases hx' : x.inverted <;> cases hy' : y.inverted <;> simp_all

theorem exists_events_split (machine : Machine) (hb : p.moves[m]? = some b) :
    ∃ pre post, events 0 (p.flow machine) =
        pre ++ (((p.uses machine b).map fun e => (accessAt m 0 b, e)) ++ post) ∧
      ∀ a e, (a, e) ∈ pre ↔
        ∃ i c, i < m ∧ p.moves[i]? = some c ∧ a = accessAt i 0 c ∧ e ∈ p.uses machine c := by
  have hflow : ∀ i, (p.flow machine)[i]? = (p.moves[i]?).map fun c =>
      (p.marked machine c, (⟨i⟩ : MoveId), (p.target c).bind OperationDecl.memory) := by
    intro i
    simp [flow, List.getElem?_zipIdx, Function.comp_def]
  have hm := hflow m
  rw [hb, Option.map_some, List.getElem?_eq_some_iff] at hm
  obtain ⟨hlt, hm⟩ := hm
  refine ⟨events 0 ((p.flow machine).take m), events 0 ((p.flow machine).drop (m + 1)), ?_, ?_⟩
  · have hsplit : p.flow machine = (p.flow machine).take m ++
        ((p.flow machine)[m] :: (p.flow machine).drop (m + 1)) := by
      rw [← List.drop_eq_getElem_cons, List.take_append_drop]
    conv_lhs => rw [hsplit, hm]
    simp [events, accessAt, uses, List.flatMap_append]
  · intro a e
    have htake : ∀ x, x ∈ (p.flow machine).take m ↔ ∃ i < m, (p.flow machine)[i]? = some x := by
      intro x
      rw [List.mem_iff_getElem?]
      exact exists_congr fun i => by rw [List.getElem?_take, Option.ite_none_right_eq_some]
    simp only [events, List.mem_flatMap, List.mem_map, htake, hflow, Option.map_eq_some_iff]
    constructor
    · rintro ⟨x, ⟨i, him, c, hc, rfl⟩, e', he, heq⟩
      cases heq
      exact ⟨i, c, him, hc, by simp [accessAt], he⟩
    · rintro ⟨i, c, him, hc, rfl, he⟩
      exact ⟨_, ⟨i, him, c, hc, rfl⟩, e, he, by simp [accessAt]⟩

/-- The move at `k` writes `r` for certain. -/
def KillsAt (p : Program) (r : Reg) (k : Nat) : Prop :=
  ∃ c, p.moves[k]? = some c ∧ c.dst = .register r ∧ c.guard = none

/-- An access is remembered up to the next certain write. -/
theorem known_before {i j : Nat} {e : Effect} (hij : i < j) (ha : p.moves[i]? = some a)
    (he : e ∈ p.uses machine a) (hplace : e.place = .register r)
    (hpre : ∀ x e, (x, e) ∈ pre ↔
      ∃ i c, i < j ∧ p.moves[i]? = some c ∧ x = accessAt i 0 c ∧ e ∈ p.uses machine c)
    (hsorted : pre.Pairwise fun x y => x.1.move.val ≤ y.1.move.val)
    (hself : e.write = false → ¬ p.KillsAt r i) (hno : ∀ k, i < k → k < j → ¬ p.KillsAt r k) :
    Known (after pre {}) (accessAt i 0 a) e := by
  obtain ⟨first, rest, rfl⟩ := List.append_of_mem ((hpre _ _).2 ⟨i, a, hij, ha, rfl, he⟩)
  rw [List.append_cons, after_append, after_append]
  have hknown := known_run_self (s := after first {}) (b := accessAt i 0 a) (f := e)
  refine hknown.after ?_
  rintro ⟨x, f⟩ hxf (hq : f.place = e.place) hwrite hkills
  obtain ⟨k, c, hkj, hc, rfl, hf⟩ := (hpre x f).1 (by simp [hxf])
  have hik : i ≤ k := (List.pairwise_cons.1 (List.pairwise_append.1 hsorted).2.1).1 _ hxf
  rw [hplace] at hq hkills
  have hkill : p.KillsAt r k :=
    ⟨c, hc, (hq ▸ writes_of_mem_uses hf hwrite : p.Writes machine c (.register r)),
      hkills.resolve_right (by simp)⟩
  rcases Nat.eq_or_lt_of_le hik with rfl | hik
  · rw [ha] at hc
    cases hc
    cases he' : e.write with
    | true => exact ⟨rfl, rfl⟩
    | false => exact absurd hkill (hself he')
  · exact absurd hkill (hno k hik hkj)

/-- A delivered write is among those that may reach the read. -/
theorem Delivers.mem_defs (h : p.Delivers given start d m r) (ha : p.moves[d]? = some a)
    (hpre : ∀ x e, (x, e) ∈ pre ↔
      ∃ i c, i < m ∧ p.moves[i]? = some c ∧ x = accessAt i 0 c ∧ e ∈ p.uses machine c)
    (hsorted : pre.Pairwise fun x y => x.1.move.val ≤ y.1.move.val) :
    accessAt d 0 a ∈ ((after pre {}).cell (.register r)).defs := by
  obtain ⟨hx, hdst⟩ := of_some h.stores ha
  refine known_before (e := { place := .register r, write := true }) h.lt ha (mem_uses_write.2 hdst)
    rfl hpre hsorted (by simp) ?_
  rintro k hdk hkm ⟨c, hc, hdst, hguard⟩
  -- A later certain write would have taken place.
  exact h.last hdk hkm ⟨c, hc, by simp [ProgramMove.executes, hguard], hdst⟩

/-- An edge along which a value travels comes from a read and a write that may reach it. -/
theorem arc_raw_iff {d m : MoveId} (hd : p.Drawn machine g) (hloop : p.isLoop = false) :
    g.Arc d m (.register .raw r) ↔ ∃ pre x post w, events 0 (p.flow machine) =
      pre ++ (x, { place := .register r, write := false }) :: post ∧ x.move = m ∧ w.move = d ∧
        w ∈ ((after pre {}).cell (.register r)).defs ∧ d ≠ m ∧ excludes w x = false := by
  have htime : timeline p.isLoop (p.flow machine) = events 0 (p.flow machine) := by
    simp [timeline, hloop]
  rw [hd.arc, mem_edges, draws_iff, htime]
  constructor
  · rintro (⟨pre, x, e, post, heq, rfl, hfound⟩ | ⟨hop, -⟩)
    · rcases e with ⟨q, write, guardUse⟩
      cases write with
      | true =>
        rcases (mem_run_write rfl).1 hfound with ⟨_, _, -, -, -, -, hdep⟩ | ⟨_, -, -, -, -, hdep⟩ <;>
          cases q <;> simp [Place.dep, Dependence.register] at hdep
      | false =>
        obtain ⟨w, hw, hf, hfree, rfl, hdep⟩ := (mem_run_read rfl).1 hfound
        cases q with
        | register r' =>
          simp only [Place.dep, Dependence.register, Effect.firm, Dependence.mk.injEq,
            Option.some.injEq, true_and] at hdep
          obtain ⟨rfl, rfl, -⟩ := hdep
          have hne : w.move ≠ x.move := by
            intro h
            simp [follows, h] at hf
          exact ⟨pre, x, post, w, heq, rfl, rfl, hw, hne, by simpa [Effect.firm] using hfree⟩
        | returnAddress => simp [Place.dep, Dependence.register] at hdep
        | memory => simp [Place.dep, Dependence.register] at hdep
    · simp [Dependence.register, Dependence.operation] at hop
  · rintro ⟨pre, x, post, w, heq, rfl, rfl, hw, hne, hex⟩
    obtain ⟨i, c, -, rfl, -⟩ : ∃ i c, p.moves[i]? = some c ∧ x = accessAt i 0 c ∧ _ :=
      mem_events.1 (heq ▸ List.mem_append_right _ (.head _))
    exact .inl ⟨pre, _, _, post, heq, rfl, (mem_run_read rfl).2
      ⟨w, hw, follows_of_ne rfl hne, .inr (.inr hex), rfl, rfl⟩⟩

theorem excludes_accessAt : excludes (accessAt d 0 a) (accessAt m 0 b) = false ↔
      ¬ ∃ x y, a.guard = some x ∧ b.guard = some y ∧ x.excludes y := by
  cases hx : a.guard <;> cases hy : b.guard <;> simp [excludes, accessAt, hx, hy]

/-- If a move reads a value that another one delivered, the graph has an edge for it exactly if
the guards of the two do not exclude each other. If they do, the register they are guarded by is
written, after the earlier one has tested it and before the later one does. -/
theorem raw_edge_iff_of_delivers {d m : Nat} {r : Reg} (hloop : p.isLoop = false)
    (hg : p.graph machine = .ok g) (h : p.Delivers given start d m r) :
    ∃ a b, p.moves[d]? = some a ∧ p.moves[m]? = some b ∧
      (g.Arc ⟨d⟩ ⟨m⟩ (.register .raw r) ↔ ¬ ∃ x y, a.guard = some x ∧ b.guard = some y ∧ x.excludes y) ∧
      ∀ x y, a.guard = some x → b.guard = some y → x.excludes y →
        ∃ k, d ≤ k ∧ k < m ∧ p.Stores given start k x.reg := by
  obtain ⟨a, ha, hxa, -⟩ := h.stores
  obtain ⟨b, hb, hxb, hsrc⟩ := h.reads
  refine ⟨a, b, ha, hb, ?_, ?_⟩
  · rw [arc_raw_iff (graph_drawn hg) hloop, ← excludes_accessAt (d := d) (m := m)]
    constructor
    · rintro ⟨pre, x, post, w, heq, hx, hw, hdef, -, hex⟩
      obtain ⟨e, he, -⟩ := (remembers_after pre).defs hdef
      obtain ⟨i, a', ha', rfl, -⟩ := mem_events.1 (heq ▸ List.mem_append_left _ he)
      obtain ⟨j, b', hb', rfl, -⟩ : ∃ i c, p.moves[i]? = some c ∧ x = accessAt i 0 c ∧ _ :=
        mem_events.1 (heq ▸ List.mem_append_right _ (.head _))
      cases hw
      cases hx
      rw [ha] at ha'
      rw [hb] at hb'
      cases ha'
      cases hb'
      exact hex
    · intro hex
      obtain ⟨pre, post, heq, hpre⟩ := exists_events_split machine hb
      have hsorted := events_sorted p machine 0
      rw [heq] at hsorted
      have hdef := h.mem_defs ha hpre (List.pairwise_append.1 hsorted).1
      have huses : ∃ rest, p.uses machine b = { place := .register r, write := false } :: rest :=
        ⟨_, by simp [uses, touches, hsrc, Terminal.reg?]; rfl⟩
      obtain ⟨rest, huses⟩ := huses
      rw [huses] at heq
      have hne : (⟨d⟩ : MoveId) ≠ ⟨m⟩ := fun hdm => Nat.ne_of_lt h.lt (congrArg Id.val hdm)
      exact ⟨pre, _, _, _, heq, rfl, rfl, hdef, hne, hex⟩
  · intro x y hx hy hex
    exact exists_stores_of_excludes (Nat.le_of_lt h.lt) hex
      (by simpa [ProgramMove.executes, hx] using hxa) (by simpa [ProgramMove.executes, hy] using hxb)

/-! ## A value that passes a new guard -/

/-- With `r3` nonzero at first and then computed to be zero, both guarded moves take place. -/
theorem newGuard_delivers :
    newGuard.Delivers (fun _ => 0) (fun _ => 1) 0 3 ⟨⟨0⟩, 1⟩ where
  lt := by decide
  stores := ⟨_, rfl, by decide, rfl⟩
  last {k} hk hk' := by
    rintro ⟨pm, hpm, -, hdst⟩
    obtain rfl | rfl : k = 1 ∨ k = 2 := by omega
    all_goals cases hpm; cases hdst
  reads := ⟨_, rfl, by decide, rfl⟩

/-- The second guarded move reads what the first wrote, since the guard was computed anew. -/
theorem raw_edge_iff_of_delivers_newGuard : ∃ g, newGuard.graph adder = .ok g ∧
    ∃ a b, newGuard.moves[0]? = some a ∧ newGuard.moves[3]? = some b ∧
      (g.Arc ⟨0⟩ ⟨3⟩ (.register .raw ⟨⟨0⟩, 1⟩) ↔
        ¬ ∃ x y, a.guard = some x ∧ b.guard = some y ∧ x.excludes y) := by
  obtain ⟨g, hg, -⟩ := exists_ok_of_any (x := newGuard.graph adder) (p := fun _ => true)
    (by decide +kernel)
  obtain ⟨a, b, ha, hb, hiff, -⟩ := raw_edge_iff_of_delivers rfl hg newGuard_delivers
  exact ⟨g, hg, a, b, ha, hb, hiff⟩

/-- No edge tells that the value travels from the first guarded move to the second. -/
theorem newGuard_lacks_raw_edge : ∃ g, newGuard.graph adder = .ok g ∧
    newGuard.Delivers (fun _ => 0) (fun _ => 1) 0 3 ⟨⟨0⟩, 1⟩ ∧
    ¬ g.Arc ⟨0⟩ ⟨3⟩ (.register .raw ⟨⟨0⟩, 1⟩) := by
  obtain ⟨g, hg, hlinks⟩ := exists_ok_of_any (x := newGuard.graph adder)
    (p := fun g => g.links.all fun l => !(l.tail = ⟨0⟩ && l.head = ⟨3⟩)) (by decide +kernel)
  refine ⟨g, hg, newGuard_delivers, ?_⟩
  rintro ⟨e, he⟩
  have := (Array.all_eq_true_iff_forall_mem.1 hlinks) _ (Array.mem_of_getElem? he)
  simp at this

end Program

end Transport
