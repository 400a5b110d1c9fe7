import Mathlib.Data.List.Induction
import Mathlib.Logic.Relation
import Transport.Program.Flow

/-!
# The walk over the moves of a program

A walk is a sequence of accesses to places: registers, the return address and memory. `cell_run`
says what one access leaves behind, `mem_run_read` and `mem_run_write` which earlier accesses it is
found to depend on. Whatever an access leaves behind is remembered, or a certain write came after
it to which a path of dependences leads (`tracked_after`). So two accesses to one place, one of them
a write, are joined by a path unless their guards exclude each other: `leads_or_excludes`.
-/

namespace Transport.Flow

open Relation

/-- What a move can touch. -/
inductive Place
  | register (r : Reg)
  | returnAddress
  | memory
deriving DecidableEq

/-- One access of a move to a place. -/
structure Effect where
  place : Place
  write : Bool
  guardUse : Bool := false
deriving DecidableEq

/-- The access takes place whatever the guards of the moves say. -/
def Effect.firm (e : Effect) : Bool :=
  match e.place with
  | .register _ => e.guardUse
  | .returnAddress => false
  | .memory => true

def Effect.run (e : Effect) (a : Access) (s : State) : Found × State :=
  match e.place, e.write with
  | .register r, false => onReg s r (·.read a { aboutReg r with guardUse := e.guardUse })
  | .register r, true => onReg s r (·.write a (aboutReg r))
  | .returnAddress, false => onReturn s (·.readAlways a aboutReturn)
  | .returnAddress, true => onReturn s (·.write a aboutReturn)
  | .memory, false => onMemory s a .load
  | .memory, true => onMemory s a .store

/-- The accesses of a move in the order of the walk. -/
def touches (m : Move) (memory : Option MemoryAccess) : List Effect :=
  ((m.src.reg?.map fun r => { place := .register r, write := false }).toList ++
  (m.guard.map fun g => { place := .register g.reg, write := false, guardUse := true }).toList ++
  (m.dst.reg?.map fun r => { place := .register r, write := true }).toList) ++
  (if m.src = .returnAddress then [{ place := .returnAddress, write := false }] else []) ++
  (if m.dst = .returnAddress || m.call then [{ place := .returnAddress, write := true }] else []) ++
  (if m.isTrigger
    then (memory.map fun x => { place := .memory, write := x = .store }).toList else [])

theorem effects_eq (m : Move) (memory : Option MemoryAccess) (a : Access) :
    effects m memory a = (touches m memory).map fun e => e.run a := by
  unfold effects touches
  simp only [List.map_append]
  congr 1
  · congr 1
    · congr 1
      · congr 1
        · congr 1
          · cases m.src.reg? <;> rfl
          · cases m.guard <;> rfl
        · cases m.dst.reg? <;> rfl
      · split <;> rfl
    · split <;> rfl
  · split
    · cases memory with
      | none => rfl
      | some x => cases x <;> rfl
    · rfl

theorem reg?_eq_some {x : Terminal} {r : Reg} : x.reg? = some r ↔ x = .register r := by
  cases x <;> simp [Terminal.reg?]

theorem mem_touches {m : Move} {memory : Option MemoryAccess} {e : Effect} :
    e ∈ touches m memory ↔
      (∃ r, m.src = .register r ∧ e = { place := .register r, write := false }) ∨
      (∃ x, m.guard = some x ∧ e = { place := .register x.reg, write := false, guardUse := true }) ∨
      (∃ r, m.dst = .register r ∧ e = { place := .register r, write := true }) ∨
      (m.src = .returnAddress ∧ e = { place := .returnAddress, write := false }) ∨
      ((m.dst = .returnAddress ∨ m.call) ∧ e = { place := .returnAddress, write := true }) ∨
      (m.isTrigger ∧ ∃ x, memory = some x ∧ e = { place := .memory, write := x = .store }) := by
  have hite : ∀ {c : Prop} [Decidable c] {xs : List Effect},
      e ∈ (if c then xs else []) ↔ c ∧ e ∈ xs := by
    intro c _ xs
    split <;> simp_all
  have hmap : ∀ {α : Type} {x : Option α} {f : α → Effect},
      e ∈ (x.map f).toList ↔ ∃ y, x = some y ∧ e = f y := by
    intro α x f
    simp [eq_comm]
  simp only [touches, List.mem_append, hmap, hite, reg?_eq_some, List.mem_singleton, or_assoc,
    Bool.or_eq_true, decide_eq_true_eq]

/-- A move accesses a register no more after its write to it. -/
theorem pairwise_touches (m : Move) (memory : Option MemoryAccess) (r : Reg) :
    (touches m memory).Pairwise fun x y =>
      x.place = .register r → y.place = .register r → x.write = false := by
  have happend {xs ys : List Effect} (hys : ∀ y ∈ ys, y.place ≠ .register r)
      (hxs : xs.Pairwise fun x y => x.place = .register r → y.place = .register r → x.write = false) :
      (xs ++ ys).Pairwise fun x y => x.place = .register r → y.place = .register r → x.write = false :=
    List.pairwise_append.2 ⟨hxs, List.pairwise_of_forall_mem_list fun x hx _ _ h => absurd h (hys x hx),
      fun _ _ y hy _ h => absurd h (hys y hy)⟩
  unfold touches
  refine happend ?_ (happend ?_ (happend ?_ ?_))
  · cases memory <;> split <;> simp
  · split <;> simp
  · split <;> simp
  · cases m.src.reg? <;> cases m.guard <;> cases m.dst.reg? <;> simp

/-! ## One access -/

/-- What is remembered about a place. Loads count as firm reads. -/
def State.cell (s : State) : Place → Cell
  | .register r => s.regs.getD r {}
  | .returnAddress => s.returnAddress
  | .memory => { defs := s.stores, reads := s.loads.map fun a => (a, true) }

/-- The dependence between two accesses to the place. -/
def Place.dep (q : Place) (hazard : Hazard) (guardUse : Bool) (pass : Nat) : Dependence :=
  match q with
  | .register r => { Dependence.register hazard r with guardUse, loopDepth := pass }
  | .returnAddress => { reason := .returnAddress, hazard, guardUse, loopDepth := pass }
  | .memory => { reason := .memory, hazard, loopDepth := pass }

@[simp] theorem Place.loopDepth_dep {q : Place} {hazard : Hazard} {guardUse : Bool} {pass : Nat} :
    (q.dep hazard guardUse pass).loopDepth = pass := by
  cases q <;> rfl

/-- A write that leaves nothing of what was there before. -/
def Kills (a : Access) (q : Place) : Prop := a.guard = none ∨ q = .memory

instance (a : Access) (q : Place) : Decidable (Kills a q) := inferInstanceAs (Decidable (_ ∨ _))

variable {s : State} {a b w : Access} {e : Effect} {q : Place} {t h : MoveId} {d : Dependence}

theorem cell_empty (q : Place) : ({} : State).cell q = {} := by
  cases q <;> simp [State.cell]

theorem cell_onReg {r : Reg} {f : Cell → Found × Cell} : (onReg s r f).2.cell q =
    if q = .register r then (f (s.cell q)).2 else s.cell q := by
  cases q with
  | register r' =>
    simp only [onReg, State.cell, Std.ExtTreeMap.getD_insert, Place.register.injEq,
      Std.LawfulEqOrd.compare_eq_iff_eq]
    by_cases hr : r = r'
    · simp [hr]
    · simp [hr, Ne.symm hr]
  | returnAddress => simp [onReg, State.cell]
  | memory => simp [onReg, State.cell]

theorem cell_onReturn {f : Cell → Found × Cell} : (onReturn s f).2.cell q =
    if q = .returnAddress then (f (s.cell q)).2 else s.cell q := by
  cases q <;> simp [onReturn, State.cell]

theorem cell_run : (e.run a s).2.cell q = if q = e.place then
    (if e.write then
      if Kills a q then { defs := [a] } else { s.cell q with defs := (s.cell q).defs ++ [a] }
    else { s.cell q with reads := (s.cell q).reads ++ [(a, e.firm)] }) else s.cell q := by
  rcases e with ⟨p, write, guardUse⟩
  cases p with
  | register r =>
    cases write with
    | false => simp [Effect.run, cell_onReg, Cell.read, Effect.firm]
    | true =>
      by_cases hq : q = .register r
      · subst hq
        cases hg : a.guard <;> simp [Effect.run, cell_onReg, Cell.write, Kills, hg]
      · simp [Effect.run, cell_onReg, hq]
  | returnAddress =>
    cases write with
    | false => simp [Effect.run, cell_onReturn, Cell.readAlways, Effect.firm]
    | true =>
      by_cases hq : q = .returnAddress
      · subst hq
        cases hg : a.guard <;> simp [Effect.run, cell_onReturn, Cell.write, Kills, hg]
      · simp [Effect.run, cell_onReturn, hq]
  | memory =>
    cases write <;> cases q <;> simp [Effect.run, onMemory, State.cell, Effect.firm, Kills]

/-- A read depends on the writes that may reach it. -/
theorem mem_run_read (he : e.write = false) : (t, d) ∈ (e.run a s).1 ↔
    ∃ w ∈ (s.cell e.place).defs, follows w a ∧
      (e.firm ∨ e.place = .returnAddress ∨ excludes w a = false) ∧
      t = w.move ∧ d = e.place.dep .raw e.firm a.pass := by
  rcases e with ⟨p, write, guardUse⟩
  cases he
  cases p with
  | register r =>
    simp only [Effect.run, onReg, Cell.read, State.cell, List.mem_map, List.mem_filter,
      Prod.mk.injEq, Bool.and_eq_true, Bool.or_eq_true, Bool.not_eq_true', Effect.firm,
      Place.dep, aboutReg, Dependence.register]
    grind
  | returnAddress =>
    simp only [Effect.run, onReturn, Cell.readAlways, State.cell, List.mem_map, List.mem_filter,
      Prod.mk.injEq, Effect.firm, Place.dep, aboutReturn]
    grind
  | memory =>
    simp only [Effect.run, onMemory, memoryEdges, State.cell, List.mem_map, List.mem_filter,
      Prod.mk.injEq, Effect.firm, Place.dep]
    grind

/-- A write depends on the accesses since the last certain write, and on that. -/
theorem mem_run_write (he : e.write = true) : (t, d) ∈ (e.run a s).1 ↔
    (∃ r firm, (r, firm) ∈ (s.cell e.place).reads ∧ follows r a ∧ (firm ∨ excludes r a = false) ∧
      t = r.move ∧ d = e.place.dep .war firm a.pass) ∨
    (∃ w ∈ (s.cell e.place).defs, follows w a ∧ (e.place = .memory ∨ excludes w a = false) ∧
      t = w.move ∧ d = e.place.dep .waw false a.pass) := by
  rcases e with ⟨p, write, guardUse⟩
  cases he
  cases p with
  | register r =>
    simp only [Effect.run, onReg, Cell.write, State.cell, List.mem_append, List.mem_map,
      List.mem_filter, Prod.mk.injEq, Prod.exists, Bool.and_eq_true, Bool.or_eq_true,
      Bool.not_eq_true', Place.dep, aboutReg, Dependence.register]
    grind
  | returnAddress =>
    simp only [Effect.run, onReturn, Cell.write, State.cell, List.mem_append, List.mem_map,
      List.mem_filter, Prod.mk.injEq, Prod.exists, Bool.and_eq_true, Bool.or_eq_true,
      Bool.not_eq_true', Place.dep, aboutReturn]
    grind
  | memory =>
    simp only [Effect.run, onMemory, memoryEdges, State.cell, List.mem_append, List.mem_map,
      List.mem_filter, Prod.mk.injEq, Place.dep]
    grind

theorem loopDepth_of_found (hd : (t, d) ∈ (e.run a s).1) : d.loopDepth = a.pass := by
  cases hw : e.write with
  | false =>
    obtain ⟨_, -, -, -, -, rfl⟩ := (mem_run_read hw).1 hd
    simp
  | true =>
    rcases (mem_run_write hw).1 hd with ⟨_, _, -, -, -, -, rfl⟩ | ⟨_, -, -, -, -, rfl⟩ <;> simp

/-! ## A sequence of accesses -/

/-- The accesses of the moves in the order of the walk. -/
def events (pass : Nat) (moves : List (Move × MoveId × Option MemoryAccess)) :
    List (Access × Effect) :=
  moves.flatMap fun x =>
    (touches x.1 x.2.2).map fun e => ({ move := x.2.1, pass, guard := x.1.guard }, e)

def after (es : List (Access × Effect)) (s : State) : State :=
  es.foldl (fun s x => (x.2.run x.1 s).2) s

/-- One of the accesses is found to depend on move `t`. -/
def Draws : List (Access × Effect) → State → MoveId → MoveId → Dependence → Prop
  | [], _, _, _, _ => False
  | (a, e) :: es, s, t, h, d =>
    a.move = h ∧ (t, d) ∈ (e.run a s).1 ∨ Draws es (e.run a s).2 t h d

variable {es es' : List (Access × Effect)} {pass : Nat}
  {moves : List (Move × MoveId × Option MemoryAccess)}

@[simp] theorem after_append : after (es ++ es') s = after es' (after es s) :=
  List.foldl_append

theorem draws_append :
    Draws (es ++ es') s t h d ↔ Draws es s t h d ∨ Draws es' (after es s) t h d := by
  induction es generalizing s with
  | nil => simp [Draws, after]
  | cons x es ih => simp [Draws, ih, after, or_assoc]

theorem draws_iff : Draws es s t h d ↔ ∃ pre a e post, es = pre ++ (a, e) :: post ∧ a.move = h ∧
    (t, d) ∈ (e.run a (after pre s)).1 := by
  induction es generalizing s with
  | nil => simp [Draws]
  | cons x es ih =>
    obtain ⟨a, e⟩ := x
    simp only [Draws, ih]
    constructor
    · rintro (hd | ⟨pre, a', e', post, rfl, hd⟩)
      · exact ⟨[], a, e, es, rfl, hd⟩
      · exact ⟨(a, e) :: pre, a', e', post, rfl, hd⟩
    · rintro ⟨pre, a', e', post, heq, hd⟩
      cases pre with
      | nil =>
        cases heq
        exact .inl hd
      | cons y pre =>
        rw [List.cons_append, List.cons.injEq] at heq
        obtain ⟨rfl, rfl⟩ := heq
        exact .inr ⟨pre, a', e', post, rfl, hd⟩

theorem Draws.head_mem (hd : Draws es s t h d) :
    ∃ x ∈ es, x.1.move = h ∧ d.loopDepth = x.1.pass := by
  obtain ⟨pre, a, e, post, rfl, ha, hd⟩ := draws_iff.1 hd
  exact ⟨(a, e), by simp, ha, loopDepth_of_found hd⟩

theorem step_eq (m : Move) (memory : Option MemoryAccess) (a : Access) (s : State) :
    (step m memory a s).2 = after ((touches m memory).map fun e => (a, e)) s ∧
    ∀ t d, (t, d) ∈ (step m memory a s).1 ↔
      Draws ((touches m memory).map fun e => (a, e)) s t a.move d := by
  suffices hacc : ∀ (fs : List Effect) (found : Found) (s : State),
      let r := (fs.map fun e => e.run a).foldl (fun x f =>
        let y := f x.2
        (x.1 ++ y.1, y.2)) (found, s)
      r.2 = after (fs.map fun e => (a, e)) s ∧ ∀ t d, (t, d) ∈ r.1 ↔ (t, d) ∈ found ∨
        Draws (fs.map fun e => (a, e)) s t a.move d by
    have h := hacc (touches m memory) [] s
    rw [← effects_eq] at h
    simpa [step] using h
  intro fs
  induction fs with
  | nil => simp [Draws, after]
  | cons f fs ih =>
    intro found s
    have h := ih (found ++ (f.run a s).1) (f.run a s).2
    refine ⟨h.1, fun t d => (h.2 t d).trans ?_⟩
    simp [Draws, or_assoc]

theorem walk_eq (pass : Nat) (moves : List (Move × MoveId × Option MemoryAccess)) (s : State) :
    (walk pass moves s).2 = after (events pass moves) s ∧
    ∀ t h d, (t, h, d) ∈ (walk pass moves s).1 ↔ Draws (events pass moves) s t h d := by
  suffices hacc : ∀ (moves : List (Move × MoveId × Option MemoryAccess)) (found : List Edge)
      (s : State),
      let r := moves.foldl (fun x y =>
        let z := step y.1 y.2.2 { move := y.2.1, pass, guard := y.1.guard } x.2
        (x.1 ++ z.1.map fun w => (w.1, y.2.1, w.2), z.2)) (found, s)
      r.2 = after (events pass moves) s ∧ ∀ t h d, (t, h, d) ∈ r.1 ↔ (t, h, d) ∈ found ∨
        Draws (events pass moves) s t h d by
    simpa [walk] using hacc moves [] s
  intro moves
  induction moves with
  | nil => simp [events, Draws, after]
  | cons x moves ih =>
    intro found s
    let a : Access := { move := x.2.1, pass, guard := x.1.guard }
    obtain ⟨hs, hd⟩ := step_eq x.1 x.2.2 a s
    have h := ih (found ++ (step x.1 x.2.2 a s).1.map fun w => (w.1, x.2.1, w.2))
      (step x.1 x.2.2 a s).2
    have hev : events pass (x :: moves) =
      ((touches x.1 x.2.2).map fun e => (a, e)) ++ events pass moves := rfl
    rw [hev, after_append, ← hs]
    refine ⟨h.1, fun t n d => (h.2 t n d).trans ?_⟩
    rw [draws_append, ← hs, List.mem_append, or_assoc]
    refine or_congr_right (or_congr_left ?_)
    simp only [List.mem_map, Prod.mk.injEq, Prod.exists]
    constructor
    · rintro ⟨t, d, hw, rfl, rfl, rfl⟩
      exact (hd t d).1 hw
    · intro hdraw
      obtain ⟨y, hy, hn, -⟩ := hdraw.head_mem
      obtain ⟨e, -, rfl⟩ := List.mem_map.1 hy
      subst hn
      exact ⟨t, d, (hd t d).2 hdraw, rfl, rfl, rfl⟩

/-- The accesses of a block, or of two iterations of a loop body. -/
def timeline (isLoop : Bool) (moves : List (Move × MoveId × Option MemoryAccess)) :
    List (Access × Effect) :=
  events 0 moves ++ if isLoop then events 1 moves else []

theorem mem_edges {isLoop : Bool} :
    (t, h, d) ∈ edges isLoop moves ↔ Draws (timeline isLoop moves) {} t h d := by
  obtain ⟨hs, hd⟩ := walk_eq 0 moves {}
  unfold edges timeline
  cases isLoop with
  | false => simp [hd]
  | true => simp [draws_append, hs, hd, (walk_eq 1 moves _).2]

/-! ## Where remembered accesses come from -/

/-- Everything that is remembered was an access. -/
structure Remembers (es : List (Access × Effect)) (s : State) : Prop where
  defs {q : Place} {w : Access} : w ∈ (s.cell q).defs →
    ∃ e, (w, e) ∈ es ∧ e.place = q ∧ e.write
  reads {q : Place} {r : Access} {firm : Bool} : (r, firm) ∈ (s.cell q).reads →
    ∃ e, (r, e) ∈ es ∧ e.place = q ∧ e.write = false ∧ e.firm = firm

theorem Remembers.run (hs : Remembers es s) : Remembers (es ++ [(a, e)]) (e.run a s).2 where
  defs {q w} hw := by
    have hold : w ∈ (s.cell q).defs → ∃ e', (w, e') ∈ es ++ [(a, e)] ∧ e'.place = q ∧ e'.write := by
      intro hw
      obtain ⟨e', he, h⟩ := hs.defs hw
      exact ⟨e', List.mem_append_left _ he, h⟩
    rw [cell_run] at hw
    split at hw
    · rename_i hq
      split at hw
      · rename_i hwrite
        have hnew : w = a → ∃ e', (w, e') ∈ es ++ [(a, e)] ∧ e'.place = q ∧ e'.write := by
          rintro rfl
          exact ⟨e, by simp, hq.symm, hwrite⟩
        split at hw
        · exact hnew (List.mem_singleton.1 hw)
        · rcases List.mem_append.1 hw with hw | hw
          · exact hold hw
          · exact hnew (List.mem_singleton.1 hw)
      · exact hold hw
    · exact hold hw
  reads {q r firm} hr := by
    have hold : (r, firm) ∈ (s.cell q).reads →
        ∃ e', (r, e') ∈ es ++ [(a, e)] ∧ e'.place = q ∧ e'.write = false ∧ e'.firm = firm := by
      intro hr
      obtain ⟨e', he, h⟩ := hs.reads hr
      exact ⟨e', List.mem_append_left _ he, h⟩
    rw [cell_run] at hr
    split at hr
    · rename_i hq
      split at hr
      · split at hr
        · cases hr
        · exact hold hr
      · rename_i hread
        rcases List.mem_append.1 hr with hr | hr
        · exact hold hr
        · obtain ⟨rfl, rfl⟩ := Prod.mk.inj (List.mem_singleton.1 hr)
          exact ⟨e, by simp, hq.symm, by simpa using hread, rfl⟩
    · exact hold hr

theorem remembers_after (es : List (Access × Effect)) : Remembers es (after es {}) := by
  induction es using List.reverseRecOn with
  | nil => exact ⟨by simp [after, cell_empty], by simp [after, cell_empty]⟩
  | append_singleton es x ih =>
    rw [after_append]
    exact ih.run

/-- A dependence leads from an earlier access to a later one by another move. -/
theorem exists_of_draws (hd : Draws es {} t h d) : ∃ pre a e post w e',
    es = pre ++ (a, e) :: post ∧ (w, e') ∈ pre ∧ w.move = t ∧ a.move = h ∧ follows w a ∧
      e'.place = e.place ∧ (e'.write ∨ e.write) := by
  obtain ⟨pre, a, e, post, rfl, ha, hd⟩ := draws_iff.1 hd
  have hr := remembers_after pre
  cases hw : e.write with
  | false =>
    obtain ⟨w, hw, hf, -, rfl, rfl⟩ := (mem_run_read hw).1 hd
    obtain ⟨e', he', hq, hwrite⟩ := hr.defs hw
    exact ⟨pre, a, e, post, w, e', rfl, he', rfl, ha, hf, hq, .inl hwrite⟩
  | true =>
    rcases (mem_run_write hw).1 hd with ⟨r, firm, hr', hf, -, rfl, rfl⟩ | ⟨w, hw', hf, -, rfl, rfl⟩
    · obtain ⟨e', he', hq, -, -⟩ := hr.reads hr'
      exact ⟨pre, a, e, post, r, e', rfl, he', rfl, ha, hf, hq, .inr hw⟩
    · obtain ⟨e', he', hq, -⟩ := hr.defs hw'
      exact ⟨pre, a, e, post, w, e', rfl, he', rfl, ha, hf, hq, .inr hw⟩

/-! ## Paths between accesses -/

/-- A dependence inside one iteration. -/
def Leads (es : List (Access × Effect)) (t h : MoveId) : Prop :=
  ∃ d, Draws es {} t h d ∧ d.loopDepth = 0

theorem Leads.append (hl : Leads es t h) : Leads (es ++ es') t h := by
  obtain ⟨d, hd, h0⟩ := hl
  exact ⟨d, draws_append.2 (.inl hd), h0⟩

theorem path_append (hp : ReflTransGen (Leads es) t h) : ReflTransGen (Leads (es ++ es')) t h :=
  ReflTransGen.mono (fun _ _ => Leads.append) _ _ hp

theorem leads_of_found (ha : a.pass = 0) (hd : (t, d) ∈ (e.run a (after es {})).1) :
    Leads (es ++ [(a, e)]) t a.move :=
  ⟨d, draws_append.2 (.inr (.inl ⟨rfl, hd⟩)), (loopDepth_of_found hd).trans ha⟩

/-- The state knows of the access `a`. -/
def Known (s : State) (a : Access) (e : Effect) : Prop :=
  if e.write then a ∈ (s.cell e.place).defs else (a, e.firm) ∈ (s.cell e.place).reads

/-- The guards of two accesses exclude each other, and neither access is a firm one. -/
structure Waived (a : Access) (e : Effect) (b : Access) (f : Effect) : Prop where
  excludes : excludes a b = true
  place : e.place ≠ .memory
  first : ¬ (e.write = false ∧ e.firm = true)
  second : ¬ (f.write = false ∧ f.firm = true)

variable {f : Effect}

/-- The dependence of the access `f` on an earlier one to the same place. -/
def Effect.dep (e f : Effect) (pass : Nat) : Dependence :=
  if e.write then
    if f.write then f.place.dep .waw false pass else f.place.dep .raw f.firm pass
  else f.place.dep .war e.firm pass

theorem found_of_known (hk : Known s a e) (hq : e.place = f.place) (hw : e.write ∨ f.write)
    (hf : follows a b) (hnot : ¬ Waived a e b f) : (a.move, e.dep f b.pass) ∈ (f.run b s).1 := by
  have hmem : e.place = .memory → e.firm = true ∧ f.firm = true := by
    intro h
    simp [Effect.firm, h, ← hq]
  have hnot : excludes a b = false ∨ e.place = .memory ∨ e.write = false ∧ e.firm = true ∨
      f.write = false ∧ f.firm = true := by
    by_contra! hall
    exact hnot ⟨by simpa using hall.1, hall.2.1, fun h => hall.2.2.1 h.1 h.2,
      fun h => hall.2.2.2 h.1 h.2⟩
  unfold Known at hk
  cases he : e.write with
  | false =>
    have hwrite : f.write = true := by simpa [he] using hw
    rw [if_neg (by simp [he]), hq] at hk
    refine (mem_run_write hwrite).2 (.inl ⟨a, e.firm, hk, hf, ?_, rfl, ?_⟩)
    · grind
    · simp [Effect.dep, he]
  | true =>
    rw [if_pos he, hq] at hk
    cases hwrite : f.write with
    | false =>
      exact (mem_run_read hwrite).2 ⟨a, hk, hf, by grind, rfl, by simp [Effect.dep, he, hwrite]⟩
    | true =>
      exact (mem_run_write hwrite).2
        (.inr ⟨a, hk, hf, by grind, rfl, by simp [Effect.dep, he, hwrite]⟩)

theorem follows_of_ne (hb : b.pass = 0) (hne : a.move ≠ b.move) : follows a b := by
  simp [follows, hb, hne]

/-- A path leads from a certain write to every later access. -/
theorem leads_of_kills (hw : w ∈ ((after es {}).cell f.place).defs)
    (hkills : Kills w f.place ∨ Kills b f.place) (hb : b.pass = 0) :
    ReflTransGen (Leads (es ++ [(b, f)])) w.move b.move := by
  by_cases hne : w.move = b.move
  · rw [hne]
  · refine .single (leads_of_found hb (found_of_known (e := { place := f.place, write := true })
      (by simpa [Known] using hw) rfl (.inl rfl) (follows_of_ne hb hne) fun hwaived => ?_))
    have hex := hwaived.excludes
    rcases hkills with (hg | hq) | (hg | hq)
    · simp [excludes, hg] at hex
    · exact hwaived.place hq
    · simp [excludes, hg] at hex
    · exact hwaived.place hq

/-- Every access is known, or a path leads from it to a certain write. -/
def Tracked (es : List (Access × Effect)) (s : State) : Prop :=
  ∀ a e, (a, e) ∈ es → Known s a e ∨ ∃ w ∈ (s.cell e.place).defs, Kills w e.place ∧
    ReflTransGen (Leads es) a.move w.move

theorem Known.run (hk : Known s a e) (hnot : ¬ (f.place = e.place ∧ f.write ∧ Kills b e.place)) :
    Known (f.run b s).2 a e := by
  unfold Known at hk ⊢
  rw [cell_run]
  split
  · rename_i he
    rw [if_pos he] at hk
    grind
  · rename_i he
    rw [if_neg he] at hk
    grind

theorem known_run_self : Known (f.run b s).2 b f := by
  unfold Known
  rw [cell_run]
  grind

/-- An access is known until a certain write by another move. -/
theorem Known.after (hk : Known s a e)
    (hno : ∀ x ∈ es, x.2.place = e.place → x.2.write → Kills x.1 e.place → e.write ∧ x.1 = a) :
    Known (after es s) a e := by
  induction es generalizing s with
  | nil => exact hk
  | cons x es ih =>
    refine ih ?_ fun y hy => hno y (.tail _ hy)
    by_cases hkill : x.2.place = e.place ∧ x.2.write ∧ Kills x.1 e.place
    · obtain ⟨hq, hw, hkills⟩ := hkill
      obtain ⟨he, rfl⟩ := hno x (.head _) hq hw hkills
      rw [Known, if_pos he, cell_run, if_pos hq.symm, if_pos hw, if_pos hkills]
      exact .head _
    · exact hk.run hkill

theorem Tracked.run (hb : b.pass = 0) (hs : Tracked es (after es {})) :
    Tracked (es ++ [(b, f)]) (f.run b (after es {})).2 := by
  intro a e he
  rcases List.mem_append.1 he with he | he
  · by_cases hkill : f.place = e.place ∧ f.write ∧ Kills b e.place
    · -- The write hides what was known before, so a path has to lead to it.
      obtain ⟨hq, hw, hkill⟩ := hkill
      refine .inr ⟨b, ?_, hkill, ?_⟩
      · rw [cell_run, if_pos hq.symm, if_pos hw, if_pos hkill]
        exact .head _
      · rcases hs a e he with hk | ⟨w, hw', hkw, hpath⟩
        · by_cases hne : a.move = b.move
          · rw [hne]
          · refine .single (leads_of_found hb (found_of_known hk hq.symm (.inr hw)
              (follows_of_ne hb hne) fun hwaived => ?_))
            rcases hkill with hg | hq'
            · have hex := hwaived.excludes
              simp [excludes, hg] at hex
            · exact hwaived.place hq'
        · rw [← hq] at hw' hkw
          exact (path_append hpath).trans (leads_of_kills hw' (.inl hkw) hb)
    · rcases hs a e he with hk | ⟨w, hw, hkw, hpath⟩
      · exact .inl (hk.run hkill)
      · have hk : Known (after es {}) w { place := e.place, write := true } := by
          simpa [Known] using hw
        have hw' := hk.run (f := f) (b := b) hkill
        exact .inr ⟨w, by simpa [Known] using hw', hkw, path_append hpath⟩
  · obtain ⟨rfl, rfl⟩ := Prod.mk.inj (List.mem_singleton.1 he)
    exact .inl known_run_self

theorem tracked_after (hes : ∀ x ∈ es, x.1.pass = 0) : Tracked es (after es {}) := by
  induction es using List.reverseRecOn with
  | nil => exact fun a e he => by cases he
  | append_singleton es x ih =>
    rw [after_append]
    exact (ih fun y hy => hes y (List.mem_append_left _ hy)).run (hes x (by simp))

/-- Of two accesses to one place, one a write, the second comes after the first on a path, unless
their guards exclude each other. -/
theorem leads_or_waived (hes : ∀ x ∈ es, x.1.pass = 0) (he : (a, e) ∈ es) (hb : b.pass = 0)
    (hq : e.place = f.place) (hw : e.write ∨ f.write) (hne : a.move ≠ b.move) :
    TransGen (Leads (es ++ [(b, f)])) a.move b.move ∨ Waived a e b f := by
  by_cases hnot : Waived a e b f
  · exact .inr hnot
  left
  rcases tracked_after hes a e he with hk | ⟨w, hw', hkw, hpath⟩
  · exact .single (leads_of_found hb (found_of_known hk hq hw (follows_of_ne hb hne) hnot))
  · rw [hq] at hw' hkw
    have hpath := (path_append hpath).trans (leads_of_kills hw' (.inl hkw) hb)
    exact (reflTransGen_iff_eq_or_transGen.1 hpath).resolve_left (Ne.symm hne)

end Transport.Flow
