import Transport.Proofs.Resource.Agreement
import Transport.Proofs.Resource.Undo

/-!
# The books are a tally of the assignments

Every table of a usage is kept by its own code, entry by entry, as moves are placed and taken off their
cycles. What comes out is a tally: `Tallies` says of each table what it holds in terms of the moves that
are carried now, and nothing of how they came to be. A usage is thus determined by its assignments. The
tables are of three kinds, each with one lemma for a transport more and one for a transport less: those
with a single holder, those that count, and those that count for an owner.
-/

namespace Transport

abbrev Assignments := Std.ExtTreeMap MoveId Assignment

def Assignment.place (a : Assignment) : Placement := ⟨a.cycle, a.bus⟩

/-- A count as a table has it: nothing is not counted. -/
def entry (c : Nat) : Option Nat := if c = 0 then none else some c

namespace Graph

/-- Move `n` of the graph is carried as `a`. -/
def Carries (g : Graph) (as : Assignments) (n : MoveId) (m : Move) (a : Assignment) : Prop :=
  g.move? n = some m ∧ as[n]? = some a

/-- Does a carried move take up `k`? -/
def takesUp {κ : Type} [DecidableEq κ] (g : Graph) (as : Assignments) (key : Move → Assignment → Option κ)
    (k : κ) (n : MoveId) : Bool :=
  (g.move? n).any fun m => (as[n]?).any fun a => key m a = some k

/-- How many of the carried moves take up `k`. -/
def demand {κ : Type} [DecidableEq κ] (g : Graph) (as : Assignments) (key : Move → Assignment → Option κ)
    (k : κ) : Nat :=
  (Id.below g.moves.size).countP (g.takesUp as key k)

section

variable {κ : Type} [DecidableEq κ] {g : Graph} {as : Assignments} {n x : MoveId} {m m' : Move}
  {a a' : Assignment} {key : Move → Assignment → Option κ} {k : κ}

theorem getElem?_insert_move : (as.insert n a)[x]? = if n = x then some a else as[x]? := by
  simp [Std.ExtTreeMap.getElem?_insert]

theorem getElem?_erase_move : (as.erase n)[x]? = if n = x then none else as[x]? := by
  simp [Std.ExtTreeMap.getElem?_erase]

theorem carries_insert (hm : g.move? n = some m) : g.Carries (as.insert n a) x m' a' ↔
    x = n ∧ m' = m ∧ a' = a ∨ x ≠ n ∧ g.Carries as x m' a' := by
  unfold Carries
  rw [getElem?_insert_move]
  by_cases hx : n = x
  · subst hx
    simp [hm, eq_comm]
  · simp [hx, Ne.symm hx]

theorem carries_erase : g.Carries (as.erase n) x m' a' ↔ x ≠ n ∧ g.Carries as x m' a' := by
  unfold Carries
  rw [getElem?_erase_move]
  by_cases hx : n = x
  · simp [hx]
  · simp [hx, Ne.symm hx]

/-- Counts over a list that differ at one of its items only. -/
theorem countP_eq_add {α : Type} [DecidableEq α] {p q : α → Bool} {xs : List α} {x : α} (hnodup : xs.Nodup)
    (hx : x ∈ xs) (hp : p x = false) (hother : ∀ y, y ≠ x → q y = p y) :
    xs.countP q = xs.countP p + if q x then 1 else 0 := by
  induction xs with
  | nil => cases hx
  | cons y ys ih =>
    obtain ⟨hy, hnodup⟩ := List.nodup_cons.1 hnodup
    by_cases heq : y = x
    · subst heq
      have hrest : ys.countP q = ys.countP p :=
        List.countP_congr fun z hz => by rw [hother z fun h => hy (h ▸ hz)]
      simp only [List.countP_cons, hrest, hp, Bool.false_eq_true, if_false, Nat.add_zero]
    · have hmem : x ∈ ys := (List.mem_cons.1 hx).resolve_left (Ne.symm heq)
      simp only [List.countP_cons, ih hnodup hmem, hother y heq]
      omega

theorem takesUp_eq_true : g.takesUp as key k n ↔ ∃ m a, g.Carries as n m a ∧ key m a = some k := by
  unfold takesUp Carries
  cases g.move? n <;> cases as[n]? <;> simp

theorem takesUp_of_carries (h : g.Carries as n m a) : g.takesUp as key k n = decide (key m a = some k) := by
  simp [takesUp, h.1, h.2]

theorem demand_insert (hm : g.move? n = some m) (hn : as[n]? = none) :
    g.demand (as.insert n a) key k = g.demand as key k + if key m a = some k then 1 else 0 := by
  have hold : g.takesUp as key k n = false := by simp [takesUp, hn]
  have hnew : g.takesUp (as.insert n a) key k n = decide (key m a = some k) :=
    takesUp_of_carries ((carries_insert hm).2 (.inl ⟨rfl, rfl, rfl⟩))
  have hother (y : MoveId) (hy : y ≠ n) : g.takesUp (as.insert n a) key k y = g.takesUp as key k y := by
    simp [takesUp, getElem?_insert_move, Ne.symm hy]
  unfold demand
  rw [countP_eq_add Id.nodup_below (Id.mem_below.2 (lt_of_move? hm)) hold hother, hnew]
  simp

theorem demand_erase (h : g.Carries as n m a) :
    g.demand as key k = g.demand (as.erase n) key k + if key m a = some k then 1 else 0 := by
  have hold : g.takesUp (as.erase n) key k n = false := by simp [takesUp]
  have hother (y : MoveId) (hy : y ≠ n) : g.takesUp as key k y = g.takesUp (as.erase n) key k y := by
    simp [takesUp, getElem?_erase_move, Ne.symm hy]
  unfold demand
  rw [countP_eq_add Id.nodup_below (Id.mem_below.2 (lt_of_move? h.1)) hold hother, takesUp_of_carries h]
  simp

/-- A carried move less, and one less is counted for what it took up. -/
theorem entry_demand_erase {f q : κ → Option Nat} (hc : g.Carries as n m a)
    (hf : ∀ k, f k = entry (g.demand as key k))
    (hq : ∀ k, q k = if key m a = some k then (f k).bind fun c => entry (c - 1) else f k) (k : κ) :
    q k = entry (g.demand (as.erase n) key k) := by
  rw [hq, hf, demand_erase hc]
  split
  · simp [entry]
  · rw [Nat.add_zero]

theorem demand_pos_iff : 0 < g.demand as key k ↔ ∃ n m a, g.Carries as n m a ∧ key m a = some k := by
  simp only [demand, List.countP_pos_iff, takesUp_eq_true]
  constructor
  · rintro ⟨n, -, m, a, hc, hk⟩
    exact ⟨n, m, a, hc, hk⟩
  · rintro ⟨n, m, a, hc, hk⟩
    exact ⟨n, Id.mem_below.2 (lt_of_move? hc.1), m, a, hc, hk⟩

end

end Graph

open Transport.Graph

/-! ## Three kinds of tables -/

section

variable {κ ν : Type} [Ord κ] [Std.TransOrd κ] {g : Graph} {as : Assignments} {n : MoveId} {m : Move}
  {a : Assignment} {key : Move → Assignment → Option κ} {k : κ} {v : ν} {t : Std.ExtTreeMap κ Nat}

/-- Each entry has one holder among the carried moves, and `val` says what is noted about it. -/
structure HeldBy (t : Std.ExtTreeMap κ ν) (g : Graph) (as : Assignments) (key : Move → Assignment → Option κ)
    (val : MoveId → Move → Option ν) : Prop where
  entry {k : κ} {v : ν} : t[k]? = some v ↔ ∃ n m a, g.Carries as n m a ∧ key m a = some k ∧ val n m = some v
  noted {n : MoveId} {m : Move} {a : Assignment} {k : κ} : g.Carries as n m a → key m a = some k →
    ∃ v, val n m = some v
  alone {n n' : MoveId} {m m' : Move} {a a' : Assignment} {k : κ} : g.Carries as n m a →
    g.Carries as n' m' a' → key m a = some k → key m' a' = some k → n = n'

namespace HeldBy

variable {t : Std.ExtTreeMap κ ν} {val : MoveId → Move → Option ν} (h : HeldBy t g as key val)
include h

theorem congr {as' : Assignments} (hc : ∀ {x m' a' k}, key m' a' = some k →
      (g.Carries as' x m' a' ↔ g.Carries as x m' a')) : HeldBy t g as' key val := by
  refine ⟨fun {k v} => ?_, fun h1 hx => h.noted ((hc hx).1 h1) hx,
    fun h1 h2 hx hx' => h.alone ((hc hx).1 h1) ((hc hx').1 h2) hx hx'⟩
  rw [h.entry]
  constructor
  · rintro ⟨x, m', a', h1, hx, hv⟩
    exact ⟨x, m', a', (hc hx).2 h1, hx, hv⟩
  · rintro ⟨x, m', a', h1, hx, hv⟩
    exact ⟨x, m', a', (hc hx).1 h1, hx, hv⟩

theorem skip (hm : g.move? n = some m) (hn : as[n]? = none) (hk : key m a = none) :
    HeldBy t g (as.insert n a) key val := by
  refine h.congr fun {x m' a' k} hx => ?_
  rw [carries_insert hm]
  constructor
  · rintro (⟨rfl, rfl, rfl⟩ | ⟨-, hc⟩)
    · simp [hk] at hx
    · exact hc
  · refine fun hc => .inr ⟨?_, hc⟩
    rintro rfl
    exact absurd (hn.symm.trans hc.2) (by simp)

theorem not_held (hfree : t[k]? = none) (hc : g.Carries as n m a) : key m a ≠ some k := by
  intro hk
  obtain ⟨v, hv⟩ := h.noted hc hk
  have := h.entry.2 ⟨n, m, a, hc, hk, hv⟩
  simp [hfree] at this

theorem insert [Std.LawfulEqOrd κ] (hm : g.move? n = some m) (hn : as[n]? = none) (hk : key m a = some k)
    (hv : val n m = some v) (hfree : t[k]? = none) : HeldBy (t.insert k v) g (as.insert n a) key val where
  entry {k' v'} := by
    rw [Std.ExtTreeMap.getElem?_insert]
    constructor
    · intro ht
      split at ht
      · rename_i heq
        obtain rfl := Std.LawfulEqOrd.eq_of_compare heq
        cases ht
        exact ⟨n, m, a, (carries_insert hm).2 (.inl ⟨rfl, rfl, rfl⟩), hk, hv⟩
      · obtain ⟨x, m', a', hc, hx, hv'⟩ := h.entry.1 ht
        refine ⟨x, m', a', (carries_insert hm).2 (.inr ⟨?_, hc⟩), hx, hv'⟩
        rintro rfl
        exact absurd (hn.symm.trans hc.2) (by simp)
    · rintro ⟨x, m', a', hc, hx, hv'⟩
      obtain ⟨rfl, rfl, rfl⟩ | ⟨-, hc⟩ := (carries_insert hm).1 hc
      · cases hk.symm.trans hx
        simp [← hv, hv']
      · have hne : k ≠ k' := fun heq => h.not_held hfree hc (heq ▸ hx)
        simpa [hne] using h.entry.2 ⟨x, m', a', hc, hx, hv'⟩
  noted hc hx := by
    obtain ⟨rfl, rfl, rfl⟩ | ⟨-, hc⟩ := (carries_insert hm).1 hc
    · exact ⟨v, hv⟩
    · exact h.noted hc hx
  alone hc hc' hx hx' := by
    obtain ⟨rfl, rfl, rfl⟩ | ⟨-, hold⟩ := (carries_insert hm).1 hc <;>
      obtain ⟨rfl, rfl, rfl⟩ | ⟨-, hold'⟩ := (carries_insert hm).1 hc'
    · rfl
    · cases hk.symm.trans hx
      exact absurd hx' (h.not_held hfree hold')
    · cases hk.symm.trans hx'
      exact absurd hx (h.not_held hfree hold)
    · exact h.alone hold hold' hx hx'

theorem drop (hc : g.Carries as n m a) (hk : key m a = none) : HeldBy t g (as.erase n) key val := by
  refine h.congr fun {x m' a' k} hx => ?_
  rw [carries_erase, and_iff_right_iff_imp]
  rintro hc' rfl
  cases hc.1.symm.trans hc'.1
  cases hc.2.symm.trans hc'.2
  simp [hk] at hx

theorem erase [Std.LawfulEqOrd κ] (hc : g.Carries as n m a) (hk : key m a = some k) :
    HeldBy (t.erase k) g (as.erase n) key val where
  entry {k' v'} := by
    rw [Std.ExtTreeMap.getElem?_erase]
    constructor
    · intro ht
      split at ht
      · cases ht
      · rename_i hne
        obtain ⟨x, m', a', hc', hx, hv'⟩ := h.entry.1 ht
        refine ⟨x, m', a', carries_erase.2 ⟨?_, hc'⟩, hx, hv'⟩
        rintro rfl
        cases hc.1.symm.trans hc'.1
        cases hc.2.symm.trans hc'.2
        cases hk.symm.trans hx
        simp at hne
    · rintro ⟨x, m', a', hc', hx, hv'⟩
      obtain ⟨hxn, hc'⟩ := carries_erase.1 hc'
      have hne : k ≠ k' := fun heq => hxn (h.alone hc' hc hx (heq ▸ hk))
      simpa [hne] using h.entry.2 ⟨x, m', a', hc', hx, hv'⟩
  noted hc' hx := h.noted (carries_erase.1 hc').2 hx
  alone h1 h2 hx hx' := h.alone (carries_erase.1 h1).2 (carries_erase.1 h2).2 hx hx'

end HeldBy

variable [DecidableEq κ]

/-- The entries count the carried moves. -/
def Counts (t : Std.ExtTreeMap κ Nat) (g : Graph) (as : Assignments) (key : Move → Assignment → Option κ) : Prop :=
  ∀ k, t[k]? = entry (g.demand as key k)

theorem getElem?_countUp [Std.LawfulEqOrd κ] {k' : κ} :
    (countUp t k)[k']? = if k = k' then some ((t[k]?).getD 0 + 1) else t[k']? := by
  simp [countUp, Std.ExtTreeMap.getElem?_insert, Std.ExtTreeMap.getD_eq_getD_getElem?]

theorem getElem?_countDown [Std.LawfulEqOrd κ] {k' : κ} :
    (countDown t k)[k']? = if k = k' then (t[k]?).bind fun c => entry (c - 1) else t[k']? := by
  unfold countDown entry
  cases h : t[k]? with
  | none =>
    by_cases hk : k = k'
    · subst hk; simp [h]
    · simp [hk]
  | some c =>
    by_cases hc : c - 1 = 0
    · simp [hc, Std.ExtTreeMap.getElem?_erase]
    · simp [hc, Std.ExtTreeMap.getElem?_insert]

theorem getD_entry {c : Nat} : (entry c).getD 0 = c := by
  unfold entry
  split <;> simp_all

theorem pos_of_entry {c x : Nat} (h : entry c = some x) : 0 < c := by
  unfold entry at h
  split at h
  · cases h
  · omega

namespace Counts

variable {t : Std.ExtTreeMap κ Nat} (h : Counts t g as key)
include h

theorem up [Std.LawfulEqOrd κ] (hm : g.move? n = some m) (hn : as[n]? = none) :
    Counts ((key m a).elim t (countUp t)) g (as.insert n a) key := by
  intro k'
  rw [demand_insert hm hn]
  cases hk : key m a with
  | none => simpa using h k'
  | some k =>
    simp only [Option.elim_some, getElem?_countUp, Option.some.injEq, h k, getD_entry]
    split
    · subst k'
      simp [entry]
    · simpa using h k'

theorem down [Std.LawfulEqOrd κ] (hc : g.Carries as n m a) :
    Counts ((key m a).elim t (countDown t)) g (as.erase n) key := by
  refine entry_demand_erase hc h fun k' => ?_
  cases key m a with
  | none => simp
  | some k =>
    rw [Option.elim_some, getElem?_countDown]
    by_cases hk : k = k' <;> simp [hk]

end Counts

/-- The entries count the carried moves, all of which have the owner that is noted. -/
structure CountsFor (t : Std.ExtTreeMap κ (ν × Nat)) (g : Graph) (as : Assignments)
    (key : Move → Assignment → Option κ) (owner : Move → Option ν) : Prop where
  count (k : κ) : (t[k]?).map Prod.snd = entry (g.demand as key k)
  owned {k : κ} {v : ν} {c : Nat} {n : MoveId} {m : Move} {a : Assignment} : t[k]? = some (v, c) →
    g.Carries as n m a → key m a = some k → owner m = some v

namespace CountsFor

variable {t : Std.ExtTreeMap κ (ν × Nat)} {owner : Move → Option ν} (h : CountsFor t g as key owner)
include h

theorem skip (hm : g.move? n = some m) (hn : as[n]? = none) (hk : key m a = none) :
    CountsFor t g (as.insert n a) key owner where
  count k' := by
    rw [demand_insert hm hn, hk]
    simpa using h.count k'
  owned ht hc hx := by
    obtain ⟨rfl, rfl, rfl⟩ | ⟨-, hc⟩ := (carries_insert hm).1 hc
    · simp [hk] at hx
    · exact h.owned ht hc hx

theorem up [Std.LawfulEqOrd κ] (hm : g.move? n = some m) (hn : as[n]? = none) (hk : key m a = some k)
    (hv : owner m = some v) (hsame : ∀ v' c, t[k]? = some (v', c) → v' = v) :
    CountsFor (ownUp t k v) g (as.insert n a) key owner where
  count k' := by
    rw [demand_insert hm hn, hk, Usage.getElem?_ownUp, h.count k, getD_entry]
    by_cases heq : k = k'
    · subst heq
      simp [entry]
    · simpa [heq] using h.count k'
  owned {k' v' c x m' a'} ht hc hx := by
    rw [Usage.getElem?_ownUp] at ht
    obtain ⟨rfl, rfl, rfl⟩ | ⟨-, hold⟩ := (carries_insert hm).1 hc
    · cases hk.symm.trans hx
      cases hkv : t[k]? with
      | none => simp_all
      | some y =>
        have := hsame y.1 y.2 hkv
        simp_all
    · split at ht
      · subst k'
        cases hkv : t[k]? with
        | none =>
          have hcount := h.count k
          have hpos := demand_pos_iff.2 ⟨x, m', a', hold, hx⟩
          simp [hkv, entry, Nat.ne_of_gt hpos] at hcount
        | some y =>
          simp only [hkv, Option.map_some, Option.getD_some, Option.some.injEq, Prod.mk.injEq] at ht
          exact ht.1 ▸ h.owned hkv hold hx
      · exact h.owned ht hold hx

theorem down [Std.LawfulEqOrd κ] (hc : g.Carries as n m a) :
    CountsFor ((key m a).elim t (ownDown t)) g (as.erase n) key owner where
  count k' := by
    refine entry_demand_erase (q := fun k => (((key m a).elim t (ownDown t))[k]?).map Prod.snd) hc h.count
      (fun k' => ?_) k'
    cases key m a with
    | none => simp
    | some k =>
      rw [Option.elim_some, Usage.getElem?_ownDown]
      by_cases hk : k = k'
      · subst hk
        cases t[k]? with
        | none => simp
        | some y => by_cases hy : y.2 - 1 = 0 <;> simp [entry, hy]
      · simp [hk]
  owned {k' v' c x m' a'} ht hc' hx := by
    obtain ⟨-, hc'⟩ := carries_erase.1 hc'
    cases hk : key m a with
    | none =>
      rw [hk] at ht
      exact h.owned ht hc' hx
    | some k =>
      simp only [hk, Option.elim_some, Usage.getElem?_ownDown] at ht
      split at ht
      · subst k'
        obtain ⟨y, hy, hv⟩ := Option.bind_eq_some_iff.1 ht
        split at hv
        · cases hv
        · cases hv
          exact h.owned hy hc' hx
      · exact h.owned ht hc' hx

end CountsFor

end

namespace Usage

variable {machine : Machine} {u u' : Usage} {g g' : Graph} {c : Cycle} {n : MoveId} {m : Move}
  {a : Assignment} {bindings : Std.ExtTreeMap OpId (UnitId × Nat)} {κ : Type}

/-! ## What each table holds -/

def busKey (_ : Move) (a : Assignment) : Option (At BusId) := some ⟨a.cycle, a.bus⟩

/-- The tables of buses, ports and immediates are the tally of the assignments. -/
structure PortTallies (u : Usage) (g : Graph) : Prop where
  known {n : MoveId} {a : Assignment} : u.assignments[n]? = some a → ∃ m, g.move? n = some m
  buses : HeldBy u.buses g u.assignments busKey fun n _ => some n
  fileReads : Counts u.fileReads g u.assignments readKey
  fileWrites : Counts u.fileWrites g u.assignments writeKey
  inputs : HeldBy u.inputs g u.assignments inputKey fun n _ => some n
  triggers : HeldBy u.triggers g u.assignments triggerKey fun _ m => m.dstOp
  results : CountsFor u.results g u.assignments resultKey Move.srcOp
  longImmediates : Counts u.longImmediates g u.assignments longKey

/-- All tables are the tally of the assignments. An operation is bound once for each carried move that
reads a result of it and once for each that writes an operand of it, to the unit they all use. -/
structure Tallies (u : Usage) (g : Graph) : Prop extends u.PortTallies g where
  bindings (o : OpId) : (u.bindings[o]?).map Prod.snd =
    entry (g.demand u.assignments (fun m _ => m.srcOp) o + g.demand u.assignments (fun m _ => m.dstOp) o)
  units {o : OpId} {v : UnitId} {k : Nat} {n : MoveId} {m : Move} {a : Assignment} :
    u.bindings[o]? = some (v, k) → g.Carries u.assignments n m a →
      (m.srcOp = some o → a.srcUnit = some v) ∧ (m.dstOp = some o → a.dstUnit = some v)

/-- No count exceeds what the machine has. -/
structure Within (u : Usage) (machine : Machine) : Prop where
  buses {k : At BusId} {n : MoveId} : u.buses[k]? = some n → ∃ bus, machine.buses[k.what.val]? = some bus
  fileReads {k : At FileId} {x : Nat} : u.fileReads[k]? = some x →
    ∃ file, machine.files[k.what.val]? = some file ∧ x ≤ file.readPorts
  fileWrites {k : At FileId} {x : Nat} : u.fileWrites[k]? = some x →
    ∃ file, machine.files[k.what.val]? = some file ∧ x ≤ file.writePorts
  longImmediates {k : Cycle} {x : Nat} : u.longImmediates[k]? = some x → x ≤ machine.longImmediates

theorem PortTallies.rebind (h : u.PortTallies g) : PortTallies { u with bindings } g :=
  ⟨h.known, h.buses, h.fileReads, h.fileWrites, h.inputs, h.triggers, h.results, h.longImmediates⟩

theorem Within.rebind (h : u.Within machine) : Within { u with bindings } machine :=
  ⟨h.buses, h.fileReads, h.fileWrites, h.longImmediates⟩

/-- The assignments determine the usage. -/
theorem Tallies.eq (h : u.Tallies g) (h' : u'.Tallies g) (heq : u'.assignments = u.assignments) : u' = u := by
  have hheld {κ ν : Type} [Ord κ] [Std.TransOrd κ] [Std.LawfulEqOrd κ] {t t' : Std.ExtTreeMap κ ν}
      {key : Move → Assignment → Option κ} {val : MoveId → Move → Option ν}
      (ht : HeldBy t g u.assignments key val) (ht' : HeldBy t' g u'.assignments key val) : t' = t := by
    refine Std.ExtTreeMap.ext_getElem? fun k => Option.ext fun v => ?_
    rw [ht.entry, ht'.entry, heq]
  have hcounts {κ : Type} [Ord κ] [Std.TransOrd κ] [Std.LawfulEqOrd κ] [DecidableEq κ]
      {t t' : Std.ExtTreeMap κ Nat} {key : Move → Assignment → Option κ} (ht : Counts t g u.assignments key)
      (ht' : Counts t' g u'.assignments key) : t' = t := by
    refine Std.ExtTreeMap.ext_getElem? fun k => ?_
    rw [ht k, ht' k, heq]
  have howned {κ ν : Type} [Ord κ] [Std.TransOrd κ] [Std.LawfulEqOrd κ] {t t' : Std.ExtTreeMap κ (ν × Nat)}
      (hcount : ∀ k : κ, (t'[k]?).map Prod.snd = (t[k]?).map Prod.snd)
      (hsame : ∀ (k : κ) (v v' : ν) (x : Nat), t[k]? = some (v, x) → t'[k]? = some (v', x) → v' = v) : t' = t := by
    refine Std.ExtTreeMap.ext_getElem? fun k => ?_
    have hk := hcount k
    cases ht : t[k]? with
    | none => simpa [ht] using hk
    | some y =>
      rw [ht, Option.map_some] at hk
      obtain ⟨y', hy', hsnd⟩ := Option.map_eq_some_iff.1 hk
      have hfst := hsame k y.1 y'.1 y.2 ht (by rw [hy', ← hsnd])
      rw [hy', Prod.ext hfst hsnd]
  apply Usage.ext
  case buses => exact hheld h.buses h'.buses
  case fileReads => exact hcounts h.fileReads h'.fileReads
  case fileWrites => exact hcounts h.fileWrites h'.fileWrites
  case inputs => exact hheld h.inputs h'.inputs
  case triggers => exact hheld h.triggers h'.triggers
  case results =>
    refine howned (fun k => (h'.results.count k).trans (heq ▸ (h.results.count k).symm)) ?_
    intro k o o' x ho ho'
    have hpos : 0 < g.demand u.assignments resultKey k :=
      pos_of_entry ((h.results.count k).symm.trans (by rw [ho]; rfl))
    obtain ⟨n, m, a, hc, hk⟩ := demand_pos_iff.1 hpos
    have hsrc := h.results.owned ho hc hk
    have hsrc' := h'.results.owned ho' (heq ▸ hc) hk
    exact Option.some.inj (hsrc'.symm.trans hsrc)
  case longImmediates => exact hcounts h.longImmediates h'.longImmediates
  case bindings =>
    refine howned (fun o => (h'.bindings o).trans (heq ▸ (h.bindings o).symm)) ?_
    intro o v v' x hv hv'
    have hpos := pos_of_entry ((h.bindings o).symm.trans (by rw [hv]; rfl))
    rcases Nat.add_pos_iff_pos_or_pos.1 hpos with hpos | hpos
    · obtain ⟨n, m, a, hc, ho⟩ := demand_pos_iff.1 hpos
      have hsrc := (h.units hv hc).1 ho
      have hsrc' := (h'.units hv' (heq ▸ hc)).1 ho
      exact Option.some.inj (hsrc'.symm.trans hsrc)
    · obtain ⟨n, m, a, hc, ho⟩ := demand_pos_iff.1 hpos
      have hdst := (h.units hv hc).2 ho
      have hdst' := (h'.units hv' (heq ▸ hc)).2 ho
      exact Option.some.inj (hdst'.symm.trans hdst)
  case assignments => exact heq

/-! ## A transport more -/

/-- What a fit has found free besides the bus and the inputs. -/
structure Roomy (machine : Machine) (u : Usage) (m : Move) (a : Assignment) : Prop where
  bus : ∃ bus, machine.buses[a.bus.val]? = some bus
  read {k : At FileId} : readKey m a = some k →
    ∃ file, machine.files[k.what.val]? = some file ∧ (u.fileReads[k]?).getD 0 < file.readPorts
  write {k : At FileId} : writeKey m a = some k →
    ∃ file, machine.files[k.what.val]? = some file ∧ (u.fileWrites[k]?).getD 0 < file.writePorts
  result {k : At UnitPort} {o o' : OpId} {x : Nat} : resultKey m a = some k → m.srcOp = some o →
    u.results[k]? = some (o', x) → o' = o
  long : a.long → (u.longImmediates[a.cycle]?).getD 0 < machine.longImmediates

theorem file_eq_ok {f : FileId} {file : RegisterFile} (h : machine.file f = .ok file) :
    machine.files[f.val]? = some file := (Id.fetch_eq_ok_iff.1 h).2

theorem long_of_busFor {src : Terminal} {srcPort : Option Port} {dst : Port} {b : BusId}
    (h : u.busFor machine c src srcPort dst = some (b, true)) :
    (u.longImmediates[c]?).getD 0 < machine.longImmediates := by
  unfold busFor at h
  split at h
  · split at h
    · simp at h
    · split at h
      · rename_i hlt
        simpa [Std.ExtTreeMap.getD_eq_getD_getElem?] using hlt
      · cases h
  · simp at h
  · cases h

theorem roomy_of_fit (hm : g.move n = .ok m) (h : u.fit machine g c n = .ok (some a)) : u.Roomy machine m a := by
  obtain ⟨-, m', hm', -, -, hon⟩ := fit_eq_some h
  cases hm.symm.trans hm'
  obtain ⟨rfl, -, -, dst, src, hdst, hdfree, hsrc, hsfree, hbus⟩ := fitOn_eq_some hon
  refine ⟨?_, fun {k} hk => ?_, fun {k} hk => ?_, fun {k o o' x} hk ho hx => ?_, fun hlong => ?_⟩
  · obtain ⟨-, bus, hbus, -⟩ := busFor_eq_some hbus
    exact ⟨bus, hbus⟩
  · obtain ⟨r, hr, rfl⟩ := Option.map_eq_some_iff.1 hk
    obtain hr : m.src = .register r := Terminal.reg?_eq_some.1 hr
    rw [hr, sourcePort, pure_eq_ok] at hsrc
    subst hsrc
    simp only [sourceFree, bind_eq_ok, pure_eq_ok, decide_eq_true_eq] at hsfree
    obtain ⟨file, hfile, hlt⟩ := hsfree
    exact ⟨file, file_eq_ok hfile, by simpa [Std.ExtTreeMap.getD_eq_getD_getElem?] using hlt⟩
  · obtain ⟨r, hr, rfl⟩ := Option.map_eq_some_iff.1 hk
    obtain hr : m.dst = .register r := Terminal.reg?_eq_some.1 hr
    rw [hr, destPort, pure_eq_ok] at hdst
    subst hdst
    simp only [destFree, bind_eq_ok, pure_eq_ok, decide_eq_true_eq] at hdfree
    obtain ⟨file, hfile, hlt⟩ := hdfree
    exact ⟨file, file_eq_ok hfile, by simpa [Std.ExtTreeMap.getD_eq_getD_getElem?] using hlt⟩
  · unfold resultKey at hk
    split at hk
    · rename_i hout hunit
      cases hk
      rw [hout, hunit, sourcePort, pure_eq_ok, Option.map_some] at hsrc
      subst hsrc
      simp only [sourceFree, ho] at hsfree
      split at hsfree
      · simp at hsfree
      · rename_i hnone
        simpa [hx] using hnone
    · cases hk
  · rw [hlong] at hbus
    exact long_of_busFor hbus

theorem PortTallies.take (hu : u.PortTallies g) (hm : g.move? n = some m) (hn : u.assignments[n]? = none)
    (hclear : u.Clear m a) (hroomy : u.Roomy machine m a) : (u.occupy n m a).PortTallies g := by
  rw [occupy_eq]
  constructor
  case known =>
    intro x b hx
    rw [getElem?_insert_move] at hx
    split at hx
    · rename_i hxn
      exact ⟨m, hxn ▸ hm⟩
    · exact hu.known hx
  case buses => exact hu.buses.insert hm hn rfl rfl hclear.bus
  case fileReads => exact hu.fileReads.up hm hn
  case fileWrites => exact hu.fileWrites.up hm hn
  case inputs =>
    cases hk : inputKey m a with
    | none => exact hu.inputs.skip hm hn hk
    | some k =>
      obtain ⟨o, ho, hfree⟩ := hclear.inputKey hk
      rw [Option.elim_some, ho]
      exact hu.inputs.insert hm hn hk rfl hfree
  case triggers =>
    cases hk : triggerKey m a with
    | none => exact hu.triggers.skip hm hn hk
    | some k =>
      obtain ⟨o, ho, hfree⟩ := hclear.triggerKey hk
      rw [Option.elim_some, ho]
      exact hu.triggers.insert hm hn hk ho hfree
  case results =>
    cases hk : resultKey m a with
    | none => exact hu.results.skip hm hn hk
    | some k =>
      obtain ⟨o, ho⟩ := hclear.resultKey hk
      rw [Option.elim_some, ho]
      exact hu.results.up hm hn hk ho fun o' x hx => hroomy.result hk ho hx
  case longImmediates => exact hu.longImmediates.up hm hn

theorem PortTallies.leave (hu : u.PortTallies g) (hc : g.Carries u.assignments n m a) :
    (u.vacate n m a).PortTallies g := by
  rw [vacate_eq]
  constructor
  case known =>
    intro x b hx
    rw [getElem?_erase_move] at hx
    split at hx
    · cases hx
    · exact hu.known hx
  case buses => exact hu.buses.erase hc rfl
  case fileReads => exact hu.fileReads.down hc
  case fileWrites => exact hu.fileWrites.down hc
  case inputs =>
    cases hk : inputKey m a with
    | none => exact hu.inputs.drop hc hk
    | some k => exact hu.inputs.erase hc hk
  case triggers =>
    cases hk : triggerKey m a with
    | none => exact hu.triggers.drop hc hk
    | some k => exact hu.triggers.erase hc hk
  case results => exact hu.results.down hc
  case longImmediates => exact hu.longImmediates.down hc

section

variable [Ord κ] [Std.TransOrd κ] [Std.LawfulEqOrd κ] [DecidableEq κ] {t : Std.ExtTreeMap κ Nat} {key : Option κ}
  {P : κ → Nat → Prop} {k : κ} {x : Nat} (hold : ∀ k x, t[k]? = some x → P k x)
include hold

/-- A bound on the counts of a table, key by key. -/
theorem le_of_countUp (hnew : ∀ k, key = some k → P k ((t[k]?).getD 0 + 1))
    (h : (key.elim t (countUp t))[k]? = some x) : P k x := by
  cases key with
  | none => exact hold k x h
  | some k' =>
    rw [Option.elim_some, getElem?_countUp] at h
    split at h
    · subst k'
      cases h
      exact hnew k rfl
    · exact hold k x h

theorem le_of_countDown (hmono : ∀ k x y, y ≤ x → P k x → P k y) (h : (key.elim t (countDown t))[k]? = some x) :
    P k x := by
  cases key with
  | none => exact hold k x h
  | some k' =>
    rw [Option.elim_some, getElem?_countDown] at h
    split at h
    · subst k'
      obtain ⟨y, hy, hx⟩ := Option.bind_eq_some_iff.1 h
      unfold entry at hx
      split at hx
      · cases hx
      · cases hx
        exact hmono k y (y - 1) (Nat.sub_le y 1) (hold k y hy)
    · exact hold k x h

end

theorem Within.take (h : u.Within machine) (hroomy : u.Roomy machine m a) :
    (u.occupy n m a).Within machine := by
  rw [occupy_eq]
  constructor
  case buses =>
    intro k x hx
    rw [Std.ExtTreeMap.getElem?_insert] at hx
    split at hx
    · rename_i heq
      obtain rfl := Std.LawfulEqOrd.eq_of_compare heq
      exact hroomy.bus
    · exact h.buses hx
  case fileReads =>
    intro k x hx
    exact le_of_countUp (fun k x => h.fileReads) (fun k hk => hroomy.read hk) hx
  case fileWrites =>
    intro k x hx
    exact le_of_countUp (fun k x => h.fileWrites) (fun k hk => hroomy.write hk) hx
  case longImmediates =>
    intro k x hx
    refine le_of_countUp (P := fun _ x => x ≤ machine.longImmediates) (fun k x => h.longImmediates) (fun k hk => ?_) hx
    obtain ⟨hlong, rfl⟩ : a.long ∧ a.cycle = k := by simpa [longKey] using hk
    exact hroomy.long hlong

theorem Within.leave (h : u.Within machine) : (u.vacate n m a).Within machine := by
  rw [vacate_eq]
  constructor
  case buses =>
    intro k x hx
    rw [Std.ExtTreeMap.getElem?_erase] at hx
    split at hx
    · cases hx
    · exact h.buses hx
  case fileReads =>
    intro k x hx
    exact le_of_countDown (fun k x => h.fileReads)
      (fun k x y hle hfile => hfile.imp fun _ hf => ⟨hf.1, Nat.le_trans hle hf.2⟩) hx
  case fileWrites =>
    intro k x hx
    exact le_of_countDown (fun k x => h.fileWrites)
      (fun k x y hle hfile => hfile.imp fun _ hf => ⟨hf.1, Nat.le_trans hle hf.2⟩) hx
  case longImmediates =>
    intro k x hx
    exact le_of_countDown (P := fun _ x => x ≤ machine.longImmediates) (fun k x => h.longImmediates)
      (fun k x y hle hx => Nat.le_trans hle hx) hx

/-! ## The graph follows the usage -/

/-- The graph with its moves in the places, and its operations on the units, that the usage has for them. -/
def install (u : Usage) (g : Graph) : Graph :=
  { g with
    moves := g.moves.mapIdx fun i m => { m with placement := (u.assignments[(⟨i⟩ : MoveId)]?).map Assignment.place }
    ops := g.ops.mapIdx fun i op => { op with unit? := u.boundUnit ⟨i⟩ } }

theorem move?_install : (u.install g).move? n =
    (g.move? n).map fun m => { m with placement := (u.assignments[n]?).map Assignment.place } := by
  simp [Graph.move?, install]

theorem op?_install {o : OpId} :
    (u.install g).op? o = (g.op? o).map fun op => { op with unit? := u.boundUnit o } := by
  simp [Graph.op?, install]

theorem eq_of_tables (hmoves : ∀ n, g'.move? n = g.move? n) (hops : ∀ o, g'.op? o = g.op? o)
    (hrest : { g' with moves := #[], ops := #[] } = { g with moves := #[], ops := #[] }) : g' = g := by
  have h1 : g'.moves = g.moves := Array.ext_getElem? fun i => hmoves ⟨i⟩
  have h2 : g'.ops = g.ops := Array.ext_getElem? fun i => hops ⟨i⟩
  cases g
  cases g'
  simp_all

theorem install_empty (hf : g.Fresh) : ({} : Usage).install g = g := by
  refine eq_of_tables (fun n => ?_) (fun o => ?_) rfl
  · rw [move?_install]
    cases hm : g.move? n with
    | none => rfl
    | some m =>
      have hp := hf.pending hm
      cases m
      simp_all
  · rw [op?_install]
    cases ho : g.op? o with
    | none => rfl
    | some op =>
      have hunit := hf.unbound ho
      cases op
      simp_all [boundUnit]

/-- The move in its new place is all that changes, besides the units of its operations. -/
theorem Shift.install {p : Option Placement} (h : u.Shift (u.install g) n m p u' g')
    (hself : (u'.assignments[n]?).map Assignment.place = p)
    (hother : ∀ x, x ≠ n → u'.assignments[x]? = u.assignments[x]?) : g' = u'.install g := by
  obtain ⟨ops, hg'⟩ := h.graph
  refine eq_of_tables (fun x => ?_) (fun o => ?_) (by rw [hg']; rfl)
  · rw [move?_install]
    by_cases hx : x = n
    · subst hx
      rw [h.move?_self, hself]
      obtain ⟨m0, hm0, rfl⟩ := Option.map_eq_some_iff.1 (move?_install.symm.trans h.move)
      simp [hm0]
    · rw [h.move?_other hx, move?_install, hother x hx]
  · rw [h.op?, op?_install, op?_install, Option.map_map]
    rfl

theorem countP_toList {α : Type} {p : α → Bool} {xs : List α} :
    xs.countP p = (List.range xs.length).countP fun i => (xs[i]?).any p := by
  induction xs with
  | nil => rfl
  | cons x xs ih =>
    rw [List.length_cons, List.range_succ_eq_map, List.countP_cons, List.countP_cons, List.countP_map, ih]
    congr 1

theorem bonds_install {o : OpId} : (u.install g).bonds o =
    g.demand u.assignments (fun m _ => m.srcOp) o + g.demand u.assignments (fun m _ => m.dstOp) o := by
  have hcount (op : Move → Option OpId) (hop : ∀ m p, op { m with placement := p } = op m) :
      (u.install g).moves.toList.countP (fun m => m.isPlaced && op m = some o) =
        g.demand u.assignments (fun m _ => op m) o := by
    rw [countP_toList, Array.length_toList, demand, Id.below, List.countP_map]
    refine congrArg₂ List.countP (funext fun i => ?_) (by simp [install])
    have hm := move?_install (u := u) (g := g) (n := ⟨i⟩)
    rw [Array.getElem?_toList]
    change ((u.install g).move? ⟨i⟩).any _ = g.takesUp u.assignments _ o ⟨i⟩
    rw [hm, takesUp]
    cases g.move? ⟨i⟩ <;> cases u.assignments[(⟨i⟩ : MoveId)]? <;> simp [Move.isPlaced, hop]
  unfold Graph.bonds
  rw [hcount Move.srcOp fun _ _ => rfl, hcount Move.dstOp fun _ _ => rfl]

end Usage

namespace Request

variable {machine : Machine} {g : Graph} {s s' : Usage × Graph}

/-- What holds of graph and usage after any requests. -/
structure Books (machine : Machine) (g : Graph) (s : Usage × Graph) : Prop where
  sound : Sound machine s.1 s.2
  orderly : s.1.Orderly s.2
  installed : s.2 = s.1.install g
  ports : s.1.PortTallies g
  within : s.1.Within machine
  live {n : MoveId} {m : Move} : g.move? n = some m → m.live
  valid {n : MoveId} {a : Assignment} : s.1.assignments[n]? = some a → n ≠ .invalid

theorem Books.step {r : Request} (hs : Books machine g s) (h : run machine s r = .ok s') : Books machine g s' := by
  obtain ⟨u, g1⟩ := s
  obtain ⟨u', g'⟩ := s'
  obtain rfl : g1 = u.install g := hs.installed
  cases r with
  | assign c n =>
    obtain ⟨m, a, ha⟩ := Usage.assigns_of_assign hs.sound.accounts h
    obtain ⟨m', a', ht⟩ := Usage.takes_of_assign hs.orderly h
    cases ha.fit.symm.trans ht.fit
    cases ha.move.symm.trans (move?_of_move ht.move)
    obtain ⟨m0, hm0, rfl⟩ := Option.map_eq_some_iff.1 (Usage.move?_install.symm.trans ha.move)
    have hpending : u.assignments[n]? = none := by
      have hplace := hs.orderly.entered ha.move
      rw [ha.pending] at hplace
      simpa using hplace
    obtain ⟨rfl, hclear⟩ := Usage.clear_of_fit ht.move ht.fit
    have hroomy := Usage.roomy_of_fit ht.move ht.fit
    refine ⟨ha.sound hs.sound, ht.orderly hs.orderly, ha.toShift.install ?_ fun x hx => ?_, ?_, ?_, hs.live, fun {x b} hx => ?_⟩
    · simp [ha.assignments, Assignment.place]
    · simp [ha.assignments, Graph.getElem?_insert_move, Ne.symm hx]
    · have hports := hs.ports.take hm0 hpending
        ⟨hclear.bus, hclear.srcUnit, hclear.dstUnit, hclear.input, hclear.trigger⟩
        ⟨hroomy.bus, hroomy.read, hroomy.write, hroomy.result, hroomy.long⟩
      exact ht.usage ▸ hports.rebind
    · exact ht.usage ▸ (hs.within.take hroomy).rebind
    · rw [ha.assignments, Graph.getElem?_insert_move] at hx
      split at hx
      · rename_i hxn
        exact hxn ▸ ha.valid
      · exact hs.valid hx
  | unassign n =>
    obtain ⟨m, a, ha⟩ := Usage.unassigns_of_unassign hs.sound.accounts h
    obtain ⟨m', a', ht⟩ := Usage.leaves_of_unassign hs.orderly h
    cases ha.assigned.symm.trans ht.assigned
    cases ha.move.symm.trans (move?_of_move ht.move)
    obtain ⟨m0, hm0, rfl⟩ := Option.map_eq_some_iff.1 (Usage.move?_install.symm.trans ha.move)
    refine ⟨ha.sound hs.sound, ht.orderly hs.orderly, ha.toShift.install ?_ fun x hx => ?_, ?_, ?_, hs.live, fun {x b} hx => ?_⟩
    · simp [ha.assignments]
    · simp [ha.assignments, Graph.getElem?_erase_move, Ne.symm hx]
    · have hports := hs.ports.leave ⟨hm0, ha.assigned⟩
      exact ht.usage ▸ hports.rebind
    · exact ht.usage ▸ hs.within.leave.rebind
    · rw [ha.assignments, Graph.getElem?_erase_move] at hx
      split at hx
      · cases hx
      · exact hs.valid hx

theorem Books.start {p : Program} (hbuild : p.graph machine = .ok g) : Books machine g ({}, g) := by
  obtain ⟨hformed, hfresh⟩ := Program.graph_formed hbuild
  have hnone {n : MoveId} {m : Move} {a : Assignment} : ¬ g.Carries ∅ n m a := fun h => by simpa using h.2
  have hzero {κ : Type} [DecidableEq κ] {key : Move → Assignment → Option κ} {k : κ} : g.demand ∅ key k = 0 := by
    refine Nat.eq_zero_of_not_pos fun hpos => ?_
    obtain ⟨n, m, a, hc, -⟩ := Graph.demand_pos_iff.1 hpos
    exact hnone hc
  have hheld {κ ν : Type} [Ord κ] [Std.TransOrd κ] {key : Move → Assignment → Option κ}
      {val : MoveId → Move → Option ν} : HeldBy (∅ : Std.ExtTreeMap κ ν) g ∅ key val := by
    refine ⟨fun {k v} => ⟨fun h => by simp at h, ?_⟩, fun hc => absurd hc hnone, fun hc => absurd hc hnone⟩
    rintro ⟨n, m, a, hc, -⟩
    exact absurd hc hnone
  have hcounts {κ : Type} [Ord κ] [Std.TransOrd κ] [DecidableEq κ] {key : Move → Assignment → Option κ} :
      Counts (∅ : Std.ExtTreeMap κ Nat) g ∅ key := by
    intro k
    simp [hzero, entry]
  refine ⟨Sound.of_fresh hformed hfresh, ?_, (Usage.install_empty hfresh).symm, ?_, ?_, hfresh.live, by simp⟩
  · refine ⟨⟨?_, ?_, ?_, ?_, ?_⟩, fun ho => ?_, fun hm => ?_⟩
    case refine_6 => simp [hfresh.unbound ho, Usage.boundUnit]
    case refine_7 => simp [hfresh.pending hm]
    all_goals simp [Counted, Owned]
  · exact ⟨by simp, hheld, hcounts, hcounts, hheld, hheld, ⟨fun k => by simp [hzero, entry], by simp⟩, hcounts⟩
  · constructor <;> simp

section

variable (hs : Books machine g s)
include hs

theorem Books.runAll {rs : List Request} (hrun : rs.foldlM (run machine) s = .ok s') : Books machine g s' :=
  foldlM_keeps (P := Books machine g) (fun _ _ _ _ hs h => hs.step h) hs hrun

/-- The bindings too are a tally, by what is known of the places. -/
theorem Books.tallies : s.1.Tallies g := by
  obtain ⟨u, g1⟩ := s
  obtain rfl : g1 = u.install g := hs.installed
  have hacc := hs.sound.accounts
  refine ⟨hs.ports, fun o => ?_, fun {o v k n m a} hb hc => ?_⟩
  · rw [← Usage.bonds_install, ← hacc.bonds o, Usage.bonds]
    cases hb : u.bindings[o]? with
    | none => simp [entry]
    | some x => simp [entry, Nat.ne_of_gt (hacc.bonds_pos (v := x.1) hb)]
  · have hbound : u.boundUnit o = some v := by simp [Usage.boundUnit, hb]
    have hm : (u.install g).move? n = some { m with placement := some a.place } := by
      rw [Usage.move?_install, hc.1, hc.2]
      rfl
    obtain ⟨a', ha', -, -, hsrc, hdst⟩ := hacc.assigned hm rfl
    cases hc.2.symm.trans ha'
    refine ⟨fun ho => ?_, fun ho => ?_⟩
    · simp [hsrc, ho, hbound]
    · simp [hdst, ho, hbound]

/-- An operation has a unit exactly as long as one of its moves is carried, and all of them use that one. -/
theorem Books.unit?_eq_some_iff {o : OpId} {op : Operation} (ho : s.2.op? o = some op)
    {v : UnitId} : op.unit? = some v ↔ (∃ n ∈ op.moves, ∃ a, s.1.assignments[n]? = some a) ∧
      ∀ n a, s.1.assignments[n]? = some a →
        (n ∈ op.inputs → a.dstUnit = some v) ∧ (n ∈ op.outputs → a.srcUnit = some v) := by
  have htallies := hs.tallies
  obtain ⟨u, g1⟩ := s
  obtain rfl : g1 = u.install g := hs.installed
  have hformed := hs.sound.formed
  have hinput {n : MoveId} {m : Move} (hm : g.move? n = some m) : n ∈ op.inputs ↔ m.dstOp = some o := by
    simp [hformed.mem_inputs ho, Usage.move?_install, hm]
  have houtput {n : MoveId} {m : Move} (hm : g.move? n = some m) : n ∈ op.outputs ↔ m.srcOp = some o := by
    simp [hformed.mem_outputs ho, Usage.move?_install, hm, hs.live hm]
  rw [hs.sound.accounts.unit ho]
  constructor
  · intro hv
    obtain ⟨⟨v, k⟩, hb, rfl⟩ := Option.map_eq_some_iff.1 hv
    refine ⟨?_, fun n a ha => ?_⟩
    · have hpos := pos_of_entry ((htallies.bindings o).symm.trans (by rw [hb]; rfl))
      rcases Nat.add_pos_iff_pos_or_pos.1 hpos with hpos | hpos
      · obtain ⟨n, m, a, hc, hsrc⟩ := Graph.demand_pos_iff.1 hpos
        exact ⟨n, List.mem_append_right _ ((houtput hc.1).2 hsrc), a, hc.2⟩
      · obtain ⟨n, m, a, hc, hdst⟩ := Graph.demand_pos_iff.1 hpos
        exact ⟨n, List.mem_append_left _ ((hinput hc.1).2 hdst), a, hc.2⟩
    · obtain ⟨m, hm⟩ := htallies.known ha
      obtain ⟨hsrc, hdst⟩ := htallies.units hb ⟨hm, ha⟩
      exact ⟨fun hn => hdst ((hinput hm).1 hn), fun hn => hsrc ((houtput hm).1 hn)⟩
  · rintro ⟨⟨n, hn, a, ha⟩, hunits⟩
    obtain ⟨m, hm⟩ := htallies.known ha
    have hplaced : (u.install g).move? n = some { m with placement := some a.place } := by
      rw [Usage.move?_install, hm, ha]
      rfl
    obtain ⟨a', ha', -, -, hsrc, hdst⟩ := hs.sound.accounts.assigned hplaced rfl
    cases ha.symm.trans ha'
    rcases List.mem_append.1 hn with hn | hn
    · simpa [(hunits n a ha).1 hn, (hinput hm).1 hn, eq_comm] using hdst
    · simpa [(hunits n a ha).2 hn, (houtput hm).1 hn, eq_comm] using hsrc

/-- A carried move can be taken off its cycle. -/
theorem Books.exists_unassign {n : MoveId} {a : Assignment}
    (ha : s.1.assignments[n]? = some a) : ∃ s', run machine s (.unassign n) = .ok s' ∧
      ∀ x, s'.1.assignments[x]? = if n = x then none else s.1.assignments[x]? := by
  obtain ⟨u, g1⟩ := s
  obtain rfl : g1 = u.install g := hs.installed
  obtain ⟨m, hm⟩ := hs.ports.known ha
  have hplaced : (u.install g).move? n = some { m with placement := some a.place } := by
    rw [Usage.move?_install, hm, ha]
    rfl
  have hop (o : OpId) (h : ∃ op, (u.install g).op? o = some op) : ∃ x, (u.install g).op o = .ok x := by
    obtain ⟨op, ho⟩ := h
    exact ⟨op, Graph.op_eq_ok.2 ⟨hs.sound.formed.op_valid ho, ho⟩⟩
  obtain ⟨u', g', h⟩ := Usage.exists_unassign hs.orderly (m := { m with placement := some a.place }) (n := n)
    (Graph.move_eq_ok.2 ⟨hs.valid ha, hplaced⟩) rfl ha
    (fun o _ ho _ => hop o (hs.sound.formed.src_known hplaced ho))
    (fun o _ ho _ => hop o (hs.sound.formed.dst_known hplaced ho))
  obtain ⟨m', a', hleave⟩ := Usage.unassigns_of_unassign hs.sound.accounts h
  exact ⟨(u', g'), h, fun x => by rw [hleave.assignments, Graph.getElem?_erase_move]⟩

theorem Books.exists_unassignAll {ns : List MoveId} (hnodup : ns.Nodup)
    (hns : ∀ n ∈ ns, ∃ a, s.1.assignments[n]? = some a) :
    ∃ s', (ns.map unassign).foldlM (run machine) s = .ok s' ∧
      ∀ x, s'.1.assignments[x]? = if x ∈ ns then none else s.1.assignments[x]? := by
  induction ns generalizing s with
  | nil => exact ⟨s, rfl, by simp⟩
  | cons n ns ih =>
    obtain ⟨hn, hnodup⟩ := List.nodup_cons.1 hnodup
    obtain ⟨a, ha⟩ := hns n (by simp)
    obtain ⟨s1, h1, hassign1⟩ := hs.exists_unassign ha
    obtain ⟨s', h', hassign'⟩ := ih (hs.step h1) hnodup fun x hx => by
      have hne : n ≠ x := fun heq => hn (heq ▸ hx)
      simpa [hassign1, hne] using hns x (by simp [hx])
    refine ⟨s', ?_, fun x => ?_⟩
    · rw [List.map_cons, List.foldlM_cons, h1]
      exact h'
    · rw [hassign' x, hassign1 x]
      by_cases hx : x ∈ ns
      · simp [hx]
      · by_cases hxn : x = n
        · simp [hxn]
        · simp [hx, hxn, Ne.symm hxn]

theorem Books.eq (hs' : Books machine g s') (h : s'.1.assignments = s.1.assignments) : s' = s := by
  have husage := hs.tallies.eq hs'.tallies h
  refine Prod.ext husage ?_
  rw [hs'.installed, hs.installed, husage]

end

/-- After any requests that could be met, each table of the usage is the tally of the assignments, no count
exceeds what the machine has, and the operations with a carried move are those that have a unit. So the
usage, and with it the graph, does not depend on the order of the requests, and when all moves that were
placed since some point are taken off their cycles, in any order, everything is as it was then. -/
theorem requests_tally {p : Program} {u : Usage} {g' : Graph} {rs : List Request}
    (hbuild : p.graph machine = .ok g) (hrun : runAll machine g rs = .ok (u, g')) :
    u.Tallies g ∧ u.Within machine ∧ g' = u.install g ∧
    (∀ o op v, g'.op? o = some op → (op.unit? = some v ↔
      (∃ n ∈ op.moves, ∃ a, u.assignments[n]? = some a) ∧ ∀ n a, u.assignments[n]? = some a →
        (n ∈ op.inputs → a.dstUnit = some v) ∧ (n ∈ op.outputs → a.srcUnit = some v))) ∧
    (∀ rs' u' g'', runAll machine g rs' = .ok (u', g'') → u'.assignments = u.assignments →
      u' = u ∧ g'' = g') ∧
    ∀ rs' u' g'' (ns : List MoveId), runAll machine g (rs ++ rs') = .ok (u', g'') →
      (∀ (n : MoveId) a, u.assignments[n]? = some a → u'.assignments[n]? = some a) → ns.Nodup →
      (∀ n, n ∈ ns ↔ n ∈ u'.assignments ∧ n ∉ u.assignments) →
      runAll machine g (rs ++ rs' ++ ns.map unassign) = .ok (u, g') := by
  have hs := (Books.start hbuild).runAll hrun
  refine ⟨hs.tallies, hs.within, hs.installed, fun o op v ho => hs.unit?_eq_some_iff ho, ?_, ?_⟩
  · intro rs' u' g'' hrun' heq
    have hs' := (Books.start hbuild).runAll hrun'
    simpa using hs.eq hs' heq
  · intro rs' u' g'' ns hrun' hkept hnodup hns
    have hs' := (Books.start hbuild).runAll hrun'
    obtain ⟨s, hback, hassign⟩ := hs'.exists_unassignAll hnodup fun n hn =>
      Option.isSome_iff_exists.1 (Std.ExtTreeMap.mem_iff_isSome_getElem?.1 ((hns n).1 hn).1)
    have heq : s.1.assignments = u.assignments := by
      refine Std.ExtTreeMap.ext_getElem? fun x => ?_
      rw [hassign x]
      split
      · rename_i hx
        exact (Std.ExtTreeMap.getElem?_eq_none ((hns x).1 hx).2).symm
      · rename_i hx
        cases hu : u.assignments[x]? with
        | some a => exact hkept x a hu
        | none =>
          rw [hns x, not_and_not_right] at hx
          refine Std.ExtTreeMap.getElem?_eq_none fun hmem => ?_
          have hsome := Std.ExtTreeMap.mem_iff_isSome_getElem?.1 (hx hmem)
          simp [hu] at hsome
    have hlast : s = (u, g') := hs.eq (hs'.runAll hback) heq
    rw [runAll, List.foldlM_append, ← runAll, hrun']
    exact hlast ▸ hback

/-- The chain on one unit, its second move placed and taken off its cycle again. -/
theorem requests_tally_chain : ∃ g u g', chainProgram.graph copyMachine = .ok g ∧
    runAll copyMachine g [.assign 0 ⟨0⟩, .assign 3 ⟨1⟩, .unassign ⟨1⟩] = .ok (u, g') ∧ u.assigned = 1 ∧
    u.Tallies g ∧ u.Within copyMachine ∧ g' = u.install g := by
  obtain ⟨g, u, g', hg, hrun, hsize⟩ := exists_of_chainRun
    [.assign 0 ⟨0⟩, .assign 3 ⟨1⟩, .unassign ⟨1⟩] (fun x => x.2.1.assigned = 1) (by decide +kernel)
  obtain ⟨htallies, hwithin, hinstall, -⟩ := requests_tally hg hrun
  exact ⟨g, u, g', hg, hrun, by simpa using hsize, htallies, hwithin, hinstall⟩

end Request

end Transport
