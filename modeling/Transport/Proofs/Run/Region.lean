import Transport.Bypassing
import Transport.Proofs.Run.Checked

/-!
# Successful runs on a region

What it means that a computation on a region, or one that takes notes, ends well. As for checked
code, proofs take a run apart with these lemmas. The queries leave the region alone; `Quiet` names
the runs that change nothing but the notes, the selector and the distances kept in the graph.
-/

namespace Transport

variable {ns ns' : List Note} {α : Type}

section

variable {ε σ β : Type} {r r' : σ} {a : α} {b : β} {x : EStateM ε σ α} {u : PUnit}
  {f : α → EStateM ε σ PUnit}

theorem run_bind_ok {f : α → EStateM ε σ β} : (x >>= f) r = .ok b r' ↔ ∃ a s, x r = .ok a s ∧ f a s = .ok b r' := by
  show EStateM.bind x f r = _ ↔ _
  unfold EStateM.bind
  cases x r with
  | ok a s =>
    constructor
    · intro h; exact ⟨a, s, rfl, h⟩
    · rintro ⟨_, _, h, hf⟩; cases h; exact hf
  | error e s => simp

@[simp] theorem run_pure_ok {c : α} : (pure c : EStateM ε σ α) r = .ok a r' ↔ c = a ∧ r = r' := by
  show EStateM.Result.ok c r = _ ↔ _
  simp

theorem exists_of_run'_eq_some (h : x.run' r = some a) : ∃ r', x r = .ok a r' := by
  delta EStateM.run' EStateM.run at h
  cases hx : x r with
  | ok b s =>
    rw [hx] at h
    exact ⟨s, by rw [Option.some.inj h]⟩
  | error e s =>
    rw [hx] at h
    cases h

@[simp] theorem run_throw_ok {e : ε} : ¬ (throw e : EStateM ε σ α) r = .ok a r' := by
  show ¬ EStateM.Result.error e r = _
  simp

@[simp] theorem run_get_ok {s : σ} : (get : EStateM ε σ σ) r = .ok s r' ↔ r = s ∧ r = r' := by
  show EStateM.Result.ok r r = _ ↔ _
  simp

@[simp] theorem run_set_ok {s : σ} : (set s : EStateM ε σ PUnit) r = .ok u r' ↔ s = r' := by
  show EStateM.Result.ok PUnit.unit s = _ ↔ _
  simp

theorem run_forM_nil : List.forM [] f r = .ok u r' ↔ r = r' := by
  show (pure ⟨⟩ : EStateM ε σ PUnit) r = _ ↔ _
  simp

theorem run_forM_cons {x : α} {xs : List α} :
    List.forM (x :: xs) f r = .ok u r' ↔ ∃ v s, f x r = .ok v s ∧ List.forM xs f s = .ok u r' := by
  show (f x >>= fun _ => List.forM xs f) r = _ ↔ _
  exact run_bind_ok

@[simp] theorem run_modify_ok {f : σ → σ} : (modify f : EStateM ε σ PUnit) r = .ok u r' ↔ f r = r' := by
  show EStateM.Result.ok PUnit.unit (f r) = _ ↔ _
  simp

end

/-- A run of `x` from `r` that ends well comes to `P`. -/
def Gives {ε σ : Type} (r : σ) (x : EStateM ε σ α) (P : α → σ → Prop) : Prop :=
  ∀ ⦃a : α⦄ ⦃r' : σ⦄, x r = .ok a r' → P a r'

namespace Gives

variable {ε σ β : Type} {r : σ} {x y : EStateM ε σ α} {f : α → EStateM ε σ β} {P : α → σ → Prop} {Q : β → σ → Prop}

theorem pure {a : α} (h : P a r) : Gives r (Pure.pure a : EStateM ε σ α) P := by
  intro _ _ hx
  obtain ⟨rfl, rfl⟩ := run_pure_ok.1 hx
  exact h

theorem raise {e : ε} : Gives r (throw e : EStateM ε σ α) P := fun _ _ h => absurd h run_throw_ok

theorem bind (h : Gives r x fun a r1 => Gives r1 (f a) Q) : Gives r (x >>= f) Q := by
  intro b r' hb
  obtain ⟨a, r1, ha, hb⟩ := run_bind_ok.1 hb
  exact h ha hb

theorem ite {p : Prop} [Decidable p] (hx : p → Gives r x P) (hy : ¬ p → Gives r y P) :
    Gives r (if p then x else y) P := by
  split
  · exact hx ‹_›
  · exact hy ‹_›

theorem mono {P' : α → σ → Prop} (hx : Gives r x P) (h : ∀ a r', P a r' → P' a r') : Gives r x P' :=
  fun _ _ ha => h _ _ (hx ha)

theorem get {f : σ → EStateM ε σ β} (hf : Gives r (f r) Q) : Gives r (MonadState.get >>= f) Q := hf

theorem set {r₁ : σ} {f : PUnit → EStateM ε σ β} (hf : Gives r₁ (f ⟨⟩) Q) : Gives r (MonadState.set r₁ >>= f) Q := hf

theorem update {f : σ → σ} {P : PUnit → σ → Prop} (h : P ⟨⟩ (f r)) : Gives r (modify f : EStateM ε σ PUnit) P :=
  fun _ _ hx => run_modify_ok.1 hx ▸ h

/-- What only looks at the state leaves it to the rest of the run. -/
theorem look {R : α → Prop} (hx : Gives r x fun a r' => r = r' ∧ R a) (hf : ∀ a, R a → Gives r (f a) Q) :
    Gives r (x >>= f) Q := by
  refine .bind fun a r1 ha => ?_
  obtain ⟨rfl, hR⟩ := hx ha
  exact hf a hR

theorem skip (hx : Gives r x fun _ r' => r = r') (hf : ∀ a, Gives r (f a) Q) : Gives r (x >>= f) Q :=
  look (fun _ _ h => ⟨hx h, trivial⟩) fun a _ => hf a

end Gives

namespace Gives

variable {δ ε σ β : Type} {r : σ} {xs : List α}

/-! ## Queries over lists

A walk over a list whose steps only ask comes to what the checked walk over the answers comes to. -/

section

variable {f : α → EStateM ε σ β}

theorem mapM {p : α → Except δ β} (hf : ∀ x, Gives r (f x) fun b r' => r = r' ∧ p x = .ok b) :
    Gives r (xs.mapM f) fun ys r' => r = r' ∧ xs.mapM p = .ok ys := by
  induction xs with
  | nil => exact .pure ⟨rfl, rfl⟩
  | cons x xs ih =>
    rw [List.mapM_cons]
    refine .look (hf x) fun b hb => .look ih fun ys hys => .pure ⟨rfl, ?_⟩
    rw [List.mapM_cons, hb, ok_bind, hys]
    rfl

theorem mapM_same (hf : ∀ x, Gives r (f x) fun _ r' => r = r') : Gives r (xs.mapM f) fun _ r' => r = r' := by
  induction xs with
  | nil => exact .pure rfl
  | cons x xs ih =>
    rw [List.mapM_cons]
    exact .skip (hf x) fun _ => .skip ih fun _ => .pure rfl

end

section

variable {f : α → EStateM ε σ Bool} {p : α → Except δ Bool}
  (hf : ∀ x, Gives r (f x) fun b r' => r = r' ∧ p x = .ok b)
include hf

theorem filterM : Gives r (xs.filterM f) fun ys r' => r = r' ∧ xs.filterM p = .ok ys := by
  have haux {acc : List α} : Gives r (xs.filterAuxM f acc) fun ys r' => r = r' ∧ xs.filterAuxM p acc = .ok ys := by
    induction xs generalizing acc with
    | nil => exact .pure ⟨rfl, rfl⟩
    | cons x xs ih =>
      refine .look (hf x) fun b hb => ?_
      simpa [List.filterAuxM, hb] using ih
  refine .look haux fun ys hys => .pure ⟨rfl, ?_⟩
  rw [List.filterM, hys]
  rfl

theorem anyM : Gives r (xs.anyM f) fun b r' => r = r' ∧ xs.anyM p = .ok b := by
  induction xs with
  | nil => exact .pure ⟨rfl, rfl⟩
  | cons x xs ih =>
    refine .look (hf x) fun b hb => ?_
    cases b with
    | false => simpa [List.anyM, hb] using ih
    | true => exact .pure ⟨rfl, by simp [List.anyM, hb]⟩

theorem findM? : Gives r (xs.findM? f) fun y r' => r = r' ∧ xs.findM? p = .ok y := by
  induction xs with
  | nil => exact .pure ⟨rfl, rfl⟩
  | cons x xs ih =>
    refine .look (hf x) fun b hb => ?_
    cases b with
    | false => simpa [List.findM?, hb] using ih
    | true => exact .pure ⟨rfl, by simp [List.findM?, hb]⟩

end

end Gives

@[simp] theorem logged_lift_ok {x : Checked α} {a : α} :
    (liftM x : Logged α) ns = .ok a ns' ↔ x = .ok a ∧ ns = ns' := by
  cases x with
  | ok b => show EStateM.Result.ok b ns = _ ↔ _; simp
  | error f => show EStateM.Result.error f ns = _ ↔ _; simp

theorem Gives.logged {β : Type} {c : Checked α} {f : α → Logged β} {Q : β → List Note → Prop}
    (hf : ∀ a, c = .ok a → Gives ns (f a) Q) : Gives ns ((liftM c : Logged α) >>= f) Q :=
  .look (fun _ _ h => (logged_lift_ok.1 h).symm) hf

/-- A question asked of a whole list: the answer is yes from all, or no from one. -/
theorem logged_allM_ok {p : α → Checked Bool} {xs : List α} :
    Gives ns (xs.allM (fun x => liftM (p x)) : Logged Bool) fun b ns' => ns = ns' ∧
      (b = true → ∀ x ∈ xs, p x = .ok true) ∧ (b = false → ∃ x ∈ xs, p x = .ok false) := by
  induction xs with
  | nil => exact .pure (by simp)
  | cons x xs ih =>
    refine .logged fun c hc => ?_
    cases c with
    | false => exact .pure ⟨rfl, by simp, fun _ => ⟨x, List.mem_cons_self, hc⟩⟩
    | true =>
      refine .mono ih fun b ns' h => ⟨h.1, fun hb => ?_, fun hb => ?_⟩
      · exact List.forall_mem_cons.2 ⟨hc, h.2.1 hb⟩
      · obtain ⟨y, hy, hno⟩ := h.2.2 hb
        exact ⟨y, List.mem_cons_of_mem _ hy, hno⟩

namespace RegionM

variable {r r' : Region} {a : α} {b : Bypasser} {g : Graph} {u : Unit}

@[simp] theorem lift_ok {x : Checked α} : (liftM x : RegionM α) r = .ok a r' ↔ x = .ok a ∧ r = r' := by
  cases x with
  | ok b => show EStateM.Result.ok b r = _ ↔ _; simp
  | error f => show EStateM.Result.error (Halt.fault f) r = _ ↔ _; simp

@[simp] theorem lift_logged_ok {x : Logged α} : (liftM x : RegionM α) r = .ok a r' ↔
    ∃ notes, x r.notes = .ok a notes ∧ { r with notes } = r' := by
  show ofLogged x r = _ ↔ _
  unfold ofLogged EStateM.run
  cases x r.notes with
  | ok b notes => simp [and_assoc]
  | error f notes => simp

@[simp] theorem graph_ok : graph r = .ok g r' ↔ r.graph = g ∧ r = r' := by
  simp only [graph, run_bind_ok, run_get_ok, run_pure_ok]
  grind

@[simp] theorem ask_ok {query : Graph → Checked α} :
    ask query r = .ok a r' ↔ query r.graph = .ok a ∧ r = r' := by
  simp only [ask, run_bind_ok, graph_ok, lift_ok]
  grind

@[simp] theorem setGraph_ok : setGraph g r = .ok u r' ↔ { r with graph := g } = r' := run_modify_ok

@[simp] theorem move_ok {n : MoveId} {m : Move} :
    move n r = .ok m r' ↔ r.graph.move n = .ok m ∧ r = r' := ask_ok

@[simp] theorem count_ok {f : Stats → Stats} : count f r = .ok u r' ↔ { r with stats := f r.stats } = r' := run_modify_ok

@[simp] theorem setBypasser_ok : setBypasser b r = .ok u r' ↔ { r with bypasser := b } = r' := run_modify_ok

@[simp] theorem bypasser_ok : bypasser r = .ok b r' ↔ r.bypasser = b ∧ r = r' := by
  simp only [bypasser, run_bind_ok, run_get_ok, run_pure_ok]
  grind

end RegionM

namespace Gives

variable {β : Type} {r : Region} {f : α → RegionM β} {Q : β → Region → Prop}

theorem lift {c : Checked α} (hf : ∀ a, c = .ok a → Gives r (f a) Q) : Gives r (RegionM.ofChecked c >>= f) Q :=
  look (fun _ _ h => (RegionM.lift_ok.1 h).symm) hf

theorem ask {query : Graph → Checked α} (hf : ∀ a, query r.graph = .ok a → Gives r (f a) Q) :
    Gives r (RegionM.ask query >>= f) Q :=
  look (fun _ _ h => (RegionM.ask_ok.1 h).symm) hf

theorem move {n : MoveId} {f : Move → RegionM β} (hf : ∀ m, r.graph.move n = .ok m → Gives r (f m) Q) :
    Gives r (RegionM.move n >>= f) Q := ask hf

/-- A question about a move is one to the graph. -/
theorem of_move {n : MoveId} {f : Move → α} : Gives r (do return f (← RegionM.move n) : RegionM α) fun a r' =>
    r = r' ∧ (do return f (← r.graph.move n) : Checked α) = .ok a :=
  .move fun m hm => .pure ⟨rfl, by rw [hm]; rfl⟩

theorem graph {f : Graph → RegionM β} (hf : Gives r (f r.graph) Q) : Gives r (RegionM.graph >>= f) Q := hf

theorem bypasser {f : Bypasser → RegionM β} (hf : Gives r (f r.bypasser) Q) :
    Gives r (RegionM.bypasser >>= f) Q := hf

theorem tell {c : Logged α} (hf : ∀ a notes, c r.notes = .ok a notes → Gives { r with notes } (f a) Q) :
    Gives r (RegionM.ofLogged c >>= f) Q := by
  refine .bind fun a r1 h => ?_
  obtain ⟨notes, ha, rfl⟩ := RegionM.lift_logged_ok.1 h
  exact hf a notes ha

theorem note {note : Note} {f : Unit → RegionM β} (hf : ∀ notes, Gives { r with notes } (f ()) Q) :
    Gives r (RegionM.note note >>= f) Q := hf _

theorem setGraph {g : Graph} {f : Unit → RegionM β} (hf : Gives { r with graph := g } (f ()) Q) :
    Gives r (RegionM.setGraph g >>= f) Q := hf

end Gives

end Transport
