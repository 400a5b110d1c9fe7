import Transport.Proofs.Run.Checked

/-!
# Faults that do not arise

A checked computation avoids a kind of fault if it does not fail with one of that kind. What is put together
from computations that avoid it avoids it too, so one goes by the way the computation is put together; where
a step could fail, the states it is taken in say why it does not.
-/

namespace Transport

/-- The computation does not fail with a fault that is `bad`. -/
def Avoids {α : Type} (bad : Fault → Prop) (x : Checked α) : Prop := ∀ f, bad f → x ≠ .error f

section

variable {α β : Type} {bad : Fault → Prop} {x : Checked α} {f : α → Checked β} {xs : List α}

@[simp] theorem avoids_pure (a : α) : Avoids bad (pure a : Checked α) := fun _ _ h => nomatch h

@[simp] theorem avoids_ok (a : α) : Avoids bad (.ok a : Checked α) := fun _ _ h => nomatch h

@[simp] theorem avoids_throw (e : Fault) : Avoids bad (throw e : Checked α) ↔ ¬ bad e := by
  constructor
  · exact fun h he => h e he rfl
  · exact fun h f hf he => h (Except.error.inj he ▸ hf)

@[simp] theorem avoids_bind_iff : Avoids bad (x >>= f) ↔ Avoids bad x ∧ ∀ a, x = .ok a → Avoids bad (f a) := by
  cases x with
  | ok a =>
    constructor
    · intro h
      refine ⟨avoids_ok a, fun _ he => ?_⟩
      cases he
      exact h
    · exact fun h => h.2 a rfl
  | error e =>
    constructor
    · exact fun h => ⟨fun g hg he => h g hg (by rw [Except.error.inj he]; rfl), fun _ he => (nomatch he)⟩
    · exact fun h g hg he => h.1 g hg (by rw [Except.error.inj he])

theorem avoids_bind (hx : Avoids bad x) (hf : ∀ a, Avoids bad (f a)) : Avoids bad (x >>= f) :=
  avoids_bind_iff.2 ⟨hx, fun a _ => hf a⟩

@[simp] theorem avoids_map_iff {f : α → β} : Avoids bad (f <$> x) ↔ Avoids bad x := by
  rw [map_eq_pure_bind, avoids_bind_iff]
  exact ⟨And.left, fun h => ⟨h, fun a _ => avoids_pure _⟩⟩

@[simp] theorem avoids_ite_iff {p : Prop} [Decidable p] {y : Checked α} :
    Avoids bad (if p then x else y) ↔ (p → Avoids bad x) ∧ (¬ p → Avoids bad y) := by
  split <;> simp_all

/-- Each step of a walk is safe in the states that the walk can be in at that step. -/
theorem avoids_walk {f : β → α → Checked β} {b : β} (P : List α → β → Prop)
    (hf : ∀ b a xs, P (a :: xs) b → Avoids bad (f b a) ∧ ∀ b', f b a = .ok b' → P xs b') (hb : P xs b) :
    Avoids bad (xs.foldlM f b) := by
  induction xs generalizing b with
  | nil => exact avoids_pure b
  | cons a xs ih =>
    obtain ⟨hstep, hnext⟩ := hf b a xs hb
    exact avoids_bind_iff.2 ⟨hstep, fun b' hb' => ih (hnext b' hb')⟩

@[simp] theorem avoids_foldlM {f : β → α → Checked β} {b : β} (hf : ∀ b a, Avoids bad (f b a)) :
    Avoids bad (xs.foldlM f b) :=
  avoids_walk (fun _ _ => True) (fun b a _ _ => ⟨hf b a, fun _ _ => trivial⟩) trivial

@[simp] theorem avoids_anyM {f : α → Checked Bool} (hf : ∀ a ∈ xs, Avoids bad (f a)) : Avoids bad (xs.anyM f) := by
  induction xs with
  | nil => exact avoids_pure false
  | cons a xs ih =>
    refine avoids_bind (hf a List.mem_cons_self) fun b => ?_
    cases b
    · exact ih fun x hx => hf x (List.mem_cons_of_mem a hx)
    · exact avoids_pure true

@[simp] theorem avoids_findSomeM? {f : α → Checked (Option β)} (hf : ∀ a ∈ xs, Avoids bad (f a)) :
    Avoids bad (xs.findSomeM? f) := by
  induction xs with
  | nil => exact avoids_pure none
  | cons a xs ih =>
    refine avoids_bind (hf a List.mem_cons_self) fun b => ?_
    cases b
    · exact ih fun x hx => hf x (List.mem_cons_of_mem a hx)
    · exact avoids_pure _

@[simp] theorem avoids_filterM {f : α → Checked Bool} (hf : ∀ a, Avoids bad (f a)) : Avoids bad (xs.filterM f) := by
  have haux (acc : List α) : Avoids bad (xs.filterAuxM f acc) := by
    induction xs generalizing acc with
    | nil => exact avoids_pure _
    | cons a xs ih => exact avoids_bind (hf a) fun _ => ih _
  exact avoids_bind (haux []) fun _ => avoids_pure _

theorem avoids_index {k : Kind} {i : Id k} (hbad : ¬ bad .assertion) : Avoids bad i.index := by
  unfold Id.index; simp [hbad]

theorem avoids_fetch {k : Kind} {xs : Array α} {i : Id k} (hbad : ¬ bad .assertion) (hbad' : ¬ bad .outOfRange) :
    Avoids bad (i.fetch xs) := by
  refine avoids_bind (avoids_index hbad) fun j => ?_
  cases xs[j]? <;> simp [hbad']

end

end Transport
