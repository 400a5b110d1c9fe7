import Transport.Fault

/-!
# Successful runs of checked code

What it means that a checked computation, or a walk over a list of them, ends without a fault.
Proofs about checked code take it apart with these lemmas and never unfold the monad.
-/

namespace Transport

variable {ε α β : Type} {xs ys : List α} {p : α → Except ε Bool} {f : α → Except ε β} {P : β → Prop}

theorem bind_eq_ok {x : Except ε α} {b : β} : x >>= f = .ok b ↔ ∃ a, x = .ok a ∧ f a = .ok b := by
  cases x with
  | error e => simp [bind, Except.bind]
  | ok a => simp [bind, Except.bind]

@[simp] theorem pure_eq_ok {a b : α} : (pure a : Except ε α) = .ok b ↔ a = b := by
  simp [pure, Except.pure]

@[simp] theorem throw_ne_ok {e : ε} {b : α} : ¬ (throw e : Except ε α) = .ok b := by
  simp [throw, throwThe, MonadExceptOf.throw]

@[simp] theorem ok_bind {a : α} : (.ok a : Except ε α) >>= f = f a := rfl

theorem exists_bind_eq_ok {x : Except ε α} (hx : ∃ a, x = .ok a)
    (hf : ∀ a, x = .ok a → ∃ b, f a = .ok b) : ∃ b, x >>= f = .ok b := by
  obtain ⟨a, ha⟩ := hx
  obtain ⟨b, hb⟩ := hf a ha
  exact ⟨b, bind_eq_ok.2 ⟨a, ha, hb⟩⟩

theorem exists_pure_eq_ok {a : α} : ∃ b, (pure a : Except ε α) = .ok b := ⟨a, rfl⟩

theorem Checked.toHalt_eq_ok {x : Checked α} {a : α} : x.toHalt = .ok a ↔ x = .ok a := by
  cases x <;> simp [Checked.toHalt]

@[simp] theorem liftM_eq_ok {x : Checked α} {a : α} :
    (liftM x : Except Halt α) = .ok a ↔ x = .ok a :=
  Checked.toHalt_eq_ok

/-- A computation that can be run is run to see that it succeeds with a result as wanted. -/
theorem exists_ok_of_any {x : Except ε α} {p : α → Bool} (h : x.toOption.any p) :
    ∃ a, x = .ok a ∧ p a := by
  cases x with
  | error e => simp [Except.toOption] at h
  | ok a => exact ⟨a, rfl, by simpa [Except.toOption] using h⟩

/-- A lookup has one answer. -/
theorem of_some {x : Option α} {a : α} {P : α → Prop} (h : ∃ b, x = some b ∧ P b) (ha : x = some a) : P a := by
  obtain ⟨b, hb, hP⟩ := h
  rw [ha] at hb
  cases hb
  exact hP

theorem exists_of_map_eq {γ : Type} {f : α → γ} {k : β → γ} {x : Option α} {y : Option β} {a : α}
    (h : x.map f = y.map k) (hx : x = some a) : ∃ b, y = some b ∧ k b = f a := by
  subst hx
  obtain ⟨b, hb, he⟩ := Option.map_eq_some_iff.1 h.symm
  exact ⟨b, hb, he⟩

/-! ## Walks over lists -/

theorem foldlM_cons_eq_ok {f : β → α → Except ε β} {x : α} {b c : β} :
    (x :: xs).foldlM f b = .ok c ↔ ∃ b', f b x = .ok b' ∧ xs.foldlM f b' = .ok c := by
  rw [List.foldlM_cons, bind_eq_ok]

/-- What every round keeps, a walk keeps. -/
theorem foldlM_keeps {f : β → α → Except ε β} {b c : β}
    (step : ∀ x ∈ xs, ∀ b b', P b → f b x = .ok b' → P b') (hb : P b)
    (h : xs.foldlM f b = .ok c) : P c := by
  induction xs generalizing b with
  | nil => simp only [List.foldlM_nil, pure_eq_ok] at h; exact h ▸ hb
  | cons x xs ih =>
    obtain ⟨b', hx, h⟩ := foldlM_cons_eq_ok.1 h
    exact ih (fun y hy => step y (.tail _ hy)) (step x (.head _) b b' hb hx) h

theorem exists_foldlM_eq_ok {f : β → α → Except ε β} {b : β}
    (step : ∀ x ∈ xs, ∀ b, P b → ∃ b', f b x = .ok b' ∧ P b') (hb : P b) :
    ∃ c, xs.foldlM f b = .ok c ∧ P c := by
  induction xs generalizing b with
  | nil => exact ⟨b, rfl, hb⟩
  | cons x xs ih =>
    obtain ⟨b', hx, hb'⟩ := step x (.head _) b hb
    obtain ⟨c, hc, hP⟩ := ih (fun y hy => step y (.tail _ hy)) hb'
    exact ⟨c, foldlM_cons_eq_ok.2 ⟨b', hx, hc⟩, hP⟩

/-- What one round brings about and every later round keeps, holds after the walk. -/
theorem foldlM_reaches {f : β → α → Except ε β} {Q : β → Prop} {b c : β} {x : α}
    (step : ∀ y ∈ xs, ∀ b b', P b → f b y = .ok b' → P b' ∧ (Q b → Q b')) (hx : x ∈ xs)
    (reach : ∀ b b', P b → f b x = .ok b' → Q b') (hb : P b) (h : xs.foldlM f b = .ok c) : Q c := by
  induction xs generalizing b with
  | nil => cases hx
  | cons y xs ih =>
    obtain ⟨b', hy, hrest⟩ := foldlM_cons_eq_ok.1 h
    have hb' := (step y (.head _) b b' hb hy).1
    rcases List.mem_cons.1 hx with rfl | hx
    · refine (foldlM_keeps (P := fun b => P b ∧ Q b) ?_ ⟨hb', reach b b' hb hy⟩ hrest).2
      rintro z hz b b' ⟨hP, hQ⟩ hstep
      obtain ⟨hP', hkeep⟩ := step z (.tail _ hz) b b' hP hstep
      exact ⟨hP', hkeep hQ⟩
    · exact ih (fun z hz => step z (.tail _ hz)) hx hb' hrest

theorem mapM_eq_ok_of_forall (h : ∀ x ∈ xs, ∃ y, f x = .ok y) : ∃ ys, xs.mapM f = .ok ys := by
  induction xs with
  | nil => exact ⟨[], by simp⟩
  | cons x xs ih =>
    obtain ⟨y, hy⟩ := h x (.head _)
    obtain ⟨ys, hys⟩ := ih fun z hz => h z (.tail _ hz)
    exact ⟨y :: ys, by simp only [List.mapM_cons, hy, hys, ok_bind, pure_eq_ok]⟩

theorem mem_of_mapM_eq_ok {ys : List β} (h : xs.mapM f = .ok ys) {y : β} : y ∈ ys ↔ ∃ x ∈ xs, f x = .ok y := by
  induction xs generalizing ys with
  | nil => simp only [List.mapM_nil, pure_eq_ok] at h; simp [← h]
  | cons x xs ih =>
    simp only [List.mapM_cons, bind_eq_ok, pure_eq_ok] at h
    obtain ⟨z, hz, zs, hzs, rfl⟩ := h
    simp only [List.mem_cons, ih hzs]
    constructor
    · rintro (rfl | ⟨w, hw, hy⟩)
      · exact ⟨x, .inl rfl, hz⟩
      · exact ⟨w, .inr hw, hy⟩
    · rintro ⟨w, rfl | hw, hy⟩
      · rw [hz] at hy; cases hy; exact .inl rfl
      · exact .inr ⟨w, hw, hy⟩

theorem map_of_mapM_eq_ok {k : β → α} {ys : List β}
    (hf : ∀ x y, f x = .ok y → k y = x) (h : xs.mapM f = .ok ys) : ys.map k = xs := by
  induction xs generalizing ys with
  | nil =>
    cases pure_eq_ok.1 h
    rfl
  | cons x xs ih =>
    simp only [List.mapM_cons, bind_eq_ok, pure_eq_ok] at h
    obtain ⟨y, hy, zs, hzs, rfl⟩ := h
    rw [List.map_cons, hf x y hy, ih hzs]

theorem ok_of_mapM_eq_ok {ys : List β} (h : xs.mapM f = .ok ys) {x : α} (hx : x ∈ xs) : ∃ y, f x = .ok y := by
  induction xs generalizing ys with
  | nil => cases hx
  | cons z zs ih =>
    simp only [List.mapM_cons, bind_eq_ok, pure_eq_ok] at h
    obtain ⟨y, hy, ws, hws, -⟩ := h
    cases hx with
    | head => exact ⟨y, hy⟩
    | tail _ hx => exact ih hws hx

theorem anyM_eq_false : xs.anyM p = .ok false ↔ ∀ x ∈ xs, p x = .ok false := by
  induction xs with
  | nil => simp [List.anyM]
  | cons x xs ih =>
    simp only [List.anyM, bind_eq_ok, List.forall_mem_cons, ← ih]
    constructor
    · rintro ⟨b, hb, h⟩
      cases b <;> simp_all
    · rintro ⟨hx, h⟩
      exact ⟨false, hx, h⟩

theorem exists_of_anyM_eq_true (h : xs.anyM p = .ok true) : ∃ x ∈ xs, p x = .ok true := by
  induction xs with
  | nil => cases h
  | cons x xs ih =>
    simp only [List.anyM, bind_eq_ok] at h
    obtain ⟨b, hb, h⟩ := h
    cases b with
    | true => exact ⟨x, List.mem_cons_self, hb⟩
    | false =>
      obtain ⟨y, hy, hp⟩ := ih h
      exact ⟨y, List.mem_cons_of_mem _ hy, hp⟩

theorem mem_of_findM?_eq_some {y : α} (h : xs.findM? p = .ok (some y)) : y ∈ xs := by
  induction xs with
  | nil => cases pure_eq_ok.1 h
  | cons x xs ih =>
    simp only [List.findM?, bind_eq_ok] at h
    obtain ⟨b, hb, h⟩ := h
    cases b with
    | false => exact List.mem_cons_of_mem _ (ih h)
    | true =>
      cases pure_eq_ok.1 h
      exact List.mem_cons_self

theorem findM?_eq_none (h : xs.findM? p = .ok none) : ∀ x ∈ xs, p x = .ok false := by
  induction xs with
  | nil => simp
  | cons x xs ih =>
    simp only [List.findM?, bind_eq_ok] at h
    obtain ⟨b, hb, h⟩ := h
    cases b with
    | false => exact List.forall_mem_cons.2 ⟨hb, ih h⟩
    | true => cases pure_eq_ok.1 h

theorem mem_of_filterAuxM_eq_ok {acc : List α} (h : xs.filterAuxM p acc = .ok ys) {y : α} :
    y ∈ ys ↔ y ∈ acc ∨ y ∈ xs ∧ p y = .ok true := by
  induction xs generalizing acc with
  | nil => simp only [List.filterAuxM, pure_eq_ok] at h; simp [h]
  | cons x xs ih =>
    simp only [List.filterAuxM, bind_eq_ok] at h
    obtain ⟨b, hb, h⟩ := h
    cases b with
    | true => simp only [ih h, List.mem_cons]; grind
    | false => simp only [ih h, List.mem_cons]; grind

theorem mem_of_filterM_eq_ok (h : xs.filterM p = .ok ys) {y : α} : y ∈ ys ↔ y ∈ xs ∧ p y = .ok true := by
  simp only [List.filterM, bind_eq_ok, pure_eq_ok] at h
  obtain ⟨zs, hzs, rfl⟩ := h
  simp [mem_of_filterAuxM_eq_ok hzs]

theorem sublist_of_filterM_eq_ok (h : xs.filterM p = .ok ys) : ys.Sublist xs := by
  have haux {xs acc ys : List α} (h : xs.filterAuxM p acc = .ok ys) :
      ∃ zs : List α, zs.Sublist xs ∧ ys = zs.reverse ++ acc := by
    induction xs generalizing acc with
    | nil => exact ⟨[], .slnil, (pure_eq_ok.1 h).symm⟩
    | cons x xs ih =>
      simp only [List.filterAuxM, bind_eq_ok] at h
      obtain ⟨b, -, h⟩ := h
      obtain ⟨zs, hsub, rfl⟩ := ih h
      cases b with
      | false => exact ⟨zs, hsub.cons x, rfl⟩
      | true => exact ⟨x :: zs, hsub.cons_cons x, by simp⟩
  simp only [List.filterM, bind_eq_ok, pure_eq_ok] at h
  obtain ⟨zs, hzs, rfl⟩ := h
  obtain ⟨ws, hsub, rfl⟩ := haux hzs
  simpa using hsub

theorem ok_of_filterM_eq_ok (h : xs.filterM p = .ok ys) {x : α} (hx : x ∈ xs) : ∃ b, p x = .ok b := by
  simp only [List.filterM, bind_eq_ok] at h
  obtain ⟨zs, hzs, -⟩ := h
  generalize [] = acc at hzs
  induction xs generalizing acc with
  | nil => cases hx
  | cons z xs ih =>
    simp only [List.filterAuxM, bind_eq_ok] at hzs
    obtain ⟨b, hb, hzs⟩ := hzs
    cases hx with
    | head => exact ⟨b, hb⟩
    | tail _ hx => exact ih hx _ hzs

theorem filterAuxM_eq_ok_of_forall
    (h : ∀ x ∈ xs, ∃ b, p x = .ok b) (acc : List α) : ∃ ys, xs.filterAuxM p acc = .ok ys := by
  induction xs generalizing acc with
  | nil => exact ⟨acc, rfl⟩
  | cons x xs ih =>
    obtain ⟨b, hb⟩ := h x (.head _)
    obtain ⟨ys, hys⟩ := ih (fun y hy => h y (.tail _ hy)) (cond b (x :: acc) acc)
    exact ⟨ys, by rw [List.filterAuxM, hb, ok_bind, hys]⟩

theorem filterM_eq_ok_of_forall (h : ∀ x ∈ xs, ∃ b, p x = .ok b) : ∃ ys, xs.filterM p = .ok ys := by
  obtain ⟨ys, hys⟩ := filterAuxM_eq_ok_of_forall h []
  exact ⟨ys.reverse, by rw [List.filterM, hys]; rfl⟩

theorem filterM_eq_self (h : ∀ x ∈ xs, p x = .ok true) : xs.filterM p = .ok xs := by
  have haux (acc : List α) : xs.filterAuxM p acc = .ok (xs.reverse ++ acc) := by
    induction xs generalizing acc with
    | nil => rfl
    | cons x xs ih =>
      rw [List.filterAuxM, h x List.mem_cons_self]
      simp [ih fun y hy => h y (List.mem_cons_of_mem x hy)]
  rw [List.filterM, haux, ok_bind, List.append_nil, List.reverse_reverse]
  rfl

theorem findSomeM?_eq_some {f : α → Except ε (Option β)} {y : β}
    (h : xs.findSomeM? f = .ok (some y)) : ∃ x ∈ xs, f x = .ok (some y) := by
  induction xs with
  | nil => simp [List.findSomeM?] at h
  | cons x xs ih =>
    simp only [List.findSomeM?, bind_eq_ok] at h
    obtain ⟨b, hb, h⟩ := h
    cases b with
    | none => obtain ⟨z, hz, hz'⟩ := ih h; exact ⟨z, .tail _ hz, hz'⟩
    | some b => simp only [pure_eq_ok] at h; exact ⟨x, .head _, h ▸ hb⟩

end Transport
