import Transport.Proofs.Run.Region

/-!
# Attempts are taken back

A step runs other steps before and after its own change, and any of them may not apply. What was done
is then taken back, and an attempt that is kept can be taken back later. If every change can be taken
back where it was made, all of this leads back to where it began, with one exception: a step that does
not clear away the steps after its change before it takes back the change.

"Where it began" is up to a relation between states, since taking something back may leave traces that
do not count. The main statement is `Reversal.Course.unwinds`.
-/

namespace Transport

variable {ε σ κ υ : Type}

/-- From every state like `y`, `back` leads to a state like `x`. -/
def LeadsBack (like : σ → σ → Prop) (back : EStateM ε σ Unit) (y x : σ) : Prop :=
  ∀ y', like y y' → ∃ x', back y' = .ok () x' ∧ like x x'

namespace LeadsBack

variable {like : σ → σ → Prop} {back back' : EStateM ε σ Unit} {x x' y z : σ}

theorem bind (h : LeadsBack like back z y) (h' : LeadsBack like back' y x) :
    LeadsBack like (do back; back') z x := by
  intro z' hz
  obtain ⟨y', hy', hy⟩ := h z' hz
  obtain ⟨x', hx', hx⟩ := h' y' hy
  exact ⟨x', run_bind_ok.2 ⟨_, y', hy', hx'⟩, hx⟩

theorem like_of_ok {u : Unit} (h : LeadsBack like back y x) (hyz : like y z) (hback : back z = .ok u x') :
    like x x' := by
  obtain ⟨_, hx', hx⟩ := h z hyz
  cases hback.symm.trans hx'
  exact hx

end LeadsBack

namespace Reversal

variable (R : Reversal (EStateM ε σ) κ υ) (like : σ → σ → Prop) (inv : σ → Prop) (safe : κ → σ → Prop)

/-- In states that keep to `inv`, a safe change has no effect or can be taken back. -/
structure Dependable : Prop where
  refl {x : σ} : inv x → like x x
  trans {x y z : σ} : like x y → like y z → like x z
  inv_of_like {x y : σ} : inv x → like x y → inv y
  inv_of_apply {c : κ} {u : υ} {x y : σ} : inv x → safe c x → R.apply c x = .ok (some u) y → inv y
  refused {c : κ} {x y : σ} : inv x → safe c x → R.apply c x = .ok none y → like x y
  made {c : κ} {u : υ} {x y : σ} : inv x → safe c x → R.apply c x = .ok (some u) y →
    LeadsBack like (R.revert u) y x

mutual

/-- Run from `x`, the step makes a change that is not safe, or it breaks off with steps after its change that
it does not clear away, and taking back the change and then those steps does not lead back. -/
inductive Slips : Step κ → σ → Prop
  | pre {pre post : List (Step κ)} {c : κ} {k : Bool} {x : σ} : SlipsEach pre x → Slips (.mk pre c post k) x
  | change {pre post : List (Step κ)} {c : κ} {k : Bool} {x y : σ} {before : List (Applied υ)} :
      R.runEach pre [] x = .ok (before, true) y → ¬ safe c y → Slips (.mk pre c post k) x
  | post {pre post : List (Step κ)} {c : κ} {k : Bool} {x y z : σ} {before : List (Applied υ)} {u : υ} :
      R.runEach pre [] x = .ok (before, true) y → R.apply c y = .ok (some u) z → SlipsEach post z →
      Slips (.mk pre c post k) x
  | order {pre post : List (Step κ)} {c : κ} {x y z w : σ} {before after : List (Applied υ)} {u : υ} :
      R.runEach pre [] x = .ok (before, true) y → R.apply c y = .ok (some u) z →
      R.runEach post [] z = .ok (after, false) w → after ≠ [] →
      (∀ v, R.withdraw false u after w = .ok () v → ¬ like y v) → Slips (.mk pre c post false) x

/-- One of the steps slips, up to the first that does not apply. -/
inductive SlipsEach : List (Step κ) → σ → Prop
  | head {s : Step κ} {ss : List (Step κ)} {x : σ} : Slips s x → SlipsEach (s :: ss) x
  | tail {s : Step κ} {ss : List (Step κ)} {x y : σ} {a : Applied υ} :
      R.run s x = .ok (some a) y → SlipsEach ss y → SlipsEach (s :: ss) x

end

variable {R like inv safe} {c : κ} {pre post : List (Step κ)} {s : Step κ} {ss : List (Step κ)} {x y z w : σ}
  {u : υ} {r : Option (Applied υ)} {done done' before after : List (Applied υ)} {ok k : Bool}

section

variable (h : ¬ R.Slips like safe (.mk pre c post k) x)
include h

theorem not_slipsEach_pre : ¬ R.SlipsEach like safe pre x := fun hpre => h (.pre hpre)

variable (hpre : R.runEach pre [] x = .ok (before, true) y)
include hpre

theorem safe_of_not_slips : safe c y := Classical.byContradiction fun hc => h (.change hpre hc)

variable (happly : R.apply c y = .ok (some u) z)
include happly

theorem not_slipsEach_post : ¬ R.SlipsEach like safe post z := fun hpost => h (.post hpre happly hpost)

theorem exists_back_of_not_slips (hpost : R.runEach post [] z = .ok (after, false) w) (hk : k = false)
    (hsome : after ≠ []) : ∃ v, R.withdraw k u after w = .ok () v ∧ like y v := by
  subst hk
  exact Classical.byContradiction fun hback => h (.order hpre happly hpost hsome fun v hv hy => hback ⟨v, hv, hy⟩)

end

/-! ## One run -/

/-- The four ways a step ends. -/
inductive Ends (R : Reversal (EStateM ε σ) κ υ) (pre : List (Step κ)) (c : κ) (post : List (Step κ)) (k : Bool)
    (x : σ) : Option (Applied υ) → σ → Prop
  /-- A step before the change does not apply. -/
  | early {before : List (Applied υ)} {y z : σ} (hpre : R.runEach pre [] x = .ok (before, false) y)
      (hback : R.undoAll before y = .ok () z) : Ends R pre c post k x none z
  /-- The change does not apply. -/
  | refused {before : List (Applied υ)} {y z w : σ} (hpre : R.runEach pre [] x = .ok (before, true) y)
      (happly : R.apply c y = .ok none z) (hback : R.undoAll before z = .ok () w) : Ends R pre c post k x none w
  /-- A step after the change does not apply. -/
  | late {before after : List (Applied υ)} {u : υ} {y z w v : σ}
      (hpre : R.runEach pre [] x = .ok (before, true) y) (happly : R.apply c y = .ok (some u) z)
      (hpost : R.runEach post [] z = .ok (after, false) w)
      (hback : (do R.withdraw k u after; R.undoAll before : EStateM ε σ Unit) w = .ok () v) :
      Ends R pre c post k x none v
  /-- Everything applies. -/
  | kept {before after : List (Applied υ)} {u : υ} {y z w : σ}
      (hpre : R.runEach pre [] x = .ok (before, true) y) (happly : R.apply c y = .ok (some u) z)
      (hpost : R.runEach post [] z = .ok (after, true) w) : Ends R pre c post k x (some (.mk before u after)) w

theorem run_ends : Gives x (R.run (.mk pre c post k)) (R.Ends pre c post k x) := by
  refine .bind fun p _ hpre => ?_
  obtain ⟨before, ok⟩ := p
  cases ok with
  | false => exact .bind fun _ _ hback => .pure (.early hpre hback)
  | true =>
    refine .bind fun u? _ happly => ?_
    cases u? with
    | none => exact .bind fun _ _ hback => .pure (.refused hpre happly hback)
    | some u =>
      refine .bind fun p _ hpost => ?_
      obtain ⟨after, ok⟩ := p
      cases ok with
      | false =>
        refine .bind fun _ v1 h1 => .bind fun _ _ h2 => .pure ?_
        exact .late hpre happly hpost (run_bind_ok.2 ⟨_, v1, h1, h2⟩)
      | true => exact .pure (.kept hpre happly hpost)

theorem run_iff : R.run (.mk pre c post k) x = .ok r y ↔ R.Ends pre c post k x r y := by
  constructor
  · exact fun h => run_ends h
  · intro h
    rw [run, run_bind_ok]
    cases h with
    | early hpre hback => exact ⟨_, _, hpre, run_bind_ok.2 ⟨_, _, hback, rfl⟩⟩
    | refused hpre happly hback =>
      exact ⟨_, _, hpre, run_bind_ok.2 ⟨_, _, happly, run_bind_ok.2 ⟨_, _, hback, rfl⟩⟩⟩
    | late hpre happly hpost hback =>
      obtain ⟨_, v1, h1, h2⟩ := run_bind_ok.1 hback
      exact ⟨_, _, hpre, run_bind_ok.2 ⟨_, _, happly, run_bind_ok.2 ⟨_, _, hpost,
        run_bind_ok.2 ⟨_, v1, h1, run_bind_ok.2 ⟨_, _, h2, rfl⟩⟩⟩⟩⟩
    | kept hpre happly hpost =>
      exact ⟨_, _, hpre, run_bind_ok.2 ⟨_, _, happly, run_bind_ok.2 ⟨_, _, hpost, rfl⟩⟩⟩

theorem runEach_nil : R.runEach [] done x = .ok (done', ok) y ↔ (done', ok, y) = (done, true, x) := by
  simp [runEach, eq_comm, and_assoc]

theorem runEach_cons : R.runEach (s :: ss) done x = .ok (done', ok) y ↔
    (R.run s x = .ok none y ∧ done' = done ∧ ok = false) ∨
      ∃ a z, R.run s x = .ok (some a) z ∧ R.runEach ss (a :: done) z = .ok (done', ok) y := by
  rw [runEach, run_bind_ok]
  constructor
  · rintro ⟨r, z, hrun, h⟩
    cases r with
    | none =>
      cases h
      exact .inl ⟨hrun, rfl, rfl⟩
    | some a => exact .inr ⟨a, z, hrun, h⟩
  · rintro (⟨hrun, rfl, rfl⟩ | ⟨a, z, hrun, h⟩)
    · exact ⟨none, y, hrun, rfl⟩
    · exact ⟨some a, z, hrun, h⟩

/-! ## The way back -/

theorem undoAll_nil : LeadsBack like (R.undoAll []) x x := fun x' hx => ⟨x', rfl, hx⟩

section

variable (hR : R.Dependable like inv safe)
include hR

theorem Dependable.congr {back : EStateM ε σ Unit} (h : LeadsBack like back y x) (hyz : like y z) :
    LeadsBack like back z x :=
  fun _ hz => h _ (hR.trans hyz hz)

/-- A step that breaks off late gets back to where it began, if its change and the steps after it lead
back to where the change was made. -/
theorem exists_back_of_late (hw : inv w) (hbefore : LeadsBack like (R.undoAll before) y x)
    (hmade : LeadsBack like (R.revert u) z y) (hafter : LeadsBack like (R.undoAll after) w z)
    (horder : k = false → after ≠ [] → ∃ v, R.withdraw k u after w = .ok () v ∧ like y v) :
    ∃ v, (do R.withdraw k u after; R.undoAll before : EStateM ε σ Unit) w = .ok () v ∧ like x v := by
  obtain ⟨y', hy', hlate⟩ : ∃ y', R.withdraw k u after w = .ok () y' ∧ like y y' := by
    cases k with
    | true => exact hafter.bind hmade w (hR.refl hw)
    | false =>
      by_cases hnone : after = []
      · subst hnone
        have hsame : like z w := hafter.like_of_ok (hR.refl hw) rfl
        obtain ⟨y', hrevert, hy⟩ := hmade w hsame
        exact ⟨y', run_bind_ok.2 ⟨_, y', hrevert, rfl⟩, hy⟩
      · exact horder rfl hnone
  obtain ⟨v, hv, hx⟩ := hbefore y' hlate
  exact ⟨v, run_bind_ok.2 ⟨_, y', hy', hv⟩, hx⟩

mutual

/-- A run that does not slip changes nothing, or can be taken back. -/
theorem run_leadsBack : ∀ {s : Step κ} {x y : σ} {r : Option (Applied υ)}, R.run s x = .ok r y → inv x →
    ¬ R.Slips like safe s x → inv y ∧ (r = none → like x y) ∧ ∀ a, r = some a → LeadsBack like (R.undo a) y x
  | .mk pre c post k, x, y, r, h, hx, hslips => by
    have hbefore {before : List (Applied υ)} {ok : Bool} {z : σ} (hpre : R.runEach pre [] x = .ok (before, ok) z) :
        inv z ∧ LeadsBack like (R.undoAll before) z x :=
      runEach_leadsBack hpre hx (not_slipsEach_pre hslips) undoAll_nil
    have hmade {before : List (Applied υ)} {u : υ} {y z : σ} (hpre : R.runEach pre [] x = .ok (before, true) y)
        (happly : R.apply c y = .ok (some u) z) : inv z ∧ LeadsBack like (R.revert u) z y :=
      have hy := (hbefore hpre).1
      have hsafe := safe_of_not_slips hslips hpre
      ⟨hR.inv_of_apply hy hsafe happly, hR.made hy hsafe happly⟩
    have hafter {before after : List (Applied υ)} {u : υ} {ok : Bool} {y z w : σ}
        (hpre : R.runEach pre [] x = .ok (before, true) y) (happly : R.apply c y = .ok (some u) z)
        (hpost : R.runEach post [] z = .ok (after, ok) w) : inv w ∧ LeadsBack like (R.undoAll after) w z :=
      runEach_leadsBack hpost (hmade hpre happly).1 (not_slipsEach_post hslips hpre happly) undoAll_nil
    have hnone {y : σ} (hy : like x y) :
        inv y ∧ ((none : Option (Applied υ)) = none → like x y) ∧ ∀ a, none = some a → LeadsBack like (R.undo a) y x :=
      ⟨hR.inv_of_like hx hy, fun _ => hy, by simp⟩
    cases run_iff.1 h with
    | early hpre hback => exact hnone ((hbefore hpre).2.like_of_ok (hR.refl (hbefore hpre).1) hback)
    | refused hpre happly hback =>
      have hsame := hR.refused (hbefore hpre).1 (safe_of_not_slips hslips hpre) happly
      exact hnone ((hbefore hpre).2.like_of_ok hsame hback)
    | late hpre happly hpost hback =>
      obtain ⟨v, hv, hsame⟩ := exists_back_of_late hR (hafter hpre happly hpost).1 (hbefore hpre).2
        (hmade hpre happly).2 (hafter hpre happly hpost).2 (exists_back_of_not_slips hslips hpre happly hpost)
      cases hback.symm.trans hv
      exact hnone hsame
    | kept hpre happly hpost =>
      refine ⟨(hafter hpre happly hpost).1, by simp, fun a ha => ?_⟩
      cases ha
      exact (hafter hpre happly hpost).2.bind ((hmade hpre happly).2.bind (hbefore hpre).2)

theorem runEach_leadsBack : ∀ {ss : List (Step κ)} {done done' : List (Applied υ)} {ok : Bool} {x y x₀ : σ},
    R.runEach ss done x = .ok (done', ok) y → inv x → ¬ R.SlipsEach like safe ss x →
      LeadsBack like (R.undoAll done) x x₀ → inv y ∧ LeadsBack like (R.undoAll done') y x₀
  | [], done, done', ok, x, y, x₀, h, hx, _, hdone => by
    cases runEach_nil.1 h
    exact ⟨hx, hdone⟩
  | s :: ss, done, done', ok, x, y, x₀, h, hx, hslips, hdone => by
    have hhead : ¬ R.Slips like safe s x := fun h => hslips (.head h)
    rcases runEach_cons.1 h with ⟨hrun, rfl, -⟩ | ⟨a, z, hrun, hrest⟩
    · obtain ⟨hy, hsame, -⟩ := run_leadsBack hrun hx hhead
      exact ⟨hy, hR.congr hdone (hsame rfl)⟩
    · obtain ⟨hz, -, hback⟩ := run_leadsBack hrun hx hhead
      exact runEach_leadsBack hrest hz (fun h => hslips (.tail hrun h)) ((hback a rfl).bind hdone)

end

end

mutual

/-- If every change answers, so does every run that does not slip. -/
theorem run_returns (hR : R.Dependable like inv safe) (hsure : ∀ c x, ∃ r y, R.apply c x = .ok r y) :
    ∀ {s : Step κ} {x : σ}, inv x → ¬ R.Slips like safe s x → ∃ r y, R.run s x = .ok r y
  | .mk pre c post k, x, hx, hslips => by
    obtain ⟨before, ok, y, hpre⟩ := runEach_returns hR hsure [] hx (not_slipsEach_pre hslips)
    obtain ⟨hy, hbefore⟩ := runEach_leadsBack hR hpre hx (not_slipsEach_pre hslips) undoAll_nil
    cases ok with
    | false =>
      obtain ⟨z, hback, -⟩ := hbefore y (hR.refl hy)
      exact ⟨_, z, run_iff.2 (.early hpre hback)⟩
    | true =>
      have hsafe := safe_of_not_slips hslips hpre
      obtain ⟨u?, z, happly⟩ := hsure c y
      cases u? with
      | none =>
        obtain ⟨w, hback, -⟩ := hbefore z (hR.refused hy hsafe happly)
        exact ⟨_, w, run_iff.2 (.refused hpre happly hback)⟩
      | some u =>
        have hpost := not_slipsEach_post hslips hpre happly
        have hz := hR.inv_of_apply hy hsafe happly
        obtain ⟨after, ok, w, hafter⟩ := runEach_returns hR hsure [] hz hpost
        cases ok with
        | false =>
          obtain ⟨hw, hlate⟩ := runEach_leadsBack hR hafter hz hpost undoAll_nil
          obtain ⟨v, hback, -⟩ := exists_back_of_late hR hw hbefore (hR.made hy hsafe happly) hlate
            (exists_back_of_not_slips hslips hpre happly hafter)
          exact ⟨_, v, run_iff.2 (.late hpre happly hafter hback)⟩
        | true => exact ⟨_, w, run_iff.2 (.kept hpre happly hafter)⟩

theorem runEach_returns (hR : R.Dependable like inv safe) (hsure : ∀ c x, ∃ r y, R.apply c x = .ok r y) :
    ∀ {ss : List (Step κ)} {x : σ} (done : List (Applied υ)), inv x → ¬ R.SlipsEach like safe ss x →
      ∃ done' ok y, R.runEach ss done x = .ok (done', ok) y
  | [], x, done, _, _ => ⟨done, true, x, runEach_nil.2 rfl⟩
  | s :: ss, x, done, hx, hslips => by
    have hhead : ¬ R.Slips like safe s x := fun h => hslips (.head h)
    obtain ⟨r, y, hrun⟩ := run_returns hR hsure hx hhead
    cases r with
    | none => exact ⟨done, false, y, runEach_cons.2 (.inl ⟨hrun, rfl, rfl⟩)⟩
    | some a =>
      obtain ⟨hy, -⟩ := run_leadsBack hR hrun hx hhead
      obtain ⟨done', ok, z, hrest⟩ := runEach_returns hR hsure (a :: done) hy fun h => hslips (.tail hrun h)
      exact ⟨done', ok, z, runEach_cons.2 (.inr ⟨a, y, hrun, hrest⟩)⟩

end

/-- A change on its own slips only if it is not safe. -/
theorem slips_single : R.Slips like safe (.single c) x ↔ ¬ safe c x := by
  constructor
  · intro h
    cases h with
    | pre h => cases h
    | change hpre hc =>
      cases runEach_nil.1 hpre
      exact hc
    | post _ _ h => cases h
    | order _ _ hrun hsome _ =>
      cases runEach_nil.1 hrun
  · exact fun hc => .change (runEach_nil.2 rfl) hc

/-! ## Tidy steps -/

theorem nil_of_runEach_of_length_le (hlen : ss.length ≤ 1) (h : R.runEach ss [] x = .ok (done, false) y) :
    done = [] := by
  cases ss with
  | nil => cases runEach_nil.1 h
  | cons s ss =>
    obtain rfl : ss = [] := List.eq_nil_of_length_eq_zero (by simpa using hlen)
    rcases runEach_cons.1 h with ⟨-, rfl, -⟩ | ⟨a, z, -, hrest⟩
    · rfl
    · cases runEach_nil.1 hrest

mutual

/-- Every step of the tree clears away the steps after its change, or there is no more than one of them. -/
def Tidy : Step κ → Prop
  | .mk pre _ post clears => TidyAll pre ∧ (clears ∨ post.length ≤ 1) ∧ TidyAll post

def TidyAll : List (Step κ) → Prop
  | [] => True
  | s :: ss => Tidy s ∧ TidyAll ss

end

mutual

/-- Such a step never takes back its change while a step after it stands, so only its changes matter. -/
theorem not_slips_of_tidy (hsafe : ∀ c x, safe c x) : ∀ {s : Step κ} {x : σ}, Tidy s → ¬ R.Slips like safe s x
  | .mk pre c post k, x, ⟨hpre, htidy, hpost⟩, h => by
    cases h with
    | pre h => exact not_slipsEach_of_tidy hsafe hpre h
    | change _ h => exact h (hsafe c _)
    | post _ _ h => exact not_slipsEach_of_tidy hsafe hpost h
    | order _ _ hrun hsome _ => exact hsome (nil_of_runEach_of_length_le (by simpa using htidy) hrun)

theorem not_slipsEach_of_tidy (hsafe : ∀ c x, safe c x) :
    ∀ {ss : List (Step κ)} {x : σ}, TidyAll ss → ¬ R.SlipsEach like safe ss x
  | [], _, _, h => nomatch h
  | s :: ss, x, ⟨hs, hss⟩, h => by
    cases h with
    | head h => exact not_slips_of_tidy hsafe hs h
    | tail _ h => exact not_slipsEach_of_tidy hsafe hss h

end

/-! ## Attempts -/

variable {a a' kept : Attempt υ} {x₀ : σ} {b : Bool}

theorem undoAll_append {as bs : List (Applied υ)} :
    R.undoAll (as ++ bs) = (do R.undoAll as; R.undoAll bs : EStateM ε σ Unit) := by
  induction as with
  | nil => rfl
  | cons a as ih => rw [List.cons_append, undoAll, undoAll, ih, bind_assoc]

theorem tryStep_iff : Attempt.tryStep R a s x = .ok (b, a') y ↔
    ∃ r, R.run s x = .ok r y ∧ b = r.isSome ∧ a' = r.toList ++ a := by
  rw [Attempt.tryStep, run_bind_ok]
  constructor
  · rintro ⟨r, z, hrun, h⟩
    refine ⟨r, ?_⟩
    cases r with
    | none =>
      cases h
      exact ⟨hrun, rfl, rfl⟩
    | some applied =>
      cases h
      exact ⟨hrun, rfl, rfl⟩
  · rintro ⟨r, hrun, rfl, rfl⟩
    refine ⟨r, y, hrun, ?_⟩
    cases r with
    | none => rfl
    | some applied => rfl

theorem tryAll_iff : Attempt.tryAll R a ss x = .ok (b, a') y ↔
    (b = true ∧ R.runEach ss a x = .ok (a', true) y) ∨
      (b = false ∧ a' = [] ∧ ∃ done z, R.runEach ss a x = .ok (done, false) z ∧ R.undoAll done z = .ok () y) := by
  rw [Attempt.tryAll, run_bind_ok]
  constructor
  · rintro ⟨⟨done, ok⟩, z, hrun, h⟩
    cases ok with
    | true =>
      cases h
      exact .inl ⟨rfl, hrun⟩
    | false =>
      obtain ⟨_, w, hback, ⟨⟩⟩ := run_bind_ok.1 h
      exact .inr ⟨rfl, rfl, done, z, hrun, hback⟩
  · rintro (⟨rfl, hrun⟩ | ⟨rfl, rfl, done, z, hrun, hback⟩)
    · exact ⟨(a', true), y, hrun, rfl⟩
    · exact ⟨(done, false), z, hrun, run_bind_ok.2 ⟨_, y, hback, rfl⟩⟩

/-- Attempts made one after the other, from `x₀` on. What was kept of the earlier ones is in `kept`; the one
under way began in `y`, holds the steps `a` and has come to `x`. A step that is run on its own `fits` the state,
and so do steps that are run together. -/
inductive Course (R : Reversal (EStateM ε σ) κ υ) (fits : Step κ → σ → Prop) (fitAll : List (Step κ) → σ → Prop)
    (x₀ : σ) : Attempt υ → σ → Attempt υ → σ → Prop
  | start : Course R fits fitAll x₀ [] x₀ [] x₀
  | tryStep {kept a a' : Attempt υ} {x y z : σ} {s : Step κ} {b : Bool} (h : Course R fits fitAll x₀ kept y a x)
      (hfits : fits s x) (htry : Attempt.tryStep R a s x = .ok (b, a') z) : Course R fits fitAll x₀ kept y a' z
  | tryAll {kept a a' : Attempt υ} {x y z : σ} {ss : List (Step κ)} {b : Bool}
      (h : Course R fits fitAll x₀ kept y a x) (hfits : fitAll ss x)
      (htry : Attempt.tryAll R a ss x = .ok (b, a') z) : Course R fits fitAll x₀ kept y a' z
  /-- The attempt is taken back, and a new one begins. -/
  | rollback {kept a : Attempt υ} {x y z : σ} (h : Course R fits fitAll x₀ kept y a x)
      (hback : R.undoAll a x = .ok () z) : Course R fits fitAll x₀ kept z [] z
  /-- The attempt is kept. -/
  | commit {kept a : Attempt υ} {x y : σ} (h : Course R fits fitAll x₀ kept y a x) :
      Course R fits fitAll x₀ (a ++ kept) x [] x
  /-- Everything that was kept is taken back. -/
  | undo {kept : Attempt υ} {x y z : σ} (h : Course R fits fitAll x₀ kept y [] x)
      (hback : R.undoAll kept x = .ok () z) : Course R fits fitAll x₀ [] z [] z

/-- Attempts in which no step slips. -/
abbrev Trial (R : Reversal (EStateM ε σ) κ υ) (like : σ → σ → Prop) (safe : κ → σ → Prop) :
    σ → Attempt υ → σ → Attempt υ → σ → Prop :=
  R.Course (fun s x => ¬ R.Slips like safe s x) fun ss x => ¬ R.SlipsEach like safe ss x

/-- Attempts with tidy steps. -/
abbrev TidyCourse (R : Reversal (EStateM ε σ) κ υ) : σ → Attempt υ → σ → Attempt υ → σ → Prop :=
  R.Course (fun s _ => Tidy s) fun ss _ => TidyAll ss

theorem Course.trial_of_tidy (hsafe : ∀ c x, safe c x) (h : R.TidyCourse x₀ kept y a x) :
    R.Trial like safe x₀ kept y a x := by
  induction h with
  | start => exact .start
  | tryStep _ hfits htry ih => exact ih.tryStep (not_slips_of_tidy hsafe hfits) htry
  | tryAll _ hfits htry ih => exact ih.tryAll (not_slipsEach_of_tidy hsafe hfits) htry
  | rollback _ hback ih => exact ih.rollback hback
  | commit _ ih => exact ih.commit
  | undo _ hback ih => exact ih.undo hback

/-- The steps of the attempt lead back to where it began, and those that were kept lead back from there to
where everything began. -/
theorem Trial.leadsBack (hR : R.Dependable like inv safe) (hx0 : inv x₀) (h : R.Trial like safe x₀ kept y a x) :
    inv x ∧ inv y ∧ LeadsBack like (R.undoAll a) x y ∧ LeadsBack like (R.undoAll kept) y x₀ := by
  induction h with
  | start => exact ⟨hx0, hx0, undoAll_nil, undoAll_nil⟩
  | tryStep h hslips htry ih =>
    obtain ⟨hx, hy, hattempt, hkept⟩ := ih
    obtain ⟨r, hrun, -, rfl⟩ := tryStep_iff.1 htry
    obtain ⟨hz, hnone, hsome⟩ := run_leadsBack hR hrun hx hslips
    cases r with
    | none => exact ⟨hz, hy, hR.congr hattempt (hnone rfl), hkept⟩
    | some applied => exact ⟨hz, hy, (hsome applied rfl).bind hattempt, hkept⟩
  | tryAll h hslips htry ih =>
    obtain ⟨hx, hy, hattempt, hkept⟩ := ih
    rcases tryAll_iff.1 htry with ⟨-, hrun⟩ | ⟨-, rfl, done, w, hrun, hback⟩
    · obtain ⟨hz, hdone⟩ := runEach_leadsBack hR hrun hx hslips hattempt
      exact ⟨hz, hy, hdone, hkept⟩
    · obtain ⟨hw, hdone⟩ := runEach_leadsBack hR hrun hx hslips hattempt
      have hsame := hdone.like_of_ok (hR.refl hw) hback
      exact ⟨hR.inv_of_like hy hsame, hy, hR.congr undoAll_nil hsame, hkept⟩
  | rollback h hback ih =>
    obtain ⟨hx, hy, hattempt, hkept⟩ := ih
    have hsame := hattempt.like_of_ok (hR.refl hx) hback
    have hz := hR.inv_of_like hy hsame
    exact ⟨hz, hz, undoAll_nil, hR.congr hkept hsame⟩
  | commit h ih =>
    obtain ⟨hx, -, hattempt, hkept⟩ := ih
    refine ⟨hx, hx, undoAll_nil, ?_⟩
    rw [undoAll_append]
    exact hattempt.bind hkept
  | undo h hback ih =>
    obtain ⟨hx, -, hattempt, hkept⟩ := ih
    have hsame := hkept.like_of_ok (hattempt.like_of_ok (hR.refl hx) rfl) hback
    have hz := hR.inv_of_like hx0 hsame
    exact ⟨hz, hz, undoAll_nil, hR.congr undoAll_nil hsame⟩

/-! ## Lawful changes -/

/-- A change that does not apply has no effect, and one that was made is undone by its record in the state
that it led to. -/
structure Lawful (R : Reversal (EStateM ε σ) κ υ) : Prop where
  refused {c : κ} {x y : σ} : R.apply c x = .ok none y → y = x
  made {c : κ} {u : υ} {x y : σ} : R.apply c x = .ok (some u) y → R.revert u y = .ok () x

theorem Lawful.dependable (hR : R.Lawful) :
    R.Dependable (· = ·) (fun _ => True) (fun _ _ => True) where
  refl _ := rfl
  trans := Eq.trans
  inv_of_like _ _ := trivial
  inv_of_apply _ _ _ := trivial
  refused _ _ h := (hR.refused h).symm
  made _ _ h := by
    rintro _ rfl
    exact ⟨_, hR.made h, rfl⟩

/-- Attempts with lawful changes and tidy steps. A step that does not apply leaves the state as it was; steps
run together that do not all apply, and a rollback, lead back to where the attempt began; all that was kept
leads back to where the first attempt began. If changes never fail, none of this does. -/
theorem Course.unwinds (hR : R.Lawful) (h : R.TidyCourse x₀ kept y a x) :
    (∀ s a' z, Tidy s → Attempt.tryStep R a s x = .ok (false, a') z → a' = a ∧ z = x) ∧
    (∀ ss a' z, TidyAll ss → Attempt.tryAll R a ss x = .ok (false, a') z → a' = [] ∧ z = y) ∧
    R.undoAll a x = .ok () y ∧ R.undoAll (a ++ kept) x = .ok () x₀ ∧
    ((∀ c x, ∃ r y, R.apply c x = .ok r y) →
      (∀ s, Tidy s → ∃ b a' z, Attempt.tryStep R a s x = .ok (b, a') z) ∧
      ∀ ss, TidyAll ss → ∃ b a' z, Attempt.tryAll R a ss x = .ok (b, a') z) := by
  have hdep := hR.dependable
  have hstep {s : Step κ} (hs : Tidy s) : ¬ R.Slips (· = ·) (fun _ _ => True) s x :=
    not_slips_of_tidy (fun _ _ => trivial) hs
  have hsteps {ss : List (Step κ)} (hss : TidyAll ss) : ¬ R.SlipsEach (· = ·) (fun _ _ => True) ss x :=
    not_slipsEach_of_tidy (fun _ _ => trivial) hss
  obtain ⟨-, -, hattempt, hkept⟩ := Trial.leadsBack hdep trivial (h.trial_of_tidy fun _ _ => trivial)
  have hall := hattempt.bind hkept
  rw [← undoAll_append] at hall
  refine ⟨fun s a' z hs htry => ?_, fun ss a' z hss htry => ?_, ?_, ?_, fun hsure => ⟨fun s hs => ?_,
    fun ss hss => ?_⟩⟩
  · obtain ⟨r, hrun, hr, rfl⟩ := tryStep_iff.1 htry
    cases r with
    | none => exact ⟨rfl, ((run_leadsBack hdep hrun trivial (hstep hs)).2.1 rfl).symm⟩
    | some applied => cases hr
  · rcases tryAll_iff.1 htry with ⟨hb, -⟩ | ⟨-, rfl, done, w, hrun, hback⟩
    · cases hb
    · have hdone := (runEach_leadsBack hdep hrun trivial (hsteps hss) hattempt).2
      exact ⟨rfl, (hdone.like_of_ok rfl hback).symm⟩
  · obtain ⟨_, hback, rfl⟩ := hattempt x rfl
    exact hback
  · obtain ⟨_, hback, rfl⟩ := hall x rfl
    exact hback
  · obtain ⟨r, z, hrun⟩ := run_returns hdep hsure trivial (hstep hs)
    exact ⟨_, _, z, tryStep_iff.2 ⟨r, hrun, rfl, rfl⟩⟩
  · obtain ⟨done, ok, z, hrun⟩ := runEach_returns hdep hsure a trivial (hsteps hss)
    cases ok with
    | true => exact ⟨_, _, z, tryAll_iff.2 (.inl ⟨rfl, hrun⟩)⟩
    | false =>
      obtain ⟨w, hback, -⟩ := (runEach_leadsBack hdep hrun trivial (hsteps hss) hattempt).2 z rfl
      exact ⟨_, _, w, tryAll_iff.2 (.inr ⟨rfl, rfl, done, z, hrun, hback⟩)⟩

/-! ### A variable -/

/-- A change writes the variable, or does not apply; its record is the old value. -/
def cell : Reversal (EStateM Unit Nat) (Option Nat) Nat where
  apply
    | some new => do
      let old ← get
      set new
      return some old
    | none => return none
  revert old := set old

theorem cell_lawful : cell.Lawful where
  refused {c x y} h := by
    cases c with
    | none => exact (run_pure_ok.1 h).2.symm
    | some new => cases h
  made {c u x y} h := by
    cases c with
    | none => cases h
    | some new =>
      cases h
      rfl

/-- A step with steps around it is kept. A second one writes 4, then 5, then breaks off, and clears away both. -/
theorem unwinds_cell : ∃ kept, cell.TidyCourse 0 kept 3 [] 3 ∧
    Attempt.tryStep cell [] (.mk [] (some 4) [.single (some 5), .single none] true) 3 = .ok (false, []) 3 ∧
    cell.undoAll kept 3 = .ok () 0 := by
  have hstep : cell.TidyCourse 0 [] 0 [.mk [.mk [] 0 []] 1 [.mk [] 2 []]] 3 := by
    refine .tryStep (s := .mk [.single (some 1)] (some 2) [.single (some 3)]) (b := true) .start ?_ rfl
    simp [Tidy, TidyAll, Step.single]
  exact ⟨_, hstep.commit, rfl, (Course.unwinds cell_lawful hstep.commit).2.2.2.1⟩

end Reversal

end Transport
