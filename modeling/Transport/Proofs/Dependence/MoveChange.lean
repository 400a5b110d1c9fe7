import Transport.Proofs.Dependence.Surgery
import Transport.Proofs.Resource.Accounts

/-!
# One move is changed

Bypasses and removals change what one move reads and the outputs of its operations. Moves and
operations still match then.
-/

namespace Transport

namespace Graph

variable {machine : Machine} {g g' : Graph} {n : MoveId} {m m' : Move}

theorem SameMoves.sameShapes (h : g.SameMoves g') : g.SameShapes g' :=
  ⟨fun _ => h.map_eq fun _ => rfl, fun o => by rw [h.op?]⟩

namespace Alters

variable {f : Move → Move} {k : OpId → Operation → Operation}

section

variable (h : g.Alters n f k g')
include h

theorem move_self (hm : g.move? n = some m) : g'.move? n = some (f m) := by
  rw [h.move?, if_pos rfl, hm]
  rfl

theorem move_other {x : MoveId} (hx : x ≠ n) : g'.move? x = g.move? x := by
  rw [h.move?, if_neg hx]

theorem origin (hm : g.move? n = some m) {x : MoveId}
    (hm' : g'.move? x = some m') : x = n ∧ m' = f m ∨ x ≠ n ∧ g.move? x = some m' := by
  by_cases hx : x = n
  · subst hx
    rw [h.move_self hm] at hm'
    exact .inl ⟨rfl, (Option.some.inj hm').symm⟩
  · rw [h.move_other hx] at hm'
    exact .inr ⟨hx, hm'⟩

/-- A move is changed in what it reads, and its operation's outputs follow. -/
theorem matched (hg : g.Matched machine) (hm : g.move? n = some m)
    (hdstOp : (f m).dstOp = m.dstOp) (hdst : (f m).dst = m.dst)
    (hsrc : ∀ o, (f m).srcOp = some o → ∃ op, g.op? o = some op)
    (hout : (f m).srcOp.isSome = (f m).src.isOutput)
    (hk : ∀ o op, k o op = { op with outputs := (k o op).outputs })
    {P : OpId → Prop} (hown : ∀ o, m.srcOp = some o ∨ (f m).srcOp = some o → P o)
    (hsame : ∀ o op, ¬ P o → (k o op).outputs = op.outputs)
    (houts : ∀ o op, P o → g.op? o = some op → (k o op).outputs.Nodup ∧ ∀ x, x ∈ (k o op).outputs ↔
      if x = n then (f m).srcOp = some o ∧ (f m).live else x ∈ op.outputs) : g'.Matched machine := by
  -- The destination side is as before.
  have hdest {x : MoveId} {m' : Move} (hm' : g'.move? x = some m') :
      ∃ m0, g.move? x = some m0 ∧ m'.dstOp = m0.dstOp ∧ m'.dst = m0.dst := by
    rcases h.origin hm hm' with ⟨rfl, rfl⟩ | ⟨-, hm0⟩
    · exact ⟨m, hm, hdstOp, hdst⟩
    · exact ⟨m', hm0, rfl, rfl⟩
  have hop {o : OpId} {op' : Operation} (ho : g'.op? o = some op') :
      ∃ op, g.op? o = some op ∧ op' = k o op := by
    rw [h.op?] at ho
    obtain ⟨op, hop, rfl⟩ := Option.map_eq_some_iff.1 ho
    exact ⟨op, hop, rfl⟩
  have hknown {o : OpId} (ho : ∃ op, g.op? o = some op) : ∃ op', g'.op? o = some op' := by
    obtain ⟨op, ho⟩ := ho
    exact ⟨k o op, by rw [h.op?, ho]; rfl⟩
  constructor
  case mem_inputs =>
    intro o op' x ho'
    obtain ⟨op, ho, rfl⟩ := hop ho'
    rw [hk, hg.mem_inputs ho]
    constructor
    · rintro ⟨m0, hm0, hd⟩
      by_cases hx : x = n
      · subst hx
        rw [hm] at hm0
        cases hm0
        exact ⟨f m, h.move_self hm, hdstOp.trans hd⟩
      · exact ⟨m0, by rw [h.move_other hx, hm0], hd⟩
    · rintro ⟨m', hm', hd⟩
      obtain ⟨m0, hm0, hdo, -⟩ := hdest hm'
      exact ⟨m0, hm0, hdo ▸ hd⟩
  case mem_outputs =>
    intro o op' x ho'
    obtain ⟨op, ho, rfl⟩ := hop ho'
    by_cases ho' : P o
    · rw [(houts o op ho' ho).2]
      by_cases hx : x = n
      · subst hx
        simp [h.move_self hm]
      · rw [if_neg hx, hg.mem_outputs ho, h.move_other hx]
    · rw [hsame o op ho', hg.mem_outputs ho]
      by_cases hx : x = n
      · subst hx
        simp only [hm, h.move_self hm, Option.some.injEq, exists_eq_left']
        exact ⟨fun hs => absurd (hown o (.inl hs.1)) ho', fun hs => absurd (hown o (.inr hs.1)) ho'⟩
      · rw [h.move_other hx]
  case dst_known =>
    intro x m' o hm' hd
    obtain ⟨m0, hm0, hdo, -⟩ := hdest hm'
    exact hknown (hg.dst_known hm0 (hdo ▸ hd))
  case src_known =>
    intro x m' o hm' hs
    rcases h.origin hm hm' with ⟨rfl, rfl⟩ | ⟨-, hm0⟩
    · exact hknown (hsrc o hs)
    · exact hknown (hg.src_known hm0 hs)
  case dst_input =>
    intro x m' hm'
    obtain ⟨m0, hm0, hdo, hd⟩ := hdest hm'
    rw [hdo, hd]
    exact hg.dst_input hm0
  case src_output =>
    intro x m' hm'
    rcases h.origin hm hm' with ⟨rfl, rfl⟩ | ⟨-, hm0⟩
    · exact hout
    · exact hg.src_output hm0
  case units =>
    intro o op' v ho' hv
    obtain ⟨op, ho, rfl⟩ := hop ho'
    have hunits : (k o op).units = op.units := by rw [hk]
    have hcode : (k o op).opcode = op.opcode := by rw [hk]
    rw [hcode]
    exact hg.units ho (hunits ▸ hv)
  case outputs_nodup =>
    intro o op' ho'
    obtain ⟨op, ho, rfl⟩ := hop ho'
    by_cases ho' : P o
    · exact (houts o op ho' ho).1
    · rw [hsame o op ho']
      exact hg.outputs_nodup ho

end

end Alters

end Graph

end Transport
