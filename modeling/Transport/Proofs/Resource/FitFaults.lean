import Transport.Proofs.Run.Faults
import Transport.Resource.Fit

/-!
# What a fit asks

Whether a move fits is told from the operations on the units involved, and from when they start and end. Where
these questions avoid a kind of fault, so does the search for a choice of units.
-/

namespace Transport.Usage

variable {bad : Fault → Prop} {known : OpId → Prop} {machine : Machine} {u : Usage} {g : Graph} {c : Cycle}
  {n : MoveId} {m : Move} {o : OpId} {v : UnitId} {k : Nat}

/-- Questions about known operations avoid the fault, and only known ones are bound to units. -/
structure Asks (bad : Fault → Prop) (u : Usage) (g : Graph) (known : OpId → Prop) : Prop where
  op {o : OpId} : known o → Avoids bad (g.op o)
  trigger {o : OpId} {n : MoveId} : g.trigger o = .ok (some n) → Avoids bad (g.move n)
  others {v : UnitId} {o o' : OpId} : o' ∈ u.othersOn v o → known o'
  ends {o : OpId} {op : Operation} {t : Cycle} : g.op o = .ok op → triggerCycle g o = .ok (some t) →
    Avoids bad (Cycle.add t (Cycle.ofLatency op.latency))
  starts {o : OpId} {op : Operation} {r : Cycle} : g.op o = .ok op → r ∈ readCycles g op →
    Avoids bad (Cycle.sub r (Cycle.ofLatency op.latency))

namespace Asks

variable (h : u.Asks bad g known)
include h

theorem avoids_triggerCycle (ho : known o) : Avoids bad (triggerCycle g o) := by
  refine avoids_bind_iff.2 ⟨avoids_bind (h.op ho) fun _ => avoids_pure _, fun t ht => ?_⟩
  cases t with
  | none => exact avoids_pure none
  | some n => exact avoids_bind (h.trigger ht) fun _ => avoids_pure _

theorem avoids_inputBusy {lo hi : Cycle} : Avoids bad (u.inputBusy g v o k lo hi) := by
  refine avoids_anyM fun other hother => avoids_bind (h.avoids_triggerCycle (h.others hother)) fun _ => ?_
  exact avoids_bind (h.op (h.others hother)) fun _ => avoids_pure _

theorem avoids_resultLost (ho : known o) : Avoids bad (u.resultLost g v o c) := by
  refine avoids_bind (h.avoids_triggerCycle ho) fun t => ?_
  cases t with
  | none => exact avoids_pure false
  | some t =>
    refine avoids_anyM fun other hother => ?_
    refine avoids_bind_iff.2 ⟨h.avoids_triggerCycle (h.others hother), fun t' ht' => ?_⟩
    cases t' with
    | none => exact avoids_pure false
    | some t' =>
      refine avoids_ite_iff.2 ⟨fun _ => avoids_pure false, fun _ => ?_⟩
      refine avoids_bind_iff.2 ⟨h.op (h.others hother), fun op hop => ?_⟩
      exact avoids_bind (h.ends hop ht') fun _ => avoids_pure _

theorem avoids_unitChoices {op : Option OpId} {restrict : List UnitId} (hop : ∀ o, op = some o → known o) :
    Avoids bad (u.unitChoices g op restrict) := by
  cases op with
  | none => exact avoids_pure _
  | some o =>
    unfold unitChoices
    dsimp only
    split
    · exact avoids_pure _
    · exact avoids_bind (h.op (hop o rfl)) fun _ => avoids_pure _

theorem avoids_sourceFree {src : Option Port} (hsrc : ∀ o, m.srcOp = some o → known o)
    (hfile : ∀ f, src = some (.fileRead f) → Avoids bad (machine.file f)) :
    Avoids bad (u.sourceFree machine g c m src) := by
  unfold sourceFree
  split
  · exact avoids_bind (hfile _ rfl) fun _ => avoids_pure _
  · rename_i v k o ho
    refine avoids_ite_iff.2 ⟨fun _ => avoids_pure _, fun _ => ?_⟩
    exact avoids_bind (h.avoids_resultLost (hsrc o ho)) fun _ => avoids_pure _
  · exact avoids_pure _

variable (hadd : ∀ {o op}, g.op o = .ok op → Avoids bad (Cycle.add c (Cycle.ofLatency op.latency)))
include hadd

theorem avoids_triggerDestroys (ho : known o) : Avoids bad (u.triggerDestroys g v o c) := by
  refine avoids_bind_iff.2 ⟨h.op ho, fun op hop => avoids_anyM fun other hother => ?_⟩
  refine avoids_bind_iff.2 ⟨h.op (h.others hother), fun op' hop' => ?_⟩
  refine avoids_bind_iff.2 ⟨h.avoids_triggerCycle (h.others hother), fun t' ht' => ?_⟩
  have hown (last : Cycle) :
      Avoids bad (do return decide ((← Cycle.add c (Cycle.ofLatency op.latency)) ≤ last) : Checked Bool) :=
    avoids_bind (hadd hop) fun _ => avoids_pure _
  unfold triggersClash
  split
  · split
    · rename_i first last hfirst _
      refine avoids_bind (h.starts hop' (List.min?_mem hfirst)) fun _ => ?_
      exact avoids_ite_iff.2 ⟨fun _ => avoids_pure false, fun _ => hown last⟩
    · exact avoids_pure false
  · refine avoids_ite_iff.2 ⟨fun _ => ?_, fun _ => avoids_ite_iff.2 ⟨fun _ => ?_, fun _ => avoids_pure false⟩⟩
    · split
      · exact hown _
      · exact avoids_pure false
    · split
      · exact avoids_bind (h.ends hop' ht') fun _ => avoids_pure _
      · exact avoids_pure false

theorem avoids_destFree {dst : Port} (hdst : ∀ o, m.dstOp = some o → known o)
    (hfile : ∀ f, dst = .fileWrite f → Avoids bad (machine.file f)) :
    Avoids bad (u.destFree machine g c m dst) := by
  unfold destFree
  split
  · rename_i v k o ho
    have hop := hdst o ho
    refine avoids_ite_iff.2 ⟨fun _ => avoids_pure _, fun _ => avoids_ite_iff.2 ⟨fun _ => ?_, fun _ => ?_⟩⟩
    · refine avoids_ite_iff.2 ⟨fun _ => avoids_pure _, fun _ => ?_⟩
      refine avoids_bind (h.avoids_triggerDestroys hadd hop) fun _ => ?_
      refine avoids_ite_iff.2 ⟨fun _ => avoids_pure _, fun _ => avoids_bind ?_ fun _ => avoids_pure _⟩
      refine avoids_bind h.avoids_inputBusy fun _ => avoids_ite_iff.2 ⟨fun _ => avoids_pure _, fun _ => ?_⟩
      refine avoids_bind (h.op hop) fun _ => avoids_anyM fun n _ => ?_
      split
      · split
        · exact h.avoids_inputBusy
        · exact avoids_pure _
      · exact avoids_pure _
    · refine avoids_bind (h.avoids_triggerCycle hop) fun _ => ?_
      exact avoids_bind h.avoids_inputBusy fun _ => avoids_pure _
  · exact avoids_bind (hfile _ rfl) fun _ => avoids_pure _
  · exact avoids_pure _

end Asks

/-- Questions about the move itself avoid the fault: about its operations, its ports and its files. -/
structure Served (bad : Fault → Prop) (machine : Machine) (u : Usage) (g : Graph) (known : OpId → Prop) (m : Move) :
    Prop where
  src {o : OpId} : m.srcOp = some o → known o
  dst {o : OpId} : m.dstOp = some o → known o
  srcPort {s : Option UnitId} : Avoids bad (sourcePort m.src s)
  dstPort {ds : List (Option UnitId)} {d : Option UnitId} : u.unitChoices g m.dstOp [] = .ok ds → d ∈ ds →
    Avoids bad (destPort m.dst d)
  file {r : Reg} : m.src.reg? = some r ∨ m.dst.reg? = some r → Avoids bad (machine.file r.file)

/-- The search for a choice of units avoids what its questions avoid. -/
theorem Asks.avoids_fit (h : u.Asks bad g known) (hn : Avoids bad (g.move n))
    (hm : ∀ m, g.move n = .ok m → Served bad machine u g known m)
    (hadd : ∀ {o op}, 0 ≤ c → g.op o = .ok op → Avoids bad (Cycle.add c (Cycle.ofLatency op.latency))) :
    Avoids bad (u.fit machine g c n) := by
  refine avoids_ite_iff.2 ⟨fun _ => avoids_pure none, fun hc => avoids_bind_iff.2 ⟨hn, fun m hmove => ?_⟩⟩
  have hm := hm m hmove
  refine avoids_bind (h.avoids_unitChoices fun _ => hm.src) fun ss => avoids_findSomeM? fun s _ => ?_
  refine avoids_bind_iff.2 ⟨h.avoids_unitChoices fun _ => hm.dst, fun ds hds => avoids_findSomeM? fun d hd => ?_⟩
  refine avoids_bind_iff.2 ⟨hm.dstPort hds hd, fun dst hdst => ?_⟩
  refine avoids_bind (h.avoids_destFree (hadd (Int.not_lt.1 hc)) (fun _ => hm.dst) fun f hf => ?_) fun b => ?_
  · subst hf
    unfold destPort at hdst
    split at hdst <;> simp at hdst
    subst hdst
    exact hm.file (.inr (by simp_all [Terminal.reg?]))
  refine avoids_ite_iff.2 ⟨fun _ => avoids_bind_iff.2 ⟨hm.srcPort, fun src hsrc => ?_⟩, fun _ => avoids_pure none⟩
  refine avoids_bind (h.avoids_sourceFree (fun _ => hm.src) fun f hf => ?_) fun b => ?_
  · subst hf
    unfold sourcePort at hsrc
    split at hsrc <;> simp at hsrc
    subst hsrc
    exact hm.file (.inl (by simp_all [Terminal.reg?]))
  exact avoids_ite_iff.2 ⟨fun _ => avoids_pure _, fun _ => avoids_pure none⟩

end Transport.Usage
