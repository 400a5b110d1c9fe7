import Transport.Proofs.Renaming.Inventory
import Transport.Proofs.Renaming.Lifetimes
import Transport.Proofs.Reversal.Rollback

/-!
# The registers of a block stay sorted

The renamer sorts the registers that a range may be moved to: those no move mentions, those that are
used in a part of the block, and those that a range was moved to. It sorts them once, along the block,
and from then on moves one register at a time. All the while ranges are renamed, operands are bypassed
and results are taken out, and each of these may be taken back, the last one first. `Course` is such a
run. What it keeps is `Renamer.Sorted`, and what makes it last is that a change that is taken back leaves
a graph that looks as it did before: `Backed`.
-/

namespace Transport

open Transport.Graph

theorem Move.regAt?_of_setRegs {m m' : Move} {r new : Reg} {roles : List (MoveId × Role)} {x : MoveId} {role : Role}
    (h : (m.setRegs new roles x).bare = m'.bare) (hrole : m'.regAt? role = some r) :
    r = new ∨ m.regAt? role = some r := by
  have hsame : (m.setRegs new roles x).regAt? role = some r := (regAt?_bare h role).trans hrole
  by_cases hx : (x, role) ∈ roles
  · left
    cases role with
    | dest => simpa [setRegs, regAt?, hx, Terminal.reg?, eq_comm] using hsame
    | source => simpa [setRegs, regAt?, hx, Terminal.reg?, eq_comm] using hsame
    | guard =>
      cases hg : m.guard <;> simp [setRegs, regAt?, hx, hg] at hsame
      exact hsame.symm
  · right
    rw [← hsame]
    cases role <;> simp [setRegs, regAt?, hx]

/-! ## Legible graphs -/

namespace Graph

variable {machine : Machine} {g g' : Graph} {n x source dest : MoveId} {m : Move} {r new : Reg} {e : EdgeId}
  {l : Link} {range : LiveRange} {role : Role}

/-- The tags of the edges tell which register each live range has. -/
structure Legible (machine : Machine) (g : Graph) : Prop where
  consistent : g.Consistent
  matched : g.Matched machine
  truthful : g.Truthful True
  plain {e : EdgeId} {l : Link} : g.link? e = some l → l.live → l.dep.isPseudo = false

/-- A move that is in the graph reads or writes the register, or its guard does. -/
def Mentions (g : Graph) (r : Reg) : Prop :=
  ∃ n m role, g.move? n = some m ∧ m.live ∧ m.regAt? role = some r

/-- A change that no register comes into use by, except for those of `News`. -/
structure Tolerates (machine : Machine) (News : Reg → Prop) (g g' : Graph) : Prop where
  legible : g'.Legible machine
  liveOut : g'.liveOut = g.liveOut
  forcedFiles : g'.forcedFiles = g.forcedFiles
  mentions {r : Reg} : g'.Mentions r → News r ∨ g.Mentions r

theorem Tolerates.isLiveOut {News : Reg → Prop} (h : Tolerates machine News g g') :
    g'.isLiveOut r = g.isLiveOut r := by
  rw [Graph.isLiveOut, Graph.isLiveOut, isForced, isForced, h.liveOut, h.forcedFiles]

theorem SameMoves.mentions (h : g.SameMoves g') (hr : g'.Mentions r) : g.Mentions r := by
  obtain ⟨n, m', role, hm', hlive, hrole⟩ := hr
  obtain ⟨m, hm, hbare⟩ := exists_of_map_eq (h.moves n) hm'
  exact ⟨n, m, role, hm, (congrArg Move.live hbare).trans hlive, (regAt?_bare hbare role).trans hrole⟩

namespace Legible

variable (hg : g.Legible machine)
include hg

theorem inOrder : g.InOrder := ⟨hg.consistent, hg.truthful.not_overwritesItself⟩

theorem resembles (hr : g.Resembles g') : g'.Legible machine where
  consistent := hr.consistent
  matched := hg.matched.congr hr.moves.sameShapes
  truthful := by
    intro e l hl hlive
    have hregs : g'.regOf = g.regOf := by
      funext x role
      exact regOf_congr hr.moves
    rw [hregs]
    exact hg.truthful e l (hr.toExtends.live hl hlive) hlive
  plain hl hlive := hg.plain (hr.toExtends.live hl hlive) hlive

theorem rawOk (hl : g.link? e = some l) (hlive : l.live) : g.RawOk l := by
  intro hraw
  obtain ⟨r, hcarries, htail, hhead⟩ := hg.truthful.valuesAgree.carries hl hlive hraw
  obtain ⟨mt, hmt, hdst⟩ := regOf_eq_some.1 htail
  obtain ⟨mh, hmh, hread⟩ := regOf_eq_some.1 hhead
  refine ⟨r, mt, mh, (Dependence.carries_iff.1 hcarries).2, hmt, hmh, Terminal.reg?_eq_some.1 hdst, fun hguard => ?_, fun hguard => ?_⟩
  · rw [Dependence.readRole, hguard] at hread
    exact Terminal.reg?_eq_some.1 hread
  · rw [Dependence.readRole, if_pos hguard] at hread
    obtain ⟨guard, hg', rfl⟩ := Option.map_eq_some_iff.1 hread
    simp [Move.guardFile, hg']

/-- The two ends of an edge that a value travels along access its register. -/
theorem accesses_of_carries (hl : g.link? e = some l) (hlive : l.live) (hraw : l.dep.carries .raw r)
    (htail : (g.move? l.tail).any Move.live) (hhead : (g.move? l.head).any Move.live) :
    (l.tail, .dest) ∈ g.accesses r ∧ (l.head, l.dep.readRole) ∈ g.accesses r := by
  obtain ⟨hdst, hsrc⟩ := hg.truthful.valuesAgree.regOf hl hlive hraw
  obtain ⟨mt, hmt, hdst⟩ := regOf_eq_some.1 hdst
  obtain ⟨mh, hmh, hsrc⟩ := regOf_eq_some.1 hsrc
  rw [hmt] at htail
  rw [hmh] at hhead
  exact ⟨mem_accesses.2 ⟨mt, hmt, htail, hdst⟩, mem_accesses.2 ⟨mh, hmh, hhead, hsrc⟩⟩

end Legible

/-! ### Renamings -/

theorem alters_of_setPlacement {p : Option Placement} (h : g.setPlacement n p = .ok g') :
    g.Alters n (fun m => { m with placement := p }) (fun _ op => op) g' ∧ g'.frame = g.frame := by
  obtain ⟨-, -, rfl⟩ := setPlacement_ok h
  refine ⟨⟨fun _ => move?_modifyMove, fun o => ?_, fun _ => rfl, ?_, rfl, rfl, rfl⟩, rfl⟩
  · cases hop : g.op? o <;> simp [hop]
  · simp [modifyMove]

namespace Legible

variable (hg : g.Legible machine)
include hg

theorem rename {rn rn' : Renamer} {mode : RenameMode} {u : RenameRecord}
    (hrange : g.liveRange n role = .ok range) (h : rn.rename g range new mode = .ok (some (u, rn', g'))) :
    Tolerates machine (· = new) g g' := by
  have hlinked := hg.consistent.toLinked
  obtain ⟨w, edges, htransfers, -⟩ := transfers_of_rename hlinked hg.truthful.valuesAgree hrange h
  obtain ⟨g1, g2, g3, hrel⟩ := htransfers.relabels hlinked
  have hold {x : MoveId} {m : Move} {role : Role} (hm : g.move? x = some m) (hx : (x, role) ∈ range.roles) :
      m.regAt? role = some u.old := by
    have hreg := htransfers.regOf hlinked hg.truthful.valuesAgree (mem_roles.1 hx)
    rwa [regOf, hm] at hreg
  refine ⟨⟨(settles_of_rename hg.inOrder h).inOrder.consistent, hg.matched.congr ⟨fun n => ?_, fun o => ?_⟩,
    htransfers.truthful hlinked (fun _ _ => hg.plain) hg.truthful, fun hl hlive => ?_⟩, ?_, ?_, ?_⟩
  · have hbare := hrel.renames.bare n
    cases hm : g.move? n with
    | none =>
      rw [hm, Option.map_none, Option.map_eq_none_iff] at hbare
      rw [hbare]
    | some m =>
      rw [hm] at hbare
      obtain ⟨m', hm', hbare⟩ := Option.map_eq_some_iff.1 hbare
      rw [hm', Option.map_some, Option.map_some, Option.some.injEq]
      have hshape : (m.setRegs new range.roles n).shape = m.shape :=
        Move.setRegs_shape (fun hn => Terminal.reg?_eq_some.1 (hold hm hn))
          fun hn => Terminal.reg?_eq_some.1 (hold hm hn)
      exact (congrArg Move.shape hbare).trans hshape
  · rw [hrel.settled.moves.op?, hrel.bridged.moves.op?, hrel.reregisters.op?, hrel.planned.moves.op?]
  · obtain ⟨l0, hl0, hlive0, rfl⟩ := hrel.settled_link hl hlive
    rw [Dependence.isPseudo_of_untagged settle_ends.2.2]
    exact hrel.isPseudo (fun _ _ => hg.plain) (fun _ _ _ => htransfers.separating) hl0 hlive0
  · rw [hrel.settled.moves.liveOut, hrel.bridged.moves.liveOut, hrel.reregisters.liveOut, hrel.planned.moves.liveOut]
  · rw [hrel.settled.moves.forcedFiles, hrel.bridged.moves.forcedFiles, hrel.reregisters.forcedFiles,
      hrel.planned.moves.forcedFiles]
  · rintro r ⟨x, m', role, hm', hlive, hrole⟩
    obtain ⟨m, hm, hbare⟩ := exists_of_map_eq (hrel.renames.bare x) hm'
    rcases Move.regAt?_of_setRegs hbare hrole with hnew | hkept
    · exact .inl hnew
    · exact .inr ⟨x, m, role, hm, (congrArg Move.live hbare).trans hlive, hkept⟩

theorem merge {u : MergeRecord} {s d : Move} (hsole : g.soleSource dest = some source)
    (hs : g.move? source = some s) (hby : g.isBypassable s) (hd : g.move? dest = some d) (hop : d.isOperand)
    (hpend : d.placement = none) (h : g.merge source dest false = .ok (some (g', u))) :
    Tolerates machine (fun _ => False) g g' := by
  obtain ⟨g1, hedges, hred⟩ := merge_eq_some h
  have hsettles := settles_of_mergeEdges hg.inOrder hedges
  obtain ⟨r, s', d', g2, hdiverts⟩ := Bypasses.diverts_of_live
    ⟨hsole, ⟨s, hs, hby⟩, ⟨d, hd, hop, hpend⟩, g1, hedges, hred⟩ hg.matched hg.consistent.toLinked
    fun e l hl hlive => ⟨hg.rawOk hl hlive, hg.plain hl hlive⟩
  obtain ⟨f, halters, hf⟩ := hdiverts.redirects
  refine ⟨⟨(settles_of_redirect hsettles.inOrder hred).inOrder.consistent, hdiverts.matched hg.matched,
    hg.truthful.diverts hdiverts, fun hl hlive => ?_⟩, ?_, ?_, ?_⟩
  · rw [halters.link?] at hl
    rcases hdiverts.merges.rewires.live_or_new hl hlive with hold | hnew
    · exact hg.plain hold hlive
    · obtain ⟨e0, l0, hl0, hlive0, -, -, hdep⟩ := hnew.origin
      exact hdep ▸ hg.plain hl0 hlive0
  · rw [halters.liveOut, hdiverts.merges.rewires.moves.liveOut]
  · rw [halters.forcedFiles, hdiverts.merges.rewires.moves.forcedFiles]
  · rintro r ⟨x, m, role, hm, hlive, hrole⟩
    refine .inr (hdiverts.merges.rewires.moves.mentions ?_)
    rw [halters.move?] at hm
    split at hm
    case isFalse => exact ⟨x, m, role, hm, hlive, hrole⟩
    obtain ⟨m0, hm0, rfl⟩ := Option.map_eq_some_iff.1 hm
    obtain ⟨units, hfm⟩ := hf m0
    rw [hfm] at hlive hrole
    cases role with
    | dest => exact ⟨x, m0, .dest, hm0, hlive, hrole⟩
    | guard => exact ⟨x, m0, .guard, hm0, hlive, hrole⟩
    | source =>
      cases hdiverts.free.symm.trans hrole

theorem remove {rm : RemovedMove} (hm : g.move? n = some m) (hlive : m.live) (hres : m.isResult)
    (h : g.removeMove n = .ok (g', rm)) : Tolerates machine (fun _ => False) g g' := by
  obtain ⟨g1, hrew, ha⟩ := rewires_of_removeMove h
  refine ⟨⟨(settles_of_removeMove hg.inOrder h).inOrder.consistent, matched_of_removeMove hg.matched hm hlive hres h,
    hg.truthful.removes h, fun hl hl' => ?_⟩, ?_, ?_, ?_⟩
  · rw [ha.link?] at hl
    exact hg.plain (hrew.live_of_live hl hl') hl'
  · rw [ha.liveOut, hrew.moves.liveOut]
  · rw [ha.forcedFiles, hrew.moves.forcedFiles]
  · rintro r ⟨x, m', role, hm', hlive', hrole⟩
    refine .inr (hrew.moves.mentions ?_)
    rw [ha.move?] at hm'
    split at hm'
    case isFalse => exact ⟨x, m', role, hm', hlive', hrole⟩
    obtain ⟨m0, hm0, rfl⟩ := Option.map_eq_some_iff.1 hm'
    cases hlive'

theorem place {p : Option Placement} (h : g.setPlacement n p = .ok g') :
    Tolerates machine (fun _ => False) g g' := by
  obtain ⟨ha, -⟩ := alters_of_setPlacement h
  have hshape (x : MoveId) : (g'.move? x).map Move.shape = (g.move? x).map Move.shape := by
    rw [ha.move?]
    split
    · rw [Option.map_map]
      rfl
    · rfl
  have hregs : g'.regOf = g.regOf := by
    funext x role
    rw [regOf, regOf, ha.move?]
    split
    · cases g.move? x <;> cases role <;> rfl
    · rfl
  refine ⟨⟨ha.consistent (fun _ => rfl) (fun _ => rfl) hg.consistent,
    hg.matched.congr ⟨hshape, fun o => ?_⟩, fun e l hl hlive => ?_,
    fun hl hlive => hg.plain (ha.link? _ ▸ hl) hlive⟩, ha.liveOut, ha.forcedFiles, ?_⟩
  · rw [ha.op?, Option.map_id']
  · rw [ha.link?] at hl
    exact hregs ▸ hg.truthful e l hl hlive
  · rintro r ⟨x, m', role, hm', hlive, hrole⟩
    rw [ha.move?] at hm'
    split at hm'
    case isFalse => exact .inr ⟨x, m', role, hm', hlive, hrole⟩
    obtain ⟨m, hm, rfl⟩ := Option.map_eq_some_iff.1 hm'
    exact .inr ⟨x, m, role, hm, hlive, by cases role <;> exact hrole⟩

end Legible

end Graph

/-! ## The classes -/

namespace Renamer

variable {machine : Machine} {g g' : Graph} {rn : Renamer} {r new : Reg} {range : LiveRange} {mode : RenameMode}

/-- A register of one of the classes. -/
def Sorts (rn : Renamer) (r : Reg) : Prop := r ∈ rn.free ∨ r ∈ rn.partly ∨ r ∈ rn.used

/-- What the classes mean. -/
structure Sorted (machine : Machine) (g : Graph) (rn : Renamer) : Prop where
  free_partly {r : Reg} : r ∈ rn.free → r ∉ rn.partly
  free_used {r : Reg} : r ∈ rn.free → r ∉ rn.used
  partly_used {r : Reg} : r ∈ rn.partly → r ∉ rn.used
  allots {r : Reg} : rn.Sorts r → machine.Allots r
  not_liveOut {r : Reg} : rn.Sorts r → g.isLiveOut r = false
  unmentioned {r : Reg} : r ∈ rn.free → ¬ g.Mentions r

theorem mem_free_take : r ∈ (rn.take range new mode).free ↔ r ≠ new ∧ r ∈ rn.free := by
  simp [take, setMembership, recordUse, @eq_comm _ new r]

theorem mem_partly_take : r ∈ (rn.take range new mode).partly ↔ r ≠ new ∧ r ∈ rn.partly := by
  simp [take, setMembership, recordUse, @eq_comm _ new r]

theorem mem_used_take : r ∈ (rn.take range new mode).used ↔ r = new ∨ r ∈ rn.used := by
  simp [take, setMembership, recordUse, @eq_comm _ new r]

theorem sorts_of_isAvailable (h : rn.isAvailable new mode) : rn.Sorts new := by
  cases mode <;> simp [isAvailable, Sorts] at h ⊢ <;> grind

namespace Sorted

variable (h : rn.Sorted machine g)
include h

/-- A register that a range is moved to is used. -/
theorem take (hnew : rn.isAvailable new mode) (hg : Tolerates machine (· = new) g g') :
    (rn.take range new mode).Sorted machine g' := by
  have hsorts {r : Reg} (hr : (rn.take range new mode).Sorts r) : rn.Sorts r := by
    simp only [Sorts, mem_free_take, mem_partly_take, mem_used_take] at hr
    rcases hr with ⟨-, hr⟩ | ⟨-, hr⟩ | rfl | hr
    · exact .inl hr
    · exact .inr (.inl hr)
    · exact sorts_of_isAvailable hnew
    · exact .inr (.inr hr)
  constructor
  case free_partly =>
    intro r hr hr'
    exact h.free_partly (mem_free_take.1 hr).2 (mem_partly_take.1 hr').2
  case free_used =>
    intro r hr hr'
    obtain ⟨hne, hr⟩ := mem_free_take.1 hr
    exact h.free_used hr ((mem_used_take.1 hr').resolve_left hne)
  case partly_used =>
    intro r hr hr'
    obtain ⟨hne, hr⟩ := mem_partly_take.1 hr
    exact h.partly_used hr ((mem_used_take.1 hr').resolve_left hne)
  case allots => exact fun hr => h.allots (hsorts hr)
  case not_liveOut => exact fun hr => hg.isLiveOut.trans (h.not_liveOut (hsorts hr))
  case unmentioned =>
    intro r hr hmen
    obtain ⟨hne, hr⟩ := mem_free_take.1 hr
    exact h.unmentioned hr ((hg.mentions hmen).resolve_left hne)

theorem tolerates (hg : Tolerates machine (fun _ => False) g g') : rn.Sorted machine g' where
  free_partly := h.free_partly
  free_used := h.free_used
  partly_used := h.partly_used
  allots := h.allots
  not_liveOut hr := hg.isLiveOut.trans (h.not_liveOut hr)
  unmentioned hr hmen := h.unmentioned hr ((hg.mentions hmen).resolve_left id)

end Sorted

theorem sorted_ofGraph {long : Bool} : Sorted machine g
    { ofGraph (({} : Inventory).registers machine).1 g with longImmediates := long } := by
  have hregs : (({} : Inventory).registers machine).1 = machine.usableRegisters := rfl
  have hfree {r : Reg} : r ∈ (ofGraph machine.usableRegisters g).free ↔ r ∈ machine.usableRegisters ∧
      g.isLiveOut r = false ∧ ¬ (Lifetimes.ofGraph g).Touched r := by
    simp [ofGraph, Lifetimes.Touched]
    tauto
  have hpartly {r : Reg} : r ∈ (ofGraph machine.usableRegisters g).partly ↔ r ∈ machine.usableRegisters ∧
      g.isLiveOut r = false ∧ (Lifetimes.ofGraph g).Touched r := by
    simp [ofGraph, Lifetimes.Touched, and_assoc]
  have hused {r : Reg} : r ∉ (ofGraph machine.usableRegisters g).used := by
    simp [ofGraph]
  have hsorts {r : Reg} (hr : Sorts { ofGraph machine.usableRegisters g with longImmediates := long } r) :
      r ∈ machine.usableRegisters ∧ g.isLiveOut r = false := by
    rcases hr with hr | hr | hr
    · exact ⟨(hfree.1 hr).1, (hfree.1 hr).2.1⟩
    · exact ⟨(hpartly.1 hr).1, (hpartly.1 hr).2.1⟩
    · exact (hused hr).elim
  rw [hregs]
  exact
    { free_partly := fun hr hr' => (hfree.1 hr).2.2 (hpartly.1 hr').2.2
      free_used := fun _ => hused
      partly_used := fun _ => hused
      allots := fun hr => Machine.mem_usableRegisters.1 (hsorts hr).1
      not_liveOut := fun hr => (hsorts hr).2
      unmentioned := by
        rintro r hr ⟨n, m, role, h⟩
        exact (hfree.1 hr).2.2 (Lifetimes.touched_of_access (mem_accesses.2 ⟨m, h⟩)) }

end Renamer

/-! ## Whole runs -/

/-- What a change leaves behind to be taken back with. -/
inductive Unmaking
  | rename (u : RenameRecord)
  | merge (u : MergeRecord)
  | remove (rm : RemovedMove)
  | place (n : MoveId) (before : Option Placement)

def Unmaking.run (rn : Renamer) (g : Graph) : Unmaking → Checked (Renamer × Graph)
  | .rename u => rn.undo g u
  | .merge u => return (rn, ← g.undoMerge u)
  | .remove rm => return (rn, ← g.restoreMove rm)
  | .place n before => return (rn, ← g.setPlacement n before)

/-- One change: a live range is moved to a register that is given or looked for, an operand is bypassed,
a result without readers is taken out, or a move is put on a cycle or taken off. -/
inductive Making (machine : Machine) (rn : Renamer) (g : Graph) : Unmaking → Renamer → Graph → Prop
  | rename {n : MoveId} {role : Role} {range : LiveRange} {new : Reg} {mode : RenameMode} {u : RenameRecord}
      {rn' : Renamer} {g' : Graph} (range_eq : g.liveRange n role = .ok range)
      (run : rn.rename g range new mode = .ok (some (u, rn', g'))) : Making machine rn g (.rename u) rn' g'
  | renameAt {n : MoveId} {dest : Bool} {cycle : Cycle} {direction : Direction} {u : RenameRecord}
      {rn' : Renamer} {g' : Graph}
      (run : rn.renameAt machine g n dest cycle direction = .ok (some (u, rn', g'))) :
      Making machine rn g (.rename u) rn' g'
  | merge {source dest : MoveId} {s d : Move} {u : MergeRecord} {g' : Graph}
      (sole : g.soleSource dest = some source) (producer : g.move? source = some s)
      (bypassable : g.isBypassable s) (consumer : g.move? dest = some d) (operand : d.isOperand)
      (pending : d.placement = none) (run : g.merge source dest false = .ok (some (g', u))) :
      Making machine rn g (.merge u) rn g'
  | remove {n : MoveId} {m : Move} {rm : RemovedMove} {g' : Graph} (move : g.move? n = some m) (live : m.live)
      (result : m.isResult) (unneeded : g.resultNeeded n = .ok false) (run : g.removeMove n = .ok (g', rm)) :
      Making machine rn g (.remove rm) rn g'
  | place {n : MoveId} {m : Move} {p : Option Placement} {g' : Graph} (move : g.move? n = some m)
      (run : g.setPlacement n p = .ok g') : Making machine rn g (.place n m.placement) rn g'

/-- Changes are made one after the other, and the last one that still stands may be taken back. The
list tells how to take back those that stand, the last one first. -/
inductive Course (machine : Machine) (rn₀ : Renamer) (g₀ : Graph) : List Unmaking → Renamer → Graph → Prop
  | start : Course machine rn₀ g₀ [] rn₀ g₀
  | make {us : List Unmaking} {u : Unmaking} {rn rn' : Renamer} {g g' : Graph}
      (course : Course machine rn₀ g₀ us rn g) (making : Making machine rn g u rn' g') :
      Course machine rn₀ g₀ (u :: us) rn' g'
  | unmake {us : List Unmaking} {u : Unmaking} {rn rn' : Renamer} {g g' : Graph}
      (course : Course machine rn₀ g₀ (u :: us) rn g) (run : u.run rn g = .ok (rn', g')) :
      Course machine rn₀ g₀ us rn' g'

variable {machine : Machine} {rn rn' rn0 : Renamer} {g g' g₀ h h' : Graph} {u : Unmaking} {us : List Unmaking}

/-- What a renaming leaves behind names the register that the range was moved to. -/
def Unmaking.target? : Unmaking → Option Reg
  | .rename u => some u.new
  | _ => none

/-- What holds at each moment of a run. -/
structure InClass (machine : Machine) (us : List Unmaking) (rn : Renamer) (g : Graph) : Prop where
  legible : g.Legible machine
  sorted : rn.Sorted machine g
  moved {u : Unmaking} {r : Reg} : u ∈ us → u.target? = some r → r ∈ rn.used

section

variable (hc : InClass machine us rn g)
include hc

theorem InClass.resembles (hr : g.Resembles h) : InClass machine us rn h := by
  have hlegible := hc.legible.resembles hr
  have hsame : Tolerates machine (fun _ => False) g h :=
    ⟨hlegible, hr.moves.liveOut, hr.moves.forcedFiles, fun hmen => .inr (hr.moves.mentions hmen)⟩
  exact ⟨hlegible, hc.sorted.tolerates hsame, hc.moved⟩

/-- The renamings are where registers change their class. -/
theorem InClass.rename {n : MoveId} {role : Role} {range : LiveRange} {new : Reg} {mode : RenameMode}
    {u : RenameRecord} (hrange : g.liveRange n role = .ok range)
    (h : rn.rename g range new mode = .ok (some (u, rn', g'))) : InClass machine (.rename u :: us) rn' g' := by
  have htolerates := hc.legible.rename hrange h
  obtain ⟨w, old, planned, needed, edges, -, hadmits, -, -, -, rfl, rfl⟩ := Renamer.rename_eq_some h
  have havailable : rn.isAvailable new mode := by
    simp only [Renamer.admits, Bool.and_eq_true] at hadmits
    exact hadmits.2
  refine ⟨htolerates.legible, hc.sorted.take havailable htolerates, fun hu htarget => ?_⟩
  rw [Renamer.mem_used_take]
  rcases List.mem_cons.1 hu with rfl | hu
  · exact .inl (Option.some.inj htarget).symm
  · exact .inr (hc.moved hu htarget)

/-- The other changes leave the renamer as it is. -/
theorem InClass.tolerates (hu : u.target? = none)
    (h : Tolerates machine (fun _ => False) g g') : InClass machine (u :: us) rn g' := by
  refine ⟨h.legible, hc.sorted.tolerates h, fun hu' htarget => ?_⟩
  rcases List.mem_cons.1 hu' with rfl | hu'
  · rw [hu] at htarget
    cases htarget
  · exact hc.moved hu' htarget

theorem InClass.making (hm : Making machine rn g u rn' g') : InClass machine (u :: us) rn' g' := by
  cases hm with
  | rename range_eq run => exact hc.rename range_eq run
  | renameAt run =>
    obtain ⟨range, w, files, new, mode, hrange, -, -, -, -, hrename⟩ := rename_of_renameAt run
    exact hc.rename hrange hrename
  | merge sole producer bypassable consumer operand pending run =>
    exact hc.tolerates rfl (hc.legible.merge sole producer bypassable consumer operand pending run)
  | remove move live result unneeded run => exact hc.tolerates rfl (hc.legible.remove move live result run)
  | place move run => exact hc.tolerates rfl (hc.legible.place run)

end

/-- A change that is taken back leaves the renamer of before and a graph that looks as before. -/
theorem Making.unmake (hg : g.Legible machine) (hm : Making machine rn g u rn' g') (hr : g'.Resembles h)
    (hrun : u.run rn' h = .ok (rn0, h')) : rn0 = rn ∧ g.Resembles h' := by
  have hlinked := hg.consistent.toLinked
  cases hm with
  | rename range_eq run =>
    exact Renamer.resembles_of_undo hlinked hg.truthful.valuesAgree hg.inOrder.once range_eq run hr hrun
  | renameAt run =>
    obtain ⟨range, w, files, new, mode, hrange, -, -, -, -, hrename⟩ := rename_of_renameAt run
    exact Renamer.resembles_of_undo hlinked hg.truthful.valuesAgree hg.inOrder.once hrange hrename hr hrun
  | merge sole producer bypassable consumer operand pending run =>
    simp only [Unmaking.run, bind_eq_ok, pure_eq_ok, Prod.mk.injEq] at hrun
    obtain ⟨_, hundo, rfl, rfl⟩ := hrun
    exact ⟨rfl, resembles_of_undoMerge hlinked run hr hundo⟩
  | remove move live result unneeded run =>
    simp only [Unmaking.run, bind_eq_ok, pure_eq_ok, Prod.mk.injEq] at hrun
    obtain ⟨_, hundo, rfl, rfl⟩ := hrun
    exact ⟨rfl, resembles_of_restoreMove move live run hr hundo⟩
  | place move run =>
    simp only [Unmaking.run, bind_eq_ok, pure_eq_ok, Prod.mk.injEq] at hrun
    obtain ⟨_, hundo, rfl, rfl⟩ := hrun
    obtain ⟨ha, hframe⟩ := alters_of_setPlacement run
    obtain ⟨hb, hframe'⟩ := alters_of_setPlacement hundo
    refine ⟨rfl, ha.undo hr hb ?_ (fun _ _ _ => rfl) (fun _ => rfl) (fun _ => rfl) hframe hframe'⟩
    intro m0 m' hm0 hbare
    rw [move] at hm0
    cases hm0
    cases m'
    simp_all [Move.bare]

/-- The moment itself and all those that the standing changes lead back to are in order. -/
def Backed (machine : Machine) : List Unmaking → Renamer → Graph → Prop
  | [], rn, g => InClass machine [] rn g
  | u :: us, rn, g => InClass machine (u :: us) rn g ∧ ∃ rn₀ g₀, Backed machine us rn₀ g₀ ∧
    ∀ h h' rn', g.Resembles h → u.run rn h = .ok (rn', h') → rn' = rn₀ ∧ g₀.Resembles h'

namespace Backed

theorem inClass (hb : Backed machine us rn g) : InClass machine us rn g := by
  cases us with
  | nil => exact hb
  | cons u us => exact hb.1

theorem resembles (hb : Backed machine us rn g) (hr : g.Resembles h) : Backed machine us rn h := by
  cases us with
  | nil => exact InClass.resembles hb hr
  | cons u us =>
    obtain ⟨hc, rn0, g₀, hb0, hback⟩ := hb
    exact ⟨hc.resembles hr, rn0, g₀, hb0, fun k k' rn' hk => hback k k' rn' (hr.trans hk)⟩

theorem make (hb : Backed machine us rn g) (hm : Making machine rn g u rn' g') :
    Backed machine (u :: us) rn' g' :=
  ⟨hb.inClass.making hm, rn, g, hb, fun _ _ _ hr hrun => hm.unmake hb.inClass.legible hr hrun⟩

theorem unmake (hb : Backed machine (u :: us) rn g) (hrun : u.run rn g = .ok (rn', g')) :
    Backed machine us rn' g' := by
  obtain ⟨hc, rn0, g₀, hb0, hback⟩ := hb
  obtain ⟨rfl, hr⟩ := hback g g' rn' (.refl hc.legible.consistent) hrun
  exact hb0.resembles hr

end Backed

theorem Course.backed (hc : Course machine rn0 g₀ us rn g) (hstart : InClass machine [] rn0 g₀) :
    Backed machine us rn g := by
  induction hc with
  | start => exact hstart
  | make _ making ih => exact ih.make making
  | unmake _ run ih => exact ih.unmake run

/-! ## From a built graph on -/

namespace Program

variable {p : Program}

theorem legible_of_graph (h : p.graph machine = .ok g) : g.Legible machine where
  consistent := consistent_of_graph h
  matched := (upheld_of_graph h).matched
  truthful := truthful_of_graph h
  plain hl _ := ((upheld_of_graph h).tagged.ok hl).1

/-- Whatever is renamed, bypassed and taken out, and taken back in reverse order: no register is in two
classes, none of theirs is one that renaming must not hand out or one that is needed after the block, and no
move mentions a free one. A register that a range was moved to is used until the renaming is taken back. -/
theorem sorted_of_course {long : Bool} (hbuilt : p.graph machine = .ok g₀)
    (hrun : Course machine
      { Renamer.ofGraph (({} : Inventory).registers machine).1 g₀ with longImmediates := long } g₀ us rn g) :
    rn.Sorted machine g ∧ ∀ u, .rename u ∈ us → u.new ∈ rn.used := by
  have hstart : InClass machine []
      { Renamer.ofGraph (({} : Inventory).registers machine).1 g₀ with longImmediates := long } g₀ :=
    ⟨legible_of_graph hbuilt, Renamer.sorted_ofGraph, fun hu => (List.not_mem_nil hu).elim⟩
  have hc := (hrun.backed hstart).inClass
  exact ⟨hc.sorted, fun u hu => hc.moved hu rfl⟩

/-! ### A constant that is loaded and used -/

def loadThenUse : Program where
  operations := #[⟨"sub", none⟩]
  moves := #[{ src := .immediate 5, dst := .register ⟨⟨0⟩, 0⟩ },
    { src := .register ⟨⟨0⟩, 0⟩, dst := .input 1 true, dstOp := some 0 }]
  liveOut := some ∅

/-- The constant can be bypassed into its use, and the bypass can be taken back. -/
def bypassesBack (g : Graph) : Bool :=
  decide (g.soleSource ⟨1⟩ = some ⟨0⟩) && (g.move? ⟨0⟩).any g.isBypassable &&
    (g.move? ⟨1⟩).any (fun d => d.isOperand && d.placement.isNone) &&
    (g.merge ⟨0⟩ ⟨1⟩ false).toOption.any fun x : Option (Graph × MergeRecord) =>
      x.any fun y : Graph × MergeRecord => (y.1.undoMerge y.2).toOption.any fun _ => true

theorem exists_of_bypassesBack (machine : Machine) (rn : Renamer) (h : bypassesBack g) : ∃ u g1 g',
    Making machine rn g (.merge u) rn g1 ∧ (Unmaking.merge u).run rn g1 = .ok (rn, g') := by
  simp only [bypassesBack, Bool.and_eq_true, decide_eq_true_eq] at h
  obtain ⟨⟨⟨hsole, hs⟩, hd⟩, h⟩ := h
  obtain ⟨s, hs, hby⟩ := (Option.any_eq_true _ _).1 hs
  obtain ⟨d, hd, hpend⟩ := (Option.any_eq_true _ _).1 hd
  obtain ⟨x, hmerge, h⟩ := exists_ok_of_any h
  obtain ⟨⟨g1, u⟩, rfl, h⟩ := (Option.any_eq_true _ _).1 h
  obtain ⟨g', hundo, -⟩ := exists_ok_of_any h
  simp only [Bool.and_eq_true, Option.isNone_iff_eq_none] at hpend
  refine ⟨u, g1, g', .merge hsole hs hby hd hpend.1 hpend.2 hmerge, ?_⟩
  rw [Unmaking.run, hundo]
  rfl

/-- The constant is loaded into another register and then bypassed, and the bypass is taken back. -/
theorem sorted_of_course_loadThenUse : ∃ g₀ u rn g, loadThenUse.graph hastyWired = .ok g₀ ∧
    Course hastyWired
      { Renamer.ofGraph (({} : Inventory).registers hastyWired).1 g₀ with longImmediates := false } g₀
      [.rename u] rn g ∧ rn.Sorted hastyWired g ∧ u.new = ⟨⟨0⟩, 2⟩ ∧ u.new ∈ rn.used := by
  obtain ⟨g₀, hbuilt, h⟩ := exists_ok_of_any
    (p := fun g₀ : Graph => (g₀.liveRange ⟨0⟩ .dest).toOption.any fun range : LiveRange =>
      (({ Renamer.ofGraph (({} : Inventory).registers hastyWired).1 g₀ with longImmediates := false } :
          Renamer).rename g₀ range ⟨⟨0⟩, 2⟩ .free).toOption.any
        fun x : Option (RenameRecord × Renamer × Graph) => x.any fun y : RenameRecord × Renamer × Graph =>
          decide (y.1.new = ⟨⟨0⟩, 2⟩) && bypassesBack y.2.2)
    (show (loadThenUse.graph hastyWired).toOption.any _ by decide +kernel)
  obtain ⟨range, hrange, h⟩ := exists_ok_of_any h
  obtain ⟨x, hrename, h⟩ := exists_ok_of_any h
  obtain ⟨⟨u, rn, g₁⟩, rfl, h⟩ := (Option.any_eq_true _ _).1 h
  obtain ⟨hnew, hback⟩ := Bool.and_eq_true_iff.1 h
  obtain ⟨v, g₂, g, hmake, hback⟩ := exists_of_bypassesBack hastyWired rn hback
  have hcourse := ((Course.start.make (.rename hrange hrename)).make hmake).unmake hback
  obtain ⟨hsorted, hused⟩ := sorted_of_course hbuilt hcourse
  exact ⟨g₀, u, rn, g, hbuilt, hcourse, hsorted, of_decide_eq_true hnew, hused u List.mem_cons_self⟩

/-! ### A value for the next iteration -/

/-- The renamer that a block starts with. -/
abbrev freshRenamer (machine : Machine) (long : Bool) (g : Graph) : Renamer :=
  { Renamer.ofGraph (({} : Inventory).registers machine).1 g with longImmediates := long }

/-- A renaming takes the register of a value, be it one for the next iteration, only if it is not needed after the
block and not one of the free ones, and both the move that writes the value and the one that reads it are placed,
on one side of whatever is placed of the range. -/
theorem apart_of_making {long : Bool} {u : RenameRecord} {e : EdgeId} {l : Link}
    (hbuilt : p.graph machine = .ok g₀)
    (hrun : Course machine (freshRenamer machine long g₀) g₀ us rn g)
    (hl : g.link? e = some l) (hlive : l.live) (hraw : l.dep.carries .raw u.new)
    (htail : (g.move? l.tail).any Move.live) (hhead : (g.move? l.head).any Move.live)
    (hm : Making machine rn g (.rename u) rn' g') :
    g.isLiveOut u.new = false ∧ u.new ∉ rn.free ∧
      ∃ ct ch, g.cycleOf l.tail = some ct ∧ g.cycleOf l.head = some ch ∧
        ((∀ y role c, (y, role) ∈ u.moves → g.cycleOf y = some c → ct < c ∧ ch < c) ∨
          rn.lifetimes.isLiveIn u.new = false ∧
            ∀ y role c, (y, role) ∈ u.moves → g.cycleOf y = some c → c < ct ∧ c < ch) := by
  have hc : InClass machine us rn g := (hrun.backed ⟨legible_of_graph hbuilt, Renamer.sorted_ofGraph,
    fun hu => (List.not_mem_nil hu).elim⟩).inClass
  obtain ⟨range, new, mode, hrename⟩ : ∃ range new mode, rn.rename g range new mode = .ok (some (u, rn', g')) := by
    cases hm with
    | rename _ run => exact ⟨_, _, _, run⟩
    | renameAt run =>
      obtain ⟨range, w, files, new, mode, -, -, -, -, -, hrename⟩ := rename_of_renameAt run
      exact ⟨range, new, mode, hrename⟩
  obtain ⟨w, old, planned, needed, edges, -, hadmits, hplanned, -, -, rfl, -⟩ := Renamer.rename_eq_some hrename
  have havailable : rn.isAvailable new mode := (Bool.and_eq_true_iff.1 hadmits).2
  obtain ⟨hwrites, hreads⟩ := hc.legible.accesses_of_carries hl hlive hraw htail hhead
  have hfree : new ∉ rn.free := by
    intro hfree
    obtain ⟨m, h⟩ := mem_accesses.1 hwrites
    exact hc.sorted.unmentioned hfree ⟨_, m, _, h⟩
  refine ⟨hc.sorted.not_liveOut (Renamer.sorts_of_isAvailable havailable), hfree, ?_⟩
  rcases separatingEdges_eq_some hplanned with ⟨rfl, -⟩ | ⟨-, -, hspan⟩ | ⟨-, hin, -, hspan⟩
  · exact absurd (by simpa [Renamer.isAvailable] using havailable) hfree
  all_goals
    obtain ⟨ct, hct, htail⟩ := hspan _ _ hwrites
    obtain ⟨ch, hch, hhead⟩ := hspan _ _ hreads
    refine ⟨ct, ch, hct, hch, ?_⟩
  · exact .inl fun y role c hy hcy => ⟨htail role y c (mem_roles.1 hy) hcy, hhead role y c (mem_roles.1 hy) hcy⟩
  · exact .inr ⟨hin, fun y role c hy hcy =>
      ⟨htail role y c (mem_roles.1 hy) hcy, hhead role y c (mem_roles.1 hy) hcy⟩⟩

/-- A loop whose second move leaves a value for the first one. -/
def leavesValue : Program where
  moves := #[{ src := .register ⟨⟨0⟩, 1⟩, dst := .returnAddress }, { src := .immediate 1, dst := .register ⟨⟨0⟩, 1⟩ },
    { src := .immediate 2, dst := .register ⟨⟨0⟩, 2⟩ }, { src := .register ⟨⟨0⟩, 2⟩, dst := .returnAddress }]
  liveOut := some ∅
  isLoop := true

/-- With its first two moves placed, the loop lets a range have the register that the value is left in. -/
theorem exists_taken : ∃ g₀ us g u rn' g' e l, leavesValue.graph hastyWired = .ok g₀ ∧
    Course hastyWired (freshRenamer hastyWired false g₀) g₀ us (freshRenamer hastyWired false g₀) g ∧
    Making hastyWired (freshRenamer hastyWired false g₀) g (.rename u) rn' g' ∧ g.link? e = some l ∧ l.live ∧
      l.dep.isBack ∧ l.dep.carries .raw u.new ∧
      (g.move? l.tail).any Move.live ∧ (g.move? l.head).any Move.live := by
  obtain ⟨g₀, hbuilt, h⟩ := exists_ok_of_any
    (p := fun g₀ : Graph => (g₀.setPlacement ⟨0⟩ (some ⟨0, ⟨0⟩⟩)).toOption.any fun g1 : Graph =>
      (g1.setPlacement ⟨1⟩ (some ⟨1, ⟨0⟩⟩)).toOption.any fun g : Graph =>
        (g.liveRange ⟨2⟩ .dest).toOption.any fun range : LiveRange =>
          ((freshRenamer hastyWired false g₀).rename g range ⟨⟨0⟩, 1⟩ .reuseBefore).toOption.any
            fun x : Option (RenameRecord × Renamer × Graph) => x.any fun y : RenameRecord × Renamer × Graph =>
              (g.link? ⟨3⟩).any fun l : Link => decide (l.live ∧ l.dep.isBack ∧ l.dep.carries .raw y.1.new ∧
                (g.move? l.tail).any Move.live ∧ (g.move? l.head).any Move.live))
    (show (leavesValue.graph hastyWired).toOption.any _ by decide +kernel)
  obtain ⟨g1, hfirst, h⟩ := exists_ok_of_any h
  obtain ⟨g, hsecond, h⟩ := exists_ok_of_any h
  obtain ⟨range, hrange, h⟩ := exists_ok_of_any h
  obtain ⟨x, hrename, h⟩ := exists_ok_of_any h
  obtain ⟨⟨u, rn', g'⟩, rfl, hlink⟩ := (Option.any_eq_true _ _).1 h
  obtain ⟨l, hl, hlink⟩ := (Option.any_eq_true _ _).1 hlink
  obtain ⟨m, hm, -⟩ := bind_eq_ok.1 hfirst
  obtain ⟨m1, hm1, -⟩ := bind_eq_ok.1 hsecond
  exact ⟨g₀, _, g, u, rn', g', ⟨3⟩, l, hbuilt, (Course.start.make (.place (move?_of_move hm) hfirst)).make
    (.place (move?_of_move hm1) hsecond), .rename hrange hrename, hl, of_decide_eq_true hlink⟩

/-- The value that the loop leaves for its next iteration is overwritten by the range that is moved. -/
theorem value_overwritten : ∃ g₀ us rn g u rn' g' e l, leavesValue.graph hastyWired = .ok g₀ ∧
    Course hastyWired (freshRenamer hastyWired false g₀) g₀ us rn g ∧ Making hastyWired rn g (.rename u) rn' g' ∧
      g.link? e = some l ∧ l.live ∧ l.dep.isBack ∧ l.dep.carries .raw u.new ∧
      (g.move? l.tail).any Move.live ∧ (g.move? l.head).any Move.live := by
  obtain ⟨g₀, us, g, u, rn', g', e, l, h⟩ := exists_taken
  exact ⟨g₀, us, _, g, u, rn', g', e, l, h⟩

theorem apart_of_making_leavesValue : ∃ g₀ us rn g u rn' g' e l ct ch, leavesValue.graph hastyWired = .ok g₀ ∧
    Course hastyWired (freshRenamer hastyWired false g₀) g₀ us rn g ∧ Making hastyWired rn g (.rename u) rn' g' ∧
      g.link? e = some l ∧ l.dep.isBack ∧ l.dep.carries .raw u.new ∧ g.isLiveOut u.new = false ∧
      g.cycleOf l.tail = some ct ∧ g.cycleOf l.head = some ch := by
  obtain ⟨g₀, us, g, u, rn', g', e, l, hbuilt, hcourse, hm, hl, hlive, hback, hraw, htail, hhead⟩ := exists_taken
  obtain ⟨hout, -, ct, ch, hct, hch, -⟩ := apart_of_making hbuilt hcourse hl hlive hraw htail hhead hm
  exact ⟨g₀, us, _, g, u, rn', g', e, l, ct, ch, hbuilt, hcourse, hm, hl, hback, hraw, hout, hct, hch⟩

end Program

end Transport
