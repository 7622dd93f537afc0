import VariOCL.IR.Exec
import VariOCL.IR.Uses

/-! Blocks whose neighbours are called by other names. -/

namespace VariOCL.IR

open Sim

/-- The PHIs take for `g b` what they took for `b`, and a branch to `b` goes to `t b`. -/
def BasicBlock.relabel (g t : BlockId → BlockId) (BB : BasicBlock) : BasicBlock where
  insts := BB.insts.map (Instruction.mapBlocks g)
  termId := BB.termId
  term := BB.term.mapBlocks t

section
variable {BB : BasicBlock} {g g' t t' : BlockId → BlockId} {f : Value → Value} {op : Op}
  {I : Instruction}

theorem BasicBlock.relabel_relabel :
    (BB.relabel g t).relabel g' t' = BB.relabel (fun b => g' (g b)) (fun b => t' (t b)) := by
  simp [relabel, Terminator.mapBlocks_mapBlocks, Instruction.mapBlocks_mapBlocks,
    Function.comp_def]

theorem BasicBlock.relabel_id : BB.relabel (fun b => b) (fun b => b) = BB := by
  rw [relabel, Instruction.map_mapBlocks_id, Terminator.mapBlocks_eq_self fun _ _ => rfl]

/-- Only the successors are looked up in `t`. -/
theorem BasicBlock.relabel_congr (h : ∀ b ∈ BB.term.successors, t b = t' b) :
    BB.relabel g t = BB.relabel g t' := by
  have hterm : BB.term.mapBlocks t = BB.term.mapBlocks t' := by
    cases hBB : BB.term with
    | switch c d cs =>
      rw [hBB, Terminator.successors, List.forall_mem_cons, List.forall_mem_map] at h
      rw [Terminator.mapBlocks, Terminator.mapBlocks, h.1]
      exact congrArg _ (List.map_congr_left fun p hp => by rw [h.2 p hp])
    | _ => simp_all [Terminator.mapBlocks, Terminator.successors]
  rw [relabel, relabel, hterm]

theorem BasicBlock.mapValues_relabel :
    (BB.relabel g t).mapValues f = (BB.mapValues f).relabel g t := by
  simp [relabel, mapValues, Terminator.mapValues_mapBlocks, Instruction.mapBlocks_mapValues,
    Function.comp_def]

theorem Op.incomingFor_mapBlocks {p q : Option BlockId}
    (h : ∀ b ∈ op.incomingBlocks, some (g b) = q ↔ some b = p) :
    (op.mapBlocks g).incomingFor q = op.incomingFor p := by
  cases op with
  | phi incoming =>
    rw [incomingBlocks, List.forall_mem_map] at h
    have hfind : incoming.find? (fun x => some (g x.2) = q) =
        incoming.find? (fun x => some x.2 = p) := by
      induction incoming with
      | nil => rfl
      | cons x xs ih =>
        obtain ⟨hx, hxs⟩ := List.forall_mem_cons.mp h
        simp only [List.find?_cons, hx, ih hxs]
    rw [mapBlocks, incomingFor, incomingFor, List.find?_map, Option.map_map, ← hfind]
    rfl
  | _ => rfl

end

section
variable {Val : Type} {M : Machine Val} {w : WorkItem Val} {BB : BasicBlock}
  {g t : BlockId → BlockId} {p q : Option BlockId} {e e' : Cells InstId Val} {s : State Val}

theorem Machine.taken_mapBlocks (T : Terminator) : M.taken e (T.mapBlocks t) = M.taken e T := by
  cases T with
  | switch c d cs =>
    simp only [Terminator.mapBlocks, taken, List.findIdx?_map, Function.comp_def]
  | _ => rfl

theorem Machine.execPhis_map {Is : List Instruction}
    (h : ∀ I ∈ Is, (I.op.mapBlocks g).incomingFor q = I.op.incomingFor p) :
    M.execPhis e q (Is.map (Instruction.mapBlocks g)) e' = M.execPhis e p Is e' := by
  induction Is generalizing e' with
  | nil => rfl
  | cons I Is ih =>
    obtain ⟨hI, hIs⟩ := List.forall_mem_cons.mp h
    have hop : (I.mapBlocks g).op.incomingFor q = I.op.incomingFor p := hI
    simp only [List.map_cons, execPhis, hop, ih hIs, Instruction.id_mapBlocks]

/-- A block entered from `q` does what it did when it was entered from `p`. -/
theorem Machine.execBlock_relabel [DecidableEq Val]
    (hphis : ∀ I ∈ BB.insts.dropWhile (·.op.isPhi), I.op.isPhi = false)
    (h : ∀ I ∈ BB.insts, ∀ b ∈ I.op.incomingBlocks, some (g b) = q ↔ some b = p) :
    M.execBlock w (BB.relabel g t) q s = M.execBlock w BB p s := by
  have hisPhi : (fun I : Instruction => (I.mapBlocks g).op.isPhi) = fun I => I.op.isPhi :=
    funext fun I => I.isPhi_mapBlocks g
  have hinsts : ∀ Is : List Instruction, (∀ I ∈ Is, I.op.isPhi = false) →
      Is.map (Instruction.mapBlocks g) = Is := fun Is hIs =>
    (List.map_congr_left fun I hI => Instruction.mapBlocks_of_not_phi (hIs I hI)).trans
      (List.map_id' Is)
  have htake : (BB.relabel g t).insts.takeWhile (·.op.isPhi) =
      (BB.insts.takeWhile (·.op.isPhi)).map (Instruction.mapBlocks g) := by
    simp only [BasicBlock.relabel, List.takeWhile_map, Function.comp_def, hisPhi]
  have hdrop : (BB.relabel g t).insts.dropWhile (·.op.isPhi) =
      BB.insts.dropWhile (·.op.isPhi) := by
    simp only [BasicBlock.relabel, List.dropWhile_map, Function.comp_def, hisPhi]
    exact hinsts _ hphis
  have hexec : M.execPhis s.env q ((BB.insts.takeWhile (·.op.isPhi)).map (Instruction.mapBlocks g))
      s.env = M.execPhis s.env p (BB.insts.takeWhile (·.op.isPhi)) s.env :=
    execPhis_map fun I hI =>
      Op.incomingFor_mapBlocks (h I ((List.takeWhile_sublist _).subset hI))
  rw [execBlock, execBlock, htake, hdrop, hexec]
  simp only [BasicBlock.relabel, taken_mapBlocks]

end

end VariOCL.IR
