import VariOCL.ControlDep.Frontier
import VariOCL.IR.Edit
import VariOCL.IR.Loops

/-! ImplicitConditionalBarriers.cpp: from each conditional barrier the pass walks up to the branch
that makes it conditional, and puts a barrier behind that branch. -/

namespace VariOCL.IR

open Relation (ReflTransGen TransGen)

namespace ImplicitConditionalBarriers

inductive Failure
  | nullBlock
  | outOfFuel
  deriving DecidableEq

section
variable (F : Function) (preds : BlockId → List BlockId)

/-- `preds` lists the predecessors of a block in the order of `pred_begin(bb) .. pred_end(bb)`. -/
def firstNonBackedgePredecessor (bb : BlockId) : Option BlockId :=
  (preds bb).find? fun PBlock => !F.dominates bb PBlock

def condBarrierBBs : List BlockId :=
  F.layout.filter fun BB => hasBarrier (F.block BB) && !F.postDominates BB F.entry

/-- The `while` loop, which leaves `pos` and `pred`. `G` is `F` with the barriers added so far: it
has the blocks, and the branches are those of `F`, for which the dominator trees were made. -/
def locate (G : Function) (b : BlockId) :
    Nat → BlockId → Option BlockId → Except Failure (BlockId × BlockId)
  | 0, _, _ => .error .outOfFuel
  | _ + 1, _, none => .error .nullBlock
  | n + 1, pos, some pred =>
    if !containsJustABarrier (G.block pred) && F.postDominates b pred then
      if firstNonBackedgePredecessor F preds pred = some b then .ok (pred, b)
      else locate G b n pred (firstNonBackedgePredecessor F preds pred)
    else .ok (pos, pred)

/-- The body of the loop over `CondBarrierBBs`. -/
def addBarrier (n : Nat) (G : Function) (b : BlockId) : Except Failure Function := do
  let (pos, _) ← locate F preds G b n b (firstNonBackedgePredecessor F preds b)
  if containsJustABarrier (G.block pos) then pure G
  else pure (G.createBarrierAtFirstNonPHI pos)

def runOnFunction (n : Nat) : Except Failure Function :=
  (condBarrierBBs F).foldlM (addBarrier F preds n) F

/-- Where the walk from `b` ends: the block it is at, and the predecessor it stopped at. -/
structure Located (G : Function) (b pos pred : BlockId) : Prop where
  postDominated : F.PostDominates b pos
  forward : ReflTransGen F.ForwardEdge pos b
  stopped : containsJustABarrier (G.block pred) ∨ ¬ F.PostDominates b pred ∨ pred = b

end

/-! ### The walk -/

open Classical in
/-- How many blocks the walk may still go up to. -/
noncomputable def above (F : Function) (b : BlockId) : Nat :=
  F.layout.countP fun x => decide (TransGen F.ForwardEdge x b)

section
variable {F G : Function} {preds : BlockId → List BlockId} {b p pos pred : BlockId} {n : Nat}
  (hF : F.Closed) (hpreds : ∀ b, (preds b).Perm (F.predEdges b))

include hF hpreds

theorem firstNonBackedgePredecessor_some
    (h : firstNonBackedgePredecessor F preds b = some p) : p ∈ F.layout ∧ F.ForwardEdge p b := by
  have hmem := Function.mem_predEdges.mp ((hpreds b).mem_iff.mp (List.mem_of_find?_eq_some h))
  have hdom := List.find?_some h
  rw [Bool.not_eq_true', ← Bool.not_eq_true, Function.dominates_iff hF] at hdom
  exact ⟨hmem.1, hmem.2, hdom⟩

/-- Only the entry has no predecessor along an edge that is no back edge. -/
theorem exists_firstNonBackedgePredecessor (hreach : F.Reachable b) (hb : b ≠ F.entry) :
    ∃ p, firstNonBackedgePredecessor F preds b = some p := by
  rcases ReflTransGen.cases_tail (Graph.reach_forward hreach) with h | ⟨p, hp, hpb⟩
  · exact absurd h.symm hb.symm
  have hlayout : p ∈ F.layout := hF.reachable_mem (Graph.forward_walk hp)
  apply Option.isSome_iff_exists.mp
  refine List.find?_isSome.mpr ⟨p, ?_, ?_⟩
  · exact (hpreds b).mem_iff.mpr (Function.mem_predEdges.mpr ⟨hlayout, hpb.1⟩)
  · rw [Bool.not_eq_true', ← Bool.not_eq_true, Function.dominates_iff hF]
    exact hpb.2

omit hF hpreds in
open Classical in
theorem above_lt (hred : F.Reducible) (hp : p ∈ F.layout) (h : F.ForwardEdge p b) :
    above F p < above F b := by
  refine Graph.countP_lt_countP (fun x _ hx => ?_) hp ?_ ?_
  · simp only [decide_eq_true_eq] at hx ⊢
    exact hx.tail h
  · simpa using TransGen.single h
  · exact decide_eq_false (hred p)

/-- The walk stays below the entry, which `b` does not post-dominate. -/
theorem locate_spec (hred : F.Reducible) (hreach : ∀ x ∈ F.layout, F.Reachable x)
    (hb : ¬ F.PostDominates b F.entry) (hpos : pos ∈ F.layout)
    (hpdom : F.PostDominates b pos) (hforward : ReflTransGen F.ForwardEdge pos b)
    (hn : above F pos ≤ n) :
    ∃ q pred, locate F preds G b n pos (firstNonBackedgePredecessor F preds pos) = .ok (q, pred) ∧
      Located F G b q pred := by
  induction n generalizing pos with
  | zero =>
    have hentry : pos ≠ F.entry := fun h => hb (h ▸ hpdom)
    obtain ⟨p, hp⟩ := exists_firstNonBackedgePredecessor hF hpreds (hreach pos hpos) hentry
    obtain ⟨hmem, hedge⟩ := firstNonBackedgePredecessor_some hF hpreds hp
    exact absurd (above_lt hred hmem hedge) (by omega)
  | succ n ih =>
    have hentry : pos ≠ F.entry := fun h => hb (h ▸ hpdom)
    obtain ⟨p, hp⟩ := exists_firstNonBackedgePredecessor hF hpreds (hreach pos hpos) hentry
    obtain ⟨hmem, hedge⟩ := firstNonBackedgePredecessor_some hF hpreds hp
    have hlt := above_lt hred hmem hedge
    rw [hp, locate]
    split
    · rename_i hcond
      rw [Bool.and_eq_true, Function.postDominates_iff hF hmem] at hcond
      split
      · exact ⟨p, b, rfl, hcond.2, .head hedge hforward, .inr (.inr rfl)⟩
      · exact ih hmem hcond.2 (.head hedge hforward) (by omega)
    · rename_i hcond
      refine ⟨pos, p, rfl, hpdom, hforward, ?_⟩
      rw [Bool.and_eq_true, Function.postDominates_iff hF hmem, not_and_or] at hcond
      exact hcond.imp (by simp) .inl

end

/-! ### The pass -/

theorem not_postDominates_of_mem {F : Function} {b : BlockId} (hF : F.Closed)
    (hb : b ∈ condBarrierBBs F) : b ∈ F.layout ∧ ¬ F.PostDominates b F.entry := by
  obtain ⟨hmem, hcond⟩ := List.mem_filter.mp hb
  rw [Bool.and_eq_true, Bool.not_eq_true', ← Bool.not_eq_true,
    Function.postDominates_iff hF F.entry_mem_layout] at hcond
  exact ⟨hmem, hcond.2⟩

/-- The pass returns, and each of its walks ends where it should, whatever barriers the walks
before it have added. -/
theorem walks_end (F : Function) (preds : BlockId → List BlockId)
    (hpreds : ∀ b, (preds b).Perm (F.predEdges b)) (hF : F.Terminating) (hred : F.Reducible)
    (hreach : ∀ b ∈ F.layout, F.Reachable b) {n : Nat} (hn : F.layout.length ≤ n) :
    (∃ G, runOnFunction F preds n = .ok G) ∧
      ∀ done b rest, condBarrierBBs F = done ++ b :: rest → ∃ G pos pred,
        done.foldlM (addBarrier F preds n) F = .ok G ∧
        locate F preds G b n b (firstNonBackedgePredecessor F preds b) = .ok (pos, pred) ∧
        Located F G b pos pred := by
  have hwalk : ∀ G, ∀ b ∈ condBarrierBBs F, ∃ pos pred,
      locate F preds G b n b (firstNonBackedgePredecessor F preds b) = .ok (pos, pred) ∧
        Located F G b pos pred := by
    intro G b hb
    obtain ⟨hmem, hentry⟩ := not_postDominates_of_mem hF.closed hb
    have hself : F.PostDominates b b := fun p _ _ => List.mem_cons_self
    exact locate_spec hF.closed hpreds hred hreach hentry hmem hself .refl
      (List.countP_le_length.trans hn)
  have hrun : ∀ bs ⊆ condBarrierBBs F, ∀ G, ∃ G', bs.foldlM (addBarrier F preds n) G = .ok G' := by
    intro bs
    induction bs with
    | nil => exact fun _ G => ⟨G, rfl⟩
    | cons b bs ih =>
      intro hbs G
      obtain ⟨hb, hbs⟩ := List.cons_subset.mp hbs
      obtain ⟨pos, pred, hloc, -⟩ := hwalk G b hb
      have hstep : ∃ G', addBarrier F preds n G b = .ok G' := by
        rw [addBarrier, hloc]
        change ∃ G', (if containsJustABarrier (G.block pos) then pure G
          else pure (G.createBarrierAtFirstNonPHI pos)) = Except.ok G'
        split
        · exact ⟨G, rfl⟩
        · exact ⟨_, rfl⟩
      obtain ⟨G', hG'⟩ := hstep
      rw [List.foldlM_cons, hG']
      exact ih hbs G'
  refine ⟨hrun _ (List.Subset.refl _) F, fun done b rest hsplit => ?_⟩
  obtain ⟨G, hG⟩ := hrun done (hsplit ▸ List.subset_append_left _ _) F
  obtain ⟨pos, pred, hloc⟩ := hwalk G b (hsplit ▸ List.mem_append_right _ List.mem_cons_self)
  exact ⟨G, pos, pred, hG, hloc⟩

/-- Two blocks behind a branch, with a barrier in the second. -/
def barrierBehindBranch : Function where
  name := "k"
  entry := 0
  rest := [1, 2, 3]
  block
    | 0 => ⟨[], 10, .condBr (.argument 0) 1 3⟩
    | 1 => ⟨[], 11, .br 2⟩
    | 2 => ⟨[barrierCall 1], 12, .br 3⟩
    | _ => ⟨[], 13, .ret none⟩

theorem barrierBehindBranch_closed : barrierBehindBranch.Closed := by
  simp only [Function.Closed]
  decide

theorem walks_end_barrierBehindBranch :
    (∃ G, runOnFunction barrierBehindBranch barrierBehindBranch.predEdges 4 = .ok G) ∧
      ∀ done b rest, condBarrierBBs barrierBehindBranch = done ++ b :: rest → ∃ G pos pred,
        done.foldlM (addBarrier barrierBehindBranch barrierBehindBranch.predEdges 4)
          barrierBehindBranch = .ok G ∧
        locate barrierBehindBranch barrierBehindBranch.predEdges G b 4 b
          (firstNonBackedgePredecessor barrierBehindBranch barrierBehindBranch.predEdges b) =
            .ok (pos, pred) ∧
        Located barrierBehindBranch G b pos pred := by
  have hreach : ∀ b ∈ barrierBehindBranch.layout, barrierBehindBranch.Reachable b := by
    have hclosed := barrierBehindBranch_closed
    have hmem : ∀ b ∈ barrierBehindBranch.layout, b ∈ Graph.reachFrom barrierBehindBranch.succs
      barrierBehindBranch.layout barrierBehindBranch.entry := by decide
    exact fun b hb => (Graph.mem_reachFrom hclosed List.mem_cons_self).mp (hmem b hb)
  exact walks_end barrierBehindBranch _ (fun _ => .refl _)
    (Function.terminating_of_tree barrierBehindBranch_closed (by decide))
    (Function.reducible_of_rank barrierBehindBranch_closed id (by decide)) hreach (by decide)

end ImplicitConditionalBarriers

end VariOCL.IR
