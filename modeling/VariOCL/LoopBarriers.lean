import VariOCL.BarrierDeleter
import VariOCL.HiveOff.Basic
import VariOCL.TripletInvariance.Analysis

/-! LoopBarriers.cpp: a loop with a barrier gets barriers in front of it and at the ends of its trips. -/

namespace VariOCL.IR

open TripletInvarianceAnalysis (Loop isBarrierLoop getLoopLatch)
open BarrierDeleter

/-! ### Loops of `LoopInfo` -/

section
variable (F : Function) (preds : BlockId → List BlockId) (L : Loop)

def getLoopPredecessor : Option BlockId :=
  match (preds L.header).filter (· ∉ L.blocks) with
  | [] => none
  | Out :: rest => if rest.all (· = Out) then some Out else none

def getLoopPreheader : Option BlockId :=
  (getLoopPredecessor preds L).filter fun Out => (F.succs Out).length = 1

def getExitingBlock : Option BlockId :=
  match L.blocks.filter fun b => (F.succs b).any (· ∉ L.blocks) with
  | [b] => some b
  | _ => none

end

/-- `L->addBasicBlockToLoop(NewBB, ..)` on the loops that contain `OldBB`. -/
def addBasicBlockToLoop (L : Loop) (OldBB NewBB : BlockId) : Loop :=
  if OldBB ∈ L.blocks then .mk L.header (L.blocks ++ [NewBB]) L.subLoops else L

namespace LoopBarriers

inductive Failure
  | assertion (text : String)
  deriving DecidableEq

section
variable (preds : BlockId → List BlockId) (F : Function) (L : Loop)

/-- The last loop of the search, over the predecessors of the header. -/
def addLatchBarriers (BB : BlockId) : Function :=
  ((preds L.header).filter fun N => N ∈ L.blocks && F.dominates BB N).foldl
    Function.createBarrierBeforeTerminator F

/-- What is done for the first barrier of the loop, which is in `BB`. -/
def addLoopBarriers (preheader BB : BlockId) : Function :=
  let F₁ := F.createBarrierBeforeTerminator preheader
  let F₂ := if (F₁.block L.header).getFirstNonPHI ≠ (F₁.block L.header).front then
    F₁.createBarrierAtFirstNonPHI L.header else F₁
  let brexit := getExitingBlock F L
  let F₃ := match brexit with
    | some b => F₂.createBarrierBeforeTerminator b
    | none => F₂
  match getLoopLatch preds L with
  | some latch =>
    if brexit ≠ some latch then F₃.createBarrierBeforeTerminator latch
    else addLatchBarriers preds F₃ L BB
  | none => addLatchBarriers preds F₃ L BB

/-- The function, and whether the preheader was split off its barrier. -/
def processLoop : Except Failure (Function × Option BlockId) :=
  match getLoopPreheader F preds L with
  | none => .error (.assertion "Non-canonicalized loop found!\n")
  | some preheader =>
    match L.blocks.find? fun b => hasBarrier (F.block b) with
    | some BB => .ok (addLoopBarriers preds F L preheader BB, none)
    | none =>
      if endsWithBarrier (F.block preheader) then
        .ok (F.splitBlock preheader (F.block preheader).termId, some preheader)
      else .ok (F, none)

end

/-- The function with the blocks that were split, each with the new one. -/
structure Progress where
  F : Function
  splits : List (BlockId × BlockId)

def Progress.loop (s : Progress) (L : Loop) : Loop :=
  s.splits.foldl (fun L p => addBasicBlockToLoop L p.1 p.2) L

def runOnLoop (preds : Function → BlockId → List BlockId) (s : Progress) (L : Loop) :
    Except Failure Progress :=
  (processLoop (preds s.F) s.F (s.loop L)).map fun r =>
    ⟨r.1, match r.2 with
      | some Old => s.splits ++ [(Old, s.F.freshBlock)]
      | none => s.splits⟩

/-- The pass on all loops, in the order in which the loop pass manager has them. -/
def runOnFunction (preds : Function → BlockId → List BlockId) (LI : List Loop) (F : Function) :
    Except Failure Progress :=
  LI.foldlM (runOnLoop preds) ⟨F, []⟩

/-- The form that loop simplification gives to `L`. -/
structure Canonical (F : Function) (L : Loop) (preheader latch : BlockId) : Prop where
  header : L.header ∈ F.layout
  blocks : L.blocks ⊆ F.layout
  outside : preheader ∉ L.blocks
  inside : latch ∈ L.blocks
  preds : (F.predEdges L.header).Perm [preheader, latch]
  succs : F.succs preheader = [L.header]

section
variable {F F₀ G : Function} {preds : BlockId → List BlockId} {L L' : Loop}
  {preheader latch BB b : BlockId}

theorem Canonical.mem_preheader (h : Canonical F L preheader latch) : preheader ∈ F.layout :=
  (F.mem_predEdges.mp (h.preds.mem_iff.mpr List.mem_cons_self)).1

theorem Canonical.preheader_eq (h : Canonical F L preheader latch)
    (hp : (preds L.header).Perm (F.predEdges L.header)) :
    getLoopPreheader F preds L = some preheader := by
  have hfilter : ((preds L.header).filter (· ∉ L.blocks)).Perm [preheader] := by
    refine ((hp.trans h.preds).filter fun x => decide (x ∉ L.blocks)).trans (.of_eq ?_)
    simp [h.outside, h.inside]
  rw [getLoopPreheader, getLoopPredecessor, List.perm_singleton.mp hfilter]
  simp [h.succs]

theorem Canonical.latch_eq (h : Canonical F L preheader latch)
    (hp : (preds L.header).Perm (F.predEdges L.header)) : getLoopLatch preds L = some latch := by
  have hfilter : ((preds L.header).filter (· ∈ L.blocks)).Perm [latch] := by
    refine ((hp.trans h.preds).filter fun x => decide (x ∈ L.blocks)).trans (.of_eq ?_)
    simp [h.outside, h.inside]
  rw [getLoopLatch, List.perm_singleton.mp hfilter]

theorem mem_of_getExitingBlock (h : getExitingBlock F L = some b) : b ∈ L.blocks := by
  rw [getExitingBlock] at h
  split at h
  · rename_i hfilter
    cases h
    exact (List.mem_filter.mp (hfilter ▸ List.mem_singleton_self b)).1
  · cases h

theorem addsBarriers_addLatchBarriers (hL : L.blocks ⊆ F.layout) :
    AddsBarriers F (addLatchBarriers preds F L BB) :=
  (AddsBarriers.refl F).foldl (fun _ hb => hL (of_decide_eq_true
    ((Bool.and_eq_true _ _).mp (List.mem_filter.mp hb).2).1)) fun _ hH _ hd => hH.beforeTerminator hd

/-- Both blocks in front of the header get a barrier at their ends. -/
theorem Canonical.addLoopBarriers (h : Canonical F L preheader latch)
    (hp : (preds L.header).Perm (F.predEdges L.header)) :
    AddsBarriers F (addLoopBarriers preds F L preheader BB) ∧
      endsWithBarrier ((LoopBarriers.addLoopBarriers preds F L preheader BB).block preheader) ∧
        endsWithBarrier ((LoopBarriers.addLoopBarriers preds F L preheader BB).block latch) := by
  have hlatch := h.blocks h.inside
  have h₁ := addsBarriers_beforeTerminator h.mem_preheader
  have hpre₁ := endsWithBarrier_beforeTerminator F preheader
  rw [LoopBarriers.addLoopBarriers, h.latch_eq hp]
  dsimp only
  generalize F.createBarrierBeforeTerminator preheader = F₁ at h₁ hpre₁ ⊢
  have h₂ : AddsBarriers F (if (F₁.block L.header).getFirstNonPHI ≠ (F₁.block L.header).front then
      F₁.createBarrierAtFirstNonPHI L.header else F₁) ∧ endsWithBarrier ((if
        (F₁.block L.header).getFirstNonPHI ≠ (F₁.block L.header).front then
          F₁.createBarrierAtFirstNonPHI L.header else F₁).block preheader) := by
    split
    · have hadd := addsBarriers_atFirstNonPHI (h₁.layout ▸ h.header)
      exact ⟨h₁.trans hadd, hadd.ends _ hpre₁⟩
    · exact ⟨h₁, hpre₁⟩
  obtain ⟨h₂, hpre₂⟩ := h₂
  generalize (if (F₁.block L.header).getFirstNonPHI ≠ (F₁.block L.header).front then
      F₁.createBarrierAtFirstNonPHI L.header else F₁) = F₂ at h₂ hpre₂ ⊢
  have hat : ∀ {H : Function}, AddsBarriers F H → endsWithBarrier (H.block preheader) →
      AddsBarriers F (H.createBarrierBeforeTerminator latch) ∧
        endsWithBarrier ((H.createBarrierBeforeTerminator latch).block preheader) ∧
          endsWithBarrier ((H.createBarrierBeforeTerminator latch).block latch) := by
    intro H hH hpre
    have hadd := addsBarriers_beforeTerminator (hH.layout ▸ hlatch)
    exact ⟨hH.trans hadd, hadd.ends _ hpre, endsWithBarrier_beforeTerminator H latch⟩
  cases hexit : getExitingBlock F L with
  | none =>
    rw [if_pos (by simp)]
    exact hat h₂ hpre₂
  | some b =>
    dsimp only
    split
    · have hadd := addsBarriers_beforeTerminator
        (h₂.layout ▸ h.blocks (mem_of_getExitingBlock hexit))
      exact hat (h₂.trans hadd) (hadd.ends _ hpre₂)
    · obtain rfl : b = latch := by simpa using ‹¬ some b ≠ some latch›
      obtain ⟨hadd, hpre, hend⟩ := hat h₂ hpre₂
      have hmore : AddsBarriers _ (addLatchBarriers preds _ L BB) :=
        addsBarriers_addLatchBarriers (hadd.layout ▸ h.blocks)
      exact ⟨hadd.trans hmore, hmore.ends _ hpre, hmore.ends _ hend⟩

theorem predEdges_congr (hlayout : G.layout = F.layout) (hsuccs : ∀ b, G.succs b = F.succs b) :
    G.predEdges b = F.predEdges b := by
  simp only [Function.predEdges, hlayout, hsuccs]

theorem Canonical.of_adds (h : Canonical F L preheader latch) (hG : AddsBarriers F G) :
    Canonical G L preheader latch where
  header := hG.layout ▸ h.header
  blocks := hG.layout ▸ h.blocks
  outside := h.outside
  inside := h.inside
  preds := predEdges_congr hG.layout hG.succs ▸ h.preds
  succs := (hG.succs preheader).trans h.succs

theorem isBarrierLoop_iff : isBarrierLoop F L ↔ ∃ b ∈ L.blocks, hasBarrier (F.block b) :=
  List.any_eq_true

@[simp] theorem header_addBasicBlockToLoop {Old New : BlockId} :
    (addBasicBlockToLoop L Old New).header = L.header := by
  rw [addBasicBlockToLoop]
  split <;> rfl

theorem mem_blocks_addBasicBlockToLoop {Old New : BlockId} :
    b ∈ (addBasicBlockToLoop L Old New).blocks ↔ b ∈ L.blocks ∨ Old ∈ L.blocks ∧ b = New := by
  rw [addBasicBlockToLoop]
  split
  · rename_i h
    rw [Loop.blocks, List.mem_append, List.mem_singleton]
    exact or_congr_right (and_iff_right h).symm
  · rename_i h
    exact (or_iff_left fun hand => h hand.1).symm

/-- The block in front of one loop is not in front of another. -/
theorem predEdges_split (hF : F.Valid) (hb : b ∈ F.layout) (h : F.succs preheader = [L.header])
    (hmem : preheader ∈ F.layout) (hne : b ≠ L.header) {SplitPt : InstId} :
    (F.splitBlock preheader SplitPt).predEdges b = F.predEdges b := by
  rw [F.predEdges_splitBlock hF.nodup hmem (F.ne_freshBlock hb)]
  conv => rhs; rw [← List.map_id' (F.predEdges b)]
  refine List.map_congr_left fun p hp => if_neg ?_
  rintro rfl
  have hedge := (F.mem_predEdges.mp hp).2
  rw [Function.Edge, h] at hedge
  exact hne (List.mem_singleton.mp hedge)

theorem Canonical.of_split {p l : BlockId} (h : Canonical F L' p l) (hF : F.Valid)
    (hsuccs : F.succs preheader = [L.header]) (hmem : preheader ∈ F.layout)
    (hne : L'.header ≠ L.header) {SplitPt : InstId} : Canonical (F.splitBlock preheader SplitPt)
      (addBasicBlockToLoop L' preheader F.freshBlock) p l := by
  have hp : p ≠ preheader := by
    rintro rfl
    exact hne (List.cons.inj (h.succs.symm.trans hsuccs)).1
  have hold : ∀ {b : BlockId}, b ∈ F.layout → b ∈ (F.splitBlock preheader SplitPt).layout :=
    fun hb => (F.mem_layout_splitBlock hF.nodup hmem).mpr (.inr hb)
  refine ⟨?_, fun b hb => ?_, fun hmem' => ?_, ?_, ?_, ?_⟩
  · rw [header_addBasicBlockToLoop]
    exact hold h.header
  · rcases mem_blocks_addBasicBlockToLoop.mp hb with hb | ⟨-, rfl⟩
    · exact hold (h.blocks hb)
    · exact (F.mem_layout_splitBlock hF.nodup hmem).mpr (.inl rfl)
  · rcases mem_blocks_addBasicBlockToLoop.mp hmem' with hp' | ⟨-, rfl⟩
    · exact h.outside hp'
    · exact F.freshBlock_not_mem h.mem_preheader
  · exact mem_blocks_addBasicBlockToLoop.mpr (.inl h.inside)
  · rw [header_addBasicBlockToLoop, predEdges_split hF h.header hsuccs hmem hne]
    exact h.preds
  · rw [header_addBasicBlockToLoop, F.succs_splitBlock h.mem_preheader hp, h.succs]

theorem hasBarrier_split (hF : F.Valid) (hmem : preheader ∈ F.layout) (hb : b ∈ F.layout) :
    hasBarrier ((F.splitBlock preheader (F.block preheader).termId).block b) =
      hasBarrier (F.block b) := by
  by_cases hne : b = preheader
  · subst hne
    rw [F.block_splitBlock_old hb, (BasicBlock.split_at_termId (hF.instIds_nodup hb)).1]
    exact hasBarrier_map (F.block b) _
  · rw [F.block_splitBlock hb hne]
    exact hasBarrier_map (F.block b) _

theorem endsWithBarrier_split {SplitPt : InstId} (hb : b ∈ F.layout) (hne : b ≠ preheader) :
    endsWithBarrier ((F.splitBlock preheader SplitPt).block b) = endsWithBarrier (F.block b) := by
  rw [F.block_splitBlock hb hne]
  exact endsWithBarrier_map (F.block b) _

/-! ### All loops -/

/-- What holds when the loops of `done` have had their turn. -/
structure Guarding (F₀ : Function) (done todo : List Loop) (s : Progress) : Prop where
  keeps : F₀.Keeps s.F
  wellDefined : F₀.WellDefined → s.F.WellDefined
  canonical : ∀ L ∈ todo, ∃ preheader latch, Canonical s.F (s.loop L) preheader latch
  barrier : ∀ L ∈ todo, isBarrierLoop F₀ L → isBarrierLoop s.F (s.loop L)
  headers : ∀ L ∈ done, L.header ∈ s.F.layout
  guarded : ∀ L ∈ done, isBarrierLoop F₀ L →
    ∀ p ∈ s.F.predEdges L.header, endsWithBarrier (s.F.block p)

@[simp] theorem header_loop (s : Progress) (L : Loop) : (s.loop L).header = L.header := by
  have key : ∀ (ps : List (BlockId × BlockId)) (L : Loop),
      (ps.foldl (fun L p => addBasicBlockToLoop L p.1 p.2) L).header = L.header := by
    intro ps
    induction ps with
    | nil => exact fun L => rfl
    | cons p ps ih => exact fun L => (ih _).trans header_addBasicBlockToLoop
  exact key s.splits L

theorem loop_concat (s : Progress) (F : Function) (Old New : BlockId) (L : Loop) :
    (⟨F, s.splits ++ [(Old, New)]⟩ : Progress).loop L =
      addBasicBlockToLoop (s.loop L) Old New := by
  rw [Progress.loop, List.foldl_append]
  rfl

variable {done todo : List Loop} {s : Progress}

theorem Guarding.adds (h : Guarding F₀ done todo s) (hG : AddsBarriers s.F G) :
    Guarding F₀ done todo ⟨G, s.splits⟩ where
  keeps := h.keeps.trans (hG.keeps h.keeps.valid)
  wellDefined hF := hG.wellDefined (h.wellDefined hF)
  canonical L hL := by
    obtain ⟨p, l, hcan⟩ := h.canonical L hL
    exact ⟨p, l, hcan.of_adds hG⟩
  barrier L hL hbar := by
    obtain ⟨b, hb, hhas⟩ := isBarrierLoop_iff.mp (h.barrier L hL hbar)
    exact isBarrierLoop_iff.mpr ⟨b, hb, hG.has b hhas⟩
  headers L hL := hG.layout ▸ h.headers L hL
  guarded L hL hbar p hp :=
    hG.ends p (h.guarded L hL hbar p (predEdges_congr hG.layout hG.succs ▸ hp))

theorem Guarding.split (h : Guarding F₀ done todo s) (hsuccs : s.F.succs preheader = [L.header])
    (hmem : preheader ∈ s.F.layout) (hne : ∀ L' ∈ done ++ todo, L'.header ≠ L.header) :
    Guarding F₀ done todo ⟨s.F.splitBlock preheader (s.F.block preheader).termId,
      s.splits ++ [(preheader, s.F.freshBlock)]⟩ where
  keeps := h.keeps.trans (h.keeps.valid.keeps_splitBlock hmem _)
  wellDefined hF := (h.wellDefined hF).splitBlock hmem _
  canonical L' hL' := by
    obtain ⟨p, l, hcan⟩ := h.canonical L' hL'
    rw [loop_concat]
    refine ⟨p, l, hcan.of_split h.keeps.valid hsuccs hmem ?_⟩
    rw [header_loop]
    exact hne L' (List.mem_append_right _ hL')
  barrier L' hL' hbar := by
    obtain ⟨b, hb, hhas⟩ := isBarrierLoop_iff.mp (h.barrier L' hL' hbar)
    obtain ⟨p, l, hcan⟩ := h.canonical L' hL'
    rw [loop_concat]
    refine isBarrierLoop_iff.mpr ⟨b, mem_blocks_addBasicBlockToLoop.mpr (.inl hb), ?_⟩
    rwa [hasBarrier_split h.keeps.valid hmem (hcan.blocks hb)]
  headers L' hL' := (s.F.mem_layout_splitBlock h.keeps.valid.nodup hmem).mpr (.inr (h.headers L' hL'))
  guarded L' hL' hbar p hp := by
    have hF := h.keeps.valid
    rw [predEdges_split hF (h.headers L' hL') hsuccs hmem
      (hne L' (List.mem_append_left _ hL'))] at hp
    obtain ⟨hpl, hedge⟩ := s.F.mem_predEdges.mp hp
    rw [endsWithBarrier_split hpl]
    · exact h.guarded L' hL' hbar p hp
    · rintro rfl
      rw [Function.Edge, hsuccs] at hedge
      exact hne L' (List.mem_append_left _ hL') (List.mem_singleton.mp hedge)

theorem Guarding.next (h : Guarding F₀ done (L :: todo) s) : Guarding F₀ done todo s where
  keeps := h.keeps
  wellDefined := h.wellDefined
  canonical L' hL' := h.canonical L' (List.mem_cons_of_mem L hL')
  barrier L' hL' := h.barrier L' (List.mem_cons_of_mem L hL')
  headers := h.headers
  guarded := h.guarded

theorem Guarding.finish (h : Guarding F₀ done todo s) (hL : L.header ∈ s.F.layout)
    (hends : isBarrierLoop F₀ L → ∀ p ∈ s.F.predEdges L.header, endsWithBarrier (s.F.block p)) :
    Guarding F₀ (L :: done) todo s where
  keeps := h.keeps
  wellDefined := h.wellDefined
  canonical := h.canonical
  barrier := h.barrier
  headers := List.forall_mem_cons.mpr ⟨hL, h.headers⟩
  guarded := List.forall_mem_cons.mpr ⟨hends, h.guarded⟩

section
variable {order : Function → BlockId → List BlockId}
  (horder : ∀ G b, (order G b).Perm (G.predEdges b))
include horder

theorem Guarding.step (h : Guarding F₀ done (L :: todo) s)
    (hne : ∀ L' ∈ done ++ todo, L'.header ≠ L.header) :
    ∃ s', runOnLoop order s L = .ok s' ∧ Guarding F₀ (L :: done) todo s' := by
  obtain ⟨preheader, latch, hcan⟩ := h.canonical L List.mem_cons_self
  have hpre := hcan.preheader_eq (horder s.F (s.loop L).header)
  rw [runOnLoop, processLoop, hpre]
  dsimp only
  cases hfind : (s.loop L).blocks.find? fun b => hasBarrier (s.F.block b) with
  | some BB =>
    obtain ⟨hadd, hend, hend'⟩ :=
      @Canonical.addLoopBarriers _ _ _ _ _ BB hcan (horder s.F (s.loop L).header)
    refine ⟨_, rfl, (h.next.adds hadd).finish ?_ fun _ p hp => ?_⟩
    · have hmem := (hcan.of_adds hadd).header
      rwa [header_loop] at hmem
    · have hperm := (hcan.of_adds hadd).preds
      rw [header_loop] at hperm
      rcases List.mem_pair.mp (hperm.mem_iff.mp hp) with rfl | rfl
      · exact hend
      · exact hend'
  | none =>
    have hno : ¬ isBarrierLoop F₀ L := fun hbar => by
      obtain ⟨b, hb, hhas⟩ := isBarrierLoop_iff.mp (h.barrier L List.mem_cons_self hbar)
      exact List.find?_eq_none.mp hfind b hb hhas
    have hheader := hcan.header
    have hsuccs := hcan.succs
    rw [header_loop] at hheader hsuccs
    dsimp only
    split
    · have hmem := hcan.mem_preheader
      refine ⟨_, rfl, (h.next.split hsuccs hmem hne).finish ?_ fun hbar => absurd hbar hno⟩
      exact (s.F.mem_layout_splitBlock h.keeps.valid.nodup hmem).mpr (.inr hheader)
    · exact ⟨_, rfl, h.next.finish hheader fun hbar => absurd hbar hno⟩

theorem Guarding.run (h : Guarding F₀ done todo s) (hn : ((done ++ todo).map Loop.header).Nodup) :
    ∃ s', todo.foldlM (runOnLoop order) s = .ok s' ∧ Guarding F₀ (todo.reverse ++ done) [] s' := by
  induction todo generalizing done s with
  | nil => exact ⟨s, rfl, h⟩
  | cons L todo ih =>
    have hperm : ((done ++ L :: todo).map Loop.header).Perm ((L :: done ++ todo).map Loop.header) :=
      List.perm_middle.map _
    have hn := hperm.nodup_iff.mp hn
    obtain ⟨hnot, -⟩ := List.nodup_cons.mp hn
    obtain ⟨s₁, hs₁, h₁⟩ := h.step horder fun L' hL' heq => hnot (heq ▸ List.mem_map_of_mem hL')
    obtain ⟨s', hs', h'⟩ := ih h₁ hn
    refine ⟨s', ?_, ?_⟩
    · rw [List.foldlM_cons, hs₁]
      exact hs'
    · rwa [List.reverse_cons, List.append_assoc]

end

section
variable {order : Function → BlockId → List BlockId} {LI : List Loop} (hF : F.Valid)
  (horder : ∀ G b, (order G b).Perm (G.predEdges b))
  (hcan : ∀ L ∈ LI, ∃ preheader latch, Canonical F L preheader latch)
  (hn : (LI.map Loop.header).Nodup)
include hF horder hcan hn

theorem guarding_runOnFunction :
    ∃ s, runOnFunction order LI F = .ok s ∧ Guarding F (LI.reverse ++ []) [] s := by
  have hstart : Guarding F [] LI ⟨F, []⟩ := by
    refine ⟨.refl hF, fun h => h, hcan, fun L _ hbar => hbar, fun L hL => ?_, fun L hL => ?_⟩
    · cases hL
    · cases hL
  exact hstart.run horder (List.nil_append LI ▸ hn)

end

/-- In a function whose loops are all in canonical form, what leads to the header of a loop with a
barrier ends with a barrier after the pass, from outside the loop and round it. -/
theorem runOnFunction_guards {order : Function → BlockId → List BlockId} {LI : List Loop} (hF : F.Valid)
    (horder : ∀ G b, (order G b).Perm (G.predEdges b))
    (hcan : ∀ L ∈ LI, ∃ preheader latch, Canonical F L preheader latch)
    (hn : (LI.map Loop.header).Nodup) :
    ∃ s, runOnFunction order LI F = .ok s ∧ F.Keeps s.F ∧ ∀ L ∈ LI, isBarrierLoop F L →
      ∀ p ∈ s.F.predEdges L.header, endsWithBarrier (s.F.block p) := by
  obtain ⟨s, hs, h⟩ := guarding_runOnFunction hF horder hcan hn
  refine ⟨s, hs, h.keeps, fun L hL => h.guarded L ?_⟩
  exact List.mem_append_left _ (List.mem_reverse.mpr hL)

end

/-- Two nested loops, the inner one without a barrier. -/
def nestedLoops : Function where
  name := "nested"
  entry := 0
  rest := [1, 2, 3, 4]
  block
    | 0 => ⟨[], 10, .br 1⟩
    | 1 => ⟨[barrierCall 1], 11, .br 2⟩
    | 2 => ⟨[], 12, .condBr (.argument 0) 2 3⟩
    | 3 => ⟨[], 13, .condBr (.argument 1) 1 4⟩
    | _ => ⟨[], 14, .ret none⟩

theorem nestedLoops_valid : nestedLoops.Valid where
  nodup := by decide
  closed := by simp only [Function.Closed]; decide
  entryPreds := by decide
  ids := by decide
  phisFirst := by decide
  entryPhis := by decide
  incoming := by decide

/-- The preheader of the inner loop is split off its barrier. -/
theorem runOnFunction_guards_nestedLoops :
    ∃ s, runOnFunction Function.predEdges [.mk 2 [2] [], .mk 1 [1, 2, 3] []] nestedLoops = .ok s ∧
      nestedLoops.Keeps s.F ∧ ∀ L ∈ [Loop.mk 2 [2] [], .mk 1 [1, 2, 3] []],
        isBarrierLoop nestedLoops L → ∀ p ∈ s.F.predEdges L.header, endsWithBarrier (s.F.block p) :=
  runOnFunction_guards nestedLoops_valid (fun _ _ => .refl _) (List.forall_mem_cons.mpr
    ⟨⟨1, 2, by decide, by decide, by decide, by decide, by decide, by decide⟩,
      List.forall_mem_singleton.mpr
        ⟨0, 3, by decide, by decide, by decide, by decide, by decide, by decide⟩⟩) (by decide)

end LoopBarriers

end VariOCL.IR
