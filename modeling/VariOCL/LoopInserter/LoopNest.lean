import VariOCL.Graph.Region
import VariOCL.LoopInserter.LoopLevel

/-! The nest of three loops that `runOnFunction` puts around a region. -/

namespace VariOCL.IR.LoopInserter

open Sim
open Relation (ReflTransGen)

section
variable (order : Function → BlockId → List BlockId) (RN : MxPARegion)

/-- The loop nest that `runOnFunction` puts around a region. -/
def insertLoops (F : Function) (DT : DominatorTree) : Except Failure (Function × DominatorTree) :=
  match RN.Exit with
  | none => .error (.assertion "Region's exit BB is empty")
  | some Exit => do
    let l0 ← buildDWLoopOverRegion order RN F DT RN.Entry Exit 0
    let l1 ← buildDWLoopOverRegion order RN l0.1.1 l0.1.2 l0.2.1 l0.2.2 1
    let l2 ← buildDWLoopOverRegion order RN l1.1.1 l1.1.2 l1.2.1 l1.2.2 2
    pure l2.1

end

/-- A region entered from `Pred` only, at its entry, whose exit goes on to the barrier block. -/
structure Loopable (F : Function) (RN : MxPARegion) (Exit Barrier Pred : BlockId) : Prop where
  closed : F.Closed
  ids : F.instIds.Nodup
  exit : RN.Exit = some Exit
  subset : ∀ b ∈ RN.BBSet, b ∈ F.layout
  root : F.entry ∉ RN.BBSet
  entry_mem : RN.Entry ∈ RN.BBSet
  exit_mem : Exit ∈ RN.BBSet
  leaves : (F.block Exit).term = .br Barrier
  barrier : Barrier ∉ RN.BBSet
  pred : F.Reachable Pred
  enters : RN.Entry ∈ F.succs Pred
  outside : Pred ∉ RN.BBSet
  entered : ∀ u v, F.Edge u v → u ∈ F.layout → u ∉ RN.BBSet → v ∈ RN.BBSet →
    u = Pred ∧ v = RN.Entry

section
variable {F : Function} {DT : DominatorTree} {RN : MxPARegion} {Exit Barrier Pred b : BlockId}

theorem Loopable.exit_succs (h : Loopable F RN Exit Barrier Pred) : F.succs Exit = [Barrier] := by
  rw [Function.succs, h.leaves]
  rfl

theorem Loopable.entered' (h : Loopable F RN Exit Barrier Pred) : ∀ u v, F.Reachable u →
    F.Edge u v → u ∉ {b | b ∈ RN.BBSet} → v ∈ {b | b ∈ RN.BBSet} → u = Pred ∧ v = RN.Entry :=
  fun u v hu huv hn hv => h.entered u v huv (h.closed.reachable_mem hu) hn hv

/-- No block of the region is on every path to the predecessor. -/
theorem Loopable.not_dominates_pred (h : Loopable F RN Exit Barrier Pred) (hb : b ∈ RN.BBSet) :
    ¬ F.Dominates b Pred :=
  Graph.not_dominates_pred (S := {b | b ∈ RN.BBSet}) h.root
    (fun u v hu huv hn hv => (h.entered' u v hu huv hn hv).1) h.pred hb

theorem Loopable.involved (h : Loopable F RN Exit Barrier Pred) (hb : b ∈ RN.BBInvolved) :
    b ∈ RN.BBSet := by
  rw [MxPARegion.BBInvolved, h.exit] at hb
  split at hb
  · exact hb
  · rw [Option.toList_some, List.mem_singleton] at hb
    exact hb ▸ h.exit_mem

/-- The tree tells what the first loop asks: which predecessors of the entry lie in the region. -/
structure TreeFor (F : Function) (DT : DominatorTree) (RN : MxPARegion) (Pred : BlockId) : Prop where
  entry : ∀ b, b ∈ RN.BBSet ∨ b = Pred → DT.dominates RN.Entry b = F.dominates RN.Entry b
  fresh : ∀ a, a ∉ F.layout → DT.dominates a Pred = F.dominates a Pred

theorem treeFor_dominatorTree : TreeFor F F.dominatorTree RN Pred :=
  ⟨fun _ _ => rfl, fun _ _ => rfl⟩

theorem Loopable.place (h : Loopable F RN Exit Barrier Pred) (hDT : TreeFor F DT RN Pred) :
    Place F DT RN.Entry Exit Barrier Pred where
  closed := h.closed
  entry_mem := h.subset _ h.entry_mem
  exit_mem := h.subset _ h.exit_mem
  next_mem := h.closed _ (h.subset _ h.exit_mem) _ (h.exit_succs ▸ List.mem_cons_self)
  pred_mem := h.closed.reachable_mem h.pred
  leaves := h.exit_succs
  next_ne heq := h.barrier (heq ▸ h.entry_mem)
  enters := h.enters
  outside p hp hedge := by
    by_cases hpS : p ∈ RN.BBSet
    · have hdom : F.Dominates RN.Entry p := Graph.dominates_iff.mpr fun hav =>
        hav.not_mem (S := {b | b ∈ RN.BBSet}) h.root
          (fun u v hu huv hn hv => (h.entered' u v hu huv hn hv).2) hpS
      rw [hDT.entry p (.inl hpS), (Function.dominates_iff h.closed).mpr hdom]
      exact iff_of_false Bool.noConfusion fun heq => h.outside (heq ▸ hpS)
    · obtain ⟨rfl, -⟩ := h.entered p _ hedge hp hpS h.entry_mem
      rw [hDT.entry p (.inr rfl), ← Bool.not_eq_true, Function.dominates_iff h.closed]
      exact iff_of_true (h.not_dominates_pred h.entry_mem) rfl
  refl := by
    rw [hDT.entry _ (.inl h.entry_mem)]
    exact (Function.dominates_iff h.closed).mpr Graph.Dominates.refl

theorem Loopable.fresh_dominates (h : Loopable F RN Exit Barrier Pred) (hDT : TreeFor F DT RN Pred)
    {a : BlockId} (ha : a ∉ F.layout) : DT.dominates a Pred = false := by
  rw [hDT.fresh a ha, ← Bool.not_eq_true, Function.dominates_iff h.closed]
  exact fun hdom => ha (h.closed.reachable_mem (Graph.Dominates.reach hdom h.pred))

end

/-! ### The nest -/

def threeLoops (l0 l1 l2 : DWLoop) : Fin 3 → DWLoop
  | 0 => l0
  | 1 => l1
  | 2 => l2

/-- The three loops in the function `G` that came of `F`. -/
structure ThreeLoops (F G : Function) (RN : MxPARegion) (Exit Barrier : BlockId)
    (L : Fin 3 → DWLoop) : Prop where
  inner : (L 0).Stands G 0 RN.Entry (L 1).LatchBB
  middle : (L 1).Stands G 1 (L 0).LoopPreheader (L 2).LatchBB
  outer : (L 2).Stands G 2 (L 1).LoopPreheader Barrier
  exit : G.succs Exit = [(L 0).LatchBB]
  layout : ∀ b, b ∈ G.layout ↔ b ∈ F.layout ∨ ∃ d, b ∈ (L d).blocks
  blocks_new : ∀ d, ∀ b ∈ (L d).blocks, b ∉ F.layout
  blocks_nodup : ∀ d, [(L d).LatchBB, (L d).LoopPreheader, (L d).LoopHeader, (L d).LoopEnd].Nodup
  blocks_disjoint : ∀ d e, d ≠ e → ∀ b ∈ (L d).blocks, b ∉ (L e).blocks
  ids_nodup : ∀ d, (L d).ids.Nodup
  ids_disjoint : ∀ d e, d ≠ e → ∀ i ∈ (L d).ids, i ∉ (L e).ids
  ids_new : ∀ d, ∀ i ∈ (L d).ids, F.freshInst ≤ i

/-- The blocks of `F` in `G`: their instructions in the old order without the ids `gone`, which are
the id calls of the region and truncations of them, and with `f v` read for `v`.  The body is entered
from the innermost header and left to the innermost latch; only the outermost preheader is entered from
elsewhere. -/
structure Replaces (F G : Function) (RN : MxPARegion) (Exit Barrier Pred : BlockId)
    (L : Fin 3 → DWLoop) (f : Value → Value) (gone : List InstId) : Prop where
  inside : ∀ b ∈ RN.BBSet, G.block b = (((F.mapValues f).eraseInsts gone).block b).relabel
    (if b = RN.Entry then rename Pred (L 0).LoopHeader else fun x => x)
    (if b = RN.Entry ∨ b = Exit then rename Barrier (L 0).LatchBB else fun x => x)
  outside : ∀ b ∈ F.layout, b ∉ RN.BBSet →
    G.block b = (((F.mapValues f).eraseInsts gone).block b).relabel (fun x => x)
      (rename RN.Entry (L 2).LoopPreheader)
  reads : ∀ v, f v = v ∨ (∃ i ∈ gone, v = .inst i) ∧
    ∃ d : Fin 3, (∃ c ∈ localIdCalls F RN d, StandsFor F c v) ∧ f v = .inst (L d).IV
  erased : ∀ d : Fin 3, ∀ c ∈ localIdCalls F RN d, c ∈ gone
  others : ∀ i ∈ gone, ∃ d : Fin 3, i ∈ localIdCalls F RN d ∨
    ∃ c ∈ localIdCalls F RN d, TruncOf F c i ∧ f (.inst i) = .inst (L d).IV
  calls : ∀ b ∈ RN.BBInvolved, ∀ I ∈ (G.block b).insts, ∀ d < 3, isLocalIdCall d I = false
  unread : ∀ d : Fin 3, ∀ c ∈ localIdCalls F RN d, ∀ b ∈ G.layout, .inst c ∉ (G.block b).values

section
variable {order : Function → BlockId → List BlockId} {F : Function} {DT : DominatorTree}
  {RN : MxPARegion} {Exit Barrier Pred : BlockId}

/-- The name that an old block has for a predecessor in the nest. -/
def nestName (L₀ L₁ L₂ : DWLoop) (Entry Pred b x : BlockId) : BlockId :=
  L₂.incomingName L₁.LoopPreheader Pred b (L₁.incomingName L₀.LoopPreheader Pred b
    (L₀.incomingName Entry Pred b x))

/-- Where an old block branches to in the nest. -/
def nestTarget (L₀ L₁ L₂ : DWLoop) (Entry Exit Barrier Pred b x : BlockId) : BlockId :=
  L₂.target L₁.LoopPreheader L₁.LoopEnd Barrier Pred b
    (L₁.target L₀.LoopPreheader L₀.LoopEnd Barrier Pred b
      (L₀.target Entry Exit Barrier Pred b x))

/-- The three levels, innermost first. -/
structure ThreeLevels (RN : MxPARegion) (F G₁ G₂ G : Function) (DT DT₁ DT₂ DT₃ : DominatorTree)
    (L₀ L₁ L₂ : DWLoop) (Exit Barrier Pred : BlockId) : Prop where
  inner : Level RN F.freshInst F G₁ DT DT₁ L₀ 0 RN.Entry Exit Barrier Pred
  middle : Level RN F.freshInst G₁ G₂ DT₁ DT₂ L₁ 1 L₀.LoopPreheader L₀.LoopEnd Barrier Pred
  outer : Level RN F.freshInst G₂ G DT₂ DT₃ L₂ 2 L₁.LoopPreheader L₁.LoopEnd Barrier Pred

section
variable {G₁ G₂ G : Function} {DT₁ DT₂ DT₃ : DominatorTree} {L₀ L₁ L₂ : DWLoop} {b : BlockId}
  (h : Loopable F RN Exit Barrier Pred)
  (hL : ThreeLevels RN F G₁ G₂ G DT DT₁ DT₂ DT₃ L₀ L₁ L₂ Exit Barrier Pred)

include hL in
theorem ThreeLevels.layout₁ (hb : b ∈ F.layout) : b ∈ G₁.layout := (hL.inner.layout b).mpr (.inr hb)

include hL in
theorem ThreeLevels.layout₂ (hb : b ∈ G₁.layout) : b ∈ G₂.layout :=
  (hL.middle.layout b).mpr (.inr hb)

include hL in
theorem ThreeLevels.blocks₁ (hb : b ∈ L₀.blocks) : b ∈ G₁.layout :=
  (hL.inner.layout b).mpr (.inl hb)

include hL in
theorem ThreeLevels.blocks₂ (hb : b ∈ L₁.blocks) : b ∈ G₂.layout :=
  (hL.middle.layout b).mpr (.inl hb)

include hL in
theorem ThreeLevels.disjoint₀₁ (hb : b ∈ L₀.blocks) : b ∉ L₁.blocks :=
  hL.middle.fresh.not_mem_blocks (hL.blocks₁ hb)

include hL in
theorem ThreeLevels.disjoint₀₂ (hb : b ∈ L₀.blocks) : b ∉ L₂.blocks :=
  hL.outer.fresh.not_mem_blocks (hL.layout₂ (hL.blocks₁ hb))

include hL in
theorem ThreeLevels.disjoint₁₂ (hb : b ∈ L₁.blocks) : b ∉ L₂.blocks :=
  hL.outer.fresh.not_mem_blocks (hL.blocks₂ hb)

include hL in
theorem ThreeLevels.freshInst_le : F.freshInst ≤ G₁.freshInst ∧ G₁.freshInst ≤ G₂.freshInst :=
  ⟨Nat.le_of_lt (Nat.lt_of_le_of_lt (hL.inner.ids_new _ List.mem_cons_self)
      (hL.inner.ids_lt _ List.mem_cons_self)),
    Nat.le_of_lt (Nat.lt_of_le_of_lt (hL.middle.ids_new _ List.mem_cons_self)
      (hL.middle.ids_lt _ List.mem_cons_self))⟩

include h hL in
theorem ThreeLevels.replacing : Replacing RN F G [(2, L₂.IV), (1, L₁.IV), (0, L₀.IV)]
    (nestName L₀ L₁ L₂ RN.Entry Pred) (nestTarget L₀ L₁ L₂ RN.Entry Exit Barrier Pred) := by
  have hRN : ∀ b ∈ RN.BBInvolved, b ∈ F.layout := fun b hb => h.subset b (h.involved hb)
  obtain ⟨hle₁, hle₂⟩ := hL.freshInst_le
  have h₁ := Replacing.nil.cons hL.inner (by simp) h.ids hRN (Nat.le_refl _)
  have h₂ := h₁.cons hL.middle (by simp) h.ids hRN hle₁
  exact h₂.cons hL.outer (by simp) h.ids hRN (Nat.le_trans hle₁ hle₂)

include hL in
theorem ThreeLevels.nestName_eq (hb : b ∈ F.layout) :
    nestName L₀ L₁ L₂ RN.Entry Pred b = L₀.incomingName RN.Entry Pred b := by
  have hne₀ : b ≠ L₀.LoopPreheader := fun heq => hL.inner.fresh.preheader (heq ▸ hb)
  have hne₁ : b ≠ L₁.LoopPreheader := fun heq =>
    hL.middle.fresh.preheader (heq ▸ hL.layout₁ hb)
  funext x
  rw [nestName, DWLoop.incomingName_of_ne hne₁, DWLoop.incomingName_of_ne hne₀]

include hL in
/-- The two outer loops change the branches of the predecessor only. -/
theorem ThreeLevels.nestTarget_eq (hb : b ∈ F.layout) (hpred : b ≠ Pred) :
    nestTarget L₀ L₁ L₂ RN.Entry Exit Barrier Pred b =
      L₀.target RN.Entry Exit Barrier Pred b := by
  have hne₀ : ∀ x ∈ L₀.blocks, b ≠ x := fun x hx heq =>
    hL.inner.fresh.not_mem_blocks hb (heq ▸ hx)
  have hne₁ : ∀ x ∈ L₁.blocks, b ≠ x := fun x hx heq =>
    hL.middle.fresh.not_mem_blocks (hL.layout₁ hb) (heq ▸ hx)
  funext x
  rw [nestTarget, DWLoop.target_of_ne (hne₁ _ (by simp [DWLoop.blocks]))
      (hne₁ _ (by simp [DWLoop.blocks])) hpred,
    DWLoop.target_of_ne (hne₀ _ (by simp [DWLoop.blocks])) (hne₀ _ (by simp [DWLoop.blocks])) hpred]

include h hL in
/-- The predecessor enters the outermost loop, and nothing else outside the region is changed. -/
theorem ThreeLevels.nestTarget_outside (hb : b ∈ F.layout) (hout : b ∉ RN.BBSet) {x : BlockId}
    (hx : x ∈ F.succs b) : nestTarget L₀ L₁ L₂ RN.Entry Exit Barrier Pred b x =
      rename RN.Entry L₂.LoopPreheader x := by
  have hentry : b ≠ RN.Entry := fun heq => hout (heq ▸ h.entry_mem)
  have hexit : b ≠ Exit := fun heq => hout (heq ▸ h.exit_mem)
  by_cases hpred : b = Pred
  · subst hpred
    have hne₀ : ∀ y ∈ L₀.blocks, b ≠ y := fun y hy heq =>
      hL.inner.fresh.not_mem_blocks hb (heq ▸ hy)
    have hne₁ : ∀ y ∈ L₁.blocks, b ≠ y := fun y hy heq =>
      hL.middle.fresh.not_mem_blocks (hL.layout₁ hb) (heq ▸ hy)
    have hxF := h.closed b hb x hx
    have hx₀ : x ≠ L₀.LoopPreheader := fun heq => hL.inner.fresh.preheader (heq ▸ hxF)
    have hx₁ : x ≠ L₁.LoopPreheader := fun heq =>
      hL.middle.fresh.preheader (heq ▸ hL.layout₁ hxF)
    rw [nestTarget, DWLoop.target_pred hentry hexit,
      DWLoop.target_pred (hne₁ _ (by simp [DWLoop.blocks])) (hne₁ _ (by simp [DWLoop.blocks])),
      DWLoop.target_pred (hne₀ _ (by simp [DWLoop.blocks])) (hne₀ _ (by simp [DWLoop.blocks]))]
    by_cases hxE : x = RN.Entry
    · simp [rename, hxE]
    · simp [rename, hxE, hx₀, hx₁]
  · have hxE : x ≠ RN.Entry := fun heq =>
      hpred (h.entered b x hx hb hout (heq ▸ h.entry_mem)).1
    rw [hL.nestTarget_eq hb hpred, DWLoop.target_of_ne hentry hexit hpred, rename, if_neg hxE]

include h hL in
theorem ThreeLevels.replaces :
    ∃ f gone, Replaces F G RN Exit Barrier Pred (threeLoops L₀ L₁ L₂) f gone := by
  obtain ⟨f, gone, hf, htakes, hread⟩ := (hL.replacing h).reads
  have hdim : ∀ p ∈ [(2, L₂.IV), (1, L₁.IV), (0, L₀.IV)], ∃ d : Fin 3,
      p = (d.val, (DWLoop.IV (threeLoops L₀ L₁ L₂ d))) := by
    intro p hp
    simp only [List.mem_cons, List.not_mem_nil, or_false] at hp
    rcases hp with rfl | rfl | rfl
    · exact ⟨2, rfl⟩
    · exact ⟨1, rfl⟩
    · exact ⟨0, rfl⟩
  have hmem : ∀ d : Fin 3, (d.val, (DWLoop.IV (threeLoops L₀ L₁ L₂ d))) ∈
      [(2, L₂.IV), (1, L₁.IV), (0, L₀.IV)] := by
    intro d
    match d with
    | 0 => simp [LoopInserter.threeLoops]
    | 1 => simp [LoopInserter.threeLoops]
    | 2 => simp [LoopInserter.threeLoops]
  refine ⟨f, gone, ?_⟩
  constructor
  · intro b hb
    have hbF := h.subset b hb
    have hpred : b ≠ Pred := fun heq => h.outside (heq ▸ hb)
    have hbarrier : Barrier ∈ F.layout := h.closed _ (h.subset _ h.exit_mem) _
      (h.exit_succs ▸ List.mem_cons_self)
    have hlatch : L₀.LatchBB ≠ Barrier := fun heq => hL.inner.fresh.latch (heq ▸ hbarrier)
    rw [hread b hbF, hL.nestName_eq hbF, hL.nestTarget_eq hbF hpred,
      DWLoop.target_region hlatch hpred]
    rfl
  · intro b hb hout
    have hentry : b ≠ RN.Entry := fun heq => hout (heq ▸ h.entry_mem)
    rw [hread b hb, hL.nestName_eq hb, DWLoop.incomingName_of_ne hentry]
    refine BasicBlock.relabel_congr fun x hx => hL.nestTarget_outside h hb hout ?_
    simpa [Function.eraseInsts, Function.succs] using hx
  · intro v
    by_cases heq : f v = v
    · exact .inl heq
    · obtain ⟨p, hp, hc, hv⟩ := (hf v).resolve_left heq
      obtain ⟨d, rfl⟩ := hdim p hp
      exact .inr ⟨htakes.reads v heq, d, hc, hv⟩
  · exact fun d c hc => htakes.calls _ (hmem d) c hc
  · intro i hi
    obtain ⟨p, hp, hi⟩ := htakes.others i hi
    obtain ⟨d, rfl⟩ := hdim p hp
    exact ⟨d, hi⟩
  · intro b hb I hI d hd
    have hbF := h.subset b (h.involved hb)
    obtain ⟨J, hJ, -, hJcall⟩ := hL.outer.old b (hL.layout₂ (hL.layout₁ hbF)) I hI
    obtain ⟨K, hK, -, hKcall⟩ := hL.middle.old b (hL.layout₁ hbF) J hJ
    obtain rfl | rfl | rfl : d = 0 ∨ d = 1 ∨ d = 2 := by omega
    · rw [hJcall, hKcall]
      exact hL.inner.cleared b hb K hK
    · rw [hJcall]
      exact hL.middle.cleared b hb J hJ
    · exact hL.outer.cleared b hb I hI
  · exact fun d c hc b hb => (hL.replacing h).gone _ (hmem d) c hc b hb

include h hL in
theorem ThreeLevels.inner_stands : L₀.Stands G 0 RN.Entry L₁.LatchBB := by
  have hpred : Pred ∈ F.layout := h.closed.reachable_mem h.pred
  have hnext : Barrier ∈ F.layout := h.closed _ (h.subset _ h.exit_mem) _
    (h.exit_succs ▸ List.mem_cons_self)
  have hfrom := DWLoop.from_of_ids hL.inner.ids_new
  have hend₀ : L₀.LoopEnd ∈ L₀.blocks := by simp [DWLoop.blocks]
  have hend₁ : L₁.LoopEnd ∈ L₁.blocks := by simp [DWLoop.blocks]
  have hpreheader₁ : L₁.LoopPreheader ∈ L₁.blocks := by simp [DWLoop.blocks]
  have hne : L₀.LoopEnd ≠ L₁.LoopEnd := fun heq => hL.disjoint₀₁ hend₀ (heq ▸ hend₁)
  have h₁ := hL.middle.frame L₀ 0 _ _ hfrom (fun b hb => hL.blocks₁ hb)
    (hL.inner.fresh.not_mem_blocks hpred) (hL.inner.fresh.not_mem_blocks hnext) (fun _ => rfl)
    (fun _ => rfl) hL.inner.fresh.distinct hL.inner.stands
  have h₂ := hL.outer.frame L₀ 0 _ _ hfrom (fun b hb => hL.layout₂ (hL.blocks₁ hb))
    (hL.inner.fresh.not_mem_blocks hpred) (hL.inner.fresh.not_mem_blocks hnext)
    (fun hmem => absurd hpreheader₁ (hL.disjoint₀₁ hmem))
    (fun hmem => absurd hend₁ (hL.disjoint₀₁ hmem)) hL.inner.fresh.distinct h₁
  rwa [if_neg hne, if_pos rfl] at h₂

include h hL in
theorem ThreeLevels.middle_stands : L₁.Stands G 1 L₀.LoopPreheader L₂.LatchBB := by
  have hpred : Pred ∈ F.layout := h.closed.reachable_mem h.pred
  have hnext : Barrier ∈ F.layout := h.closed _ (h.subset _ h.exit_mem) _
    (h.exit_succs ▸ List.mem_cons_self)
  have hfrom : L₁.From F.freshInst := DWLoop.from_of_ids fun i hi =>
    Nat.le_trans hL.freshInst_le.1 (hL.middle.ids_new i hi)
  have h₂ := hL.outer.frame L₁ 1 _ _ hfrom (fun b hb => hL.blocks₂ hb)
    (hL.middle.fresh.not_mem_blocks (hL.layout₁ hpred))
    (hL.middle.fresh.not_mem_blocks (hL.layout₁ hnext)) (fun _ => rfl) (fun _ => rfl)
    hL.middle.fresh.distinct hL.middle.stands
  rwa [if_pos rfl] at h₂

include h hL in
theorem ThreeLevels.exit_succs : G.succs Exit = [L₀.LatchBB] := by
  have hexit := h.subset _ h.exit_mem
  have hpred : Exit ≠ Pred := fun heq => h.outside (heq ▸ h.exit_mem)
  have hmem₀ : ∀ b ∈ L₀.blocks, Exit ≠ b := fun b hb heq =>
    hL.inner.fresh.not_mem_blocks hexit (heq ▸ hb)
  have hmem₁ : ∀ b ∈ L₁.blocks, Exit ≠ b := fun b hb heq =>
    hL.middle.fresh.not_mem_blocks (hL.layout₁ hexit) (heq ▸ hb)
  rw [hL.outer.succs _ (hL.layout₂ (hL.layout₁ hexit)) (hmem₁ _ (by simp [DWLoop.blocks]))
      (hmem₁ _ (by simp [DWLoop.blocks])) hpred,
    hL.middle.succs _ (hL.layout₁ hexit) (hmem₀ _ (by simp [DWLoop.blocks]))
      (hmem₀ _ (by simp [DWLoop.blocks])) hpred, hL.inner.exit]

/-- What holds of two of the loops whichever way round holds of any two. -/
theorem pairs_of_lt {P : Fin 3 → Fin 3 → Prop} (hsymm : ∀ {d e}, P d e → P e d) (h₀₁ : P 0 1)
    (h₀₂ : P 0 2) (h₁₂ : P 1 2) (d e : Fin 3) (hde : d ≠ e) : P d e := by
  match d, e with
  | 0, 0 | 1, 1 | 2, 2 => exact absurd rfl hde
  | 0, 1 => exact h₀₁
  | 1, 0 => exact hsymm h₀₁
  | 0, 2 => exact h₀₂
  | 2, 0 => exact hsymm h₀₂
  | 1, 2 => exact h₁₂
  | 2, 1 => exact hsymm h₁₂

include h hL in
theorem ThreeLevels.threeLoops : ThreeLoops F G RN Exit Barrier (threeLoops L₀ L₁ L₂) := by
  have hids₀₁ : ∀ i ∈ L₀.ids, i ∉ L₁.ids := fun i hi hi' =>
    absurd (hL.inner.ids_lt i hi) (Nat.not_lt.mpr (hL.middle.ids_new i hi'))
  have hids₁₂ : ∀ i ∈ L₁.ids, i ∉ L₂.ids := fun i hi hi' =>
    absurd (hL.middle.ids_lt i hi) (Nat.not_lt.mpr (hL.outer.ids_new i hi'))
  have hids₀₂ : ∀ i ∈ L₀.ids, i ∉ L₂.ids := fun i hi hi' =>
    absurd (hL.inner.ids_lt i hi)
      (Nat.not_lt.mpr (Nat.le_trans hL.freshInst_le.2 (hL.outer.ids_new i hi')))
  constructor
  · exact hL.inner_stands h
  · exact hL.middle_stands h
  · exact hL.outer.stands
  · exact hL.exit_succs h
  · intro b
    rw [hL.outer.layout, hL.middle.layout, hL.inner.layout]
    constructor
    · rintro (hb | hb | hb | hb)
      · exact .inr ⟨2, hb⟩
      · exact .inr ⟨1, hb⟩
      · exact .inr ⟨0, hb⟩
      · exact .inl hb
    · rintro (hb | ⟨d, hb⟩)
      · exact .inr (.inr (.inr hb))
      · match d with
        | 0 => exact .inr (.inr (.inl hb))
        | 1 => exact .inr (.inl hb)
        | 2 => exact .inl hb
  · intro d b hb hF
    match d with
    | 0 => exact hL.inner.fresh.not_mem_blocks hF hb
    | 1 => exact hL.middle.fresh.not_mem_blocks (hL.layout₁ hF) hb
    | 2 => exact hL.outer.fresh.not_mem_blocks (hL.layout₂ (hL.layout₁ hF)) hb
  · intro d
    match d with
    | 0 => exact hL.inner.fresh.distinct
    | 1 => exact hL.middle.fresh.distinct
    | 2 => exact hL.outer.fresh.distinct
  · exact pairs_of_lt (fun hP b hb hb' => hP b hb' hb) (fun b => hL.disjoint₀₁)
      (fun b => hL.disjoint₀₂) (fun b => hL.disjoint₁₂)
  · intro d
    match d with
    | 0 => exact hL.inner.ids
    | 1 => exact hL.middle.ids
    | 2 => exact hL.outer.ids
  · exact pairs_of_lt (fun hP i hi hi' => hP i hi' hi) hids₀₁ hids₀₂ hids₁₂
  · intro d i hi
    obtain ⟨hle₁, hle₂⟩ := hL.freshInst_le
    match d with
    | 0 => exact hL.inner.ids_new i hi
    | 1 => exact Nat.le_trans hle₁ (hL.middle.ids_new i hi)
    | 2 => exact Nat.le_trans hle₁ (Nat.le_trans hle₂ (hL.outer.ids_new i hi))

end

theorem Loopable.insertLoops_eq (h : Loopable F RN Exit Barrier Pred) (hDT : TreeFor F DT RN Pred)
    (horder : PredOrder order) : ∃ G DT' L, insertLoops order RN F DT = .ok (G, DT') ∧
      ThreeLoops F G RN Exit Barrier L ∧
      ∃ f gone, Replaces F G RN Exit Barrier Pred L f gone := by
  have hcalls : CallsBelow F F.freshInst := fun b hb I hI _ =>
    F.lt_freshInst (F.instIds_of_mem hb hI)
  have hRN : ∀ b ∈ RN.BBInvolved, b ∈ F.layout := fun b hb => h.subset b (h.involved hb)
  have hplace := h.place hDT
  have hpred := hplace.pred_mem
  obtain ⟨G₁, DT₁, L₀, hbuild₀, h₀⟩ := hplace.level horder hcalls hRN (Nat.le_refl _)
    (fun a ha => h.fresh_dominates hDT ha) 0
  have hlayout₁ : ∀ b ∈ F.layout, b ∈ G₁.layout := fun b hb => (h₀.layout b).mpr (.inr hb)
  have hfresh₁ : ∀ a, a ∉ G₁.layout → DT₁.dominates a Pred = false := fun a ha => by
    rw [h₀.tree a Pred (h₀.fresh.not_mem_blocks hpred)]
    exact h.fresh_dominates hDT fun hmem => ha (hlayout₁ a hmem)
  have hn₁ : F.freshInst ≤ G₁.freshInst := Nat.le_of_lt
    (Nat.lt_of_le_of_lt (h₀.ids_new _ List.mem_cons_self) (h₀.ids_lt _ List.mem_cons_self))
  obtain ⟨G₂, DT₂, L₁, hbuild₁, h₁⟩ := h₀.place.level horder h₀.calls
    (fun b hb => hlayout₁ b (hRN b hb)) hn₁ hfresh₁ 1
  have hlayout₂ : ∀ b ∈ G₁.layout, b ∈ G₂.layout := fun b hb => (h₁.layout b).mpr (.inr hb)
  have hfresh₂ : ∀ a, a ∉ G₂.layout → DT₂.dominates a Pred = false := fun a ha => by
    rw [h₁.tree a Pred (h₁.fresh.not_mem_blocks (hlayout₁ _ hpred))]
    exact hfresh₁ a fun hmem => ha (hlayout₂ a hmem)
  have hn₂ : G₁.freshInst ≤ G₂.freshInst := Nat.le_of_lt
    (Nat.lt_of_le_of_lt (h₁.ids_new _ List.mem_cons_self) (h₁.ids_lt _ List.mem_cons_self))
  obtain ⟨G₃, DT₃, L₂, hbuild₂, h₂⟩ := h₁.place.level horder h₁.calls
    (fun b hb => hlayout₂ b (hlayout₁ b (hRN b hb))) (Nat.le_trans hn₁ hn₂) hfresh₂ 2
  have hlevels : ThreeLevels RN F G₁ G₂ G₃ DT DT₁ DT₂ DT₃ L₀ L₁ L₂ Exit Barrier Pred :=
    ⟨h₀, h₁, h₂⟩
  refine ⟨G₃, DT₃, threeLoops L₀ L₁ L₂, ?_, hlevels.threeLoops h, hlevels.replaces h⟩
  rw [insertLoops, h.exit]
  simp only [hbuild₀, hbuild₁, hbuild₂, bind, Except.bind, pure, Except.pure]

end

end VariOCL.IR.LoopInserter
