import VariOCL.LoopInserter.Flood
import VariOCL.IR.Loops

/-! The kernels the gathering is meant for: every block of code belongs to the region before one
barrier, and a region has one entry. -/

namespace VariOCL.IR

open Relation (ReflTransGen)

/-- `x` reaches the barrier block `B` along barrier-free blocks. -/
def Function.FlowsTo (F : Function) (x B : BlockId) : Prop :=
  hasBarrier (F.block B) ∧
    ReflTransGen (fun x y => x ∈ F.predEdges y ∧ hasBarrier (F.block x) = false) x B

def Function.InRegion (F : Function) (B x : BlockId) : Prop :=
  x ∈ F.layout ∧ hasBarrier (F.block x) = false ∧ F.FlowsTo x B

/-- The region before `B` is entered at `x`. -/
def Function.Enters (F : Function) (B x : BlockId) : Prop :=
  F.InRegion B x ∧ (x = F.entry ∨ ∃ p ∈ F.predEdges x, ¬ F.InRegion B p)

structure Function.OneRegionEach (F : Function) (getLoopFor : BlockId → Option BlockId) :
    Prop where
  flows : ∀ b ∈ F.layout, hasBarrier (F.block b) = false → ∃! B, F.FlowsTo b B
  entered : ∀ B x y, F.Enters B x → F.Enters B y → x = y
  preds : ∀ B x, F.Enters B x → ∀ p ∈ F.predEdges x, hasBarrier (F.block p)
  outside : ∀ B x, F.Enters B x → ∀ p ∈ F.predEdges x, ∀ q ∈ F.predEdges x,
    F.OutsideLoopOf getLoopFor x p → F.OutsideLoopOf getLoopFor x q → p = q

namespace LoopInserter

/-- The input of the gathering: predecessor lists in use-list order, and innermost loops. -/
structure Gatherable (F : Function) (preds : BlockId → List BlockId)
    (getLoopFor : BlockId → Option BlockId) : Prop where
  valid : F.Valid
  reducible : F.Reducible
  perm : ∀ b, (preds b).Perm (F.predEdges b)
  loops : F.LoopForest getLoopFor
  hivedOff : F.HivedOffBelow
  regions : F.OneRegionEach getLoopFor

section
variable {F : Function} {preds : BlockId → List BlockId} {getLoopFor : BlockId → Option BlockId}
  {B B' b p q x y : BlockId}

theorem Gatherable.mem_preds (h : Gatherable F preds getLoopFor) :
    p ∈ preds x ↔ p ∈ F.layout ∧ F.Edge p x :=
  (h.perm x).mem_iff.trans F.mem_predEdges

theorem Gatherable.single_pred (h : Gatherable F preds getLoopFor) (hb : b ∈ F.layout)
    (hbar : hasBarrier (F.block b)) (hp : p ∈ F.predEdges b) :
    F.predEdges b = [p] ∧ F.succs p = [b] := by
  have hne : b ≠ F.entry := by
    rintro rfl
    obtain ⟨hmem, hedge⟩ := F.mem_predEdges.mp hp
    exact h.valid.entryPreds p hmem hedge
  obtain ⟨q, hq, hterm⟩ := h.hivedOff.pred b hb hne hbar
  rw [hq, List.mem_singleton] at hp
  subst hp
  exact ⟨hq, by rw [Function.succs, hterm]; rfl⟩

theorem Gatherable.mem_of_edge (h : Gatherable F preds getLoopFor) (hp : p ∈ F.predEdges x) :
    x ∈ F.layout := by
  obtain ⟨hmem, hedge⟩ := F.mem_predEdges.mp hp
  exact h.valid.closed p hmem x hedge

/-- A barrier block above code is followed by code only. -/
theorem Gatherable.endsRegion (h : Gatherable F preds getLoopFor) (hp : p ∈ F.predEdges x)
    (hbar : hasBarrier (F.block p)) (hx : hasBarrier (F.block x) = false) : F.EndsRegion p := by
  obtain ⟨hmem, hedge⟩ := F.mem_predEdges.mp hp
  refine ⟨hmem, hbar, fun y hy => ?_⟩
  by_contra hyb
  rw [Bool.not_eq_false] at hyb
  have hsucc := (h.single_pred (h.valid.closed p hmem y hy) hyb (F.mem_predEdges.mpr ⟨hmem, hy⟩)).2
  rw [Function.Edge, hsucc, List.mem_singleton] at hedge
  exact Bool.false_ne_true (hx.symm.trans (hedge ▸ hyb))

/-! ### The barrier a region ends in -/

/-- The first barrier on the way down. -/
theorem exists_flowsTo (hw : ReflTransGen F.RegionEdge x B) (hB : hasBarrier (F.block B)) :
    ∃ b, F.FlowsTo x b ∧ ReflTransGen F.RegionEdge b B := by
  induction hw using ReflTransGen.head_induction_on with
  | refl => exact ⟨B, ⟨hB, .refl⟩, .refl⟩
  | @head x y hxy hyB ih =>
    cases hx : hasBarrier (F.block x) with
    | true => exact ⟨x, ⟨hx, .refl⟩, hyB.head hxy⟩
    | false =>
      obtain ⟨b, ⟨hb, hw⟩, hbB⟩ := ih
      exact ⟨b, ⟨hb, hw.head ⟨hxy.1, hx⟩⟩, hbB⟩

theorem hasBarrier_of_regionEdges (hw : ReflTransGen F.RegionEdge b B)
    (hb : hasBarrier (F.block b)) : hasBarrier (F.block B) := by
  induction hw with
  | refl => exact hb
  | tail _ he ih => exact he.2 ih

/-- Below a barrier block there is at most one chain of barrier blocks. -/
theorem Gatherable.end_unique (h : Gatherable F preds getLoopFor)
    (hb : hasBarrier (F.block b)) (hB : F.EndsRegion B) (hB' : F.EndsRegion B')
    (hw : ReflTransGen F.RegionEdge b B) (hw' : ReflTransGen F.RegionEdge b B') : B = B' := by
  induction hw using ReflTransGen.head_induction_on with
  | refl =>
    rcases ReflTransGen.cases_head hw' with rfl | ⟨y, hy, -⟩
    · rfl
    · have hcode := hB.2.2 y (F.mem_predEdges.mp hy.1).2
      exact absurd (hcode.symm.trans (hy.2 hb)) Bool.false_ne_true
  | @head b y hby hyB ih =>
    have hy := hby.2 hb
    have hsucc := (h.single_pred (h.mem_of_edge hby.1) hy hby.1).2
    rcases ReflTransGen.cases_head hw' with rfl | ⟨z, hz, hzB⟩
    · have hcode := hB'.2.2 y (F.mem_predEdges.mp hby.1).2
      exact absurd (hcode.symm.trans hy) Bool.false_ne_true
    · have hzy : z ∈ F.succs b := (F.mem_predEdges.mp hz.1).2
      rw [hsucc, List.mem_singleton] at hzy
      exact ih hy (hzy ▸ hzB)

/-- The regions before two barriers share no block. -/
theorem Gatherable.eq_of_above (h : Gatherable F preds getLoopFor) (hB : F.EndsRegion B)
    (hB' : F.EndsRegion B') (hx : F.Above B x) (hx' : F.Above B' x) : B = B' := by
  obtain ⟨b, hb, hbB⟩ := exists_flowsTo hx.2 hB.2.1
  obtain ⟨b', hb', hbB'⟩ := exists_flowsTo hx'.2 hB'.2.1
  have heq := (h.regions.flows x (hx.mem hB.2.1) hx.1).unique hb hb'
  subst heq
  exact h.end_unique hb.1 hB hB' hbB hbB'

theorem FlowsTo.last (hf : F.FlowsTo x b) (hx : hasBarrier (F.block x) = false) :
    ∃ q ∈ F.predEdges b, hasBarrier (F.block q) = false := by
  rcases ReflTransGen.cases_tail hf.2 with rfl | ⟨q, -, hq⟩
  · exact absurd (hx.symm.trans hf.1) Bool.false_ne_true
  · exact ⟨q, hq⟩

/-- The code above one barrier all reaches the same barrier block first. -/
theorem Gatherable.flowsTo_unique (h : Gatherable F preds getLoopFor)
    (hb : ∃ q ∈ F.predEdges b, hasBarrier (F.block q) = false) (hbar : hasBarrier (F.block b))
    (hp : ∃ q ∈ F.predEdges p, hasBarrier (F.block q) = false) (hpbar : hasBarrier (F.block p))
    (hw : ReflTransGen F.RegionEdge b B) (hw' : ReflTransGen F.RegionEdge p B) : b = p := by
  induction hw with
  | refl =>
    rcases ReflTransGen.cases_tail hw' with rfl | ⟨z, hz, hzb⟩
    · rfl
    · obtain ⟨q, hq, hcode⟩ := hb
      have hqz := (h.single_pred (h.mem_of_edge hq) hbar hq).1
      have hzq := hzb.1
      rw [hqz, List.mem_singleton] at hzq
      exact absurd (hcode.symm.trans (hzq ▸ hasBarrier_of_regionEdges hz hpbar)) Bool.false_ne_true
  | @tail y z hy hyz ih =>
    have hybar := hasBarrier_of_regionEdges hy hbar
    rcases ReflTransGen.cases_tail hw' with rfl | ⟨w, hpw, hwz⟩
    · obtain ⟨q, hq, hcode⟩ := hp
      have hqz := (h.single_pred (h.mem_of_edge hq) hpbar hq).1
      have hyq := hyz.1
      rw [hqz, List.mem_singleton] at hyq
      exact absurd (hcode.symm.trans (hyq ▸ hybar)) Bool.false_ne_true
    · have hyw := hyz.1
      rw [(h.single_pred (h.mem_of_edge hwz.1) (hyz.2 hybar) hwz.1).1, List.mem_singleton] at hyw
      exact ih (hyw ▸ hpw)

theorem exists_enters (hB : F.EndsRegion B) (hx : F.Above B x)
    (he : x = F.entry ∨ ∃ p ∈ F.predEdges x, hasBarrier (F.block p)) :
    ∃ b, F.Enters b x ∧ ReflTransGen F.RegionEdge b B := by
  obtain ⟨b, hb, hbB⟩ := exists_flowsTo hx.2 hB.2.1
  refine ⟨b, ⟨⟨hx.mem hB.2.1, hx.1, hb⟩, he.imp_right fun ⟨p, hp, hbar⟩ => ⟨p, hp, fun hin => ?_⟩⟩,
    hbB⟩
  exact Bool.false_ne_true (hin.2.1.symm.trans hbar)

/-- A region has one block with a barrier above it. -/
theorem Gatherable.entry_unique (h : Gatherable F preds getLoopFor) (hB : F.EndsRegion B)
    (hx : F.Above B x) (hy : F.Above B y) (hpx : ∃ p ∈ F.predEdges x, hasBarrier (F.block p))
    (hpy : ∃ p ∈ F.predEdges y, hasBarrier (F.block p)) : x = y := by
  obtain ⟨b, hbx, hbB⟩ := exists_enters hB hx (.inr hpx)
  obtain ⟨b', hby, hbB'⟩ := exists_enters hB hy (.inr hpy)
  have heq := h.flowsTo_unique (FlowsTo.last hbx.1.2.2 hx.1) hbx.1.2.2.1
    (FlowsTo.last hby.1.2.2 hy.1) hby.1.2.2.1 hbB hbB'
  exact h.regions.entered b x y hbx (heq ▸ hby)

end

end LoopInserter

end VariOCL.IR
