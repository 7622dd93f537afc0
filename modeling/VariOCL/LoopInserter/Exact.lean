import VariOCL.LoopInserter.Check

/-! The flooding is exact: the region before a barrier holds the barrier-free blocks that flow to
the barrier, and is entered below a barrier. -/

namespace VariOCL.IR

open Relation (ReflTransGen)

/-- No barrier block follows another one directly. -/
def Function.Separated (F : Function) : Prop :=
  ∀ b ∈ F.layout, hasBarrier (F.block b) → ∀ p ∈ F.predEdges b, hasBarrier (F.block p) = false

namespace LoopInserter

section
variable {F : Function} {preds : BlockId → List BlockId} {B b p q x y : BlockId} {fuel : Nat}

theorem regionEdge_iff (hF : F.Valid) (hsep : F.Separated) :
    F.RegionEdge x y ↔ x ∈ F.predEdges y ∧ hasBarrier (F.block x) = false := by
  refine and_congr_right fun hx => ⟨fun h => ?_, fun h hx => absurd (h.symm.trans hx) Bool.false_ne_true⟩
  obtain ⟨hmem, he⟩ := F.mem_predEdges.mp hx
  cases hbar : hasBarrier (F.block x) with
  | false => rfl
  | true => exact (hbar.symm.trans (hsep y (hF.closed x hmem y he) (h hbar) x hx))

theorem above_iff_inRegion (hF : F.Valid) (hsep : F.Separated) (hB : hasBarrier (F.block B)) :
    F.Above B x ↔ F.InRegion B x := by
  have hstep : F.RegionEdge = fun x y => x ∈ F.predEdges y ∧ hasBarrier (F.block x) = false := by
    funext x y
    exact propext (regionEdge_iff hF hsep)
  constructor
  · intro h
    exact ⟨h.mem hB, h.1, hB, hstep ▸ h.2⟩
  · rintro ⟨-, hx, -, hw⟩
    exact ⟨hx, hstep ▸ hw⟩

theorem endsRegion_of_separated (hF : F.Valid) (hsep : F.Separated) (hB : B ∈ F.layout)
    (hbar : hasBarrier (F.block B)) : F.EndsRegion B := by
  refine ⟨hB, hbar, fun y hy => ?_⟩
  cases h : hasBarrier (F.block y) with
  | false => rfl
  | true =>
    have := hsep y (hF.closed B hB y hy) h B (F.mem_predEdges.mpr ⟨hB, hy⟩)
    exact absurd (this.symm.trans hbar) Bool.false_ne_true

/-- Walking back from a block of the region leads to a barrier above the region. -/
theorem exists_entered (hH : F.HivedOff) (hF : F.Valid) (hreach : F.Reachable x)
    (hx : F.InRegion B x) :
    ∃ y, F.InRegion B y ∧ ∃ q ∈ F.predEdges y, hasBarrier (F.block q) = true := by
  induction hreach with
  | refl =>
    have := hasBarrier_of_containsJustABarrier hH.entry
    exact absurd (hx.2.1.symm.trans this) Bool.false_ne_true
  | @tail w x hw he ih =>
    have hwx : w ∈ F.predEdges x := F.mem_predEdges.mpr ⟨hF.closed.reachable_mem hw, he⟩
    cases hbar : hasBarrier (F.block w) with
    | true => exact ⟨x, hx, w, hwx, hbar⟩
    | false =>
      exact ih ⟨hF.closed.reachable_mem hw, hbar, hx.2.2.1, hx.2.2.2.head ⟨hwx, hbar⟩⟩

theorem not_above_entry (hF : F.Valid) (hbar : hasBarrier (F.block F.entry)) :
    ¬ F.Above F.entry x := by
  rintro ⟨hx, hw⟩
  rcases ReflTransGen.cases_tail hw with rfl | ⟨y, -, hy⟩
  · exact Bool.false_ne_true (hx.symm.trans hbar)
  · obtain ⟨hmem, he⟩ := F.mem_predEdges.mp hy.1
    exact hF.entryPreds y hmem he

/-- The region before the barrier block `B`. -/
structure IsExactRegion (F : Function) (B : BlockId) (PR : MxPARegion) : Prop where
  blocks : ∀ x, x ∈ PR.BBSet ↔ F.InRegion B x
  exit : ∃ p, F.predEdges B = [p] ∧ PR.Exit = some p ∧ p ∈ PR.BBSet
  entry : PR.Entry ∈ PR.BBSet
  below : ∃ q ∈ F.layout, hasBarrier (F.block q) ∧ F.Edge q PR.Entry

theorem createRegionBeforeBarrier_exact (hperm : ∀ b, (preds b).Perm (F.predEdges b))
    (hF : F.Valid) (hH : F.HivedOff) (hreach : ∀ b ∈ F.layout, F.Reachable b)
    (hsep : F.Separated) (hB : B ∈ F.layout) (hbar : hasBarrier (F.block B))
    (hfuel : floodFuel F ≤ fuel) :
    (B ≠ F.entry → ∃ PR, createRegionBeforeBarrier F preds fuel B = .ok (some PR) ∧
      IsExactRegion F B PR) ∧
    (B = F.entry → createRegionBeforeBarrier F preds fuel B = .ok none) := by
  obtain ⟨R, hR, hspec⟩ := createRegionBeforeBarrier_spec hperm hF hH.below
    (endsRegion_of_separated hF hsep hB hbar) hfuel
  constructor
  · intro hne
    obtain ⟨p, hp, -⟩ := hH.pred B hB hne hbar
    have hpB : p ∈ F.predEdges B := hp ▸ List.mem_cons_self
    have hcode : hasBarrier (F.block p) = false := hsep B hB hbar p hpB
    have hin : F.InRegion B p :=
      ⟨(F.mem_predEdges.mp hpB).1, hcode, hbar, .single ⟨hpB, hcode⟩⟩
    cases R with
    | none =>
      obtain ⟨y, hy, q, hq, hqbar⟩ := exists_entered hH hF (hreach p hin.1) hin
      have := hspec y ((above_iff_inRegion hF hsep hbar).mpr hy) q ((hperm y).symm.subset hq)
      exact absurd (this.symm.trans hqbar) Bool.false_ne_true
    | some PR =>
      obtain ⟨hset, hentry, ⟨q, hq, hqbar⟩, hexit⟩ := hspec
      obtain ⟨hqmem, he⟩ := F.mem_predEdges.mp ((hperm _).subset hq)
      have hblocks : ∀ x, x ∈ PR.BBSet ↔ F.InRegion B x := fun x =>
        (hset x).trans (above_iff_inRegion hF hsep hbar)
      have hpreds : preds B = [p] := List.perm_singleton.mp (hp ▸ hperm B)
      exact ⟨PR, hR, hblocks,
        ⟨p, hp, by rw [hexit, getSinglePredecessor, hpreds], (hblocks p).mpr hin⟩,
        (hset _).mpr hentry, q, hqmem, hqbar, he⟩
  · rintro rfl
    cases R with
    | none => exact hR
    | some PR => exact absurd hspec.2.1 (not_above_entry hF hbar)

end

/-- A loop between two barriers, with the code of its body in two blocks. -/
def loopBetweenBarriers : Function where
  name := "loop_between_barriers"
  entry := 0
  rest := [1, 2, 3, 4]
  block
    | 0 => ⟨[barrierCall 0], 1, .br 1⟩
    | 1 => ⟨[], 2, .condBr (.argument 0) 2 3⟩
    | 2 => ⟨[], 3, .br 1⟩
    | 3 => ⟨[], 4, .br 4⟩
    | _ => ⟨[barrierCall 5], 6, .ret none⟩

theorem loopBetweenBarriers_valid : loopBetweenBarriers.Valid where
  nodup := by decide
  closed := by unfold Function.Closed; decide
  entryPreds := by decide
  ids := by decide
  phisFirst := by decide
  entryPhis := by decide
  incoming := by decide

theorem loopBetweenBarriers_hivedOff : loopBetweenBarriers.HivedOff :=
  have h := hivedOffBelow_of_single (F := loopBetweenBarriers) (by decide) (by decide) (by decide)
  ⟨h.alone, by decide, h.exits, h.pred⟩

theorem loopBetweenBarriers_reachable :
    ∀ b ∈ loopBetweenBarriers.layout, loopBetweenBarriers.Reachable b := by
  have h : ∀ b ∈ loopBetweenBarriers.layout, loopBetweenBarriers.reachable b = true := by decide
  exact fun b hb => (Function.reachable_iff loopBetweenBarriers_valid.closed).mp (h b hb)

theorem createRegionBeforeBarrier_exact_loopBetweenBarriers :
    ((4 : BlockId) ≠ loopBetweenBarriers.entry → ∃ PR, createRegionBeforeBarrier
      loopBetweenBarriers loopBetweenBarriers.predEdges (floodFuel loopBetweenBarriers) 4 =
        .ok (some PR) ∧ IsExactRegion loopBetweenBarriers 4 PR) ∧
    ((4 : BlockId) = loopBetweenBarriers.entry → createRegionBeforeBarrier loopBetweenBarriers
      loopBetweenBarriers.predEdges (floodFuel loopBetweenBarriers) 4 = .ok none) :=
  createRegionBeforeBarrier_exact (fun _ => .rfl) loopBetweenBarriers_valid
    loopBetweenBarriers_hivedOff loopBetweenBarriers_reachable
    (by unfold Function.Separated; decide) (by decide) (by decide) le_rfl

end LoopInserter

end VariOCL.IR
