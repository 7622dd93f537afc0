import VariOCL.LoopInserter.Disjoint
import VariOCL.LoopInserter.RealEntry

/-! Every block of code is in a collected region, unless a scan overwrites a barrier block it has in
hand. -/

namespace VariOCL.IR

open Relation (ReflTransGen)

namespace LoopInserter

section
variable {F : Function} {preds : BlockId → List BlockId} {getLoopFor : BlockId → Option BlockId}
  {fuel : Nat} {s t : Gathering} {b p x : BlockId}

/-- The scan of the next turn finds at most one block outside the loop of the entry, so that it
overwrites no other one. -/
def NoOverwrite (getLoopFor : BlockId → Option BlockId) (F : Function)
    (preds : BlockId → List BlockId) (fuel : Nat) (s : Gathering) : Prop :=
  ∀ b PR, s.ExitBB = some b → createRegionBeforeBarrier F preds fuel b = .ok (some PR) →
    ∀ p ∈ otherBarriers getLoopFor (b :: s.VisitedBarriers) PR.Entry (preds PR.Entry),
    ∀ q ∈ otherBarriers getLoopFor (b :: s.VisitedBarriers) PR.Entry (preds PR.Entry), p = q

/-- The region before `b` is collected, or there is none. -/
def Settled (F : Function) (preds : BlockId → List BlockId) (fuel : Nat) (s : Gathering)
    (b : BlockId) : Prop :=
  b ∈ s.VisitedBarriers ∨ createRegionBeforeBarrier F preds fuel b = .ok none

structure CoverInv (F : Function) (preds : BlockId → List BlockId) (fuel : Nat)
    (s : Gathering) : Prop where
  exits : ∀ b ∈ exitBlocks F, Settled F preds fuel s b ∨ b ∈ s.agenda
  entries : ∀ b ∈ s.VisitedBarriers, ∀ PR,
    createRegionBeforeBarrier F preds fuel b = .ok (some PR) →
      ∀ p ∈ preds PR.Entry, Settled F preds fuel s p ∨ p ∈ s.agenda

theorem Turn.settled_or_mem (ht : Turn getLoopFor F preds fuel s t)
    (hb : Settled F preds fuel s b ∨ b ∈ s.agenda) : Settled F preds fuel t b ∨ b ∈ t.agenda := by
  cases ht with
  | pop hE hX => simpa [Settled, Gathering.agenda, hE, hX] using hb
  | @noRegion c hE hR =>
    rw [agenda_some hE, List.mem_cons] at hb
    rcases hb with hb | rfl | hb
    · exact .inl hb
    · exact .inl (.inr hR)
    · exact .inr hb
  | @region c PR hE hR =>
    rw [agenda_some hE, List.mem_cons] at hb
    rcases hb with hb | rfl | hb
    · exact .inl (hb.imp_left (List.mem_cons_of_mem c))
    · exact .inl (.inl List.mem_cons_self)
    · exact .inr (by rw [agenda_kept]; exact List.mem_append_right _ hb)

theorem CoverInv.turn (hs : CoverInv F preds fuel s) (ht : Turn getLoopFor F preds fuel s t)
    (hno : NoOverwrite getLoopFor F preds fuel s) : CoverInv F preds fuel t := by
  refine ⟨fun b hb => ht.settled_or_mem (hs.exits b hb), fun b hb PR hR p hp => ?_⟩
  have hold : b ∈ s.VisitedBarriers → Settled F preds fuel t p ∨ p ∈ t.agenda :=
    fun hb => ht.settled_or_mem (hs.entries b hb PR hR p hp)
  cases ht with
  | pop hE hX => exact hold hb
  | noRegion hE _ => exact hold hb
  | @region c PR' hE hR' =>
    rcases List.mem_cons.mp hb with rfl | hb
    · cases hR.symm.trans hR'
      by_cases hV : p ∈ b :: s.VisitedBarriers
      · exact .inl (.inl hV)
      · refine .inr ?_
        rw [agenda_kept]
        exact List.mem_append_left _ (mem_keptBarriers hp hV (hno b PR hE hR))
    · exact hold hb

theorem Visits.coverInv (hs : Visits getLoopFor F preds fuel s)
    (hno : ∀ s, Visits getLoopFor F preds fuel s → NoOverwrite getLoopFor F preds fuel s) :
    CoverInv F preds fuel s := by
  induction hs with
  | refl => exact ⟨fun b hb => .inr hb, fun b hb => absurd hb List.not_mem_nil⟩
  | tail hr hstep ih => exact ih.turn (turn_of_gatherStep hstep) (hno _ hr)

/-- The walk from a block down to an exit meets the end of the block's region. -/
theorem CoverInv.settled_below (h : Gatherable F preds getLoopFor) (hfuel : floodFuel F ≤ fuel)
    (hs : CoverInv F preds fuel s) (hdone : s.agenda = []) {e : BlockId} (he : F.succs e = []) (hb : b ∈ F.layout) (hw : ReflTransGen F.Edge b e) :
    ∃ B, F.EndsRegion B ∧ ReflTransGen F.RegionEdge b B ∧ Settled F preds fuel s B := by
  have hsettled : ∀ {c}, Settled F preds fuel s c ∨ c ∈ s.agenda → Settled F preds fuel s c := by
    intro c hc
    rw [hdone] at hc
    exact hc.resolve_right List.not_mem_nil
  induction hw using ReflTransGen.head_induction_on with
  | refl =>
    have hexit := mem_exitBlocks.mpr ⟨hb, he⟩
    have hstart : GatherInv F preds fuel (startOf F) := .start preds fuel h.hivedOff
    exact ⟨e, hstart.agenda e hexit, .refl, hsettled (hs.exits e hexit)⟩
  | @head b c hbc _ ih =>
    have hmem : b ∈ F.predEdges c := F.mem_predEdges.mpr ⟨hb, hbc⟩
    obtain ⟨B, hB, hcB, hset⟩ := ih (h.mem_of_edge hmem)
    by_cases hstay : hasBarrier (F.block b) → hasBarrier (F.block c)
    · exact ⟨B, hB, hcB.head ⟨hmem, hstay⟩, hset⟩
    obtain ⟨hbar, hcode⟩ := Classical.not_imp.mp hstay
    have hcode : hasBarrier (F.block c) = false := by simpa using hcode
    have hbp : b ∈ preds c := (h.perm c).symm.subset hmem
    refine ⟨b, h.endsRegion hmem hbar hcode, .refl, ?_⟩
    obtain ⟨R, hR, hspec⟩ := h.region_spec hfuel hB
    cases R with
    | none => exact absurd ((hspec c ⟨hcode, hcB⟩ b hbp).symm.trans hbar) Bool.false_ne_true
    | some PR =>
      obtain ⟨-, habove, ⟨q, hq, hqbar⟩, -⟩ := hspec
      have hentry : c = PR.Entry := h.entry_unique hB ⟨hcode, hcB⟩ habove ⟨b, hmem, hbar⟩
        ⟨q, (h.perm _).subset hq, hqbar⟩
      rcases hset with hvis | hnone
      · exact hsettled (hs.entries B hvis PR hR b (hentry ▸ hbp))
      · cases hR.symm.trans hnone

/-- Only the code at the entry has no region. -/
theorem eq_entry_of_isRegionBefore_none (h : Gatherable F preds getLoopFor) (hreal : F.RealEntry)
    (hx : F.Reachable x) {B : BlockId} (habove : F.Above B x)
    (hnone : IsRegionBefore F preds B none) : x = F.entry := by
  have key : ∀ y, ReflTransGen F.Edge y x → F.Reachable y → F.Above B y := by
    intro y hy
    induction hy using ReflTransGen.head_induction_on with
    | refl => exact fun _ => habove
    | @head y z hyz _ ih =>
      intro hreach
      have hz := ih (hreach.tail hyz)
      have hmem := F.mem_predEdges.mpr ⟨h.valid.closed.reachable_mem hreach, hyz⟩
      have hcode := hnone z hz y ((h.perm z).symm.subset hmem)
      exact ⟨hcode, hz.2.head ⟨hmem, fun hbar => absurd (hcode.symm.trans hbar) Bool.false_ne_true⟩⟩
  rcases ReflTransGen.cases_head hx with rfl | ⟨z, hz, hzx⟩
  · rfl
  · obtain ⟨b, hsucc, hbar⟩ := hreal.top
    have hzb : z ∈ F.succs F.entry := hz
    rw [hsucc, List.mem_singleton] at hzb
    exact absurd ((key z hzx (.single hz)).1.symm.trans (hzb ▸ hbar)) Bool.false_ne_true

/-- What `gatherParallelRegions` is for: no code is left without a region. -/
def Covers (F : Function) (PRVector : List MxPARegion) : Prop :=
  ∀ b ∈ F.layout, hasBarrier (F.block b) = false → b ≠ F.entry → ∃ PR ∈ PRVector, b ∈ PR.BBSet

theorem covers_of_settled (h : Gatherable F preds getLoopFor) (hfuel : floodFuel F ≤ fuel)
    (hreal : F.RealEntry) (hreach : ∀ b ∈ F.layout, F.Reachable b)
    (hexit : ∀ b ∈ F.layout, ∃ e, F.succs e = [] ∧ ReflTransGen F.Edge b e)
    (hInv : GatherInv F preds fuel s) (hs : CoverInv F preds fuel s) (hdone : s.agenda = []) :
    Covers F s.PRVector := by
  intro b hb hcode hne
  obtain ⟨e, he, hw⟩ := hexit b hb
  obtain ⟨B, hB, hbB, hset⟩ := hs.settled_below h hfuel hdone he hb hw
  rcases hset with hvis | hnone
  · obtain ⟨PR, hmem, hR⟩ := hInv.exists_region hvis
    exact ⟨PR, hmem, ((h.isRegionBefore hfuel hB hR).1 b).mpr ⟨hcode, hbB⟩⟩
  · exact absurd (eq_entry_of_isRegionBefore_none h hreal (hreach b hb) ⟨hcode, hbB⟩
      (h.isRegionBefore hfuel hB hnone)) hne

/-- A region's entry has one predecessor block whose innermost loop is not the entry's. -/
def OneOtherBarrier (F : Function) (getLoopFor : BlockId → Option BlockId) : Prop :=
  ∀ B x, F.Enters B x → ∀ p ∈ F.predEdges x, ∀ q ∈ F.predEdges x,
    isInTheSameLoop getLoopFor p x = false → isInTheSameLoop getLoopFor q x = false → p = q

theorem OneOtherBarrier.noOverwrite (h : Gatherable F preds getLoopFor)
    (hfuel : floodFuel F ≤ fuel) (hone : OneOtherBarrier F getLoopFor)
    (hs : Visits getLoopFor F preds fuel s) : NoOverwrite getLoopFor F preds fuel s := by
  intro b PR hE hR p hp q hq
  have hb : F.EndsRegion b := (hs.inv h hfuel).agenda b (agenda_some hE ▸ List.mem_cons_self)
  obtain ⟨-, hentry, ⟨r, hr, hrbar⟩, -⟩ := h.isRegionBefore hfuel hb hR
  obtain ⟨B, hB, -⟩ := exists_enters hb hentry (.inr ⟨r, (h.perm _).subset hr, hrbar⟩)
  obtain ⟨hp, -, hps⟩ := mem_otherBarriers.mp hp
  obtain ⟨hq, -, hqs⟩ := mem_otherBarriers.mp hq
  exact hone B _ hB p ((h.perm _).subset hp) q ((h.perm _).subset hq) hps hqs

/-- The loops end and no assertion fails, and no code is lost in a run whose scans overwrite
nothing, as is the case where a region's entry has one predecessor block outside its loop. -/
theorem gatherParallelRegions_covers (h : Gatherable F preds getLoopFor)
    (hfuel : floodFuel F ≤ fuel) (hreal : F.RealEntry) (hreach : ∀ b ∈ F.layout, F.Reachable b)
    (hexit : ∀ b ∈ F.layout, ∃ e, F.succs e = [] ∧ ReflTransGen F.Edge b e) :
    ∃ PRVector n, (∀ turns, n ≤ turns →
        gatherParallelRegions getLoopFor F preds fuel turns = .ok PRVector) ∧
      ((∀ s, Visits getLoopFor F preds fuel s → NoOverwrite getLoopFor F preds fuel s) →
        Covers F PRVector) ∧
      (OneOtherBarrier F getLoopFor → Covers F PRVector) := by
  obtain ⟨s, n, hs, hdone, hrun⟩ := gatherParallelRegions_ends h hfuel
  have hcovers : (∀ s, Visits getLoopFor F preds fuel s → NoOverwrite getLoopFor F preds fuel s) →
      Covers F s.PRVector := fun hno =>
    covers_of_settled h hfuel hreal hreach hexit (hs.inv h hfuel) (hs.coverInv hno) hdone
  exact ⟨s.PRVector, n, hrun, hcovers, fun hone => hcovers fun t ht => hone.noOverwrite h hfuel ht⟩

end

theorem latchInLoop_reachable : ∀ b ∈ latchInLoop.layout, latchInLoop.Reachable b ∧
    ∃ e, latchInLoop.succs e = [] ∧ ReflTransGen latchInLoop.Edge b e := by
  intro b hb
  have hsearch : ∀ b ∈ latchInLoop.layout, latchInLoop.reachable b = true ∧
      9 ∈ Graph.reachFrom latchInLoop.succs latchInLoop.layout b := by decide
  obtain ⟨hreach, hexit⟩ := hsearch b hb
  exact ⟨(Function.reachable_iff latchInLoop_valid.closed).mp hreach, 9, rfl,
    (Graph.mem_reachFrom latchInLoop_valid.closed hb).mp hexit⟩

theorem latchInLoop_realEntry : latchInLoop.RealEntry := ⟨rfl, 1, rfl, rfl⟩

theorem latchInLoop_oneOtherBarrier : OneOtherBarrier latchInLoop latchInLoop_getLoopFor := by
  have hone : ∀ x ∈ latchInLoop.layout, entersRegion latchInLoop x →
      ∀ p ∈ latchInLoop.predEdges x, ∀ q ∈ latchInLoop.predEdges x,
        isInTheSameLoop latchInLoop_getLoopFor p x = false →
          isInTheSameLoop latchInLoop_getLoopFor q x = false → p = q := by decide
  exact fun B x hx => hone x hx.1.1 (entersRegion_of_enters hx)

theorem gatherParallelRegions_covers_latchInLoop : ∃ PRVector n,
    (∀ turns, n ≤ turns → gatherParallelRegions latchInLoop_getLoopFor latchInLoop
      latchInLoop.predEdges (floodFuel latchInLoop) turns = .ok PRVector) ∧
    Covers latchInLoop PRVector := by
  obtain ⟨PRVector, n, hrun, -, hcovers⟩ := gatherParallelRegions_covers latchInLoop_gatherable
    le_rfl latchInLoop_realEntry (fun b hb => (latchInLoop_reachable b hb).1)
    fun b hb => (latchInLoop_reachable b hb).2
  exact ⟨PRVector, n, hrun, hcovers latchInLoop_oneOtherBarrier⟩

/-- Block 4 is the entry of a loop, entered from 3 and, out of the inner loop at 6, from 7. -/
def latchOfInnerLoop : Function where
  name := "latch_of_inner_loop"
  entry := 0
  rest := [1, 2, 3, 4, 5, 6, 7, 8, 9]
  block
    | 0 => ⟨[], 0, .br 1⟩
    | 1 => ⟨[barrierCall 1], 2, .br 2⟩
    | 2 => ⟨[], 3, .br 3⟩
    | 3 => ⟨[barrierCall 4], 5, .br 4⟩
    | 4 => ⟨[], 6, .br 5⟩
    | 5 => ⟨[barrierCall 7], 8, .condBr (.argument 0) 6 8⟩
    | 6 => ⟨[], 9, .br 7⟩
    | 7 => ⟨[barrierCall 10], 11, .condBr (.argument 1) 6 4⟩
    | 8 => ⟨[], 12, .br 9⟩
    | _ => ⟨[barrierCall 13], 14, .ret none⟩

def latchOfInnerLoop_getLoopFor (b : BlockId) : Option BlockId :=
  if b ∈ [6, 7] then some 6 else if b ∈ [4, 5] then some 4 else none

theorem latchOfInnerLoop_valid : latchOfInnerLoop.Valid where
  nodup := by decide
  closed := by unfold Function.Closed; decide
  entryPreds := by decide
  ids := by decide
  phisFirst := by decide
  entryPhis := by decide
  incoming := by decide

theorem latchOfInnerLoop_getLoopFor_eq_none {b : BlockId} (hb : b ∉ latchOfInnerLoop.layout) :
    latchOfInnerLoop_getLoopFor b = none := by
  have hinner : [6, 7] ⊆ latchOfInnerLoop.layout := by decide
  have houter : [4, 5] ⊆ latchOfInnerLoop.layout := by decide
  rw [latchOfInnerLoop_getLoopFor, if_neg fun h => hb (hinner h), if_neg fun h => hb (houter h)]

theorem latchOfInnerLoop_gatherable :
    Gatherable latchOfInnerLoop latchOfInnerLoop.predEdges latchOfInnerLoop_getLoopFor where
  valid := latchOfInnerLoop_valid
  reducible := Function.reducible_of_rank latchOfInnerLoop_valid.closed id (by decide)
  perm _ := .rfl
  loops := Function.loopForest_of_inLoop latchOfInnerLoop_valid.closed
    (fun _ hb => latchOfInnerLoop_getLoopFor_eq_none hb) (by decide) (by decide)
  hivedOff := hivedOffBelow_of_single (by decide) (by decide) (by decide)
  regions := oneRegionEach_of_target latchOfInnerLoop_valid.closed
    (fun b => [1, 1, 3, 3, 5, 5, 7, 7, 9, 9].getD b 0)
    (fun b => [1, 0, 1, 0, 1, 0, 1, 0, 1, 0].getD b 0)
    (by decide) (by decide) (by decide) (by decide) (by decide)

/-- The scan of the predecessors of block 4 overwrites 3 by 7, and block 2 is lost. -/
theorem region_lost :
    (Gatherable latchOfInnerLoop latchOfInnerLoop.predEdges latchOfInnerLoop_getLoopFor ∧
      latchOfInnerLoop.RealEntry ∧ ∀ b ∈ latchOfInnerLoop.layout, latchOfInnerLoop.Reachable b ∧
        ∃ e, latchOfInnerLoop.succs e = [] ∧ ReflTransGen latchOfInnerLoop.Edge b e) ∧
    ∃ PRVector, gatherParallelRegions latchOfInnerLoop_getLoopFor latchOfInnerLoop
      latchOfInnerLoop.predEdges 40 40 = .ok PRVector ∧ ¬ Covers latchOfInnerLoop PRVector := by
  refine ⟨⟨latchOfInnerLoop_gatherable, ⟨rfl, 1, rfl, rfl⟩, fun b hb => ?_⟩,
    [⟨[8], 8, some 8⟩, ⟨[4], 4, some 4⟩, ⟨[6], 6, some 6⟩], by rfl, fun h => ?_⟩
  · have hsearch : ∀ b ∈ latchOfInnerLoop.layout, latchOfInnerLoop.reachable b = true ∧
        9 ∈ Graph.reachFrom latchOfInnerLoop.succs latchOfInnerLoop.layout b := by decide
    obtain ⟨hreach, hexit⟩ := hsearch b hb
    exact ⟨(Function.reachable_iff latchOfInnerLoop_valid.closed).mp hreach, 9, rfl,
      (Graph.mem_reachFrom latchOfInnerLoop_valid.closed hb).mp hexit⟩
  · obtain ⟨PR, hPR, hmem⟩ := h 2 (by decide) rfl (by decide)
    simp only [List.mem_cons, List.not_mem_nil, or_false] at hPR
    rcases hPR with rfl | rfl | rfl <;> simp at hmem

end LoopInserter

end VariOCL.IR
