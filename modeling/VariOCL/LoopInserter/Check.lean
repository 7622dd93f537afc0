import VariOCL.LoopInserter.Shape

/-! Checks on the blocks of a kernel that decide its shape. -/

namespace VariOCL.IR.LoopInserter

open Relation (ReflTransGen)

section
variable {F : Function} {preds : BlockId → List BlockId} {getLoopFor : BlockId → Option BlockId}
  {B E b p x : BlockId} {target rank : BlockId → Nat}

def entersRegion (F : Function) (x : BlockId) : Bool :=
  x == F.entry || (F.predEdges x).any fun p => hasBarrier (F.block p)

def outsideLoop (F : Function) (getLoopFor : BlockId → Option BlockId) (b p : BlockId) : Bool :=
  (getLoopFor b).all fun h => !F.inLoop h p

theorem outsideLoop_iff (hF : F.Closed) :
    outsideLoop F getLoopFor b p = true ↔ F.OutsideLoopOf getLoopFor b p := by
  simp only [outsideLoop, Option.all_eq_true, Bool.not_eq_true', ← Bool.not_eq_true,
    Function.inLoop_iff hF]
  rfl

/-- A numbering that agrees along the code names the barrier block the code flows to. -/
theorem FlowsTo.target_eq (hF : F.Closed)
    (hbar : ∀ b ∈ F.layout, hasBarrier (F.block b) → target b = b)
    (hcode : ∀ b ∈ F.layout, hasBarrier (F.block b) = false → ∀ s ∈ F.succs b, target s = target b)
    (hb : b ∈ F.layout) (h : F.FlowsTo b B) : target b = B := by
  obtain ⟨hB, hw⟩ := h
  induction hw using ReflTransGen.head_induction_on with
  | refl => exact hbar B hb hB
  | @head x y hxy _ ih =>
    have hedge := (F.mem_predEdges.mp hxy.1).2
    exact (hcode x hb hxy.2 y hedge).symm.trans (ih (hF x hb y hedge))

theorem flowsTo_target (hF : F.Closed)
    (hbar : ∀ b ∈ F.layout, hasBarrier (F.block b) → target b = b)
    (hcode : ∀ b ∈ F.layout, hasBarrier (F.block b) = false → ∀ s ∈ F.succs b, target s = target b)
    (hrank : ∀ b ∈ F.layout, hasBarrier (F.block b) = false → ∃ s ∈ F.succs b, rank s < rank b)
    (hb : b ∈ F.layout) : F.FlowsTo b (target b) := by
  induction hn : rank b using Nat.strong_induction_on generalizing b with
  | _ n ih =>
    cases h : hasBarrier (F.block b) with
    | true =>
      rw [hbar b hb h]
      exact ⟨h, .refl⟩
    | false =>
      obtain ⟨s, hs, hlt⟩ := hrank b hb h
      obtain ⟨ht, hw⟩ := ih (rank s) (hn ▸ hlt) (hF b hb s hs) rfl
      rw [hcode b hb h s hs] at ht hw
      exact ⟨ht, hw.head ⟨F.mem_predEdges.mpr ⟨hb, hs⟩, h⟩⟩

theorem entersRegion_of_enters (h : F.Enters B x) : entersRegion F x = true := by
  obtain ⟨⟨hmem, hcode, hB, hw⟩, he⟩ := h
  rw [entersRegion, Bool.or_eq_true, beq_iff_eq, List.any_eq_true]
  refine he.imp_right fun ⟨p, hp, hout⟩ => ⟨p, hp, ?_⟩
  by_contra hbar
  rw [Bool.not_eq_true] at hbar
  exact hout ⟨(F.mem_predEdges.mp hp).1, hbar, hB, hw.head ⟨hp, hbar⟩⟩

theorem oneRegionEach_of_target (hF : F.Closed) (target rank : BlockId → Nat)
    (hbar : ∀ b ∈ F.layout, hasBarrier (F.block b) → target b = b)
    (hcode : ∀ b ∈ F.layout, hasBarrier (F.block b) = false → ∀ s ∈ F.succs b, target s = target b)
    (hrank : ∀ b ∈ F.layout, hasBarrier (F.block b) = false → ∃ s ∈ F.succs b, rank s < rank b)
    (hentry : ∀ x ∈ F.layout, ∀ y ∈ F.layout, hasBarrier (F.block x) = false →
      hasBarrier (F.block y) = false → entersRegion F x → entersRegion F y →
        target x = target y → x = y)
    (hpreds : ∀ x ∈ F.layout, hasBarrier (F.block x) = false → entersRegion F x →
      ∀ p ∈ F.predEdges x, hasBarrier (F.block p) ∧ ∀ q ∈ F.predEdges x,
        outsideLoop F getLoopFor x p → outsideLoop F getLoopFor x q → p = q) :
    F.OneRegionEach getLoopFor where
  flows b hb _ := ⟨target b, flowsTo_target hF hbar hcode hrank hb,
    fun _ h => (FlowsTo.target_eq hF hbar hcode hb h).symm⟩
  entered _ x y hx hy := hentry x hx.1.1 y hy.1.1 hx.1.2.1 hy.1.2.1 (entersRegion_of_enters hx)
    (entersRegion_of_enters hy) ((FlowsTo.target_eq hF hbar hcode hx.1.1 hx.1.2.2).trans
      (FlowsTo.target_eq hF hbar hcode hy.1.1 hy.1.2.2).symm)
  preds _ x hx p hp := (hpreds x hx.1.1 hx.1.2.1 (entersRegion_of_enters hx) p hp).1
  outside _ x hx p hp q hq hpo hqo :=
    (hpreds x hx.1.1 hx.1.2.1 (entersRegion_of_enters hx) p hp).2 q hq
      ((outsideLoop_iff hF).mpr hpo) ((outsideLoop_iff hF).mpr hqo)

theorem hivedOffBelow_of_single
    (halone : ∀ b ∈ F.layout, hasBarrier (F.block b) → containsJustABarrier (F.block b))
    (hexits : ∀ b ∈ F.layout, F.succs b = [] → containsJustABarrier (F.block b))
    (hpred : ∀ b ∈ F.layout, b ≠ F.entry → hasBarrier (F.block b) →
      (F.predEdges b).length = 1 ∧ ∀ p ∈ F.predEdges b, (F.block p).term = .br b) :
    F.HivedOffBelow := by
  refine ⟨halone, hexits, fun b hb hne hbar => ?_⟩
  obtain ⟨hlen, hterm⟩ := hpred b hb hne hbar
  obtain ⟨p, hp⟩ := List.length_eq_one_iff.mp hlen
  exact ⟨p, hp, hterm p (hp ▸ List.mem_singleton_self p)⟩

end

end VariOCL.IR.LoopInserter
