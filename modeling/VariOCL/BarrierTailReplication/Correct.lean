import VariOCL.BarrierTailReplication.Dfs
import VariOCL.IR.Loops

/-! What `BarrierTailReplication` achieves: the same paths with the same instructions, and barriers
that dominate all they reach without a back edge. -/

namespace VariOCL.IR.BarrierTailReplication

open Relation (ReflTransGen)

section
variable {F G : Function} {log : List (Function × BlockId)}

theorem Replications.mem_layout (h : Replications F log G) (hF : WellFormed F)
    (hred : F.Reducible) {b : BlockId} (hb : b ∈ G.layout) :
    b ∈ F.layout ∨ ∃ p ∈ log, ∃ u ∈ findSubgraph p.1 p.2, b = p.1.cloneBlock u := by
  induction h with
  | refl => exact .inl hb
  | @step log G d s c i hrun hj ih =>
    have he := hrun.evolves hF hred
    rcases (hj.replicates he.wellFormed he.reducible).mem_layout.mp hb with hb | ⟨u, hu, rfl⟩
    · refine (ih hb).imp_right ?_
      rintro ⟨p, hp, hpb⟩
      exact ⟨p, List.mem_append_left _ hp, hpb⟩
    · exact .inr ⟨(G, c), List.mem_append_right _ List.mem_cons_self, u, hu, rfl⟩

/-- The pass returns, and in its result every reachable barrier dominates what it reaches without a
back edge. -/
theorem processFunction_guards (hF : WellFormed F) (hred : F.Reducible) {fuel : Nat}
    (hfuel : enoughFuel F ≤ fuel) : ∃ st, processFunction fuel F = some st ∧
      ∀ d, st.F.Reachable d → hasBarrier (st.F.block d) →
        ∀ b, ReflTransGen st.F.ForwardEdge d b → st.F.Dominates d b := by
  obtain ⟨st, log, hst, -, hs, hall⟩ := processFunction_spec hF hred hfuel
  exact ⟨st, hst, fun d hd hb => hs.guards d (hall d hd) hb⟩

end

/-- A barrier on one side of a branch, and a PHI where the sides join. -/
def barrierOnOneSide : Function where
  name := "one_side"
  entry := 0
  rest := [1, 2, 3]
  block
    | 0 => ⟨[], 0, .condBr (.argument 0) 1 2⟩
    | 1 => ⟨[barrierCall 1, ⟨2, .int 32, .other "add" []⟩], 3, .br 3⟩
    | 2 => ⟨[⟨4, .int 32, .other "mul" []⟩], 5, .br 3⟩
    | _ => ⟨[⟨6, .int 32, .phi [(.inst 2, 1), (.inst 4, 2)]⟩], 7, .ret (some (.inst 6))⟩

theorem barrierOnOneSide_closed : barrierOnOneSide.Closed := by unfold Function.Closed; decide

theorem mem_layout_barrierOnOneSide {b : BlockId} (hb : b ∈ barrierOnOneSide.layout) :
    b = 0 ∨ b = 1 ∨ b = 2 ∨ b = 3 := by
  simpa [Function.layout, barrierOnOneSide] using hb

theorem barrierOnOneSide_wellFormed : WellFormed barrierOnOneSide where
  nodup := by decide
  closed := barrierOnOneSide_closed
  ids := by decide
  operands b hb I hI x hx := by
    rcases mem_layout_barrierOnOneSide hb with rfl | rfl | rfl | rfl <;>
      simp [barrierOnOneSide, barrierCall] at hI
    · rcases hI with rfl | rfl <;> simp [Op.operands] at hx
    · subst hI
      simp [Op.operands] at hx
    · subst hI
      simp only [Op.operands, List.map_cons, List.map_nil, List.mem_cons, Value.inst.injEq,
        List.not_mem_nil, or_false] at hx
      rcases hx with rfl | rfl <;> decide
  termOperands b hb x hx := by
    rcases mem_layout_barrierOnOneSide hb with rfl | rfl | rfl | rfl <;>
      simp [barrierOnOneSide, Terminator.operands] at hx
    subst hx
    decide
  incoming := by decide
  phiDefs b hb I hI incoming hop x p hx d hd hxd := by
    rcases mem_layout_barrierOnOneSide hb with rfl | rfl | rfl | rfl <;>
      simp [barrierOnOneSide, barrierCall] at hI
    · rcases hI with rfl | rfl <;> cases hop
    · subst hI
      cases hop
    · subst hI
      cases hop
      rw [← Function.dominates_iff barrierOnOneSide_closed]
      simp only [List.mem_cons, Prod.mk.injEq, Value.inst.injEq, List.not_mem_nil, or_false] at hx
      rcases hx with ⟨rfl, rfl⟩ | ⟨rfl, rfl⟩ <;>
        rcases mem_layout_barrierOnOneSide hd with rfl | rfl | rfl | rfl <;>
        first | decide | exact absurd hxd (by decide)

theorem barrierOnOneSide_reducible : barrierOnOneSide.Reducible :=
  Function.reducible_of_rank barrierOnOneSide_closed id (by decide)

theorem processFunction_guards_barrierOnOneSide : ∃ st,
    processFunction (enoughFuel barrierOnOneSide) barrierOnOneSide = some st ∧
      ∀ d, st.F.Reachable d → hasBarrier (st.F.block d) →
        ∀ b, ReflTransGen st.F.ForwardEdge d b → st.F.Dominates d b :=
  processFunction_guards barrierOnOneSide_wellFormed barrierOnOneSide_reducible le_rfl

theorem processFunction_terminates_barrierOnOneSide : ∃ st, ∀ fuel,
    enoughFuel barrierOnOneSide ≤ fuel → processFunction fuel barrierOnOneSide = some st :=
  processFunction_terminates barrierOnOneSide_wellFormed barrierOnOneSide_reducible

end VariOCL.IR.BarrierTailReplication
