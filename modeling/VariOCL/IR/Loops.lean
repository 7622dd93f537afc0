import VariOCL.IR.Basic
import VariOCL.Graph.NaturalLoop

/-! Natural loops of a function, and checks that decide facts about its control-flow graph. -/

namespace VariOCL.IR

open Relation (ReflTransGen TransGen)

def Function.InLoop (F : Function) (h b : BlockId) : Prop := Graph.InLoop F.Edge F.entry h b

/-- `getLoopFor` names the innermost loops, as `LI->getLoopFor(b)` gives them, by their headers. -/
def Function.LoopForest (F : Function) (getLoopFor : BlockId → Option BlockId) : Prop :=
  Graph.LoopForest F.Edge F.entry getLoopFor

def Function.OutsideLoopOf (F : Function) (getLoopFor : BlockId → Option BlockId)
    (b p : BlockId) : Prop := Graph.OutsideLoopOf F.Edge F.entry getLoopFor b p

def Function.reachable (F : Function) (b : BlockId) : Bool :=
  (Graph.reachFrom F.succs F.layout F.entry).contains b

def Function.inLoop (F : Function) (h b : BlockId) : Bool :=
  F.reachable b && (F.predEdges h).any fun u =>
    F.reachable u && F.dominates h u && (b == h ||
      (Graph.reachFrom (fun x => (F.succs x).filter (· ≠ h)) F.layout b).contains u)

variable {F : Function} {getLoopFor : BlockId → Option BlockId} {b h p : BlockId}

theorem Function.reachable_iff (hF : F.Closed) : F.reachable b = true ↔ F.Reachable b := by
  rw [Function.reachable, List.contains_iff_mem, Graph.mem_reachFrom hF F.entry_mem_layout]
  rfl

theorem Function.inLoop_iff (hF : F.Closed) : F.inLoop h b = true ↔ F.InLoop h b := by
  have hav : ∀ u, F.Reachable b → b ≠ h →
      (u ∈ Graph.reachFrom (fun x => (F.succs x).filter (· ≠ h)) F.layout b ↔
        Graph.Avoiding F.Edge h b u) := by
    intro u hb hne
    rw [Graph.mem_reachFrom (fun x hx y hy => hF x hx y (List.mem_filter.mp hy).1)
      (hF.reachable_mem hb)]
    simp only [Graph.Avoiding, Graph.Reach, List.mem_filter, Function.Edge, decide_eq_true_eq,
      ne_eq, hne, not_false_eq_true, true_and]
  simp only [Function.inLoop, Function.InLoop, Graph.InLoop, Graph.BackEdge, Bool.and_eq_true,
    Bool.or_eq_true, beq_iff_eq, List.any_eq_true, Function.mem_predEdges,
    Function.reachable_iff hF, Function.dominates_iff hF, List.contains_iff_mem]
  refine and_congr_right fun hb => exists_congr fun u => ?_
  by_cases hbh : b = h
  · simp only [hbh, true_or, and_true]
    exact ⟨fun hx => ⟨hx.2.1, hx.1.2, hx.2.2⟩,
      fun hx => ⟨⟨hF.reachable_mem hx.1, hx.2.1⟩, hx.1, hx.2.2⟩⟩
  · simp only [hbh, false_or, hav u hb hbh]
    exact ⟨fun hx => ⟨hx.2.1.1, ⟨hx.1.2, hx.2.1.2⟩, hx.2.2⟩,
      fun hx => ⟨⟨hF.reachable_mem hx.1, hx.2.1.1⟩, ⟨hx.1, hx.2.1.2⟩, hx.2.2⟩⟩

theorem Function.InLoop.header_mem (hF : F.Closed) (hb : F.InLoop h b) : h ∈ F.layout := by
  obtain ⟨-, u, hu, hback, -⟩ := hb
  exact hF u (hF.reachable_mem hu) h hback.1

theorem Function.loopForest_of_inLoop (hF : F.Closed)
    (hnone : ∀ b, b ∉ F.layout → getLoopFor b = none)
    (hsome : ∀ b ∈ F.layout, ∀ h ∈ getLoopFor b, F.inLoop h b ∧
      ∀ h' ∈ F.layout, F.inLoop h' b → F.inLoop h' h)
    (hno : ∀ b ∈ F.layout, getLoopFor b = none → ∀ h ∈ F.layout, F.inLoop h b = false) :
    F.LoopForest getLoopFor where
  inLoop b h hb := by
    by_cases hmem : b ∈ F.layout
    · exact (Function.inLoop_iff hF).mp (hsome b hmem h hb).1
    · cases (hnone b hmem).symm.trans hb
  innermost b h h' hb hin := by
    have hmem := hF.reachable_mem hin.1
    exact (Function.inLoop_iff hF).mp
      ((hsome b hmem h hb).2 h' (Function.InLoop.header_mem hF hin) ((Function.inLoop_iff hF).mpr hin))
  none b h hb hin := by
    have hfalse := hno b (hF.reachable_mem hin.1) hb h (Function.InLoop.header_mem hF hin)
    exact Bool.false_ne_true (hfalse.symm.trans ((Function.inLoop_iff hF).mpr hin))

/-- Numbers that grow along the edges that are not back edges. -/
theorem Function.reducible_of_rank (hF : F.Closed) (rank : BlockId → Nat)
    (hrank : ∀ u ∈ F.layout, ∀ v ∈ F.succs u, F.dominates v u = false → rank u < rank v) :
    F.Reducible := by
  have hlt : ∀ u v, F.ForwardEdge u v → rank u < rank v := by
    intro u v h
    have hu := hF.reachable_mem (Graph.not_dominates.mp h.2).walk
    refine hrank u hu v h.1 ?_
    rw [← Bool.not_eq_true, Function.dominates_iff hF]
    exact h.2
  intro v hcycle
  have key : ∀ w, TransGen F.ForwardEdge v w → rank v < rank w := by
    intro w hw
    induction hw with
    | single h => exact hlt _ _ h
    | tail _ h ih => exact ih.trans (hlt _ _ h)
  exact Nat.lt_irrefl _ (key v hcycle)

end VariOCL.IR
