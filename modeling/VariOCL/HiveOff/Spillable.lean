import VariOCL.ContextSpill.Above
import VariOCL.ContextSpill.LocalForm
import VariOCL.HiveOff.NormalForm
import VariOCL.LoopBarriers
import VariOCL.SplitCondBr

/-! What `HiveOffBarrier` leaves is in SSA form, and `ContextSpill` takes it, whatever barrier passes
ran before. -/

namespace VariOCL.IR

open TripletInvarianceAnalysis (Loop)

/-- `G` executes what `F` does, and is in SSA form. -/
structure Function.Upholds (F G : Function) : Prop where
  keeps : F.Keeps G
  wellDefined : G.WellDefined

section
variable {F G : Function} {b : BlockId}

theorem Function.WellDefined.upholds (h : F.WellDefined) : F.Upholds F := ⟨.refl h.ssa.valid, h⟩

theorem Function.Upholds.splitBlock (h : F.Upholds G) (hb : b ∈ G.layout) (SplitPt : InstId) :
    F.Upholds (G.splitBlock b SplitPt) where
  keeps := h.keeps.trans (h.keeps.valid.keeps_splitBlock hb SplitPt)
  wellDefined := h.wellDefined.splitBlock hb SplitPt

theorem Function.Upholds.createBarrierBeforeTerminator (h : F.Upholds G) (hb : b ∈ G.layout) :
    F.Upholds (G.createBarrierBeforeTerminator b) where
  keeps := h.keeps.trans (h.keeps.valid.keeps_beforeTerminator hb)
  wellDefined := h.wellDefined.createBarrierBeforeTerminator hb

end

namespace HiveOff

variable {F G : Function} {b : BlockId} {bs : List BlockId}

theorem upholds_hiveOffEntry (h : F.Upholds G) : F.Upholds (hiveOffEntry G) := by
  unfold hiveOffEntry
  split
  · exact h
  · have ho := G.entry_mem_layout
    exact (h.splitBlock ho _).createBarrierBeforeTerminator
      ((G.mem_layout_splitBlock h.keeps.valid.nodup ho).mpr (.inr ho))

theorem upholds_hiveOffExit (h : F.Upholds G) (hb : b ∈ G.layout) :
    F.Upholds (hiveOffExit G b).1 ∧ (∀ x ∈ G.layout, x ∈ (hiveOffExit G b).1.layout) ∧
      ∀ x ∈ (hiveOffExit G b).2, x ∈ (hiveOffExit G b).1.layout := by
  have hmem : ∀ SplitPt x, x ∈ (G.splitBlock b SplitPt).layout ↔ x = G.freshBlock ∨ x ∈ G.layout :=
    fun SplitPt x => G.mem_layout_splitBlock h.keeps.valid.nodup hb
  have hnew : ∀ SplitPt, ∀ x ∈ [G.freshBlock], x ∈ (G.splitBlock b SplitPt).layout :=
    fun SplitPt x hx => (hmem SplitPt x).mpr (.inl (List.mem_singleton.mp hx))
  have hold : ∀ SplitPt, ∀ x ∈ G.layout, x ∈ (G.splitBlock b SplitPt).layout :=
    fun SplitPt x hx => (hmem SplitPt x).mpr (.inr hx)
  unfold hiveOffExit
  split
  · split
    · exact ⟨h.splitBlock hb _, hold _, hnew _⟩
    · exact ⟨(h.splitBlock hb _).createBarrierBeforeTerminator (hnew _ _ List.mem_cons_self),
        hold (G.block b).termId, hnew (G.block b).termId⟩
  · exact ⟨h, fun _ hx => hx, fun _ hx => absurd hx List.not_mem_nil⟩

theorem upholds_hiveOffExits {n : Nat} (h : F.Upholds G) (hbs : ∀ x ∈ bs, x ∈ G.layout) :
    F.Upholds (hiveOffExits n G bs) := by
  induction n generalizing G bs with
  | zero => exact h
  | succ n ih =>
    cases bs with
    | nil => exact h
    | cons b bs =>
      obtain ⟨hb, hbs⟩ := List.forall_mem_cons.mp hbs
      obtain ⟨h', hold, hnew⟩ := upholds_hiveOffExit h hb
      exact ih h' (List.forall_mem_append.mpr ⟨hnew, fun x hx => hold x (hbs x hx)⟩)

theorem upholds_splitAfter (h : F.Upholds G) (hb : b ∈ G.layout) (I : InstId) :
    F.Upholds (splitAfter G b I) ∧ b ∈ (splitAfter G b I).layout := by
  unfold splitAfter
  split
  · exact ⟨h.splitBlock hb _, (G.mem_layout_splitBlock h.keeps.valid.nodup hb).mpr (.inr hb)⟩
  · exact ⟨h, hb⟩

theorem upholds_processBarrierInst (h : F.Upholds G) (I : InstId) :
    F.Upholds (processBarrierInst G I).1 := by
  unfold processBarrierInst
  split
  · exact h
  · rename_i B hB
    obtain ⟨h', hB'⟩ := upholds_splitAfter h (getParent_eq_some hB).1 I
    simp only
    split
    · exact h'
    · exact h'.splitBlock hB' I

theorem upholds_processBarrier {todo : List InstId} {Changed : Bool} (h : F.Upholds G) :
    F.Upholds (todo.foldl (fun (F, Changed) I =>
      ((processBarrierInst F I).1, Changed || (processBarrierInst F I).2)) (G, Changed)).1 := by
  induction todo generalizing G Changed with
  | nil => exact h
  | cons I todo ih => exact ih (upholds_processBarrierInst h I)

theorem upholds_runOnFunction (order : List InstId → List InstId) (h : F.Upholds G) :
    F.Upholds (runOnFunction order G).1 :=
  upholds_processBarrier (upholds_hiveOffExits (upholds_hiveOffEntry h) fun _ hx => hx)

end HiveOff

/-- The passes that place barriers and split blocks for them. -/
inductive BlockPass (F : Function) : Function → Prop
  | splitCondBr : BlockPass F (SplitBBAtCondBr.runOnFunction F)
  | loopBarriers {order : Function → BlockId → List BlockId} {LI : List Loop}
      {s : LoopBarriers.Progress} : (∀ G b, (order G b).Perm (G.predEdges b)) →
      (∀ L ∈ LI, ∃ preheader latch, LoopBarriers.Canonical F L preheader latch) →
      (LI.map Loop.header).Nodup → LoopBarriers.runOnFunction order LI F = .ok s → BlockPass F s.F
  | implicit {G : Function} : BarrierDeleter.BarrierPass F G → BlockPass F G
  | hiveOff (order : List InstId → List InstId) : BlockPass F (HiveOff.runOnFunction order F).1

theorem BlockPass.upholds {F G H : Function} (hG : F.Upholds G) (h : BlockPass G H) :
    F.Upholds H := by
  have hV := hG.keeps.valid
  cases h with
  | splitCondBr =>
    have hsplit := SplitBBAtCondBr.splitting_runOnFunction hV
    exact ⟨hG.keeps.trans hsplit.keeps, hsplit.wellDefined hG.wellDefined⟩
  | loopBarriers horder hcan hn hs =>
    obtain ⟨s', hs', hguard⟩ := LoopBarriers.guarding_runOnFunction hV horder hcan hn
    cases hs.symm.trans hs'
    exact ⟨hG.keeps.trans hguard.keeps, hguard.wellDefined hG.wellDefined⟩
  | implicit hpass =>
    have hadds := hpass.adds hV.closed
    exact ⟨hG.keeps.trans (hadds.keeps hV), hadds.wellDefined hG.wellDefined⟩
  | hiveOff order => exact HiveOff.upholds_runOnFunction order hG

theorem upholds_of_passes {F G : Function} (hF : F.WellDefined)
    (h : Relation.ReflTransGen BlockPass F G) : F.Upholds G := by
  induction h with
  | refl => exact hF.upholds
  | tail _ hpass ih => exact hpass.upholds ih

namespace HiveOff

variable {F G : Function}

theorem predEdges_entry (hF : F.Valid) : F.predEdges F.entry = [] := by
  refine List.eq_nil_iff_forall_not_mem.mpr fun p hp => ?_
  obtain ⟨hp, hedge⟩ := Function.mem_predEdges.mp hp
  exact hF.entryPreds p hp hedge

/-- Whatever passes ran before, behind `HiveOffBarrier` no assertion of `ContextSpill` fails, and no
PHI and no value that is used above its definition is left. -/
theorem runOnFunction_spillable {order : List InstId → List InstId}
    {users : Function → InstId → List InstId} (hF : F.WellDefined)
    (hpasses : Relation.ReflTransGen BlockPass F G) (ho : ∀ l, (order l).Perm l)
    (husers : ∀ H i u, u ∈ users H i ↔ u ∈ H.useList i) :
    (runOnFunction order G).1.WellDefined ∧
      (runOnFunction order G).1.tracesOn F.instIds = F.traces ∧
      ∃ H, ContextSpill.runOnFunction users (runOnFunction order G).1 = .ok H ∧
        H.DefinesBeforeUse ∧ ∀ b ∈ H.layout, ∀ I ∈ (H.block b).insts, I.op.isPhi = false := by
  have hG := upholds_of_passes hF hpasses
  have hentry := (hiving_runOnFunction hG.keeps.valid ho).hivedOff.entry
  obtain ⟨hkeeps, hdef⟩ := upholds_runOnFunction order hG
  generalize (runOnFunction order G).1 = G' at hkeeps hdef hentry ⊢
  refine ⟨hdef, hkeeps.all hF.ssa.valid, ?_⟩
  obtain ⟨H, hH⟩ : ∃ H, ContextSpill.runOnFunction users G' = .ok H := by
    rw [ContextSpill.runOnFunction, if_neg (not_not.mpr (predEdges_entry hkeeps.valid)), hentry]
    exact ⟨_, rfl⟩
  obtain ⟨slots, hrises⟩ :=
    ContextSpill.rises_runOnFunction hdef.ssa hdef.operands hdef.above husers hH
  obtain ⟨-, hnoPhi⟩ := ContextSpill.left_runOnFunction hdef.ssa hdef.operands husers hH
  exact ⟨H, hH, hrises.definesBeforeUse, hnoPhi⟩

theorem twoBarriers_wellDefined : twoBarriers.WellDefined := by
  have hinst : ∀ b ∈ twoBarriers.layout, ∀ I ∈ (twoBarriers.block b).insts, I.op.isPhi = false →
      ∀ v ∈ I.op.operands, v.isConstant = true ∨
        v = .inst 4 ∧ [4, I.id].Sublist (twoBarriers.block b).instIds := by decide
  have hterm : ∀ b ∈ twoBarriers.layout, ∀ v ∈ (twoBarriers.block b).term.operands,
      b = 1 ∧ v = .inst 4 := by decide
  have hphi : ∀ b ∈ twoBarriers.layout, ∀ I ∈ (twoBarriers.block b).insts, ∀ p ∈ I.op.incoming,
      p = (.inst 1, 0) ∨ p = (.inst 6, 1) := by decide
  have hvalues : ∀ b ∈ twoBarriers.layout, ∀ v ∈ (twoBarriers.block b).values,
      v.isConstant = true ∨ v = .inst 1 ∨ v = .inst 4 ∨ v = .inst 6 := by decide
  refine ⟨⟨twoBarriers_valid, ?_, by decide⟩, ?_, ⟨?_, ?_, ?_⟩, by decide⟩
  · intro b hb I hI p hp i hi
    rcases hphi b hb I hI p hp with rfl | rfl
    · cases hi
      exact ⟨0, by decide, .refl, by decide⟩
    · cases hi
      exact ⟨1, by decide, .refl, by decide⟩
  · intro b hb i hi
    rcases hvalues b hb _ hi with hconst | hi | hi | hi
    · cases hconst
    · cases hi
      decide
    · cases hi
      decide
    · cases hi
      decide
  · intro b hb _ I hI hnot j hj
    rcases hinst b hb I hI hnot _ hj with hconst | ⟨heq, habove⟩
    · cases hconst
    · cases heq
      exact .inl habove
  · intro b hb _ j hj
    obtain ⟨rfl, heq⟩ := hterm b hb _ hj
    cases heq
    exact .inl (by decide)
  · intro b hb _ I hI p hp _ j hj
    rcases hphi b hb I hI p hp with rfl | rfl
    · cases hj
      exact .inl (by decide)
    · cases hj
      exact .inl (by decide)

/-- `twoBarriers`, prepared by two passes. -/
def preparedBarriers : Function :=
  ImplicitCdgBarriers.runOnFunction (SplitBBAtCondBr.runOnFunction twoBarriers)

theorem runOnFunction_spillable_twoBarriers :
    (runOnFunction List.reverse preparedBarriers).1.WellDefined ∧
      (runOnFunction List.reverse preparedBarriers).1.tracesOn twoBarriers.instIds =
        twoBarriers.traces ∧
      ∃ H, ContextSpill.runOnFunction Function.useList
          (runOnFunction List.reverse preparedBarriers).1 = .ok H ∧
        H.DefinesBeforeUse ∧ ∀ b ∈ H.layout, ∀ I ∈ (H.block b).insts, I.op.isPhi = false :=
  runOnFunction_spillable twoBarriers_wellDefined
    (.tail (.single .splitCondBr) (.implicit .implicitCdg)) List.reverse_perm fun _ _ _ => .rfl

end HiveOff

end VariOCL.IR
