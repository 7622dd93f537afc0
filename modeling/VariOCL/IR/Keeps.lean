import VariOCL.IR.Trace
import VariOCL.IR.ValidEdits

/-! Edits after which a function executes all that it executed before, with more in between. -/

namespace VariOCL.IR

/-- `G` is well formed and executes the instructions of `F` as `F` does. -/
structure Function.Keeps (F G : Function) : Prop where
  valid : G.Valid
  ids : F.instIds ⊆ G.instIds
  traces : ∀ ids ⊆ F.instIds, G.tracesOn ids = F.tracesOn ids

section
variable {F G H : Function} {b : BlockId} {SplitPt : InstId} {ids : List InstId} {I : Instruction}
  {pre post : List Instruction} {f : BasicBlock → BasicBlock}

theorem Function.Keeps.refl (hF : F.Valid) : F.Keeps F := ⟨hF, fun _ hi => hi, fun _ _ => rfl⟩

theorem Function.Keeps.trans (h : F.Keeps G) (h' : G.Keeps H) : F.Keeps H where
  valid := h'.valid
  ids _ hi := h'.ids (h.ids hi)
  traces ids hids := (h'.traces ids fun _ hi => h.ids (hids hi)).trans (h.traces ids hids)

theorem Function.Keeps.all (h : F.Keeps G) (hF : F.Valid) : G.tracesOn F.instIds = F.traces :=
  (h.traces _ (List.Subset.refl _)).trans hF.tracesOn_instIds

theorem Function.freshInst_not_mem (h : ids ⊆ F.instIds) : F.freshInst ∉ ids := fun hm =>
  Nat.lt_irrefl _ (F.lt_freshInst (h hm))

/-- A new instruction behind the PHIs of a block. -/
theorem Function.Valid.keeps_insert (hF : F.Valid) (hb : b ∈ F.layout)
    (hinsts : (F.block b).insts = pre ++ post) (hpost : ∀ J ∈ post, J.op.isPhi = false)
    (hid : I.id = F.freshInst) (hphi : I.op.isPhi = false)
    (hf : f (F.block b) = { F.block b with insts := pre ++ I :: post }) :
    F.Keeps (F.updateBlock b f) := by
  have hins : F.Inserted (F.updateBlock b f) b I := by
    refine ⟨rfl, rfl, fun x hx => F.block_updateBlock_ne _ hx, ?_, ?_, ?_⟩
    · rw [F.block_updateBlock, hf]
    · rw [F.block_updateBlock, hf]
    · rw [F.block_updateBlock, hf, hinsts]
      exact List.perm_middle
  have hnew : I.id ∉ F.instIds := hid ▸ F.freshInst_not_mem (List.Subset.refl _)
  have hpairs := hF.pairwise hb
  rw [hinsts, List.pairwise_append] at hpairs
  obtain ⟨hpre, -, -⟩ := hpairs
  refine ⟨hins.valid hF hb hnew hphi ?_, fun i hi => ?_, fun ids hids => ?_⟩
  · rw [F.block_updateBlock, hf, List.pairwise_append]
    have hrest : ∀ J ∈ I :: post, ¬ J.op.isPhi := List.forall_mem_cons.mpr
      ⟨Bool.eq_false_iff.mp hphi, fun J hJ => Bool.eq_false_iff.mp (hpost J hJ)⟩
    exact ⟨hpre, List.pairwise_of_forall_mem_list fun _ _ J hJ hJphi => absurd hJphi (hrest J hJ),
      fun _ _ J hJ hJphi => absurd hJphi (hrest J hJ)⟩
  · exact (hins.perm_instIds hF.nodup hb).mem_iff.mpr (List.mem_cons_of_mem _ hi)
  · have hout : I.id ∉ ids := hid ▸ F.freshInst_not_mem hids
    refine SameOn.tracesOn_eq ⟨fun x => ?_, fun x => ?_, fun x pred => ?_⟩ rfl
    · by_cases hx : x = b
      · rw [hx, F.block_updateBlock, hf]
      · rw [F.block_updateBlock_ne _ hx]
    · by_cases hx : x = b
      · rw [hx, F.block_updateBlock, hf]
      · rw [F.block_updateBlock_ne _ hx]
    · by_cases hx : x = b
      · rw [hx, F.block_updateBlock, hf, BasicBlock.events, BasicBlock.events, hinsts]
        simp [hout]
      · rw [F.block_updateBlock_ne _ hx]

theorem Function.Valid.keeps_atFirstNonPHI (hF : F.Valid) (hb : b ∈ F.layout) :
    F.Keeps (F.createBarrierAtFirstNonPHI b) :=
  hF.keeps_insert hb (List.takeWhile_append_dropWhile (p := (·.op.isPhi))).symm
    (hF.phisFirst b hb) rfl rfl rfl

theorem Function.Valid.keeps_beforeTerminator (hF : F.Valid) (hb : b ∈ F.layout) :
    F.Keeps (F.createBarrierBeforeTerminator b) :=
  hF.keeps_insert hb (List.append_nil _).symm (fun _ h => absurd h List.not_mem_nil) rfl rfl rfl

theorem Function.Valid.keeps_splitBlock (hF : F.Valid) (hb : b ∈ F.layout) (SplitPt : InstId) :
    F.Keeps (F.splitBlock b SplitPt) where
  valid := hF.splitBlock hb SplitPt
  ids _ hi := (F.perm_instIds_splitBlock hF.nodup hb).mem_iff.mpr (List.mem_cons_of_mem _ hi)
  traces _ hids := hF.tracesOn_splitBlock hb (F.freshInst_not_mem hids)

end

end VariOCL.IR
