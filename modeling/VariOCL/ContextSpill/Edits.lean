import VariOCL.ContextSpill.Splice
import VariOCL.IR.ValidEdits

/-! The edits of a function, as splices of the function that was edited first. -/

namespace VariOCL.IR

/-- Instructions to put into `G`. -/
structure Function.Unused (G : Function) (Is : List Instruction) : Prop where
  fresh : ∀ I ∈ Is, G.freshInst ≤ I.id
  nodup : (Is.map Instruction.id).Nodup
  phi : ∀ I ∈ Is, I.op.isPhi = false

section
variable {F G : Function} {sp : Splice} {b x : BlockId} {BB : BasicBlock} {I J : Instruction}
  {i j u : InstId} {Is : List Instruction} {k : Value → Value}

theorem Splice.block_empty : Splice.empty.block b BB = BB := by
  have hinst : ∀ I : Instruction, Splice.empty.inst I = I := fun I => by
    have hop : I.op.mapUses (Splice.empty.use I.id) = I.op := Op.mapUses_eq_self fun _ _ => rfl
    rw [Splice.inst, hop]
  have haround : ∀ I : Instruction, Splice.empty.around I = [I] := fun I =>
    congrArg (· :: []) (hinst I)
  have hphis : Splice.empty.phis BB = BB.insts.takeWhile (·.op.isPhi) := by
    have hall : (BB.insts.takeWhile (·.op.isPhi)).filter (·.id ∉ Splice.empty.gone) =
        BB.insts.takeWhile (·.op.isPhi) :=
      List.filter_eq_self.mpr fun I _ => decide_eq_true List.not_mem_nil
    rw [Splice.phis, hall, List.map_congr_left fun I _ => hinst I, List.map_id']
  have hrest : Splice.empty.rest b BB = BB.insts.dropWhile (·.op.isPhi) := by
    rw [Splice.rest, List.flatMap_congr fun I _ => haround I, List.flatMap_singleton']
    exact List.append_nil _
  refine BasicBlock.eq_of_insts ?_ rfl (Terminator.mapValues_eq_self fun _ _ => rfl)
  rw [Splice.block, hphis, hrest, List.takeWhile_append_dropWhile]

theorem Function.spliced_empty (hn : F.instIds.Nodup) : F.Spliced .empty F where
  layout := rfl
  entry := rfl
  block _ _ := Splice.block_empty.symm
  ids := hn
  new I hI := by
    rcases hI with ⟨_, hI⟩ | ⟨_, hI⟩ | ⟨_, hI⟩ <;> cases hI

namespace Function.Spliced
variable (h : F.Spliced sp G) (hF : F.Valid)
include h

theorem mem_layout (hb : b ∈ F.layout) : b ∈ G.layout := h.layout ▸ hb

theorem termId (hb : b ∈ F.layout) : (G.block b).termId = (F.block b).termId := by
  rw [h.block b hb]
  rfl

theorem id_ne (hu : u ∈ F.instIds) (hI : sp.Puts I) : I.id ≠ u := fun heq =>
  (h.new I hI).2 (heq ▸ hu)

theorem mem_of_mem (hb : b ∈ F.layout) (hI : I ∈ (F.block b).insts) (hgone : I.id ∉ sp.gone) :
    sp.inst I ∈ (G.block b).insts := by
  rw [h.block b hb]
  exact Splice.inst_mem_block hI hgone

theorem instIds_subset_block (hgone : sp.gone = []) (hb : b ∈ F.layout) :
    (F.block b).instIds ⊆ (G.block b).instIds := by
  intro i hi
  rcases List.mem_append.mp hi with hi | hi
  · obtain ⟨I, hI, rfl⟩ := List.mem_map.mp hi
    exact List.mem_append_left _ (List.mem_map.mpr
      ⟨_, h.mem_of_mem hb hI (hgone ▸ List.not_mem_nil), rfl⟩)
  · rw [BasicBlock.instIds, h.termId hb]
    exact List.mem_append_right _ hi

theorem instIds_subset (hgone : sp.gone = []) : F.instIds ⊆ G.instIds := by
  intro i hi
  obtain ⟨b, hb, hi⟩ := Function.mem_instIds.mp hi
  exact Function.mem_instIds.mpr ⟨b, h.mem_layout hb, h.instIds_subset_block hgone hb hi⟩

theorem blockOf (hgone : sp.gone = []) (hb : b ∈ F.layout) (hu : u ∈ (F.block b).instIds) :
    G.blockOf u = some b :=
  blockOf_eq_some h.ids (h.mem_layout hb) (h.instIds_subset_block hgone hb hu)

theorem find (hb : b ∈ F.layout) (hI : I ∈ (F.block b).insts) (hgone : I.id ∉ sp.gone) :
    (G.block b).find I.id = some (sp.inst I) :=
  Function.find_of_mem h.ids (h.mem_layout hb) (h.mem_of_mem hb hI hgone)

theorem find_term (hb : b ∈ F.layout) : (G.block b).find (F.block b).termId = none := by
  rw [← h.termId hb]
  refine List.find?_eq_none.mpr fun I hI hid => ?_
  have hn : (G.block b).instIds.Nodup := (List.nodup_flatMap.mp h.ids).1 b (h.mem_layout hb)
  exact (List.nodup_append.mp hn).2.2 _ (List.mem_map_of_mem hI) _ List.mem_cons_self
    (of_decide_eq_true hid)

/-- What is put in is new to `F` too. -/
theorem new_of_unused (hgone : sp.gone = []) (hIs : G.Unused Is) :
    ∀ I ∈ Is, I.op.isPhi = false ∧ I.id ∉ F.instIds := fun I hI =>
  ⟨hIs.phi I hI, fun hid => Nat.not_lt.mpr (hIs.fresh I hI)
    (G.lt_freshInst (h.instIds_subset hgone hid))⟩

include hF

/-- Instructions put into one block. -/
theorem insert {sp' : Splice} {f : BasicBlock → BasicBlock} (hgone : sp.gone = []) (hb : b ∈ F.layout)
    (hins : (G.block b).Inserts Is (f (G.block b))) (hIs : G.Unused Is)
    (hblock : f (sp.block b (F.block b)) = sp'.block b (F.block b))
    (hother : ∀ x ∈ F.layout, x ≠ b → sp'.block x (F.block x) = sp.block x (F.block x))
    (hputs : ∀ I, sp'.Puts I → sp.Puts I ∨ I ∈ Is) : F.Spliced sp' (G.updateBlock b f) where
  layout := h.layout
  entry := h.entry
  block x hx := by
    by_cases hxb : x = b
    · subst hxb
      rw [G.block_updateBlock, h.block x hx, hblock]
    · rw [G.block_updateBlock_ne f hxb, h.block x hx, hother x hx hxb]
  ids := nodup_instIds_insert (h.layout ▸ hF.nodup) h.ids (h.mem_layout hb) hins hIs.fresh hIs.nodup
  new I hI := (hputs I hI).elim (h.new I) (h.new_of_unused hgone hIs I)

/-- Before an instruction that is no PHI, or the terminator. -/
theorem insertBefore (hgone : sp.gone = []) (hb : b ∈ F.layout) (hIs : G.Unused Is)
    (hj : j = (F.block b).termId ∨ ∃ J ∈ (F.block b).insts, J.op.isPhi = false ∧ J.id = j) :
    F.Spliced (sp.addBefore j Is) (G.updateBlock b (BasicBlock.insertAllBefore j Is)) := by
  have hjb : j ∈ (F.block b).instIds := by
    rcases hj with rfl | ⟨J, hJ, -, rfl⟩
    · exact List.mem_append_right _ List.mem_cons_self
    · exact List.mem_append_left _ (List.mem_map_of_mem hJ)
  have hnew : ∀ I, sp.Puts I → I.id ≠ j := fun I =>
    h.id_ne (Function.mem_instIds.mpr ⟨b, hb, hjb⟩)
  refine h.insert hF hgone hb (BasicBlock.inserts_insertAllBefore j Is _) hIs ?_ ?_ ?_
  · rcases hj with rfl | ⟨J, hJ, hphi, rfl⟩
    · exact Splice.block_insertAllBefore_term (hF.instIds_nodup hb) hnew
    · exact Splice.block_insertAllBefore (hF.instIds_nodup hb) hnew hJ hphi
  · exact fun x hx hxb => Splice.block_addBefore_ne fun hjx =>
      hxb (F.eq_of_mem_instIds hF.ids hx hb hjx hjb)
  · rintro I (hI | ⟨l, hI⟩ | hI)
    · exact .inl (.inl hI)
    · rw [Splice.addBefore] at hI
      dsimp only at hI
      split at hI
      · exact (List.mem_append.mp hI).imp (fun hI => .inr (.inl ⟨l, hI⟩)) id
      · exact .inl (.inr (.inl ⟨l, hI⟩))
    · exact .inl (.inr (.inr hI))

/-- Behind an instruction and the PHIs that follow it. -/
theorem insertAfter (hgone : sp.gone = []) (hb : b ∈ F.layout) (hIs : G.Unused Is)
    (hJ : J ∈ (F.block b).insts) :
    F.Spliced (if J.op.isPhi then sp.addTop b Is else sp.addAfter J.id Is)
      (G.updateBlock b (BasicBlock.insertAllAfter J.id Is)) := by
  have hJb : J.id ∈ (F.block b).instIds := List.mem_append_left _ (List.mem_map_of_mem hJ)
  have hnew : ∀ I, sp.Puts I → I.id ≠ J.id := fun I =>
    h.id_ne (Function.mem_instIds.mpr ⟨b, hb, hJb⟩)
  have hrest : ∀ I ∈ sp.rest b (F.block b), I.op.isPhi = false := fun I hI =>
    h.new.isPhi_rest (hF.phisFirst b hb) hI
  refine h.insert hF hgone hb (BasicBlock.inserts_insertAllAfter J.id Is _) hIs ?_ ?_ ?_
  · split
    · exact Splice.block_insertAllAfter_phi (hF.instIds_nodup hb) hJ ‹_›
        (hgone ▸ List.not_mem_nil) hrest
    · exact Splice.block_insertAllAfter (hF.instIds_nodup hb) hnew hJ (Bool.eq_false_iff.mpr ‹_›) hrest
  · intro x hx hxb
    split
    · exact Splice.block_addTop_ne hxb
    · exact Splice.block_addAfter_ne fun hjx => hxb (F.eq_of_mem_instIds hF.ids hx hb hjx hJb)
  · intro I hI
    split at hI
    · rcases hI with ⟨c, hI⟩ | hI
      · rw [Splice.addTop] at hI
        dsimp only at hI
        split at hI
        · exact ((List.mem_append.mp hI).imp id fun hI => .inl ⟨c, hI⟩).symm
        · exact .inl (.inl ⟨c, hI⟩)
      · exact .inl (.inr hI)
    · rcases hI with hI | hI | ⟨l, hI⟩
      · exact .inl (.inl hI)
      · exact .inl (.inr (.inl hI))
      · rw [Splice.addAfter] at hI
        dsimp only at hI
        split at hI
        · exact ((List.mem_append.mp hI).imp id fun hI => .inr (.inr ⟨l, hI⟩)).symm
        · exact .inl (.inr (.inr ⟨l, hI⟩))

omit hF

/-- One block with the same ids. -/
theorem update {sp' : Splice} {f : BasicBlock → BasicBlock}
    (hids : ((f (G.block b)).instIds).Sublist (G.block b).instIds)
    (hblock : f (sp.block b (F.block b)) = sp'.block b (F.block b))
    (hother : ∀ x ∈ F.layout, x ≠ b → sp'.block x (F.block x) = sp.block x (F.block x))
    (hputs : ∀ I, sp'.Puts I → sp.Puts I) : F.Spliced sp' (G.updateBlock b f) where
  layout := h.layout
  entry := h.entry
  block x hx := by
    by_cases hxb : x = b
    · subst hxb
      rw [G.block_updateBlock, h.block x hx, hblock]
    · rw [G.block_updateBlock_ne f hxb, h.block x hx, hother x hx hxb]
  ids := by
    refine List.Sublist.nodup (List.Sublist.flatMap_right _ fun x _ => ?_) h.ids
    by_cases hxb : x = b
    · subst hxb
      rwa [G.block_updateBlock]
    · rw [G.block_updateBlock_ne f hxb]
  new I hI := h.new I (hputs I hI)

include hF

theorem replaceUsesIn (hb : b ∈ F.layout) (hu : u ∈ (F.block b).instIds) :
    F.Spliced (sp.mapUse u fun _ => k) (G.updateBlock b (BasicBlock.replaceUsesIn u k)) := by
  refine h.update ?_ ?_ ?_ fun I hI => hI
  · rw [BasicBlock.instIds_replaceUsesIn]
  · exact Splice.block_replaceUsesIn fun I => h.id_ne (Function.mem_instIds.mpr ⟨b, hb, hu⟩)
  · exact fun x hx hxb => Splice.block_mapUse_ne fun hux =>
      hxb (F.eq_of_mem_instIds hF.ids hx hb hux hu)

theorem setIncomingValues {f : BlockId → Value → Value} (hb : b ∈ F.layout)
    (hJ : J ∈ (F.block b).insts) (hphi : J.op.isPhi) :
    F.Spliced (sp.mapUse J.id (Splice.entries f))
      (G.updateBlock b (ContextSpill.setIncomingValues J.id f)) := by
  have hn := hF.instIds_nodup hb
  have hu : J.id ∈ (F.block b).instIds := List.mem_append_left _ (List.mem_map_of_mem hJ)
  refine h.update ?_ ?_ ?_ fun I hI => hI
  · have hids : ((ContextSpill.setIncomingValues J.id f (G.block b)).insts).map Instruction.id =
        (G.block b).insts.map Instruction.id := by
      rw [ContextSpill.setIncomingValues, List.map_map]
      refine List.map_congr_left fun I _ => ?_
      rw [Function.comp_apply]
      split <;> rfl
    rw [BasicBlock.instIds, hids]
    exact .refl _
  · refine Splice.block_setIncomingValues
      (fun I => h.id_ne (Function.mem_instIds.mpr ⟨b, hb, hu⟩)) (fun I hI hid => ?_) fun hterm => ?_
    · rwa [List.inj_on_of_nodup_map (List.nodup_append.mp hn).1 hI hJ hid]
    · exact (List.nodup_append.mp hn).2.2 _ (List.mem_map_of_mem hJ) _ List.mem_cons_self hterm.symm
  · exact fun x hx hxb => Splice.block_mapUse_ne fun hux =>
      hxb (F.eq_of_mem_instIds hF.ids hx hb hux hu)

omit hF in
theorem mapValues : F.Spliced (sp.mapValues k) (G.mapValues k) where
  layout := h.layout
  entry := h.entry
  block x hx := by rw [Function.block_mapValues, h.block x hx, Splice.block_mapValues]
  ids := by
    rw [Function.instIds_mapValues]
    exact h.ids
  new I hI := by
    have hmem : ∃ J, sp.Puts J ∧ J.mapValues k = I := by
      rcases hI with ⟨c, hI⟩ | ⟨c, hI⟩ | ⟨c, hI⟩
      · obtain ⟨J, hJ, rfl⟩ := List.mem_map.mp hI
        exact ⟨J, .inl ⟨c, hJ⟩, rfl⟩
      · obtain ⟨J, hJ, rfl⟩ := List.mem_map.mp hI
        exact ⟨J, .inr (.inl ⟨c, hJ⟩), rfl⟩
      · obtain ⟨J, hJ, rfl⟩ := List.mem_map.mp hI
        exact ⟨J, .inr (.inr ⟨c, hJ⟩), rfl⟩
    obtain ⟨J, hJ, rfl⟩ := hmem
    rw [Instruction.op_mapValues, Op.isPhi_mapValues]
    exact h.new J hJ

/-- A PHI that goes. -/
theorem erase (hb : b ∈ F.layout) (hJ : J ∈ (F.block b).insts) (hphi : J.op.isPhi) :
    F.Spliced { sp with gone := J.id :: sp.gone } (G.updateBlock b (BasicBlock.erase J.id)) := by
  have hn := hF.instIds_nodup hb
  have hu : J.id ∈ (F.block b).instIds := List.mem_append_left _ (List.mem_map_of_mem hJ)
  refine h.update (BasicBlock.instIds_erase_sublist _ _) ?_ ?_ fun I hI => hI
  · refine Splice.block_erase (fun I => h.id_ne (Function.mem_instIds.mpr ⟨b, hb, hu⟩))
      (fun I hI hid => ?_) (hF.phisFirst b hb)
    rwa [List.inj_on_of_nodup_map (List.nodup_append.mp hn).1 hI hJ hid]
  · intro x hx hxb
    have hphis : Splice.phis { sp with gone := J.id :: sp.gone } (F.block x) =
        sp.phis (F.block x) := by
      rw [Splice.phis, Splice.phis]
      refine congrArg _ (List.filter_congr fun I hI => Bool.eq_iff_iff.mpr ?_)
      have hid : I.id ≠ J.id := fun hid => hxb (F.eq_of_mem_instIds hF.ids hx hb
        (List.mem_append_left _ (List.mem_map_of_mem ((List.takeWhile_sublist _).subset hI)))
        (hid ▸ hu))
      rw [decide_eq_true_eq, decide_eq_true_eq, List.mem_cons, not_or]
      exact ⟨fun h => h.2, fun h => ⟨hid, h⟩⟩
    rw [Splice.block, hphis]
    rfl

omit hF in
theorem succs (hb : b ∈ F.layout) : G.succs b = F.succs b := by
  rw [Function.succs, h.block b hb]
  exact Terminator.successors_mapValues _ _

/-- The function stays well formed. -/
theorem valid : G.Valid := by
  refine hF.of_phis h.layout h.entry (fun b => h.succs) h.ids (fun b hb => ?_)
    fun b hb I hI hphi => ?_
  · rw [h.block b hb]
    refine List.pairwise_append.mpr ⟨List.pairwise_of_forall_mem_list fun I hI _ _ _ =>
      Splice.isPhi_phis hI, List.pairwise_of_forall_mem_list fun I _ J hJ hphi => ?_,
      fun I hI _ _ _ => Splice.isPhi_phis hI⟩
    exact absurd ((h.new.isPhi_rest (hF.phisFirst b hb) hJ).symm.trans hphi) Bool.false_ne_true
  · rw [h.block b hb] at hI
    rcases Splice.mem_block (hF.phisFirst b hb) hI with hI | ⟨J, hJ, -, rfl⟩
    · exact absurd ((h.new I hI).1.symm.trans hphi) Bool.false_ne_true
    · exact ⟨J, hJ, by simpa using hphi, Op.incomingBlocks_mapUses⟩

end Function.Spliced

end

end VariOCL.IR
