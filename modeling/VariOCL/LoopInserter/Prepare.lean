import VariOCL.LoopInserter.ExpandedIds
import VariOCL.LoopInserter.RealEntry

/-! What `CondBarrier::runOnFunction` does before it forms regions: every constant dimension that
was read is one of a call to `get_local_id`, and a barrier is left. -/

namespace VariOCL.IR.LoopInserter

/-- The marks of `F`, up to their order, and a barrier if `F` had one. -/
structure Keeps (F G : Function) : Prop where
  nodup : F.layout.Nodup → G.layout.Nodup
  marks : (marks G).Perm (marks F)
  barrier : (∃ b ∈ F.layout, hasBarrier (F.block b)) → ∃ b ∈ G.layout, hasBarrier (G.block b)

section
variable {F G H : Function} {BB : BasicBlock} {b : BlockId} {g : BasicBlock → BasicBlock}
  {f : Value → Value} {M : Module} {name : String} {Is : List Instruction} {slots : Slots}

theorem Keeps.trans (h : Keeps F G) (h' : Keeps G H) : Keeps F H where
  nodup hn := h'.nodup (h.nodup hn)
  marks := h'.marks.trans h.marks
  barrier hF := h'.barrier (h.barrier hF)

/-- An edit that neither adds nor loses marks, and loses no instruction. -/
theorem keeps_updateBlock (hmarks : (g (F.block b)).insts.filterMap mark =
      (F.block b).insts.filterMap mark) (hsub : (F.block b).insts ⊆ (g (F.block b)).insts) :
    Keeps F (F.updateBlock b g) where
  nodup hn := hn
  marks := .of_eq (marks_updateBlock hmarks)
  barrier := by
    rintro ⟨x, hx, hbar⟩
    refine ⟨x, hx, ?_⟩
    by_cases hxb : x = b
    · obtain ⟨I, hI, hI'⟩ := List.any_eq_true.mp hbar
      rw [hxb, F.block_updateBlock]
      exact List.any_eq_true.mpr ⟨I, hsub (hxb ▸ hI), hI'⟩
    · rw [F.block_updateBlock_ne g hxb]
      exact hbar

theorem isBarrier_mapValues {I : Instruction} : (I.mapValues f).isBarrier = I.isBarrier := by
  obtain ⟨i, t, op⟩ := I
  cases op with
  | call callee args => cases callee <;> rfl
  | _ => rfl

theorem KeepsConst.keeps_mapValues (hf : KeepsConst f) : Keeps F (F.mapValues f) where
  nodup hn := hn
  marks := .of_eq hf.marks_mapValues
  barrier := by
    rintro ⟨b, hb, hbar⟩
    obtain ⟨I, hI, hI'⟩ := List.any_eq_true.mp hbar
    exact ⟨b, hb, List.any_eq_true.mpr ⟨I.mapValues f, List.mem_map_of_mem hI,
      isBarrier_mapValues.trans hI'⟩⟩

/-! ### The entry -/

theorem splitBlock_front_of_just (h : containsJustABarrier (F.block F.entry)) :
    ((F.splitBlock F.entry (F.block F.entry).front).block F.entry).insts = [] ∧
      ((F.splitBlock F.entry (F.block F.entry).front).block F.freshBlock).insts =
        (F.block F.entry).insts := by
  obtain ⟨I, hI, hbar⟩ := containsJustABarrier_iff.mp h
  have hphi : I.op.isPhi = false := by
    obtain ⟨i, t, op⟩ := I
    cases op <;> first | rfl | cases hbar
  have hfront : (F.block F.entry).front = I.id := by rw [BasicBlock.front, hI]; rfl
  rw [F.block_splitBlock_old F.entry_mem_layout, F.block_splitBlock_new, hfront,
    BasicBlock.beforeSplit, BasicBlock.afterSplit, hI]
  simp [hphi]

theorem layout_splitBlock_entry {SplitPt : InstId} :
    (F.splitBlock F.entry SplitPt).layout = F.entry :: F.freshBlock :: F.rest := by
  rw [Function.layout, Function.entry_splitBlock, Function.splitBlock, if_pos rfl]

theorem keeps_ensureARealEntry (h : ensureARealEntryOnTopABarrierEntry F = .ok G) :
    Keeps F G ∧ ∃ b ∈ G.layout, hasBarrier (G.block b) := by
  obtain ⟨hjust, rfl⟩ := ensureARealEntry_eq h
  obtain ⟨hold, hnew⟩ := splitBlock_front_of_just hjust
  obtain ⟨I, hI, hbar⟩ := containsJustABarrier_iff.mp hjust
  have hnone : (F.block F.entry).insts.filterMap mark = [] := by
    rw [hI, List.filterMap_cons_none (mark_of_isBarrier hbar), List.filterMap_nil]
  have hperm : (F.splitBlock F.entry (F.block F.entry).front).layout.Perm
      ([F.freshBlock] ++ F.layout) := by
    rw [layout_splitBlock_entry]
    exact .swap ..
  have hleft : ∃ b ∈ (F.splitBlock F.entry (F.block F.entry).front).layout,
      hasBarrier ((F.splitBlock F.entry (F.block F.entry).front).block b) := by
    refine ⟨F.freshBlock, hperm.mem_iff.mpr List.mem_cons_self, ?_⟩
    rw [hasBarrier, hnew]
    exact hasBarrier_of_containsJustABarrier hjust
  refine ⟨⟨fun hn => ?_, marks_perm hperm (fun b hb => ?_) fun b hb => ?_, fun _ => hleft⟩, hleft⟩
  · exact hperm.nodup_iff.mpr (List.nodup_cons.mpr ⟨F.freshBlock_not_mem, hn⟩)
  · rw [List.mem_singleton.mp hb, hnew, hnone]
  · by_cases hbe : b = F.entry
    · rw [hbe, hold, hnone, List.filterMap_nil]
    · rw [F.block_splitBlock hb hbe, filterMap_mark_mapBlocks]

/-! ### The sizes and the locals -/

theorem mem_insertAllBefore {Before : InstId} {I : Instruction} :
    I ∈ (BB.insertAllBefore Before Is).insts ↔ I ∈ Is ∨ I ∈ BB.insts :=
  (BB.perm_insertAllBefore Before Is).mem_iff.trans List.mem_append

theorem keeps_insertLocalSizeInfo (F : Function) :
    Keeps F (insertLocalSizeInfoToEntry F).1 :=
  keeps_updateBlock (filterMap_insertAllBefore rfl _) fun _ hI => mem_insertAllBefore.mpr (.inr hI)

theorem keepsConst_privatized : KeepsConst (Value.privatized slots) := by
  intro v w c
  cases v with
  | global g =>
    rw [Value.privatized]
    cases slots.find? fun s => s.1.name = g <;> simp
  | _ => rfl

theorem mem_withAllocas {I : Instruction} :
    I ∈ (BB.withAllocas slots).insts ↔ I ∈ slots.allocas ∨ I ∈ BB.insts :=
  (perm_takeWhile_insert _ BB.insts slots.allocas).mem_iff.trans List.mem_append

theorem filterMap_withAllocas :
    (BB.withAllocas slots).insts.filterMap mark = BB.insts.filterMap mark := by
  have hnone : slots.allocas.filterMap mark = [] := by
    refine List.filterMap_eq_nil_iff.mpr fun I hI => ?_
    obtain ⟨s, -, rfl⟩ := List.mem_map.mp (List.mem_reverse.mp hI)
    rfl
  exact filterMap_takeWhile_insert _ _ hnone

theorem keeps_privatized (F : Function) (slots : Slots) : Keeps F (F.privatized slots) :=
  (keeps_updateBlock filterMap_withAllocas fun _ hI => mem_withAllocas.mpr (.inr hI)).trans
    keepsConst_privatized.keeps_mapValues

theorem map_name_privatizeLocals :
    (privatizeLocals name M).functions.map Function.name = M.functions.map Function.name := by
  rw [privatizeLocals]
  induction M.globals generalizing M with
  | nil => rfl
  | cons GV gs ih =>
    rw [List.foldl_cons, ih, privatizeGlobal]
    split
    · rw [List.map_map]
      refine List.map_congr_left fun G _ => ?_
      rw [Function.comp_apply, privatizeIn]
      split <;> rfl
    · rfl

/-- The pass sees its function with allocas for some globals. -/
theorem privatizedFunction_eq (M : Module) (F : Function) :
    privatizedFunction M F = F ∨ ∃ slots, privatizedFunction M F = F.privatized slots := by
  rw [privatizedFunction]
  generalize hM : ({ M with
    functions := M.functions.map fun G => if G.name = F.name then F else G } : Module) = M'
  have hname : ∀ G ∈ M'.functions, G.name = F.name → G = F := by
    subst hM
    intro G hG hn
    obtain ⟨G', -, rfl⟩ := List.mem_map.mp hG
    split
    · rfl
    · rename_i hne
      rw [if_neg hne] at hn
      exact absurd hn hne
  by_cases hF : F ∈ M'.functions
  · obtain ⟨slots, -, -, heq⟩ := privatizeLocals_eq hF rfl
    refine .inr ⟨slots, ?_⟩
    rw [heq]
    cases hfind : (M'.afterLocals F.name slots).functions.find? (·.name = F.name) with
    | none =>
      have hne := List.find?_eq_none.mp hfind _ (List.mem_map_of_mem hF)
      exact absurd (decide_eq_true Function.name_afterLocals) hne
    | some G =>
      obtain ⟨G', hG', rfl⟩ := List.mem_map.mp (List.mem_of_find?_eq_some hfind)
      have hn : G'.name = F.name := by
        rw [← Function.name_afterLocals]
        simpa using List.find?_some hfind
      rw [Option.getD_some, hname G' hG' hn, Function.afterLocals, if_pos rfl]
  · left
    have hnone : (privatizeLocals F.name M').functions.find? (·.name = F.name) = none := by
      refine List.find?_eq_none.mpr fun G hG heq => hF ?_
      have hmem : G.name ∈ M'.functions.map Function.name :=
        map_name_privatizeLocals ▸ List.mem_map_of_mem hG
      obtain ⟨G', hG', hn⟩ := List.mem_map.mp hmem
      exact hname G' hG' (hn.trans (of_decide_eq_true heq)) ▸ hG'
    rw [hnone, Option.getD_none]

theorem keeps_privatizedFunction (M : Module) (F : Function) : Keeps F (privatizedFunction M F) := by
  rcases privatizedFunction_eq M F with heq | ⟨slots, heq⟩
  · rw [heq]
    exact ⟨fun hn => hn, .refl _, fun hF => hF⟩
  · rw [heq]
    exact keeps_privatized F slots

/-! ### The function that the regions are formed of -/

theorem keeps_prepare {p : Function × LocalSizeInfo} (h : prepare M F = .ok p) :
    Keeps (expandGetGlobalID F) p.1 ∧ ∃ b ∈ p.1.layout, hasBarrier (p.1.block b) := by
  obtain ⟨G, hG, h⟩ := Sim.bind_eq_ok.mp h
  cases h
  obtain ⟨hkeeps, hbar⟩ := keeps_ensureARealEntry hG
  have hrest := (keeps_insertLocalSizeInfo G).trans
    (keeps_privatizedFunction M (insertLocalSizeInfoToEntry G).1)
  exact ⟨hkeeps.trans hrest, hrest.barrier hbar⟩

end

end VariOCL.IR.LoopInserter
