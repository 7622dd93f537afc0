import Mathlib.Data.List.Flatten
import VariOCL.IR.Uses

/-! Edits that keep a function well formed. -/

namespace VariOCL.IR

theorem phisFirst_iff {Is : List Instruction} :
    (∀ I ∈ Is.dropWhile (·.op.isPhi), I.op.isPhi = false) ↔
      Is.Pairwise fun I J => J.op.isPhi → I.op.isPhi := by
  induction Is with
  | nil => simp
  | cons I Is ih =>
    by_cases hI : I.op.isPhi = true
    · rw [List.dropWhile_cons, if_pos hI, List.pairwise_cons, ih]
      exact ⟨fun h => ⟨fun _ _ _ => hI, h⟩, fun h => h.2⟩
    · rw [List.dropWhile_cons, if_neg hI, List.pairwise_cons]
      constructor
      · intro h
        have hrest : ∀ J ∈ Is, ¬ J.op.isPhi = true := fun J hJ =>
          Bool.eq_false_iff.mp (h J (List.mem_cons_of_mem _ hJ))
        exact ⟨fun J hJ hphi => absurd hphi (hrest J hJ), List.pairwise_of_forall_mem_list
          fun _ _ J hJ hphi => absurd hphi (hrest J hJ)⟩
      · rintro ⟨hrest, -⟩ J hJ
        rcases List.mem_cons.mp hJ with rfl | hJ
        · exact Bool.eq_false_iff.mpr hI
        · exact Bool.eq_false_iff.mpr fun hphi => hI (hrest J hJ hphi)

section
variable {F G : Function} {b c : BlockId} {I : Instruction} {i n : InstId}

/-- No instruction names a value from `n` on. -/
def Function.OperandsBelow (F : Function) (n : InstId) : Prop :=
  ∀ b ∈ F.layout, ∀ i, .inst i ∈ (F.block b).values → i < n

/-- Every operand is an instruction of the function, or none. -/
def Function.OperandsDefined (F : Function) : Prop :=
  ∀ b ∈ F.layout, ∀ i, .inst i ∈ (F.block b).values → i ∈ F.instIds

theorem Function.OperandsDefined.below (h : F.OperandsDefined) : F.OperandsBelow F.freshInst :=
  fun b hb i hi => F.lt_freshInst (h b hb i hi)

theorem Function.OperandsBelow.mono {m : InstId} (h : F.OperandsBelow n) (hnm : n ≤ m) :
    F.OperandsBelow m := fun b hb i hi => Nat.lt_of_lt_of_le (h b hb i hi) hnm

theorem BasicBlock.mem_values {BB : BasicBlock} {v : Value} :
    v ∈ BB.values ↔ (∃ I ∈ BB.insts, v ∈ I.op.operands) ∨ v ∈ BB.term.operands := by
  simp [BasicBlock.values]

theorem Op.incomingBlocks_of_not_phi {op : Op} (h : op.isPhi = false) : op.incomingBlocks = [] := by
  cases op <;> first | rfl | cases h

/-- The PHIs of `G` are PHIs of `F`, up to their values. -/
theorem Function.Valid.of_phis (hF : F.Valid) (hlayout : G.layout = F.layout)
    (hentry : G.entry = F.entry) (hsuccs : ∀ b ∈ F.layout, G.succs b = F.succs b)
    (hids : G.instIds.Nodup)
    (hfirst : ∀ b ∈ F.layout, (G.block b).insts.Pairwise fun I J => J.op.isPhi → I.op.isPhi)
    (hphis : ∀ b ∈ F.layout, ∀ I ∈ (G.block b).insts, I.op.isPhi →
      ∃ J ∈ (F.block b).insts, J.op.isPhi ∧ I.op.incomingBlocks = J.op.incomingBlocks) :
    G.Valid where
  nodup := hlayout ▸ hF.nodup
  closed b hb s hs := by
    rw [hlayout] at hb ⊢
    exact hF.closed b hb s (hsuccs b hb ▸ hs)
  entryPreds b hb := by
    rw [hlayout] at hb
    rw [hentry, hsuccs b hb]
    exact hF.entryPreds b hb
  ids := hids
  phisFirst b hb := phisFirst_iff.mpr (hfirst b (hlayout ▸ hb))
  entryPhis I hI := by
    rw [hentry] at hI
    refine Bool.eq_false_iff.mpr fun hphi => ?_
    obtain ⟨J, hJ, hJphi, -⟩ := hphis F.entry F.entry_mem_layout I hI hphi
    exact absurd hJphi (Bool.eq_false_iff.mp (hF.entryPhis J hJ))
  incoming b hb I hI p hp := by
    rw [hlayout] at hb ⊢
    cases hphi : I.op.isPhi with
    | true =>
      obtain ⟨J, hJ, -, heq⟩ := hphis b hb I hI hphi
      exact hF.incoming b hb J hJ p (heq ▸ hp)
    | false =>
      rw [Op.incomingBlocks_of_not_phi hphi] at hp
      cases hp

theorem Function.Valid.pairwise (hF : F.Valid) (hb : b ∈ F.layout) :
    (F.block b).insts.Pairwise fun I J => J.op.isPhi → I.op.isPhi :=
  phisFirst_iff.mp (hF.phisFirst b hb)

/-- One block of `F` gets the instruction `I`. -/
structure Function.Inserted (F G : Function) (b : BlockId) (I : Instruction) : Prop where
  layout : G.layout = F.layout
  entry : G.entry = F.entry
  other : ∀ x, x ≠ b → G.block x = F.block x
  termId : (G.block b).termId = (F.block b).termId
  term : (G.block b).term = (F.block b).term
  insts : (G.block b).insts.Perm (I :: (F.block b).insts)

theorem Function.inserted_beforeTerminator (F : Function) (b : BlockId) (I : Instruction) :
    F.Inserted (F.updateBlock b (BasicBlock.insertBeforeTerminator I)) b I where
  layout := rfl
  entry := rfl
  other x hx := F.block_updateBlock_ne _ hx
  termId := by rw [F.block_updateBlock, BasicBlock.insertBeforeTerminator]
  term := by rw [F.block_updateBlock, BasicBlock.insertBeforeTerminator]
  insts := by
    rw [F.block_updateBlock]
    exact List.perm_append_singleton I (F.block b).insts

theorem Function.inserted_front (F : Function) (b : BlockId) (I : Instruction) :
    F.Inserted (F.updateBlock b (BasicBlock.insertFront I)) b I where
  layout := rfl
  entry := rfl
  other x hx := F.block_updateBlock_ne _ hx
  termId := by rw [F.block_updateBlock, BasicBlock.insertFront]
  term := by rw [F.block_updateBlock, BasicBlock.insertFront]
  insts := by rw [F.block_updateBlock, BasicBlock.insertFront]

namespace Function.Inserted
variable (h : F.Inserted G b I)
include h

theorem mem {J : Instruction} : J ∈ (G.block b).insts ↔ J = I ∨ J ∈ (F.block b).insts :=
  h.insts.mem_iff.trans List.mem_cons

theorem succs (x : BlockId) : G.succs x = F.succs x := by
  by_cases hx : x = b
  · rw [hx, Function.succs, h.term, Function.succs]
  · rw [Function.succs, h.other x hx, Function.succs]

theorem perm_instIds (hn : F.layout.Nodup) (hb : b ∈ F.layout) :
    G.instIds.Perm (I.id :: F.instIds) := by
  rw [Function.instIds, h.layout]
  refine perm_flatMap_of_eq_off [I.id] hn hb (fun x _ hx => ?_) ?_
  · rw [h.other x hx]
  · rw [BasicBlock.instIds, h.termId]
    exact (h.insts.map Instruction.id).append_right _

theorem valid (hF : F.Valid) (hb : b ∈ F.layout) (hid : I.id ∉ F.instIds)
    (hphi : I.op.isPhi = false)
    (hfirst : (G.block b).insts.Pairwise fun I J => J.op.isPhi → I.op.isPhi) : G.Valid := by
  refine hF.of_phis h.layout h.entry (fun x _ => h.succs x) ?_ (fun x hx => ?_) fun x hx J hJ hJphi => ?_
  · exact (h.perm_instIds hF.nodup hb).nodup_iff.mpr (List.nodup_cons.mpr ⟨hid, hF.ids⟩)
  · by_cases hxb : x = b
    · rwa [hxb]
    · rw [h.other x hxb]
      exact hF.pairwise hx
  · by_cases hxb : x = b
    · subst hxb
      rcases h.mem.mp hJ with rfl | hJ
      · exact absurd hJphi (Bool.eq_false_iff.mp hphi)
      · exact ⟨J, hJ, hJphi, rfl⟩
    · rw [h.other x hxb] at hJ
      exact ⟨J, hJ, hJphi, rfl⟩

theorem operandsBelow (hF : F.OperandsBelow n) (hI : ∀ i, .inst i ∈ I.op.operands → i < n) :
    G.OperandsBelow n := by
  intro x hx i hi
  rw [h.layout] at hx
  by_cases hxb : x = b
  · subst hxb
    rcases BasicBlock.mem_values.mp hi with ⟨J, hJ, hi⟩ | hi
    · rcases h.mem.mp hJ with rfl | hJ
      · exact hI i hi
      · exact hF x hx i (BasicBlock.mem_values.mpr (.inl ⟨J, hJ, hi⟩))
    · rw [h.term] at hi
      exact hF x hx i (BasicBlock.mem_values.mpr (.inr hi))
  · rw [h.other x hxb] at hi
    exact hF x hx i hi

theorem lt_freshInst (hb : b ∈ F.layout) : I.id < G.freshInst :=
  G.lt_freshInst (G.instIds_of_mem (h.layout ▸ hb) (h.mem.mpr (.inl rfl)))

end Function.Inserted

theorem Function.Valid.insertBeforeTerminator (hF : F.Valid) (hb : b ∈ F.layout)
    (hid : I.id ∉ F.instIds) (hphi : I.op.isPhi = false) :
    (F.updateBlock b (BasicBlock.insertBeforeTerminator I)).Valid := by
  refine (F.inserted_beforeTerminator b I).valid hF hb hid hphi ?_
  rw [F.block_updateBlock, BasicBlock.insertBeforeTerminator, List.pairwise_append]
  refine ⟨hF.pairwise hb, List.pairwise_singleton _ _, fun J _ K hK hKphi => ?_⟩
  rw [List.mem_singleton.mp hK] at hKphi
  exact absurd hKphi (Bool.eq_false_iff.mp hphi)

theorem Function.Valid.createBarrierBeforeTerminator (hF : F.Valid) (hb : b ∈ F.layout) :
    (F.createBarrierBeforeTerminator b).Valid :=
  hF.insertBeforeTerminator hb (fun h => Nat.lt_irrefl _ (F.lt_freshInst h)) rfl

theorem Function.Valid.insertFront (hF : F.Valid) (hid : I.id ∉ F.instIds)
    (hphi : I.op.isPhi = false) :
    (F.updateBlock F.entry (BasicBlock.insertFront I)).Valid := by
  refine (F.inserted_front F.entry I).valid hF F.entry_mem_layout hid hphi ?_
  rw [F.block_updateBlock, BasicBlock.insertFront, List.pairwise_cons]
  exact ⟨fun J hJ hJphi => absurd hJphi (Bool.eq_false_iff.mp (hF.entryPhis J hJ)),
    hF.pairwise F.entry_mem_layout⟩

theorem Function.Valid.mapValues (hF : F.Valid) (f : Value → Value) : (F.mapValues f).Valid := by
  refine hF.of_phis rfl rfl (fun b _ => Function.succs_mapValues) ?_ (fun b hb => ?_) ?_
  · rw [Function.instIds_mapValues]
    exact hF.ids
  · rw [Function.block_mapValues, BasicBlock.insts_mapValues, List.pairwise_map]
    simpa using hF.pairwise hb
  · intro b _ I hI hphi
    obtain ⟨J, hJ, rfl⟩ := List.mem_map.mp hI
    exact ⟨J, hJ, by simpa using hphi, by simp⟩

theorem BasicBlock.instIds_erase_sublist (i : InstId) (BB : BasicBlock) :
    (BB.erase i).instIds.Sublist BB.instIds :=
  (List.filter_sublist.map Instruction.id).append_right _

theorem BasicBlock.mem_erase {BB : BasicBlock} {J : Instruction} :
    J ∈ (BB.erase i).insts ↔ J ∈ BB.insts ∧ J.id ≠ i := by
  simp [BasicBlock.erase]

theorem Function.instIds_erase_sublist (F : Function) (b : BlockId) (i : InstId) :
    (F.updateBlock b (BasicBlock.erase i)).instIds.Sublist F.instIds := by
  refine List.Sublist.flatMap_right _ fun x _ => ?_
  by_cases hx : x = b
  · subst hx
    rw [F.block_updateBlock]
    exact BasicBlock.instIds_erase_sublist i _
  · rw [F.block_updateBlock_ne _ hx]

theorem Function.instIds_subset_erase (F : Function) (b : BlockId) (i : InstId) :
    F.instIds ⊆ i :: (F.updateBlock b (BasicBlock.erase i)).instIds := by
  intro j hj
  obtain ⟨x, hx, hj⟩ := Function.mem_instIds.mp hj
  refine List.mem_cons.mpr (or_iff_not_imp_left.mpr fun hji => ?_)
  refine Function.mem_instIds.mpr ⟨x, hx, ?_⟩
  by_cases hxb : x = b
  · subst hxb
    rw [F.block_updateBlock]
    rcases List.mem_append.mp hj with hj | hj
    · obtain ⟨J, hJ, rfl⟩ := List.mem_map.mp hj
      exact List.mem_append_left _ (List.mem_map_of_mem (BasicBlock.mem_erase.mpr ⟨hJ, hji⟩))
    · exact List.mem_append_right _ hj
  · rwa [F.block_updateBlock_ne _ hxb]

theorem Function.Valid.not_mem_instIds_erase (hF : F.Valid) (hb : b ∈ F.layout)
    (hI : I ∈ (F.block b).insts) :
    I.id ∉ (F.updateBlock b (BasicBlock.erase I.id)).instIds := by
  intro hmem
  obtain ⟨x, hx, hmem⟩ := Function.mem_instIds.mp hmem
  have hIb : I.id ∈ (F.block b).instIds := List.mem_append_left _ (List.mem_map_of_mem hI)
  by_cases hxb : x = b
  · subst hxb
    rw [F.block_updateBlock] at hmem
    rcases List.mem_append.mp hmem with hmem | hmem
    · obtain ⟨J, hJ, hJI⟩ := List.mem_map.mp hmem
      exact (BasicBlock.mem_erase.mp hJ).2 hJI
    · have hdisj := (List.nodup_append.mp (hF.instIds_nodup hx)).2.2
      exact hdisj _ (List.mem_map_of_mem hI) _ hmem rfl
  · rw [F.block_updateBlock_ne _ hxb] at hmem
    exact hxb (F.eq_of_mem_instIds hF.ids hx hb hmem hIb)

theorem Function.Valid.erase (hF : F.Valid) (b : BlockId) (i : InstId) :
    (F.updateBlock b (BasicBlock.erase i)).Valid := by
  have hsub : ∀ x, ((F.updateBlock b (BasicBlock.erase i)).block x).insts.Sublist
      (F.block x).insts := by
    intro x
    by_cases hx : x = b
    · subst hx
      rw [F.block_updateBlock]
      exact List.filter_sublist
    · rw [F.block_updateBlock_ne _ hx]
  refine hF.of_phis rfl rfl (fun x _ => ?_) ?_ (fun x hx => (hF.pairwise hx).sublist (hsub x))
    fun x _ I hI hphi => ⟨I, (hsub x).subset hI, hphi, rfl⟩
  · by_cases hx : x = b
    · subst hx
      rw [Function.succs, F.block_updateBlock]
      rfl
    · rw [Function.succs, F.block_updateBlock_ne _ hx, Function.succs]
  · exact (F.instIds_erase_sublist b i).nodup hF.ids

theorem Function.OperandsBelow.erase (hF : F.OperandsBelow n) (b : BlockId) (i : InstId) :
    (F.updateBlock b (BasicBlock.erase i)).OperandsBelow n := by
  intro x hx j hj
  by_cases hxb : x = b
  · subst hxb
    rw [F.block_updateBlock] at hj
    rcases BasicBlock.mem_values.mp hj with ⟨J, hJ, hj⟩ | hj
    · exact hF x hx j (BasicBlock.mem_values.mpr (.inl ⟨J, (BasicBlock.mem_erase.mp hJ).1, hj⟩))
    · exact hF x hx j (BasicBlock.mem_values.mpr (.inr hj))
  · rw [F.block_updateBlock_ne _ hxb] at hj
    exact hF x hx j hj

theorem Function.OperandsBelow.replaceAllUsesWith {l : InstId} (hF : F.OperandsBelow n) (i : InstId)
    (hl : l < n) : (F.replaceAllUsesWith i (.inst l)).OperandsBelow n := by
  intro x hx j hj
  rw [Function.replaceAllUsesWith, Function.block_mapValues, BasicBlock.values_mapValues] at hj
  obtain ⟨v, hv, heq⟩ := List.mem_map.mp hj
  rw [Value.replace] at heq
  split at heq
  · cases heq
    exact hl
  · exact hF x hx j (heq ▸ hv)

end

end VariOCL.IR
