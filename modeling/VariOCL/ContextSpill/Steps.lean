import VariOCL.ContextSpill.DemotePhi

/-! The steps of the pass: one value or PHI after the other is demoted. -/

namespace VariOCL.IR.ContextSpill

open Sim LoopInserter
open BreakPhi (SSA)

/-- The value `I` of block `b` gets a slot. -/
inductive RegStep (n : InstId) (F : Function) : InstId → List Instruction → Function → Prop
  | demote {b : BlockId} {I : Instruction} {ns : InstId → List InstId} {sp : Splice} {l : InstId}
      {G : Function} : b ∈ F.layout → I ∈ (F.block b).insts → I.id < n →
      Reloads (sizesFrom n) (n + 5) (insert3DAllocaFor (sizesFrom n) F.freshInst I) I.id F ns sp →
      F.freshInst < l → (∀ u ∈ F.useList I.id, F.Reloaded I.id u sp) →
      F.Spliced (sp.store b I (insert3DStoreFor (sizesFrom n) l (.inst I.id) F.freshInst)) G →
      RegStep n F I.id [insert3DAllocaFor (sizesFrom n) F.freshInst I] G

/-- The PHI `I` of block `b` gets a slot, or just goes. -/
inductive PhiStep (n : InstId) (F : Function) : InstId → List Instruction → Function → Prop
  | demote {b : BlockId} {I : Instruction} {ns : InstId → List (InstId × Value)} {l : InstId}
      {G : Function} : b ∈ F.layout → I ∈ (F.block b).insts → I.op.isPhi → I.id < n →
      Filled F I l ns → F.Spliced (phiSplice (sizesFrom n) (n + 5)
        (insert3DAllocaFor (sizesFrom n) F.freshInst I) I.id b l ns) G →
      PhiStep n F I.id [insert3DAllocaFor (sizesFrom n) F.freshInst I] G
  | erase {b : BlockId} {I : Instruction} : b ∈ F.layout → I ∈ (F.block b).insts → I.op.isPhi →
      I.id < n → ¬ F.Uses I.id → PhiStep n F I.id [] (F.updateBlock b (BasicBlock.erase I.id))

/-- The slots and the function, after each of the values was demoted. -/
inductive Steps (Step : Function → InstId → List Instruction → Function → Prop) :
    List Instruction → Function → List InstId → List Instruction → Function → Prop
  | nil (slots : List Instruction) (F : Function) : Steps Step slots F [] slots F
  | cons {slots new slots' : List Instruction} {F G H : Function} {i : InstId} {is : List InstId} :
      Step F i new G → Steps Step (slots ++ new) G is slots' H → Steps Step slots F (i :: is) slots' H

/-- What each step keeps. -/
theorem Steps.inv {Step : Function → InstId → List Instruction → Function → Prop}
    {C : List InstId → List Instruction → Function → Prop} {slots slots' : List Instruction}
    {F G : Function} {is : List InstId} (h : Steps Step slots F is slots' G)
    (hstep : ∀ i is slots F new G, C (i :: is) slots F → Step F i new G → C is (slots ++ new) G)
    (hC : C is slots F) : C [] slots' G := by
  induction h with
  | nil slots F => exact hC
  | cons hF _ ih => exact ih (hstep _ _ _ _ _ _ hC hF)

section
variable {F G : Function} {sp : Splice} {i : InstId}

theorem mem_phiInsts : i ∈ phiInsts F ↔
    ∃ b ∈ F.layout, ∃ I ∈ (F.block b).insts, I.op.isPhi ∧ I.id = i := by
  simp only [phiInsts, List.mem_reverse, List.mem_flatMap, List.mem_map, List.mem_filter]
  constructor
  · rintro ⟨b, hb, I, ⟨hI, hphi⟩, hid⟩
    exact ⟨b, hb, I, hI, hphi, hid⟩
  · rintro ⟨b, hb, I, hI, hphi, hid⟩
    exact ⟨b, hb, I, ⟨hI, hphi⟩, hid⟩

theorem mem_escapedInsts : i ∈ escapedInsts F ↔
    ∃ b ∈ F.layout, ∃ I ∈ (F.block b).insts, isValueEscaped F b I.id ∧ I.id = i := by
  simp only [escapedInsts, List.mem_reverse, List.mem_flatMap, List.mem_map, List.mem_filter]
  constructor
  · rintro ⟨b, hb, I, ⟨hI, hesc⟩, hid⟩
    exact ⟨b, hb, I, hI, hesc, hid⟩
  · rintro ⟨b, hb, I, hI, hesc, hid⟩
    exact ⟨b, hb, I, ⟨hI, hesc⟩, hid⟩

/-- Instructions picked from the blocks are different ones. -/
theorem nodup_picked {p : BlockId → Instruction → Bool} (hn : F.instIds.Nodup) :
    (F.layout.flatMap fun b => ((F.block b).insts.filter (p b)).map Instruction.id).reverse.Nodup := by
  refine List.nodup_reverse.mpr (List.Sublist.nodup (List.Sublist.flatMap_right _ fun b _ => ?_) hn)
  exact (List.filter_sublist.map Instruction.id).trans (List.sublist_append_left _ _)

theorem isValueEscaped_iff {b : BlockId} : isValueEscaped F b i ↔ ∃ c ∈ F.layout,
    (∃ I ∈ (F.block c).insts, .inst i ∈ I.op.operands ∧ (c ≠ b ∨ I.op.isPhi)) ∨
      .inst i ∈ (F.block c).term.operands ∧ c ≠ b := by
  simp [isValueEscaped]

theorem uses_of_isValueEscaped {b : BlockId} (h : isValueEscaped F b i) : F.Uses i := by
  obtain ⟨c, hc, h⟩ := isValueEscaped_iff.mp h
  refine ⟨c, hc, BasicBlock.mem_values.mpr (h.imp ?_ fun h => h.1)⟩
  rintro ⟨I, hI, hi, -⟩
  exact ⟨I, hI, hi⟩

/-- No PHI is put in. -/
theorem phiInsts_subset (hsp : F.Spliced sp G) (hF : F.Valid) : phiInsts G ⊆ phiInsts F := by
  intro i hi
  obtain ⟨b, hb, I, hI, hphi, rfl⟩ := mem_phiInsts.mp hi
  have hb := hsp.layout ▸ hb
  rw [hsp.block b hb] at hI
  rcases Splice.mem_block (hF.phisFirst b hb) hI with hI | ⟨J, hJ, -, rfl⟩
  · exact absurd ((hsp.new I hI).1.symm.trans hphi) Bool.false_ne_true
  · exact mem_phiInsts.mpr ⟨b, hb, J, hJ, Splice.isPhi_inst ▸ hphi, rfl⟩

/-- What goes is no PHI any more. -/
theorem not_mem_phiInsts (hsp : F.Spliced sp G) (hF : F.Valid) (hi : i ∈ sp.gone) : i ∉ phiInsts G := by
  intro hmem
  obtain ⟨b, hb, I, hI, hphi, rfl⟩ := mem_phiInsts.mp hmem
  have hb := hsp.layout ▸ hb
  rw [hsp.block b hb] at hI
  rcases Splice.mem_block (hF.phisFirst b hb) hI with hI | ⟨J, hJ, hgone, rfl⟩
  · exact absurd ((hsp.new I hI).1.symm.trans hphi) Bool.false_ne_true
  · exact hgone (Splice.isPhi_inst ▸ hphi) hi

/-- What is there stays, unless it goes. -/
theorem stays (hsp : F.Spliced sp G) {p : Instruction → Prop} (hp : ∀ I, p I → p (sp.inst I))
    (h : ∃ b ∈ F.layout, ∃ I ∈ (F.block b).insts, p I ∧ I.id = i) (hgone : i ∉ sp.gone) :
    ∃ b ∈ G.layout, ∃ I ∈ (G.block b).insts, p I ∧ I.id = i := by
  obtain ⟨b, hb, I, hI, hpI, rfl⟩ := h
  exact ⟨b, hsp.mem_layout hb, _, hsp.mem_of_mem hb hI hgone, hp I hpI, rfl⟩

end

/-! ### A value -/

section
variable {F G : Function} {k n i : InstId} {I J : Instruction} {slots new : List Instruction}
  {ns : InstId → List InstId} {sp : Splice} {b : BlockId}

/-- A PHI takes a loaded value where the load is. -/
theorem Reloads.defined (hR : Ready n slots F)
    (hns : Reloads (sizesFrom n) (n + 5) (insert3DAllocaFor (sizesFrom n) k I) I.id F ns sp)
    {Is : List Instruction} (hsp : F.Spliced (sp.store b I Is) G) {c : BlockId} (hc : c ∈ F.layout)
    (hJ : J ∈ (F.block c).insts) {p : Value × BlockId} (hp : p ∈ J.op.incoming) {i : InstId}
    (hi : (sp.store b I Is).use J.id (some p.2) p.1 = .inst i) :
    ∃ d ∈ F.layout, F.Dominates d p.2 ∧ i ∈ (G.block d).insts.map Instruction.id := by
  have hq : p.2 ∈ F.layout := hR.valid.incoming c hc J hJ _ (Op.snd_mem_incomingBlocks hp)
  have hphi := Op.isPhi_of_mem_incoming hp
  rw [Splice.use_store] at hi
  rcases hns.use J.id (some p.2) p.1 (.inr ⟨c, hc, J, hJ, rfl, hphi⟩) with heq | ⟨-, l, hl, heq⟩
  · obtain ⟨d, hd, hdom, hid⟩ := hR.ssa.defined c hc J hJ p hp i (heq.symm.trans hi)
    obtain ⟨K, hK, rfl⟩ := List.mem_map.mp hid
    exact ⟨d, hd, hdom, List.mem_map.mpr ⟨_, hsp.mem_of_mem hd hK
      ((Splice.gone_store.trans hns.gone) ▸ List.not_mem_nil), rfl⟩⟩
  · obtain rfl : l + 9 = i := Value.inst.inj (heq.symm.trans hi)
    refine ⟨p.2, hq, .refl, ?_⟩
    rw [hsp.block _ hq]
    refine List.mem_map.mpr
      ⟨⟨l + 9, elementType (insert3DAllocaFor (sizesFrom n) k I), .load (.inst (l + 8))⟩,
      Splice.mem_block_of_before (.inl rfl) ?_, rfl⟩
    rw [Splice.before_store, hns.before]
    exact List.mem_append_right _ (List.mem_flatMap.mpr
      ⟨l, hl, List.mem_append_right _ List.mem_cons_self⟩)

theorem RegStep.spliced (h : RegStep n F i new G) : ∃ sp, F.Spliced sp G ∧ sp.gone = [] ∧
    ∀ u q j, j ≠ i → F.ReadsAt u q → sp.use u q (.inst j) = .inst j := by
  cases h with
  | @demote b I ns sp l G _ _ _ hns _ _ hsp =>
    refine ⟨_, hsp, Splice.gone_store.trans hns.gone, fun u q j hj hq => ?_⟩
    rw [Splice.use_store]
    rcases hns.use u q (.inst j) hq with heq | ⟨heq, -⟩
    · exact heq
    · exact absurd (Value.inst.inj heq) hj

theorem RegStep.ready (h : RegStep n F i new G) (hR : Ready n slots F) : Ready n (slots ++ new) G := by
  cases h with
  | @demote b I ns sp l G _ hI hlow hns _ _ hsp =>
    obtain ⟨htop, haround, hpoint⟩ := hns.entry hR hI rfl (hR.headed.not_mem hlow)
    exact hR.spliced hsp htop haround hpoint
      (fun J hJ => ⟨F.freshInst, I, hR.le_freshInst, List.mem_singleton.mp hJ⟩)
      fun c hc J hJ _ p hp i hi => hns.defined hR hsp hc hJ hp hi

end

/-! ### A PHI -/

section
variable {F G : Function} {n i : InstId} {slots new : List Instruction}

theorem PhiStep.spliced (h : PhiStep n F i new G) (hF : F.Valid) :
    ∃ sp, F.Spliced sp G ∧ sp.gone = [i] := by
  cases h with
  | demote _ _ _ _ _ hsp => exact ⟨_, hsp, rfl⟩
  | erase hb hI hphi => exact ⟨_, (F.spliced_empty hF.ids).erase hF hb hI hphi, rfl⟩

theorem PhiStep.mem_phiInsts (h : PhiStep n F i new G) : i ∈ phiInsts F := by
  cases h with
  | demote hb hI hphi => exact ContextSpill.mem_phiInsts.mpr ⟨_, hb, _, hI, hphi, rfl⟩
  | erase hb hI hphi => exact ContextSpill.mem_phiInsts.mpr ⟨_, hb, _, hI, hphi, rfl⟩

/-- Nothing but the PHI goes. -/
theorem plain_erase : Splice.Plain { Splice.empty with gone := [i] } :=
  ⟨fun _ => rfl, fun _ => rfl, fun _ _ _ => rfl⟩

theorem PhiStep.ready (h : PhiStep n F i new G) (hR : Ready n slots F) : Ready n (slots ++ new) G := by
  cases h with
  | @demote b I ns l G hb hI hphi hlow hfill hsp =>
    obtain ⟨htop, haround, hpoint⟩ := hfill.entry hR rfl hI hphi hlow
    refine hR.spliced hsp htop haround hpoint
      (fun J hJ => ⟨F.freshInst, I, hR.le_freshInst, List.mem_singleton.mp hJ⟩)
      fun c hc J hJ _ p hp i hi => ?_
    have hi : Value.replace I.id (.inst (l + 9)) p.1 = .inst i := hi
    by_cases hpI : p.1 = .inst I.id
    · rw [hpI, Value.replace, if_pos rfl] at hi
      obtain rfl := Value.inst.inj hi
      obtain ⟨d, hd, hdom, hid⟩ := hR.ssa.defined c hc J hJ p hp _ hpI
      obtain rfl := F.eq_of_mem_instIds hR.valid.ids hd hb (List.mem_append_left _ hid)
        (List.mem_append_left _ (List.mem_map_of_mem hI))
      exact ⟨d, hd, hdom, mem_ids_load hsp hd⟩
    · rw [Value.replace, if_neg hpI] at hi
      obtain ⟨d, hd, hdom, hid⟩ := hR.ssa.defined c hc J hJ p hp i hi
      obtain ⟨K, hK, rfl⟩ := List.mem_map.mp hid
      exact ⟨d, hd, hdom, List.mem_map.mpr ⟨_, hsp.mem_of_mem hd hK fun hmem =>
        hpI (List.mem_singleton.mp hmem ▸ hi), rfl⟩⟩
  | @erase b I hb hI hphi _ hnone =>
    have hsp := (F.spliced_empty hR.valid.ids).erase hR.valid hb hI hphi
    refine hR.spliced hsp rfl (fun J _ => plain_erase.around) plain_erase.around
      (fun J hJ => absurd hJ List.not_mem_nil) fun c hc J hJ _ p hp i hi => ?_
    obtain ⟨d, hd, hdom, hid⟩ := hR.ssa.defined c hc J hJ p hp i hi
    obtain ⟨K, hK, rfl⟩ := List.mem_map.mp hid
    refine ⟨d, hd, hdom, List.mem_map.mpr ⟨_, hsp.mem_of_mem hd hK fun hmem => hnone ?_, rfl⟩⟩
    have hp : .inst I.id ∈ J.op.operands := List.mem_singleton.mp hmem ▸ hi ▸ Op.fst_mem_operands hp
    exact ⟨c, hc, BasicBlock.mem_values.mpr (.inl ⟨J, hJ, hp⟩)⟩

end

/-! ### The loops -/

section
variable {F : Function} {n : InstId} {b : BlockId} {I : Instruction} {slots : List Instruction}
  {users : Function → InstId → List InstId} {is : List InstId}
  (husers : ∀ H i u, u ∈ users H i ↔ u ∈ H.useList i) (hR : Ready n slots F)
include husers hR

theorem Ready.regStep (hb : b ∈ F.layout) (hI : I ∈ (F.block b).insts) (hlow : I.id < n)
    (huses : F.Uses I.id) :
    ∃ new, RegStep n F I.id new (DemoteRegToStack (sizesFrom n) (n + 5) users F I.id) := by
  have hne : users F I.id ≠ [] := by
    intro hnil
    obtain ⟨u, hu⟩ := Function.exists_mem_useList.mpr huses
    exact List.not_mem_nil (hnil ▸ (husers F I.id u).mpr hu)
  obtain ⟨ns, sp, l, hns, hl, hre, hsp⟩ :=
    spliced_demoteRegToStack (S := sizesFrom n) hR.valid hR.isSpot hb hI
    hne fun u hu => (husers F I.id u).mp hu
  exact ⟨_, .demote hb hI hlow hns hl (fun u hu => hre u ((husers F I.id u).mpr hu)) hsp⟩

theorem Ready.phiStep (hb : b ∈ F.layout) (hI : I ∈ (F.block b).insts) (hphi : I.op.isPhi)
    (hlow : I.id < n) :
    ∃ new, PhiStep n F I.id new (DemotePHIToStack (sizesFrom n) (n + 5) users F I.id) := by
  by_cases hne : users F I.id = []
  · have hnone : ¬ F.Uses I.id := by
      intro huses
      obtain ⟨u, hu⟩ := Function.exists_mem_useList.mpr huses
      exact List.not_mem_nil (hne ▸ (husers F I.id u).mpr hu)
    have hdemote : DemotePHIToStack (sizesFrom n) (n + 5) users F I.id =
        F.updateBlock b (BasicBlock.erase I.id) := by
      rw [DemotePHIToStack, F.blockOf_eq_some hR.valid.ids hb
        (List.mem_append_left _ (List.mem_map_of_mem hI))]
      dsimp only
      rw [Function.find_of_mem hR.valid.ids hb hI]
      dsimp only
      rw [hne]
      rfl
    exact ⟨[], hdemote ▸ .erase hb hI hphi hlow hnone⟩
  · obtain ⟨ns, l, hsp, hfill⟩ := spliced_demotePHIToStack (S := sizesFrom n) hR.valid hR.isSpot hb hI
      hphi hne (fun d => Nat.ne_of_gt (Nat.lt_add_right d hlow))
        (Nat.ne_of_gt (Nat.lt_add_right 4 hlow))
    exact ⟨_, .demote hb hI hphi hlow hfill hsp⟩

/-- The loop over the escaped values. -/
theorem Ready.regSteps (hn : is.Nodup) (his : ∀ i ∈ is, i < n ∧ F.Uses i ∧
      ∃ b ∈ F.layout, ∃ I ∈ (F.block b).insts, I.id = i) : ∃ slots',
    Steps (RegStep n) slots F is slots'
      (is.foldl (DemoteRegToStack (sizesFrom n) (n + 5) users) F) := by
  induction is generalizing F slots with
  | nil => exact ⟨slots, .nil slots F⟩
  | cons i is ih =>
    obtain ⟨hi, hnodup⟩ := List.nodup_cons.mp hn
    obtain ⟨⟨hlow, huses, b, hb, I, hI, rfl⟩, hrest⟩ := List.forall_mem_cons.mp his
    obtain ⟨new, hstep⟩ := hR.regStep husers hb hI hlow huses
    obtain ⟨sp, hsp, hgone, huse⟩ := hstep.spliced
    obtain ⟨slots', hsteps⟩ := ih (hstep.ready hR) hnodup fun j hj => by
      obtain ⟨hlow, huses, hmem⟩ := hrest j hj
      have hji : j ≠ I.id := fun h => hi (h ▸ hj)
      have hstays := stays (p := fun _ => True) hsp (fun _ _ => trivial) (by simpa using hmem)
        (hgone ▸ List.not_mem_nil)
      exact ⟨hlow, hsp.uses hgone (fun u q hq => huse u q j hji hq) huses, by simpa using hstays⟩
    exact ⟨slots', .cons hstep hsteps⟩

/-- The loop over the PHIs. -/
theorem Ready.phiSteps (hn : is.Nodup) (his : ∀ i ∈ is, i < n ∧
      ∃ b ∈ F.layout, ∃ I ∈ (F.block b).insts, I.op.isPhi ∧ I.id = i) : ∃ slots',
    Steps (PhiStep n) slots F is slots'
      (is.foldl (DemotePHIToStack (sizesFrom n) (n + 5) users) F) := by
  induction is generalizing F slots with
  | nil => exact ⟨slots, .nil slots F⟩
  | cons i is ih =>
    obtain ⟨hi, hnodup⟩ := List.nodup_cons.mp hn
    obtain ⟨⟨hlow, b, hb, I, hI, hphi, rfl⟩, hrest⟩ := List.forall_mem_cons.mp his
    obtain ⟨new, hstep⟩ := hR.phiStep husers hb hI hphi hlow
    obtain ⟨sp, hsp, hgone⟩ := hstep.spliced hR.valid
    obtain ⟨slots', hsteps⟩ := ih (hstep.ready hR) hnodup fun j hj => by
      obtain ⟨hlow, hmem⟩ := hrest j hj
      exact ⟨hlow, stays hsp (fun _ h => Splice.isPhi_inst.trans h) hmem fun h =>
        hi (List.mem_singleton.mp (hgone ▸ h) ▸ hj)⟩
    exact ⟨slots', .cons hstep hsteps⟩

end

/-! ### The pass -/

section
variable {F : Function}

/-- The entry with the sizes in front. -/
def withPrologue (F : Function) : Function :=
  F.updateBlock F.entry fun BB => { BB with insts := prologue F.freshInst ++ BB.insts }

theorem ids_prologue {n : InstId} :
    (prologue n).map Instruction.id = (List.range 6).map (n + ·) := rfl

theorem unused_prologue : F.Unused (prologue F.freshInst) where
  fresh I hI := by
    simp only [prologue, List.mem_cons, List.not_mem_nil, or_false] at hI
    rcases hI with rfl | rfl | rfl | rfl | rfl | rfl <;> simp [insertCallToGetX, builtinCall, binary]
  nodup := by
    rw [ids_prologue]
    exact List.nodup_range.map fun _ _ => Nat.add_left_cancel
  phi I hI := by
    simp only [prologue, List.mem_cons, List.not_mem_nil, or_false] at hI
    rcases hI with rfl | rfl | rfl | rfl | rfl | rfl <;> rfl

theorem spliced_withPrologue (hF : F.Valid) :
    F.Spliced (Splice.empty.addTop F.entry (prologue F.freshInst)) (withPrologue F) := by
  refine (F.spliced_empty hF.ids).insert hF rfl F.entry_mem_layout (f := fun BB =>
    { BB with insts := prologue F.freshInst ++ BB.insts })
      ⟨rfl, rfl, List.sublist_append_right _ _, .refl _⟩
    unused_prologue ?_ ?_ ?_
  · have hphis : Splice.empty.phis (F.block F.entry) = [] := by
      rw [Splice.phis, takeWhile_entry hF]
      rfl
    refine BasicBlock.eq_of_insts ?_ rfl rfl
    change prologue F.freshInst ++ (Splice.empty.phis (F.block F.entry) ++ ([] ++ _)) =
      Splice.empty.phis (F.block F.entry) ++ ((if F.entry = F.entry then _ else _) ++ _)
    rw [hphis, if_pos rfl]
    rfl
  · exact fun x _ hx => Splice.block_addTop_ne hx
  · rintro I (⟨c, hI⟩ | hI)
    · have hI : I ∈ if c = F.entry then prologue F.freshInst ++ [] else [] := hI
      split at hI
      · exact .inr (by rwa [List.append_nil] at hI)
      · cases hI
    · exact .inl (.inr hI)

theorem ready_withPrologue (hF : SSA F) : Ready F.freshInst [] (withPrologue F) where
  ssa := hF.spliced (spliced_withPrologue hF.valid) fun b hb I hI _ p hp i hi => by
    obtain ⟨d, hd, hdom, hid⟩ := hF.defined b hb I hI p hp i hi
    obtain ⟨K, hK, rfl⟩ := List.mem_map.mp hid
    exact ⟨d, hd, hdom, List.mem_map.mpr
      ⟨_, (spliced_withPrologue hF.valid).mem_of_mem hd hK List.not_mem_nil, rfl⟩⟩
  headed := by
    refine ⟨?_, fun I hI => absurd hI List.not_mem_nil⟩
    rw [List.append_nil, ← prologue_eq, withPrologue, Function.entry_updateBlock,
      F.block_updateBlock]
    exact List.prefix_append _ _

/-- An escaped value is one of `F`. -/
theorem lt_of_mem_escapedInsts {i : InstId} (hF : F.Valid) (hdef : F.OperandsDefined)
    (hi : i ∈ escapedInsts (withPrologue F)) : i < F.freshInst := by
  obtain ⟨b, hb, I, hI, hesc, rfl⟩ := mem_escapedInsts.mp hi
  obtain ⟨c, hc, hc'⟩ := isValueEscaped_iff.mp hesc
  by_cases hbe : b = F.entry
  · subst hbe
    have hce : c ≠ F.entry := by
      rintro rfl
      rcases hc' with ⟨J, hJ, -, hne | hphi⟩ | ⟨-, hne⟩
      · exact hne rfl
      · have hvalid := ((spliced_withPrologue hF).valid hF).entryPhis J hJ
        exact Bool.false_ne_true (hvalid.symm.trans hphi)
      · exact hne rfl
    have hblock : (withPrologue F).block c = F.block c := F.block_updateBlock_ne _ hce
    rw [hblock] at hc'
    refine F.lt_freshInst (hdef c hc _ (BasicBlock.mem_values.mpr (hc'.imp ?_ fun h => h.1)))
    rintro ⟨J, hJ, hread, -⟩
    exact ⟨J, hJ, hread⟩
  · have hblock : (withPrologue F).block b = F.block b := F.block_updateBlock_ne _ hbe
    rw [hblock] at hI
    exact F.lt_freshInst (F.instIds_of_mem hb hI)

/-- The steps of the pass. -/
theorem steps_of_runOnFunction {G : Function} {users : Function → InstId → List InstId} (hF : SSA F)
    (hdef : F.OperandsDefined) (husers : ∀ H i u, u ∈ users H i ↔ u ∈ H.useList i)
    (h : runOnFunction users F = .ok G) : ∃ slots₁ slots₂ F₁,
      Steps (RegStep F.freshInst) [] (withPrologue F) (escapedInsts (withPrologue F)) slots₁ F₁ ∧
      Steps (PhiStep F.freshInst) slots₁ F₁ (phiInsts F₁) slots₂ G := by
  have hG : G = (phiInsts ((escapedInsts (withPrologue F)).foldl
      (DemoteRegToStack (sizesFrom F.freshInst) (F.freshInst + 5) users) (withPrologue F))).foldl
      (DemotePHIToStack (sizesFrom F.freshInst) (F.freshInst + 5) users)
      ((escapedInsts (withPrologue F)).foldl
        (DemoteRegToStack (sizesFrom F.freshInst) (F.freshInst + 5) users) (withPrologue F)) := by
    rw [runOnFunction] at h
    split at h
    · cases h
    · split at h
      · cases h
      · exact (Except.ok.inj h).symm
  have hvalid := hF.valid
  have hsp := spliced_withPrologue hvalid
  have hready := ready_withPrologue hF
  obtain ⟨slots₁, hregs⟩ := hready.regSteps husers (nodup_picked hready.valid.ids) fun i hi => by
    obtain ⟨b, hb, I, hI, hesc, rfl⟩ := mem_escapedInsts.mp hi
    exact ⟨lt_of_mem_escapedInsts hvalid hdef hi, uses_of_isValueEscaped hesc, b, hb, I, hI, rfl⟩
  obtain ⟨hready₁, hphis₁⟩ := hregs.inv
    (C := fun _ slots H => Ready F.freshInst slots H ∧ phiInsts H ⊆ phiInsts F)
    (fun _ _ _ _ _ _ hH hstep => by
      obtain ⟨sp, hsp, -, -⟩ := hstep.spliced
      exact ⟨hstep.ready hH.1, List.Subset.trans (phiInsts_subset hsp hH.1.valid) hH.2⟩)
    ⟨hready, phiInsts_subset hsp hvalid⟩
  obtain ⟨slots₂, hphis⟩ := hready₁.phiSteps husers (nodup_picked hready₁.valid.ids) fun i hi => by
    obtain ⟨b, hb, I, hI, -, hid⟩ := mem_phiInsts.mp (hphis₁ hi)
    exact ⟨hid ▸ F.lt_freshInst (F.instIds_of_mem hb hI), mem_phiInsts.mp hi⟩
  exact ⟨slots₁, slots₂, _, hregs, hG ▸ hphis⟩

end

end VariOCL.IR.ContextSpill
