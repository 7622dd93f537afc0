import Mathlib.Data.List.Dedup
import VariOCL.BreakPhi.Keeps
import VariOCL.BreakPhi.Preserve

/-! The PHIs that `BreakPhi` leaves, and where they stand. -/

namespace VariOCL.IR.BreakPhi

/-- A well-formed function whose next new instruction is from `n` on and not named yet. -/
structure Ready (n : InstId) (F : Function) : Prop where
  valid : F.Valid
  below : F.OperandsBelow F.freshInst
  fresh : n ≤ F.freshInst

/-- `G` is `F` without the PHIs `erased` of `From`; apart from `From` and `To`, blocks keep which of
their old instructions use which. -/
structure Leaves (n : InstId) (From To : BlockId) (erased : List InstId) (F G : Function) :
    Prop where
  layout : G.layout = F.layout
  entry : G.entry = F.entry
  phis : ∀ b ∈ F.layout, ∀ i, i ∈ (G.block b).phiIds ↔
    i ∈ (F.block b).phiIds ∧ (b = From → i ∉ erased)
  keeps : ∀ b ∈ F.layout, b ≠ From → b ≠ To → ∀ BB : BasicBlock,
    BB.Keeps n (F.block b) → BB.Keeps n (G.block b)

section
variable {F G H : Function} {n i : InstId} {b From To : BlockId} {I PN : Instruction}
  {erased erased' : List InstId}

theorem Leaves.refl (F : Function) : Leaves n From To [] F F :=
  ⟨rfl, rfl, fun _ _ _ => by simp, fun _ _ _ _ _ h => h⟩

theorem Leaves.trans (h : Leaves n From To erased F G) (h' : Leaves n From To erased' G H) :
    Leaves n From To (erased ++ erased') F H where
  layout := h'.layout.trans h.layout
  entry := h'.entry.trans h.entry
  phis b hb i := by
    rw [h'.phis b (h.layout ▸ hb), h.phis b hb, List.mem_append]
    tauto
  keeps b hb hFrom hTo BB hBB := h'.keeps b (h.layout ▸ hb) hFrom hTo BB
    (h.keeps b hb hFrom hTo BB hBB)

theorem leaves_insert (h : F.Inserted G b I) (hphi : I.op.isPhi = false)
    (hnew : b = To ∨ n ≤ I.id ∧ F.OperandsBelow I.id) : Leaves n From To [] F G where
  layout := h.layout
  entry := h.entry
  phis x _ i := by
    have hmem : i ∈ (G.block x).phiIds ↔ i ∈ (F.block x).phiIds := by
      by_cases hx : x = b
      · subst hx
        simp only [BasicBlock.mem_phiIds, h.mem, or_and_right, exists_or, exists_eq_left, hphi,
          Bool.false_eq_true, false_and, false_or]
      · rw [h.other x hx]
    simpa using hmem
  keeps x hx _ hTo BB hBB := by
    by_cases hxb : x = b
    · subst hxb
      obtain ⟨hn, hbelow⟩ := hnew.resolve_left hTo
      exact hBB.insert h.termId h.term (fun _ => h.mem) hn fun hmem =>
        Nat.lt_irrefl _ (hbelow x hx _ hmem)
    · rwa [h.other x hxb]

theorem phiIds_mapValues (f : Value → Value) (BB : BasicBlock) :
    (BB.mapValues f).phiIds = BB.phiIds := by
  simp only [BasicBlock.phiIds, BasicBlock.insts_mapValues, List.filter_map, List.map_map]
  simp [Function.comp_def]

theorem mem_ids_of_mem_phiIds {BB : BasicBlock} (h : i ∈ BB.phiIds) :
    i ∈ BB.insts.map Instruction.id := by
  obtain ⟨I, hI, -, rfl⟩ := BasicBlock.mem_phiIds.mp h
  exact List.mem_map_of_mem hI

/-- An instruction of `From` is not one of another block. -/
theorem not_mem_ids (hF : F.Valid) (hb : b ∈ F.layout) {c : BlockId} (hc : c ∈ F.layout)
    (hbc : b ≠ c) (hi : i ∈ (F.block c).insts.map Instruction.id) :
    i ∉ (F.block b).insts.map Instruction.id := fun hi' =>
  hbc (F.eq_of_mem_instIds hF.ids hb hc (List.mem_append_left _ hi') (List.mem_append_left _ hi))

theorem leaves_replaceAllUsesWith (hF : F.Valid) (hFrom : From ∈ F.layout) (hTo : To ∈ F.layout)
    {q l : InstId} (hq : q ∈ (F.block From).insts.map Instruction.id)
    (hl : l ∈ (F.block To).insts.map Instruction.id) :
    Leaves n From To [] F (F.replaceAllUsesWith q (.inst l)) where
  layout := rfl
  entry := rfl
  phis b _ i := by
    rw [Function.replaceAllUsesWith, Function.block_mapValues, phiIds_mapValues]
    simp
  keeps b hb hbFrom hbTo BB hBB :=
    hBB.replace (not_mem_ids hF hb hFrom hbFrom hq) (not_mem_ids hF hb hTo hbTo hl)

theorem mem_phiIds_erase {BB : BasicBlock} {j : InstId} :
    j ∈ (BB.erase i).phiIds ↔ j ∈ BB.phiIds ∧ j ≠ i := by
  simp only [BasicBlock.mem_phiIds, BasicBlock.mem_erase]
  constructor
  · rintro ⟨J, ⟨hJ, hne⟩, hphi, rfl⟩
    exact ⟨⟨J, hJ, hphi, rfl⟩, hne⟩
  · rintro ⟨⟨J, hJ, hphi, rfl⟩, hne⟩
    exact ⟨J, ⟨hJ, hne⟩, hphi, rfl⟩

theorem leaves_erase (F : Function) (i : InstId) :
    Leaves n From To [i] F (F.updateBlock From (BasicBlock.erase i)) where
  layout := rfl
  entry := rfl
  phis b _ j := by
    by_cases hb : b = From
    · subst hb
      rw [F.block_updateBlock, mem_phiIds_erase]
      simp
    · rw [F.block_updateBlock_ne _ hb]
      simp [hb]
  keeps b _ hbFrom _ BB hBB := by rwa [F.block_updateBlock_ne _ hbFrom]

/-! ### One PHI -/

/-- A new instruction that is no PHI, at the front of the entry or the end of a block. -/
theorem Ready.insert (From To : BlockId) (h : Ready n F) (hins : F.Inserted G b I) (hG : G.Valid)
    (hb : b ∈ F.layout) (hid : I.id = F.freshInst) (hphi : I.op.isPhi = false)
    (hop : ∀ i, .inst i ∈ I.op.operands → i < F.freshInst) :
    Ready n G ∧ Leaves n From To [] F G ∧ F.freshInst < G.freshInst := by
  have hlt : F.freshInst < G.freshInst := hid ▸ hins.lt_freshInst hb
  refine ⟨⟨hG, ?_, Nat.le_trans h.fresh (Nat.le_of_lt hlt)⟩, ?_, hlt⟩
  · exact (hins.operandsBelow h.below hop).mono (Nat.le_of_lt hlt)
  · exact leaves_insert hins hphi (.inr ⟨hid ▸ h.fresh, hid ▸ h.below⟩)

theorem Ready.insertBeforeTerminator (From To : BlockId) (h : Ready n F) (hb : b ∈ F.layout)
    (hid : I.id = F.freshInst) (hphi : I.op.isPhi = false)
    (hop : ∀ i, .inst i ∈ I.op.operands → i < F.freshInst) :
    Ready n (F.updateBlock b (BasicBlock.insertBeforeTerminator I)) ∧
      Leaves n From To [] F (F.updateBlock b (BasicBlock.insertBeforeTerminator I)) ∧
      F.freshInst < (F.updateBlock b (BasicBlock.insertBeforeTerminator I)).freshInst :=
  h.insert From To (F.inserted_beforeTerminator b I) (h.valid.insertBeforeTerminator hb
    (fun hmem => Nat.lt_irrefl _ (hid ▸ F.lt_freshInst hmem)) hphi) hb hid hphi hop

theorem Ready.insertFront (From To : BlockId) (h : Ready n F) (hid : I.id = F.freshInst)
    (hphi : I.op.isPhi = false) (hop : ∀ i, .inst i ∈ I.op.operands → i < F.freshInst) :
    Ready n (F.updateBlock F.entry (BasicBlock.insertFront I)) ∧
      Leaves n From To [] F (F.updateBlock F.entry (BasicBlock.insertFront I)) ∧
      F.freshInst < (F.updateBlock F.entry (BasicBlock.insertFront I)).freshInst :=
  h.insert From To (F.inserted_front F.entry I) (h.valid.insertFront
    (fun hmem => Nat.lt_irrefl _ (hid ▸ F.lt_freshInst hmem)) hphi) F.entry_mem_layout hid hphi hop

theorem Ready.storeIncoming (From To : BlockId) {slot : InstId}
    {entries : List (Value × BlockId)} (h : Ready n F) (hslot : slot < F.freshInst)
    (hentries : ∀ e ∈ entries, e.2 ∈ F.layout)
    (hvalues : ∀ e ∈ entries, ∀ i, e.1 = .inst i → i < F.freshInst) :
    Ready n (entries.foldl (storeIncoming slot) F) ∧
      Leaves n From To [] F (entries.foldl (storeIncoming slot) F) ∧
      F.freshInst ≤ (entries.foldl (storeIncoming slot) F).freshInst := by
  induction entries generalizing F with
  | nil => exact ⟨h, .refl F, Nat.le_refl _⟩
  | cons e entries ih =>
    obtain ⟨he, hentries⟩ := List.forall_mem_cons.mp hentries
    obtain ⟨hv, hvalues⟩ := List.forall_mem_cons.mp hvalues
    obtain ⟨h₁, hleaves₁, hlt⟩ := h.insertBeforeTerminator From To
      (I := ⟨F.freshInst, .void, .store e.1 (.inst slot)⟩) he rfl rfl (by
        intro i hi
        simp only [Op.operands, List.mem_cons, List.not_mem_nil, or_false, Value.inst.injEq] at hi
        rcases hi with hi | rfl
        · exact hv i hi.symm
        · exact hslot)
    obtain ⟨h₂, hleaves₂, hle⟩ := ih h₁ (Nat.lt_trans hslot hlt) hentries fun e he i hi =>
      Nat.lt_trans (hvalues e he i hi) hlt
    exact ⟨h₂, hleaves₁.trans hleaves₂, Nat.le_trans (Nat.le_of_lt hlt) hle⟩

theorem op_of_isPhi (h : PN.op.isPhi) : PN.op = .phi PN.op.incoming := by
  obtain ⟨i, t, op⟩ := PN
  cases op <;> first | rfl | cases h

/-- The slot of a PHI, and the stores to it. -/
theorem Ready.slot (To : BlockId) (h : Ready n F) (hFrom : From ∈ F.layout)
    (hPN : PN ∈ (F.block From).insts) (hphi : PN.op.isPhi) {G : Function}
    (hG : G = PN.op.incoming.foldl (BreakPhi.storeIncoming F.freshInst)
      (F.updateBlock F.entry
        (BasicBlock.insertFront ⟨F.freshInst, .ptr, .alloca PN.ty (.constInt 32 1)⟩))) :
    Ready n G ∧ Leaves n From To [] F G ∧ F.freshInst < G.freshInst := by
  have hop := op_of_isPhi hphi
  have hentries : ∀ e ∈ PN.op.incoming, e.2 ∈ F.layout := fun e he => by
    refine h.valid.incoming From hFrom PN hPN e.2 ?_
    rw [hop]
    exact List.mem_map_of_mem he
  have hvalues : ∀ e ∈ PN.op.incoming, ∀ i, e.1 = .inst i → i < F.freshInst := by
    intro e he i hi
    refine h.below From hFrom i (BasicBlock.mem_values.mpr (.inl ⟨PN, hPN, ?_⟩))
    rw [hop, ← hi]
    exact List.mem_map_of_mem he
  obtain ⟨h₁, hleaves₁, hlt₁⟩ := h.insertFront From To
    (I := ⟨F.freshInst, .ptr, .alloca PN.ty (.constInt 32 1)⟩) rfl rfl (by simp [Op.operands])
  obtain ⟨h₂, hleaves₂, hle₂⟩ := h₁.storeIncoming From To hlt₁
    (fun e he => hleaves₁.layout ▸ hentries e he)
    fun e he i hi => Nat.lt_trans (hvalues e he i hi) hlt₁
  rw [hG]
  exact ⟨h₂, hleaves₁.trans hleaves₂, Nat.lt_of_lt_of_le hlt₁ hle₂⟩

theorem mem_insts_erase {J : Instruction} (hJ : J ∈ (F.block b).insts) (hne : J.id ≠ i)
    (c : BlockId) : J ∈ ((F.updateBlock c (BasicBlock.erase i)).block b).insts := by
  by_cases hb : b = c
  · subst hb
    rw [F.block_updateBlock]
    exact BasicBlock.mem_erase.mpr ⟨hJ, hne⟩
  · rwa [F.block_updateBlock_ne _ hb]

/-- The load in front of the terminator of `To`, for the PHI `i` of `From`. -/
theorem Ready.load (ty : Ty) (h : Ready n F) (hFrom : From ∈ F.layout) (hTo : To ∈ F.layout)
    {slot : InstId} (hslot : slot < F.freshInst) (hi : i ∈ (F.block From).phiIds) {G : Function}
    (hG : G = ((F.updateBlock To (BasicBlock.insertBeforeTerminator
      ⟨F.freshInst, ty, .load (.inst slot)⟩)).replaceAllUsesWith i
        (.inst F.freshInst)).updateBlock From (BasicBlock.erase i)) :
    Ready n G ∧ Leaves n From To [i] F G := by
  have hins := F.inserted_beforeTerminator To ⟨F.freshInst, ty, .load (.inst slot)⟩
  have hop : ∀ j, .inst j ∈ (Op.load (.inst slot)).operands → j < F.freshInst := by
    intro j hj
    simp only [Op.operands, List.mem_singleton, Value.inst.injEq] at hj
    exact hj ▸ hslot
  obtain ⟨h₁, hleaves₁, -⟩ := h.insertBeforeTerminator From To
    (I := ⟨F.freshInst, ty, .load (.inst slot)⟩) hTo rfl rfl hop
  have hbelow₁ := hins.operandsBelow h.below hop
  have hload : ⟨F.freshInst, ty, .load (.inst slot)⟩ ∈ ((F.updateBlock To
      (BasicBlock.insertBeforeTerminator ⟨F.freshInst, ty, .load (.inst slot)⟩)).block To).insts :=
    hins.mem.mpr (.inl rfl)
  have hi₁ := (hleaves₁.phis From hFrom i).mpr ⟨hi, by simp⟩
  generalize F.updateBlock To (BasicBlock.insertBeforeTerminator
    ⟨F.freshInst, ty, .load (.inst slot)⟩) = F₁ at h₁ hleaves₁ hbelow₁ hload hi₁ hG
  have hFrom₁ : From ∈ F₁.layout := hleaves₁.layout ▸ hFrom
  have hTo₁ : To ∈ F₁.layout := hleaves₁.layout ▸ hTo
  have hleaves₂ := leaves_replaceAllUsesWith (n := n) h₁.valid hFrom₁ hTo₁
    (mem_ids_of_mem_phiIds hi₁) (List.mem_map_of_mem hload)
  have hbelow : G.OperandsBelow (F.freshInst + 1) := by
    rw [hG]
    exact ((hbelow₁.mono (Nat.le_succ _)).replaceAllUsesWith i (Nat.lt_succ_self _)).erase From i
  have hlt : i < F.freshInst := F.lt_freshInst (F.mem_instIds.mpr
    ⟨From, hFrom, List.mem_append_left _ (mem_ids_of_mem_phiIds hi)⟩)
  have hfresh : F.freshInst < G.freshInst := by
    have hmem : Instruction.mapValues (Value.replace i (.inst F.freshInst))
        ⟨F.freshInst, ty, .load (.inst slot)⟩ ∈ (G.block To).insts := by
      rw [hG]
      exact mem_insts_erase (F := F₁.replaceAllUsesWith i _) (List.mem_map_of_mem hload)
        (Nat.ne_of_gt hlt) From
    have hToG : To ∈ G.layout := hG ▸ hTo₁
    exact G.lt_freshInst (G.instIds_of_mem hToG hmem)
  refine ⟨⟨?_, hbelow.mono hfresh, Nat.le_trans h.fresh (Nat.le_of_lt hfresh)⟩, ?_⟩
  · rw [hG]
    exact (h₁.valid.mapValues _).erase From i
  · rw [hG]
    exact (hleaves₁.trans hleaves₂).trans (leaves_erase _ i)

theorem Ready.breakPhi2Alloca2 (h : Ready n F) (hFrom : From ∈ F.layout) (hTo : To ∈ F.layout)
    (hPN : PN ∈ (F.block From).insts) (hphi : PN.op.isPhi) :
    Ready n (breakPhi2Alloca2 F From To PN) ∧
      Leaves n From To [PN.id] F (breakPhi2Alloca2 F From To PN) := by
  obtain ⟨h₁, hleaves₁, hlt⟩ := h.slot To hFrom hPN hphi rfl
  have hq := (hleaves₁.phis From hFrom PN.id).mpr
    ⟨BasicBlock.mem_phiIds.mpr ⟨PN, hPN, hphi, rfl⟩, by simp⟩
  obtain ⟨h₂, hleaves₂⟩ := h₁.load PN.ty (hleaves₁.layout ▸ hFrom) (hleaves₁.layout ▸ hTo)
    hlt hq rfl
  exact ⟨h₂, hleaves₁.trans hleaves₂⟩

/-! ### The instructions that are not in the slice -/

/-- An instruction that is no PHI moves from the one block to the other. -/
theorem Ready.move (h : Ready n F) (hFrom : From ∈ F.layout) (hTo : To ∈ F.layout)
    (hI : I ∈ (F.block From).insts) (hphi : I.op.isPhi = false) {G : Function}
    (hG : G = (F.updateBlock From (BasicBlock.erase I.id)).updateBlock To
      (BasicBlock.insertBeforeTerminator I)) :
    Ready n G ∧ Leaves n From To [I.id] F G := by
  have hins := (F.updateBlock From (BasicBlock.erase I.id)).inserted_beforeTerminator To I
  have hid := h.valid.not_mem_instIds_erase hFrom hI
  have hvalid : G.Valid := by
    rw [hG]
    exact (h.valid.erase From I.id).insertBeforeTerminator hTo hid hphi
  have hbelow : G.OperandsBelow F.freshInst := by
    rw [hG]
    exact hins.operandsBelow (h.below.erase From I.id) fun i hi =>
      h.below From hFrom i (BasicBlock.mem_values.mpr (.inl ⟨I, hI, hi⟩))
  have hfresh : F.freshInst ≤ G.freshInst := by
    rw [hG]
    refine Nat.succ_le_succ (foldr_max_mono fun i hi => ?_)
    exact (hins.perm_instIds h.valid.nodup hTo).mem_iff.mpr (F.instIds_subset_erase From I.id hi)
  refine ⟨⟨hvalid, hbelow.mono hfresh, Nat.le_trans h.fresh hfresh⟩, ?_⟩
  rw [hG]
  exact (leaves_erase F I.id).trans (leaves_insert hins hphi (.inl rfl))

theorem Ready.sink (h : Ready n F) (hFrom : From ∈ F.layout) (hTo : To ∈ F.layout) (i : InstId) :
    Ready n (sink From To F i) ∧ Leaves n From To [i] F (sink From To F i) := by
  rw [BreakPhi.sink]
  cases hfind : (F.block From).find i with
  | none =>
    refine ⟨h, rfl, rfl, fun b _ j => ?_, fun _ _ _ _ _ hBB => hBB⟩
    refine (and_iff_left_of_imp fun hj hb hmem => ?_).symm
    obtain ⟨J, hJ, -, rfl⟩ := BasicBlock.mem_phiIds.mp (hb ▸ hj)
    exact List.find?_eq_none.mp hfind J hJ (decide_eq_true (List.mem_singleton.mp hmem))
  | some Inst =>
    have hInst := List.mem_of_find?_eq_some hfind
    have hid : Inst.id = i := of_decide_eq_true (List.find?_some hfind :)
    subst hid
    dsimp only
    split
    · next hphi => exact h.breakPhi2Alloca2 hFrom hTo hInst hphi
    · next hphi => exact h.move hFrom hTo hInst (Bool.eq_false_iff.mpr hphi) rfl

theorem Ready.foldl_sink (h : Ready n F) (hFrom : From ∈ F.layout) (hTo : To ∈ F.layout)
    (InstToMove : List InstId) : Ready n (InstToMove.foldl (BreakPhi.sink From To) F) ∧
      Leaves n From To InstToMove F (InstToMove.foldl (BreakPhi.sink From To) F) := by
  induction InstToMove generalizing F with
  | nil => exact ⟨h, .refl F⟩
  | cons i InstToMove ih =>
    obtain ⟨h₁, hleaves₁⟩ := h.sink hFrom hTo i
    obtain ⟨h₂, hleaves₂⟩ := ih h₁ (hleaves₁.layout ▸ hFrom) (hleaves₁.layout ▸ hTo)
    exact ⟨h₂, hleaves₁.trans hleaves₂⟩

end

/-! ### One block that controls a barrier -/

section
variable {F G : Function} {n i : InstId} {b A : BlockId}

theorem phiIds_mapBlocks (BB : BasicBlock) (g : BlockId → BlockId) :
    ({ BB with insts := BB.insts.map (Instruction.mapBlocks g) } : BasicBlock).phiIds =
      BB.phiIds := by
  simp only [BasicBlock.phiIds, List.filter_map, List.map_map]
  simp [Function.comp_def]

theorem values_mapBlocks (BB : BasicBlock) (g : BlockId → BlockId) :
    ({ BB with insts := BB.insts.map (Instruction.mapBlocks g) } : BasicBlock).values =
      BB.values := by
  simp [BasicBlock.values, List.flatMap_map, Instruction.mapBlocks]

/-- A block split in front of its terminator. -/
theorem block_split_terminator (hG : G.Valid) (hA : A ∈ G.layout) :
    (G.splitBlock A (G.block A).termId).block A =
        ⟨(G.block A).insts.map (Instruction.mapBlocks (G.splitRename A A)), G.freshInst,
          .br G.freshBlock⟩ ∧
      (G.splitBlock A (G.block A).termId).block G.freshBlock =
        ⟨[], (G.block A).termId, (G.block A).term⟩ := by
  obtain ⟨hbefore, hafter⟩ := BasicBlock.split_at_termId (hG.instIds_nodup hA)
  rw [Function.block_splitBlock_old hA, Function.block_splitBlock_new, hbefore, hafter]
  exact ⟨rfl, rfl⟩

theorem Ready.splitBlock (h : Ready n G) (hA : A ∈ G.layout) :
    Ready n (G.splitBlock A (G.block A).termId) := by
  obtain ⟨hold, hnew⟩ := block_split_terminator h.valid hA
  have hfresh : G.freshInst ≤ (G.splitBlock A (G.block A).termId).freshInst :=
    Nat.succ_le_succ (foldr_max_mono fun i hi =>
      (Function.perm_instIds_splitBlock h.valid.nodup hA).mem_iff.mpr (List.mem_cons_of_mem _ hi))
  refine ⟨h.valid.splitBlock hA _, fun b hb i hi => Nat.lt_of_lt_of_le ?_ hfresh,
    Nat.le_trans h.fresh hfresh⟩
  rcases (Function.mem_layout_splitBlock h.valid.nodup hA).mp hb with rfl | hb
  · rw [hnew] at hi
    exact h.below A hA i (List.mem_append_right _ hi)
  · by_cases hbA : b = A
    · rw [hbA, hold] at hi
      refine h.below A hA i (List.mem_append_left _ ?_)
      simpa [BasicBlock.values, List.flatMap_map, Instruction.mapBlocks,
        Terminator.operands] using hi
    · rw [Function.block_splitBlock hb hbA, values_mapBlocks] at hi
      exact h.below b hb i hi

/-- What `splitAndSink` has done when it has come to the blocks `done`. -/
structure Sunk (F : Function) (done : List BlockId) (G : Function) : Prop where
  ready : Ready F.freshInst G
  layout : F.layout ⊆ G.layout
  keeps : ∀ b ∈ F.layout, b ∉ done → (F.block b).Keeps F.freshInst (G.block b)
  phis : ∀ b ∈ G.layout, ∀ i, i ∈ (G.block b).phiIds ↔
    b ∈ F.layout ∧ i ∈ (F.block b).phiIds ∧ (b ∈ done → (F.block b).InSlice i)

theorem Sunk.refl (hF : F.Valid) (hops : F.OperandsDefined) : Sunk F [] F where
  ready := ⟨hF, hops.below, Nat.le_refl _⟩
  layout := List.Subset.refl _
  keeps b hb _ := .refl fun i hi => F.lt_freshInst
    (F.mem_instIds.mpr ⟨b, hb, List.mem_append_left _ hi⟩)
  phis b hb i := by simp [hb]

/-- The slice that is computed on the split block is the one of the function before the pass. -/
theorem Sunk.splitAndSinkBlock_eq {done : List BlockId} (h : Sunk F done G) (hA : A ∈ F.layout)
    (hdone : A ∉ done) : ∃ S : List InstId, (∀ i, i ∈ S ↔ (F.block A).InSlice i) ∧
      splitAndSinkBlock G A = (((G.block A).insts.map Instruction.id).filter (· ∉ S)).foldl
        (sink A G.freshBlock) (G.splitBlock A (G.block A).termId) := by
  have hids : ∀ i ∈ (F.block A).instIds, i < F.freshInst := fun i hi =>
    F.lt_freshInst (F.mem_instIds.mpr ⟨A, hA, hi⟩)
  obtain ⟨hold, hnew⟩ := block_split_terminator h.ready.valid (h.layout hA)
  refine ⟨_, fun i => ?_, by
    rw [splitAndSinkBlock, splitAndSinkFromTo, hold, hnew, BasicBlock.ids_map_mapBlocks]⟩
  have hkeeps := (h.keeps A hA hdone).mapBlocks (G.splitRename A A)
  rw [← hkeeps.inSlice (hids _ (List.mem_append_right _ List.mem_cons_self))
    fun i hi => hids i (List.mem_append_left _ hi)]
  exact @mem_transitiveUsesByTI
    { G.block A with insts := (G.block A).insts.map (Instruction.mapBlocks (G.splitRename A A)) } i

theorem Sunk.splitAndSinkBlock {done : List BlockId} (h : Sunk F done G) (hA : A ∈ F.layout)
    (hdone : A ∉ done) : Sunk F (done ++ [A]) (BreakPhi.splitAndSinkBlock G A) := by
  have hAG := h.layout hA
  obtain ⟨hold, hnew⟩ := block_split_terminator h.ready.valid hAG
  have hlayout : ∀ b, b ∈ (G.splitBlock A (G.block A).termId).layout ↔
      b = G.freshBlock ∨ b ∈ G.layout := fun _ =>
    Function.mem_layout_splitBlock h.ready.valid.nodup hAG
  have hother : ∀ b ∈ G.layout, b ≠ A → (G.splitBlock A (G.block A).termId).block b =
      { G.block b with
        insts := (G.block b).insts.map (Instruction.mapBlocks (G.splitRename A b)) } :=
    fun b hb hbA => Function.block_splitBlock hb hbA
  obtain ⟨S, hS, heq⟩ := h.splitAndSinkBlock_eq hA hdone
  obtain ⟨hready, hleaves⟩ := (h.ready.splitBlock hAG).foldl_sink ((hlayout A).mpr (.inr hAG))
    ((hlayout G.freshBlock).mpr (.inl rfl)) (((G.block A).insts.map Instruction.id).filter (· ∉ S))
  rw [heq]
  refine ⟨hready, fun b hb => ?_, fun b hb hbdone => ?_, fun b hb i => ?_⟩
  · rw [hleaves.layout]
    exact (hlayout b).mpr (.inr (h.layout hb))
  · rw [List.mem_append, List.mem_singleton, not_or] at hbdone
    have hbG := h.layout hb
    refine hleaves.keeps b ((hlayout b).mpr (.inr hbG)) hbdone.2 (Function.ne_freshBlock hbG) _ ?_
    rw [hother b hbG hbdone.2]
    exact (h.keeps b hb hbdone.1).mapBlocks _
  · rw [hleaves.layout] at hb
    rw [hleaves.phis b hb]
    rcases (hlayout b).mp hb with rfl | hb
    · have hnot : G.freshBlock ∉ F.layout := fun hmem => G.freshBlock_not_mem (h.layout hmem)
      rw [hnew]
      simp [BasicBlock.phiIds, hnot]
    · by_cases hbA : b = A
      · subst hbA
        have hphis : i ∈ ((G.splitBlock b (G.block b).termId).block b).phiIds ↔
            i ∈ (G.block b).phiIds := by
          rw [hold, ← phiIds_mapBlocks (G.block b) (G.splitRename b b)]
          rfl
        have hslice : i ∈ (G.block b).phiIds →
            (i ∉ ((G.block b).insts.map Instruction.id).filter (· ∉ S) ↔
              (F.block b).InSlice i) := by
          intro hi
          rw [← hS, List.mem_filter, decide_eq_true_eq, not_and_not_right]
          exact imp_iff_right (mem_ids_of_mem_phiIds hi)
        rw [hphis, and_congr_right fun hi => imp_congr_right fun _ => hslice hi,
          h.phis b (h.layout hA)]
        simp [hA, hdone]
      · rw [hother b hb hbA, phiIds_mapBlocks, h.phis b hb]
        simp [hbA]

theorem Sunk.foldl {done ctrl : List BlockId} (h : Sunk F done G) (hctrl : ctrl ⊆ F.layout)
    (hn : (done ++ ctrl).Nodup) : Sunk F (done ++ ctrl) (ctrl.foldl BreakPhi.splitAndSinkBlock G) := by
  induction ctrl generalizing done G with
  | nil => rwa [List.append_nil]
  | cons A ctrl ih =>
    obtain ⟨hA, hctrl⟩ := List.cons_subset.mp hctrl
    have hdone : A ∉ done := fun hmem =>
      (List.nodup_append.mp hn).2.2 A hmem A List.mem_cons_self rfl
    rw [List.append_cons] at hn ⊢
    exact ih (h.splitAndSinkBlock hA hdone) hctrl hn

/-- `SplitAndSink` takes the PHIs outside the slices from the blocks that control a barrier. -/
theorem splitAndSink_sunk (hF : F.Valid) (hops : F.OperandsDefined) {ctrl : List BlockId}
    (hctrl : ctrl ⊆ F.layout) (hn : ctrl.Nodup) : Sunk F ctrl (splitAndSink F ctrl) :=
  (Sunk.refl hF hops).foldl hctrl hn

end

/-! ### The other PHIs -/

section
variable {F : Function} {U : List InstId} {slots : List Slot} {b : BlockId} {i : InstId}

theorem mem_collectUnbreakablePHIs {ctrl : List BlockId} :
    i ∈ collectUnbreakablePHIs F ctrl ↔
      ∃ b ∈ ctrl, i ∈ (F.block b).phiIds ∧ (F.block b).InSlice i := by
  simp only [collectUnbreakablePHIs, List.mem_flatMap, List.mem_filter, decide_eq_true_eq,
    mem_transitiveUsesByTI]
  rfl

theorem not_phi_of_mem_stores {I : Instruction} {f : Value → Value}
    (hI : I ∈ slots.flatMap fun s => s.storeInsts f b) : I.op.isPhi = false := by
  obtain ⟨s, -, hI⟩ := List.mem_flatMap.mp hI
  obtain ⟨p, -, rfl⟩ := List.mem_map.mp hI
  rfl

/-- An instruction that is not to be broken stays. -/
theorem brokenInst_of_mem (hmap : slots.map (fun s => (s.block, s.PN)) = breakable F U)
    {J : Instruction} (hU : J.id ∈ U) : brokenInst slots b J = J.mapValues (brokenValue slots) := by
  refine brokenInst_of_not_phi fun s hs _ hid => ?_
  exact (mem_breakable.mp (hmap ▸ List.mem_map_of_mem hs)).2.2 (hid ▸ hU)

/-- What is still a PHI was one, and was not to be broken. -/
theorem isPhi_brokenInst (hF : F.Valid) (hfresh : Fresh F slots)
    (hmap : slots.map (fun s => (s.block, s.PN)) = breakable F U) (hb : b ∈ F.layout)
    {J : Instruction} (hJ : J ∈ (F.block b).insts) (hphi : (brokenInst slots b J).op.isPhi) :
    J.op.isPhi ∧ J.id ∈ U := by
  by_cases hslot : ∃ s ∈ slots, s.block = b ∧ s.PN.id = J.id
  · obtain ⟨s, hs, rfl, hid⟩ := hslot
    obtain rfl := F.inst_eq_of_id hF.ids hb hb (hfresh.mem s hs).2 hJ hid
    rw [hfresh.brokenInst_phi hs] at hphi
    cases hphi
  · have hnone : ∀ s ∈ slots, s.block = b → s.PN.id ≠ J.id := fun s hs hsb hid =>
      hslot ⟨s, hs, hsb, hid⟩
    rw [brokenInst_of_not_phi hnone, Instruction.op_mapValues, Op.isPhi_mapValues] at hphi
    refine ⟨hphi, by_contra fun hU => ?_⟩
    have hbreak : (b, ⟨J.id, J.ty, J.op.incoming⟩) ∈ breakable F U := by
      refine mem_breakable.mpr ⟨hb, ?_, hU⟩
      rwa [PHINode.inst, ← op_of_isPhi hphi]
    obtain ⟨s, hs, heq⟩ := List.mem_map.mp (hmap ▸ hbreak)
    obtain ⟨rfl, hPN⟩ := Prod.mk.inj heq
    exact hnone s hs rfl (by rw [hPN])

theorem insts_broken_phi {I : Instruction} (hI : I ∈ ((broken slots F).block b).insts)
    (hphi : I.op.isPhi) : ∃ J ∈ (F.block b).insts, I = brokenInst slots b J := by
  rw [block_broken, brokenBlock] at hI
  rcases List.mem_append.mp hI with hI | hI
  · rcases List.mem_append.mp hI with hI | hI
    · split at hI
      · obtain ⟨s, -, rfl⟩ := List.mem_map.mp (List.mem_reverse.mp hI)
        cases hphi
      · cases hI
    · obtain ⟨J, hJ, rfl⟩ := List.mem_map.mp hI
      exact ⟨J, hJ, rfl⟩
  · exact absurd hphi (Bool.eq_false_iff.mp (not_phi_of_mem_stores hI))

theorem mem_phiIds_breakPhi2Alloca (hF : F.Valid) (hb : b ∈ F.layout) :
    i ∈ ((breakPhi2Alloca F U).block b).phiIds ↔ i ∈ (F.block b).phiIds ∧ i ∈ U := by
  obtain ⟨slots, hmap, hfresh, heq, -⟩ := breakPhi2Alloca_broken (U := U) hF
  rw [heq, BasicBlock.mem_phiIds, BasicBlock.mem_phiIds]
  constructor
  · rintro ⟨I, hI, hphi, rfl⟩
    obtain ⟨J, hJ, rfl⟩ := insts_broken_phi hI hphi
    obtain ⟨hJphi, hU⟩ := isPhi_brokenInst hF hfresh hmap hb hJ hphi
    rw [brokenInst_of_mem hmap hU]
    exact ⟨⟨J, hJ, hJphi, rfl⟩, hU⟩
  · rintro ⟨⟨J, hJ, hphi, rfl⟩, hU⟩
    refine ⟨J.mapValues (brokenValue slots), ?_, by simpa using hphi, rfl⟩
    rw [block_broken, brokenBlock, ← brokenInst_of_mem (b := b) hmap hU]
    exact List.mem_append_left _ (List.mem_append_right _ (List.mem_map_of_mem hJ))

/-- Where all or none of the PHIs of a block are broken, those that stay come first. -/
theorem pairwise_breakPhi2Alloca (hF : F.Valid) (hb : b ∈ F.layout)
    (hU : (∀ i ∈ (F.block b).phiIds, i ∈ U) ∨ ∀ i ∈ (F.block b).phiIds, i ∉ U) :
    ((breakPhi2Alloca F U).block b).insts.Pairwise fun I J => J.op.isPhi → I.op.isPhi := by
  by_cases hnone : ∀ I ∈ ((breakPhi2Alloca F U).block b).insts, I.op.isPhi = false
  · exact List.pairwise_of_forall_mem_list fun _ _ J hJ hphi =>
      absurd hphi (Bool.eq_false_iff.mp (hnone J hJ))
  · obtain ⟨I, hI, hphi⟩ : ∃ I ∈ ((breakPhi2Alloca F U).block b).insts, I.op.isPhi = true := by
      simpa using hnone
    have hmem := (mem_phiIds_breakPhi2Alloca hF hb).mp
      (BasicBlock.mem_phiIds.mpr ⟨I, hI, hphi, rfl⟩)
    have hall := hU.resolve_right fun hU => hU _ hmem.1 hmem.2
    have hentry : b ≠ F.entry := by
      rintro rfl
      obtain ⟨J, hJ, hJphi, -⟩ := BasicBlock.mem_phiIds.mp hmem.1
      exact absurd hJphi (Bool.eq_false_iff.mp (hF.entryPhis J hJ))
    obtain ⟨slots, hmap, hfresh, heq, -⟩ := breakPhi2Alloca_broken (U := U) hF
    have hkept : ∀ J ∈ (F.block b).insts, (brokenInst slots b J).op.isPhi ↔ J.op.isPhi := by
      intro J hJ
      refine ⟨fun hJphi => (isPhi_brokenInst hF hfresh hmap hb hJ hJphi).1, fun hJphi => ?_⟩
      rw [brokenInst_of_mem hmap (hall _ (BasicBlock.mem_phiIds.mpr ⟨J, hJ, hJphi, rfl⟩))]
      simpa using hJphi
    rw [heq, block_broken, brokenBlock, if_neg hentry, List.nil_append, List.pairwise_append,
      List.pairwise_map]
    refine ⟨?_, ?_, ?_⟩
    · refine (hF.pairwise hb).imp_of_mem fun {J K} hJ hK h hphi => ?_
      exact (hkept J hJ).mpr (h ((hkept K hK).mp hphi))
    · exact List.pairwise_of_forall_mem_list fun _ _ J hJ hphi =>
        absurd hphi (Bool.eq_false_iff.mp (not_phi_of_mem_stores hJ))
    · exact fun _ _ J hJ hphi => absurd hphi (Bool.eq_false_iff.mp (not_phi_of_mem_stores hJ))

end

/-! ### The pass -/

theorem mem_BBsCtrl {F : Function} {CD : ControlDep} {X : BlockId} :
    X ∈ BBsCtrl F CD ↔ X ∈ F.layout ∧ ∃ Y ∈ F.layout, hasBarrier (F.block Y) ∧
      CD.isIterativelyCtrlDep X Y ∧ X ≠ Y := by
  simp only [BBsCtrl, List.mem_flatMap, List.mem_filter, Bool.and_eq_true, bne_iff_ne,
    ImplicitCdgBarriers.mem_barSet]
  constructor
  · rintro ⟨Y, ⟨hY, hbar⟩, hX, hdep, hne⟩
    exact ⟨hX, Y, hY, hbar, hdep, hne⟩
  · rintro ⟨hX, Y, hY, hbar, hdep, hne⟩
    exact ⟨Y, ⟨hY, hbar⟩, hX, hdep, hne⟩

/-- `ctrl` is the set `BBsCtrl`, in the order of the addresses of its blocks. -/
theorem runOnFunction_phis {F : Function} (hF : F.Valid) (hops : F.OperandsDefined)
    (CD : ControlDep) {ctrl : List BlockId} (hctrl : ctrl.Perm (BBsCtrl F CD).dedup) :
    (∀ b i, b ∈ (runOnFunction F ctrl).layout ∧ i ∈ ((runOnFunction F ctrl).block b).phiIds ↔
      b ∈ F.layout ∧ i ∈ (F.block b).phiIds ∧ (F.block b).InSlice i ∧
        ∃ Y ∈ F.layout, hasBarrier (F.block Y) ∧ CD.isIterativelyCtrlDep b Y ∧ b ≠ Y) ∧
    ∀ b ∈ (runOnFunction F ctrl).layout,
      ((runOnFunction F ctrl).block b).insts.Pairwise fun I J => J.op.isPhi → I.op.isPhi := by
  have hmem : ∀ b, b ∈ ctrl ↔ b ∈ BBsCtrl F CD := fun b =>
    hctrl.mem_iff.trans List.mem_dedup
  have hsub : ctrl ⊆ F.layout := fun b hb => (mem_BBsCtrl.mp ((hmem b).mp hb)).1
  have hsunk := splitAndSink_sunk hF hops hsub (hctrl.nodup_iff.mpr (List.nodup_dedup _))
  have hlayout : (runOnFunction F ctrl).layout = (splitAndSink F ctrl).layout := by
    obtain ⟨slots, -, -, heq, -⟩ :=
      breakPhi2Alloca_broken (U := collectUnbreakablePHIs F ctrl) hsunk.ready.valid
    rw [runOnFunction, heq, layout_broken]
  have hU : ∀ b ∈ F.layout, ∀ i ∈ (F.block b).phiIds, i ∈ collectUnbreakablePHIs F ctrl ↔
      b ∈ ctrl ∧ (F.block b).InSlice i := by
    intro b hb i hi
    rw [mem_collectUnbreakablePHIs]
    constructor
    · rintro ⟨c, hc, hic, hslice⟩
      obtain rfl := F.eq_of_mem_instIds hF.ids hb (hsub hc)
        (List.mem_append_left _ (mem_ids_of_mem_phiIds hi))
        (List.mem_append_left _ (mem_ids_of_mem_phiIds hic))
      exact ⟨hc, hslice⟩
    · exact fun ⟨hctrl, hslice⟩ => ⟨b, hctrl, hi, hslice⟩
  rw [hlayout]
  refine ⟨fun b i => ?_, fun b hb => pairwise_breakPhi2Alloca hsunk.ready.valid hb ?_⟩
  · constructor
    · rintro ⟨hb, hi⟩
      obtain ⟨hi, hiU⟩ := (mem_phiIds_breakPhi2Alloca hsunk.ready.valid hb).mp hi
      obtain ⟨hbF, hi, -⟩ := (hsunk.phis b hb i).mp hi
      obtain ⟨hbctrl, hslice⟩ := (hU b hbF i hi).mp hiU
      exact ⟨hbF, hi, hslice, (mem_BBsCtrl.mp ((hmem b).mp hbctrl)).2⟩
    · rintro ⟨hbF, hi, hslice, hctrl⟩
      have hb := hsunk.layout hbF
      have hbctrl := (hmem b).mpr (mem_BBsCtrl.mpr ⟨hbF, hctrl⟩)
      exact ⟨hb, (mem_phiIds_breakPhi2Alloca hsunk.ready.valid hb).mpr
        ⟨(hsunk.phis b hb i).mpr ⟨hbF, hi, fun _ => hslice⟩,
          (hU b hbF i hi).mpr ⟨hbctrl, hslice⟩⟩⟩
  · by_cases hbctrl : b ∈ ctrl
    · refine .inl fun i hi => ?_
      obtain ⟨hbF, hi, hslice⟩ := (hsunk.phis b hb i).mp hi
      exact (hU b hbF i hi).mpr ⟨hbctrl, hslice hbctrl⟩
    · refine .inr fun i hi hiU => ?_
      obtain ⟨hbF, hi, -⟩ := (hsunk.phis b hb i).mp hi
      exact hbctrl ((hU b hbF i hi).mp hiU).1

/-- A loop around a barrier, with one PHI that its branch depends on. -/
def sumAtBarrier : Function where
  name := "sumAtBarrier"
  entry := 0
  rest := [1, 2, 3]
  block
    | 0 => ⟨[], 0, .br 1⟩
    | 1 => ⟨[⟨1, .int 32, .phi [(.constInt 32 0, 0), (.inst 6, 2)]⟩,
        ⟨2, .int 32, .phi [(.constInt 32 1, 0), (.inst 1, 2)]⟩,
        ⟨3, .int 1, .other "icmp" [.inst 1, .argument 0]⟩], 4, .condBr (.inst 3) 2 3⟩
    | 2 => ⟨[⟨5, .void, .call (some "barrier") [.constInt 32 0]⟩,
        ⟨6, .int 32, .other "add" [.inst 1, .inst 2]⟩], 7, .br 1⟩
    | _ => ⟨[], 8, .ret (some (.inst 2))⟩

theorem sumAtBarrier_valid : sumAtBarrier.Valid where
  nodup := by decide
  closed := by unfold Function.Closed; decide
  entryPreds := by decide
  ids := by decide
  phisFirst := by decide
  entryPhis := by decide
  incoming := by decide

theorem sumAtBarrier_operandsDefined : sumAtBarrier.OperandsDefined := by
  have hall : ∀ b ∈ sumAtBarrier.layout, ∀ v ∈ (sumAtBarrier.block b).values,
      v ∈ sumAtBarrier.instIds.map Value.inst ∨ v = .argument 0 ∨ v.isConstant := by decide
  intro b hb i hi
  rcases hall b hb _ hi with hi | hi | hi
  · simpa using hi
  · cases hi
  · cases hi

theorem runOnFunction_phis_sumAtBarrier :
    (∀ i, i ∈ ((runOnFunction sumAtBarrier [1]).block 1).phiIds ↔
      i ∈ (sumAtBarrier.block 1).phiIds ∧ (sumAtBarrier.block 1).InSlice i) ∧
    ((runOnFunction sumAtBarrier [1]).block 1).insts.Pairwise
      fun I J => J.op.isPhi → I.op.isPhi := by
  have hctrl : List.Perm [1]
      (BBsCtrl sumAtBarrier (ControlDep.runOnFunction {} sumAtBarrier)).dedup := by decide
  obtain ⟨hphis, hfirst⟩ :=
    runOnFunction_phis sumAtBarrier_valid sumAtBarrier_operandsDefined _ hctrl
  have hmem : 1 ∈ (runOnFunction sumAtBarrier [1]).layout := by decide
  refine ⟨fun i => ?_, hfirst 1 hmem⟩
  have hiter : (ControlDep.runOnFunction {} sumAtBarrier).isIterativelyCtrlDep 1 2 = true := by
    decide
  constructor
  · intro hi
    obtain ⟨-, hi, hslice, -⟩ := (hphis 1 i).mp ⟨hmem, hi⟩
    exact ⟨hi, hslice⟩
  · exact fun ⟨hi, hslice⟩ => ((hphis 1 i).mpr
      ⟨by decide, hi, hslice, 2, by decide, by decide, hiter, by decide⟩).2

end VariOCL.IR.BreakPhi
