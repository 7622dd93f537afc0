import VariOCL.LoopInserter.RegionContext
import VariOCL.LoopInserter.ExpandedIds

/-! Functions with instructions put in and with the values of single users replaced. -/

namespace VariOCL.IR

/-- The users of an instruction, the terminators among them, once for each use. -/
def Function.useList (F : Function) (i : InstId) : List InstId :=
  F.layout.flatMap fun b =>
    (F.block b).insts.flatMap (fun I => (I.op.operands.filter (· = .inst i)).map fun _ => I.id) ++
      ((F.block b).term.operands.filter (· = .inst i)).map fun _ => (F.block b).termId

/-! ### Insertions and replacements -/

/-- `BB'` is `BB` with the instructions `Is` put in. -/
structure BasicBlock.Inserts (Is : List Instruction) (BB BB' : BasicBlock) : Prop where
  termId : BB'.termId = BB.termId
  term : BB'.term = BB.term
  insts : BB.insts.Sublist BB'.insts
  perm : BB'.insts.Perm (Is ++ BB.insts)

/-- `G` is `F` with instructions put in, where the user `u` reads its values through `f u`. -/
structure Function.Rewritten (f : InstId → Value → Value) (F G : Function) : Prop where
  entry : G.entry = F.entry
  layout : G.layout = F.layout
  succs : G.succs = F.succs
  termId : ∀ b ∈ F.layout, (G.block b).termId = (F.block b).termId
  term : ∀ b ∈ F.layout, (G.block b).term = (F.block b).term.mapValues (f (F.block b).termId)
  insts : ∀ b ∈ F.layout,
    ((F.block b).insts.map fun I => I.mapValues (f I.id)).Sublist (G.block b).insts
  ids : G.instIds.Nodup

/-- Blocks and instructions occur once, and PHIs name blocks of the function. -/
structure Function.Distinct (F : Function) : Prop where
  nodup : F.layout.Nodup
  ids : F.instIds.Nodup
  incoming : ∀ b ∈ F.layout, ∀ I ∈ (F.block b).insts, ∀ p ∈ I.op.incomingBlocks, p ∈ F.layout

/-- `G` is `F` with instructions put in that are no PHIs. -/
structure Function.Extended (F G : Function) : Prop where
  rewritten : F.Rewritten (fun _ v => v) G
  old : ∀ b ∈ F.layout, ∀ J ∈ (G.block b).insts, J ∈ (F.block b).insts ∨ J.op.isPhi = false

theorem Function.Valid.distinct {F : Function} (hF : F.Valid) : F.Distinct :=
  ⟨hF.nodup, hF.ids, hF.incoming⟩

section
variable {F G H : Function} {f g : InstId → Value → Value} {BB BB' : BasicBlock} {b : BlockId}
  {i u Before : InstId} {I J : Instruction} {Is : List Instruction}

theorem sublist_takeWhile_insert {α : Type*} (p : α → Bool) (xs ys : List α) :
    xs.Sublist (xs.takeWhile p ++ ys ++ xs.dropWhile p) := by
  conv => lhs; rw [← List.takeWhile_append_dropWhile (p := p) (l := xs)]
  exact (List.sublist_append_left ..).append (.refl _)

theorem BasicBlock.inserts_insertAllBefore (Before : InstId) (Is : List Instruction)
    (BB : BasicBlock) : BB.Inserts Is (BB.insertAllBefore Before Is) where
  termId := rfl
  term := rfl
  insts := sublist_takeWhile_insert ..
  perm := BB.perm_insertAllBefore Before Is

theorem BasicBlock.inserts_insertBeforeTerminator (I : Instruction) (BB : BasicBlock) :
    BB.Inserts [I] (BB.insertBeforeTerminator I) where
  termId := rfl
  term := rfl
  insts := List.sublist_append_left ..
  perm := List.perm_append_comm

theorem BasicBlock.inserts_insertAllAfter (i : InstId) (Is : List Instruction) (BB : BasicBlock) :
    BB.Inserts Is (BB.insertAllAfter i Is) := by
  have hsplit : BB.insts = BB.insts.takeWhile (·.id ≠ i) ++
      (BB.insts.dropWhile (·.id ≠ i)).take 1 ++ (BB.insts.dropWhile (·.id ≠ i)).tail := by
    conv => lhs; rw [← List.takeWhile_append_dropWhile (p := (·.id ≠ i)) (l := BB.insts)]
    rw [List.append_assoc, ← List.drop_one, List.take_append_drop]
  constructor
  · rfl
  · rfl
  · conv => lhs; rw [hsplit]
    simp only [insertAllAfter, List.append_assoc]
    exact (List.Sublist.refl _).append ((List.Sublist.refl _).append
      (List.append_assoc .. ▸ sublist_takeWhile_insert ..))
  · conv => rhs; rw [hsplit]
    simp only [insertAllAfter, List.append_assoc]
    refine .trans (((List.append_assoc .. ▸ perm_takeWhile_insert _ _ Is).append_left _).append_left
      _) ?_
    exact ((List.perm_append_comm_assoc ..).append_left _).trans (List.perm_append_comm_assoc ..)

theorem BasicBlock.Inserts.perm_instIds (h : BB.Inserts Is BB') :
    BB'.instIds.Perm (Is.map Instruction.id ++ BB.instIds) := by
  rw [instIds, instIds, h.termId, ← List.append_assoc, ← List.map_append]
  exact (h.perm.map _).append_right _

theorem BasicBlock.Inserts.instIds_sublist (h : BB.Inserts Is BB') :
    BB.instIds.Sublist BB'.instIds := by
  rw [BasicBlock.instIds, BasicBlock.instIds, h.termId]
  exact (h.insts.map _).append (.refl _)

/-- What is put in before an instruction or the terminator is above it. -/
theorem BasicBlock.sublist_insertAllBefore (hI : I ∈ Is) (hBefore : Before ∈ BB.instIds) :
    [I.id, Before].Sublist (BB.insertAllBefore Before Is).instIds := by
  have hBefore : Before ∈
      (BB.insts.dropWhile (·.id ≠ Before)).map Instruction.id ++ [BB.termId] := by
    rcases List.mem_append.mp hBefore with h | h
    · obtain ⟨J, hJ, hid⟩ := List.mem_map.mp h
      rw [← List.takeWhile_append_dropWhile (p := (·.id ≠ Before)) (l := BB.insts)] at hJ
      refine List.mem_append_left _ (List.mem_map.mpr ⟨J, ?_, hid⟩)
      refine (List.mem_append.mp hJ).resolve_left fun hJ => ?_
      have hne := List.mem_takeWhile_imp (p := fun I : Instruction => decide (I.id ≠ Before)) hJ
      exact of_decide_eq_true hne hid
    · exact List.mem_append_right _ h
  have hinsts : (BB.insertAllBefore Before Is).instIds =
      (BB.insts.takeWhile (·.id ≠ Before)).map Instruction.id ++ (Is.map Instruction.id ++
        ((BB.insts.dropWhile (·.id ≠ Before)).map Instruction.id ++ [BB.termId])) := by
    simp only [instIds, insertAllBefore, List.map_append, List.append_assoc]
  rw [hinsts]
  refine .trans ?_ (List.sublist_append_right ..)
  exact (List.singleton_sublist.mpr (List.mem_map_of_mem hI)).append
    (List.singleton_sublist.mpr hBefore)

theorem Function.blockOf_eq_some (hn : F.instIds.Nodup) (hb : b ∈ F.layout)
    (hu : u ∈ (F.block b).instIds) : F.blockOf u = some b := by
  cases h : F.blockOf u with
  | none => exact absurd (List.contains_iff_mem.mpr hu) (List.find?_eq_none.mp h b hb)
  | some c =>
    have hc := List.find?_some h
    exact congrArg some (F.eq_of_mem_instIds hn (List.mem_of_find?_eq_some h) hb
      (List.contains_iff_mem.mp hc) hu)

theorem Function.perm_instIds_insert (hn : F.layout.Nodup) (hb : b ∈ F.layout)
    {k : BasicBlock → BasicBlock} (h : (F.block b).Inserts Is (k (F.block b))) :
    (F.updateBlock b k).instIds.Perm (Is.map Instruction.id ++ F.instIds) := by
  refine perm_flatMap_of_eq_off _ hn hb (fun x _ hx => ?_) ?_
  · rw [block_updateBlock_ne _ hx]
  · rw [block_updateBlock]
    exact h.perm_instIds

theorem Function.nodup_instIds_insert (hn : F.layout.Nodup) (hids : F.instIds.Nodup)
    (hb : b ∈ F.layout) {k : BasicBlock → BasicBlock} (h : (F.block b).Inserts Is (k (F.block b)))
    (hfresh : ∀ I ∈ Is, F.freshInst ≤ I.id) (hnodup : (Is.map Instruction.id).Nodup) :
    (F.updateBlock b k).instIds.Nodup := by
  rw [(perm_instIds_insert hn hb h).nodup_iff]
  refine List.nodup_append.mpr ⟨hnodup, hids, fun i hi j hj hij => ?_⟩
  obtain ⟨I, hI, rfl⟩ := List.mem_map.mp hi
  subst hij
  exact absurd (F.lt_freshInst hj) (Nat.not_lt.mpr (hfresh I hI))

theorem Function.Rewritten.refl (hn : F.instIds.Nodup) : F.Rewritten (fun _ v => v) F where
  entry := rfl
  layout := rfl
  succs := rfl
  termId _ _ := rfl
  term _ _ := (Terminator.mapValues_eq_self fun _ _ => rfl).symm
  insts b _ := by
    have hid : (fun I : Instruction => I.mapValues fun v => v) = id :=
      funext fun I => I.mapValues_id
    rw [hid, List.map_id]
  ids := hn

theorem Function.Rewritten.instIds_sublist (h : F.Rewritten f G) (hb : b ∈ F.layout) :
    (F.block b).instIds.Sublist (G.block b).instIds := by
  have hids := (h.insts b hb).map Instruction.id
  rw [List.map_map] at hids
  rw [BasicBlock.instIds, BasicBlock.instIds, h.termId b hb]
  exact hids.append (.refl _)

theorem Function.Rewritten.instIds_subset (h : F.Rewritten f G) : F.instIds ⊆ G.instIds := by
  intro i hi
  obtain ⟨b, hb, hi⟩ := Function.mem_instIds.mp hi
  exact Function.mem_instIds.mpr ⟨b, h.layout ▸ hb, (h.instIds_sublist hb).subset hi⟩

theorem Function.Rewritten.freshInst_le (h : F.Rewritten f G) : F.freshInst ≤ G.freshInst :=
  Nat.succ_le_succ (foldr_max_mono h.instIds_subset)

theorem Function.Rewritten.mem (h : F.Rewritten f G) (hb : b ∈ F.layout)
    (hI : I ∈ (F.block b).insts) : I.mapValues (f I.id) ∈ (G.block b).insts :=
  (h.insts b hb).subset (List.mem_map_of_mem hI)

theorem Function.Rewritten.blockOf (h : F.Rewritten f G) (hb : b ∈ F.layout)
    (hu : u ∈ (F.block b).instIds) : G.blockOf u = some b :=
  blockOf_eq_some h.ids (h.layout ▸ hb) ((h.instIds_sublist hb).subset hu)

/-- Nothing is left to replace. -/
theorem Value.replace_replace {r : InstId} (h : r ≠ i) {w v : Value} :
    Value.replace i w (Value.replace i (.inst r) v) = Value.replace i (.inst r) v := by
  refine if_neg fun hv => ?_
  rw [Value.replace] at hv
  split at hv
  · exact h (Value.inst.inj hv)
  · exact ‹¬ _› hv

theorem Function.Rewritten.find (h : F.Rewritten f G) (hn : F.instIds.Nodup) (hb : b ∈ F.layout)
    (hu : u ∈ (F.block b).instIds) :
    (G.block b).find u = ((F.block b).find u).map (Instruction.mapValues (f u)) := by
  rcases List.mem_append.mp hu with hu | hu
  · obtain ⟨I, hI, rfl⟩ := List.mem_map.mp hu
    rw [Function.find_of_mem hn hb hI, Option.map_some,
      ← Function.find_of_mem h.ids (h.layout ▸ hb) (h.mem hb hI), Instruction.id_mapValues]
  · rw [List.mem_singleton] at hu
    have hnone : ∀ {H : Function}, H.instIds.Nodup → b ∈ H.layout → (H.block b).termId = u →
        (H.block b).find u = none := by
      intro H hn hb hterm
      refine List.find?_eq_none.mpr fun I hI hid => ?_
      have hnodup : (H.block b).instIds.Nodup := (List.nodup_flatMap.mp hn).1 b hb
      exact (List.nodup_append.mp hnodup).2.2 _ (List.mem_map_of_mem hI) _ List.mem_cons_self
        ((of_decide_eq_true hid).trans hterm.symm)
    rw [hnone hn hb hu.symm, hnone h.ids (h.layout ▸ hb) ((h.termId b hb).trans hu.symm),
      Option.map_none]

theorem Function.Rewritten.insert (h : F.Rewritten f G) (hn : F.layout.Nodup) (hb : b ∈ F.layout)
    {k : BasicBlock → BasicBlock} (hk : (G.block b).Inserts Is (k (G.block b)))
    (hfresh : ∀ I ∈ Is, G.freshInst ≤ I.id) (hnodup : (Is.map Instruction.id).Nodup) :
    F.Rewritten f (G.updateBlock b k) := by
  constructor
  · exact h.entry
  · exact h.layout
  · rw [← h.succs]
    funext x
    by_cases hx : x = b
    · subst hx
      rw [Function.succs, Function.block_updateBlock, hk.term, Function.succs]
    · rw [Function.succs, Function.block_updateBlock_ne _ hx, Function.succs]
  · intro x hx
    rw [← h.termId x hx]
    by_cases hxb : x = b
    · subst hxb
      rw [Function.block_updateBlock, hk.termId]
    · rw [Function.block_updateBlock_ne _ hxb]
  · intro x hx
    rw [← h.term x hx]
    by_cases hxb : x = b
    · subst hxb
      rw [Function.block_updateBlock, hk.term]
    · rw [Function.block_updateBlock_ne _ hxb]
  · intro x hx
    refine (h.insts x hx).trans ?_
    by_cases hxb : x = b
    · subst hxb
      rw [Function.block_updateBlock]
      exact hk.insts
    · rw [Function.block_updateBlock_ne _ hxb]
  · exact nodup_instIds_insert (h.layout ▸ hn) h.ids (h.layout ▸ hb) hk hfresh hnodup

theorem BasicBlock.instIds_replaceUsesIn (u : InstId) (k : Value → Value) (BB : BasicBlock) :
    (BB.replaceUsesIn u k).instIds = BB.instIds := by
  rw [BasicBlock.instIds, BasicBlock.replaceUsesIn, List.map_map, BasicBlock.instIds]
  congr 1
  refine List.map_congr_left fun I _ => ?_
  rw [Function.comp_apply]
  split <;> rfl

theorem Function.Rewritten.replace (h : F.Rewritten f G) (hn : F.instIds.Nodup) (hb : b ∈ F.layout)
    (hu : u ∈ (F.block b).instIds) (k : Value → Value) :
    F.Rewritten (fun w => if w = u then fun v => k (f u v) else f w)
      (G.updateBlock b (BasicBlock.replaceUsesIn u k)) := by
  have hother : ∀ x ∈ F.layout, x ≠ b → ∀ w ∈ (F.block x).instIds, w ≠ u := by
    rintro x hx hxb w hw rfl
    exact hxb (F.eq_of_mem_instIds hn hx hb hw hu)
  constructor
  · exact h.entry
  · exact h.layout
  · rw [← h.succs]
    funext x
    by_cases hx : x = b
    · subst hx
      rw [Function.succs, Function.block_updateBlock, Function.succs, BasicBlock.replaceUsesIn]
      split
      · exact Terminator.successors_mapValues k _
      · rfl
    · rw [Function.succs, Function.block_updateBlock_ne _ hx, Function.succs]
  · intro x hx
    rw [← h.termId x hx]
    by_cases hxb : x = b
    · subst hxb
      rw [Function.block_updateBlock, BasicBlock.replaceUsesIn]
    · rw [Function.block_updateBlock_ne _ hxb]
  · intro x hx
    by_cases hxb : x = b
    · subst hxb
      rw [Function.block_updateBlock, BasicBlock.replaceUsesIn, h.termId x hx, h.term x hx]
      split
      · rename_i hterm
        rw [Terminator.mapValues_mapValues, hterm]
      · rfl
    · rw [Function.block_updateBlock_ne _ hxb, h.term x hx,
        if_neg (hother x hx hxb _ (List.mem_append_right _ List.mem_cons_self))]
  · intro x hx
    by_cases hxb : x = b
    · subst hxb
      rw [Function.block_updateBlock, BasicBlock.replaceUsesIn]
      have hmap : ((F.block x).insts.map fun I =>
          I.mapValues (if I.id = u then fun v => k (f u v) else f I.id)) =
          ((F.block x).insts.map fun I => I.mapValues (f I.id)).map fun I =>
            if I.id = u then I.mapValues k else I := by
        rw [List.map_map]
        refine List.map_congr_left fun I _ => ?_
        rw [Function.comp_apply, Instruction.id_mapValues]
        split
        · rename_i hid
          rw [hid, Instruction.mapValues_mapValues]
        · rfl
      rw [hmap]
      exact (h.insts x hx).map _
    · rw [Function.block_updateBlock_ne _ hxb]
      have hmap : ((F.block x).insts.map fun I =>
          I.mapValues (if I.id = u then fun v => k (f u v) else f I.id)) =
          (F.block x).insts.map fun I => I.mapValues (f I.id) := List.map_congr_left fun I hI => by
        rw [if_neg (hother x hx hxb _ (List.mem_append_left _ (List.mem_map_of_mem hI)))]
      rw [hmap]
      exact h.insts x hx
  · have heq : (G.updateBlock b (BasicBlock.replaceUsesIn u k)).instIds = G.instIds := by
      refine List.flatMap_congr fun x _ => ?_
      by_cases hxb : x = b
      · subst hxb
        rw [Function.block_updateBlock, BasicBlock.instIds_replaceUsesIn]
      · rw [Function.block_updateBlock_ne _ hxb]
    exact heq ▸ h.ids

theorem Function.Extended.refl (hn : F.instIds.Nodup) : F.Extended F :=
  ⟨.refl hn, fun _ _ _ hJ => .inl hJ⟩

theorem Function.Extended.insert (h : F.Extended G) (hn : F.layout.Nodup) (hb : b ∈ F.layout)
    {k : BasicBlock → BasicBlock} (hk : (G.block b).Inserts Is (k (G.block b)))
    (hfresh : ∀ I ∈ Is, G.freshInst ≤ I.id) (hnodup : (Is.map Instruction.id).Nodup)
    (hphi : ∀ I ∈ Is, I.op.isPhi = false) : F.Extended (G.updateBlock b k) := by
  refine ⟨h.rewritten.insert hn hb hk hfresh hnodup, fun x hx J hJ => ?_⟩
  by_cases hxb : x = b
  · subst hxb
    rw [Function.block_updateBlock, hk.perm.mem_iff, List.mem_append] at hJ
    exact hJ.elim (fun hJ => .inr (hphi J hJ)) (h.old x hx J)
  · rw [Function.block_updateBlock_ne _ hxb] at hJ
    exact h.old x hx J hJ

theorem Function.Extended.mem (h : F.Extended G) (hb : b ∈ F.layout)
    (hJ : J ∈ (F.block b).insts) : J ∈ (G.block b).insts := by
  have := h.rewritten.mem hb hJ
  rwa [Instruction.mapValues_id] at this

theorem Function.Extended.term (h : F.Extended G) (hb : b ∈ F.layout) :
    (G.block b).term = (F.block b).term :=
  (h.rewritten.term b hb).trans (Terminator.mapValues_eq_self fun _ _ => rfl)

theorem Function.Extended.distinct (h : F.Extended G) (hF : F.Distinct) : G.Distinct := by
  refine ⟨h.rewritten.layout ▸ hF.nodup, h.rewritten.ids, fun b hb I hI p hp => ?_⟩
  rw [h.rewritten.layout] at hb ⊢
  rcases h.old b hb I hI with hI | hphi
  · exact hF.incoming b hb I hI p hp
  · obtain ⟨i, t, op⟩ := I
    cases op with
    | phi incoming => cases hphi
    | _ => cases hp

/-! ### How often a user is met -/

theorem Function.mem_instIds_of_useList (hu : u ∈ F.useList i) : u ∈ F.instIds := by
  obtain ⟨b, hb, hu⟩ := List.mem_flatMap.mp hu
  refine Function.mem_instIds.mpr ⟨b, hb, ?_⟩
  rcases List.mem_append.mp hu with hu | hu
  · obtain ⟨I, hI, hu⟩ := List.mem_flatMap.mp hu
    obtain ⟨-, -, rfl⟩ := List.mem_map.mp hu
    exact List.mem_append_left _ (List.mem_map_of_mem hI)
  · obtain ⟨-, -, rfl⟩ := List.mem_map.mp hu
    exact List.mem_append_right _ List.mem_cons_self

theorem Function.mem_useList (hb : b ∈ F.layout) (hJ : J ∈ (F.block b).insts)
    (hi : .inst i ∈ J.op.operands) : J.id ∈ F.useList i :=
  List.mem_flatMap.mpr ⟨b, hb, List.mem_append_left _ (List.mem_flatMap.mpr ⟨J, hJ,
    List.mem_map.mpr ⟨_, List.mem_filter.mpr ⟨hi, decide_eq_true rfl⟩, rfl⟩⟩)⟩

theorem Function.termId_mem_useList (hb : b ∈ F.layout)
    (hi : .inst i ∈ (F.block b).term.operands) : (F.block b).termId ∈ F.useList i :=
  List.mem_flatMap.mpr ⟨b, hb, List.mem_append_right _
    (List.mem_map.mpr ⟨_, List.mem_filter.mpr ⟨hi, decide_eq_true rfl⟩, rfl⟩)⟩

/-- An instruction occurs once for each of its operands that reads the value. -/
theorem Function.count_useList (hF : F.Distinct) (hb : b ∈ F.layout)
    (hJ : J ∈ (F.block b).insts) :
    (F.useList i).count J.id = (J.op.operands.filter (· = .inst i)).length := by
  have hid : J.id ∈ (F.block b).instIds := List.mem_append_left _ (List.mem_map_of_mem hJ)
  have hnodup : (F.block b).instIds.Nodup := (List.nodup_flatMap.mp hF.ids).1 b hb
  have hterm : (F.block b).termId ≠ J.id := fun h =>
    (List.nodup_append.mp hnodup).2.2 _ (List.mem_map_of_mem hJ) _ List.mem_cons_self h.symm
  rw [Function.useList, List.count_flatMap, List.sum_map_eq_nsmul_single b, List.count_eq_one_of_mem
    hF.nodup hb, one_nsmul, Function.comp_apply, List.count_append, List.count_flatMap,
    List.sum_map_eq_nsmul_single J, List.count_eq_one_of_mem _ hJ, one_nsmul, Function.comp_apply]
  · rw [List.map_const', List.count_replicate_self, List.map_const', List.count_replicate,
      if_neg (by simpa using hterm), Nat.add_zero]
  · exact (List.nodup_append.mp hnodup).1.of_map
  · intro I hIJ hI
    refine List.count_eq_zero.mpr fun h => ?_
    obtain ⟨-, -, hid⟩ := List.mem_map.mp h
    exact hIJ (List.inj_on_of_nodup_map (List.nodup_append.mp hnodup).1 hI hJ hid)
  · intro x hxb hx
    refine List.count_eq_zero.mpr fun h => ?_
    rcases List.mem_append.mp h with h | h
    · obtain ⟨I, hI, h⟩ := List.mem_flatMap.mp h
      obtain ⟨-, -, h⟩ := List.mem_map.mp h
      exact hxb (F.eq_of_mem_instIds hF.ids hx hb
        (h ▸ List.mem_append_left _ (List.mem_map_of_mem hI)) hid)
    · obtain ⟨-, -, h⟩ := List.mem_map.mp h
      exact hxb (F.eq_of_mem_instIds hF.ids hx hb
        (h ▸ List.mem_append_right _ List.mem_cons_self) hid)

end

end VariOCL.IR
