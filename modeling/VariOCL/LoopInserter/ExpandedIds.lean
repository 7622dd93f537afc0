import VariOCL.LoopInserter.IdSteps

/-! A constant dimension of `get_global_id` becomes one of `get_local_id`. -/

namespace VariOCL.IR

section
variable {F : Function} {BB : BasicBlock} {b : BlockId} {i Before : InstId} {I : Instruction}
  {Is : List Instruction} {f : Value → Value}

theorem BasicBlock.find_mapValues :
    (BB.mapValues f).find i = (BB.find i).map (Instruction.mapValues f) := by
  rw [find, find, BasicBlock.insts_mapValues, List.find?_map]
  rfl

theorem BasicBlock.find_insertAllBefore (h : ∀ I ∈ Is, I.id ≠ i) :
    (BB.insertAllBefore Before Is).find i = BB.find i := by
  have hnone : Is.find? (·.id = i) = none :=
    List.find?_eq_none.mpr fun I hI => by simpa using h I hI
  conv => rhs; rw [find, ← List.takeWhile_append_dropWhile (p := (·.id ≠ Before)) (l := BB.insts)]
  rw [find, insertAllBefore, List.find?_append, List.find?_append, List.find?_append, hnone,
    Option.or_none]

theorem BasicBlock.instIds_subset_insertAllBefore :
    BB.instIds ⊆ (BB.insertAllBefore Before Is).instIds :=
  instIds_subset_of_perm rfl (BB.perm_insertAllBefore Before Is)

theorem Function.find_of_mem (hn : F.instIds.Nodup) (hb : b ∈ F.layout)
    (hI : I ∈ (F.block b).insts) : (F.block b).find I.id = some I := by
  cases hfind : (F.block b).find I.id with
  | none =>
    have hne := List.find?_eq_none.mp hfind I hI
    exact absurd (decide_eq_true rfl) hne
  | some J =>
    have hid : J.id = I.id := by simpa using List.find?_some hfind
    exact congrArg some (F.inst_eq_of_id hn hb hb (List.mem_of_find?_eq_some hfind) hI hid)

theorem Function.freshInst_mapValues : (F.mapValues f).freshInst = F.freshInst := by
  rw [freshInst, freshInst, Function.instIds_mapValues]

end

namespace LoopInserter

section
variable {F : Function} {s : Expansion} {p : BlockId × InstId} {done ps : List (BlockId × InstId)}
  {J : Instruction} {arg : Value} {b : BlockId} {i n : InstId} {k : Option (Nat × Nat)} {w d : Nat}
  {f : Value → Value}

theorem get_global_id_arg_eq_some : get_global_id_arg J = some arg ↔
    ∃ args, J.op = .call (some "get_global_id") (arg :: args) := by
  obtain ⟨i, t, op⟩ := J
  constructor
  · intro h
    rw [get_global_id_arg] at h
    split at h
    · rename_i hop
      split at h
      · cases h
        subst ‹_ = "get_global_id"›
        exact ⟨_, hop⟩
      · cases h
    · cases h
  · rintro ⟨args, rfl⟩
    simp [get_global_id_arg]

theorem constDim_global_iff : constDim "get_global_id" J = some (w, d) ↔
    get_global_id_arg J = some (.constInt w d) := by
  rw [constDim_eq_some, get_global_id_arg_eq_some]

theorem get_global_id_arg_mapValues (h : get_global_id_arg J = some arg) :
    get_global_id_arg (J.mapValues f) = some (f arg) := by
  obtain ⟨args, hop⟩ := get_global_id_arg_eq_some.mp h
  exact get_global_id_arg_eq_some.mpr ⟨args.map f, by rw [Instruction.op_mapValues, hop]; rfl⟩

/-- The mark of the call to `get_local_id` in the expansion of `J`. -/
def expansionMarks (n : InstId) (J : Instruction) : List (InstId × Option (Nat × Nat)) :=
  ((constDim "get_global_id" J).map fun k => (n + 2, some k)).toList

theorem filterMap_globalIdExpansion (h : get_global_id_arg J = some arg) :
    (globalIdExpansion n arg).filterMap mark = expansionMarks n J := by
  have hdim : constDim "get_local_id" (builtinCall (n + 2) "get_local_id" arg) =
      constDim "get_global_id" J := by
    refine Option.ext fun ⟨w, d⟩ => ?_
    rw [constDim_eq_some, constDim_global_iff, h]
    simp [builtinCall, and_comm]
  have hmark : mark (builtinCall (n + 2) "get_local_id" arg) =
      (constDim "get_global_id" J).map fun k => (n + 2, some k) := by
    rw [← hdim]
    rfl
  rw [expansionMarks, ← hmark]
  have hcall : ∀ (i : InstId) (name : String), name ≠ "get_local_id" →
      mark (builtinCall i name arg) = none := fun i name hname => mark_call rfl hname
  rw [globalIdExpansion, List.filterMap_cons_none (hcall _ _ (by decide)),
    List.filterMap_cons_none (hcall _ _ (by decide)), List.filterMap_cons]
  cases mark (builtinCall (n + 2) "get_local_id" arg) with
  | none => rw [List.filterMap_cons_none (hcall _ _ (by decide))]; rfl
  | some m =>
    dsimp only
    rw [List.filterMap_cons_none (hcall _ _ (by decide))]; rfl

theorem mem_globalIdCalls : p ∈ globalIdCalls F ↔ p.1 ∈ F.layout ∧
    ∃ J ∈ (F.block p.1).insts, (get_global_id_arg J).isSome ∧ J.id = p.2 := by
  obtain ⟨b, i⟩ := p
  simp only [globalIdCalls, List.mem_flatMap, List.mem_map, List.mem_filter, Prod.mk.injEq]
  constructor
  · rintro ⟨b', hb, J, ⟨hJ, harg⟩, rfl, rfl⟩
    exact ⟨hb, J, hJ, harg, rfl⟩
  · rintro ⟨hb, J, hJ, harg, rfl⟩
    exact ⟨b, hb, J, ⟨hJ, harg⟩, rfl, rfl⟩

/-! ### One call -/

/-- The function with the expansion of a call before it. -/
def expansionBefore (F : Function) (p : BlockId × InstId) (arg : Value) : Function :=
  F.updateBlock p.1 (BasicBlock.insertAllBefore p.2 (globalIdExpansion F.freshInst arg))

theorem mem_expansionMarks {m : InstId × Option (Nat × Nat)} (hm : m ∈ expansionMarks n J) :
    n ≤ m.1 ∧ m.2 = constDim "get_global_id" J ∧ m.2.isSome := by
  obtain ⟨k, hk, rfl⟩ := Option.map_eq_some_iff.mp (Option.mem_toList.mp hm)
  exact ⟨Nat.le_add_right _ _, hk.symm, rfl⟩

theorem nodup_expansionMarks : ((expansionMarks n J).map Prod.fst).Nodup := by
  rw [expansionMarks]
  cases constDim "get_global_id" J with
  | none => exact List.nodup_nil
  | some k => exact List.nodup_singleton _

theorem marks_expansionBefore (hl : F.layout.Nodup) (hb : p.1 ∈ F.layout)
    (h : get_global_id_arg J = some arg) : (marks (expansionBefore F p arg)).Perm
      ((expansionMarks F.freshInst J).map (fun m => (p.1, m)) ++ marks F) := by
  refine marks_updateBlock_perm hl hb ?_
  rw [← filterMap_globalIdExpansion h]
  exact perm_insertAllBefore ..

theorem find_expansionBefore (hi : i < F.freshInst) :
    ((expansionBefore F p arg).block b).find i = (F.block b).find i := by
  have hids : ∀ I ∈ globalIdExpansion F.freshInst arg, F.freshInst ≤ I.id := by
    simp [globalIdExpansion, builtinCall, binary]
  rw [expansionBefore]
  by_cases hbp : b = p.1
  · rw [hbp, Function.block_updateBlock]
    exact BasicBlock.find_insertAllBefore fun I hI =>
      Nat.ne_of_gt (Nat.lt_of_lt_of_le hi (hids I hI))
  · rw [Function.block_updateBlock_ne _ hbp]

theorem freshInst_expansionBefore_le : F.freshInst ≤ (expansionBefore F p arg).freshInst :=
  F.freshInst_updateBlock_le BasicBlock.instIds_subset_insertAllBefore

theorem expandCall_eq (h : ((s.F.block p.1).find p.2).bind get_global_id_arg = some arg) :
    ∃ replaced erased, expandCall s p =
      ⟨(expansionBefore s.F p arg).replaceAllUsesWith replaced (.inst (s.F.freshInst + 6)),
        s.CallsToErase ++ erased⟩ ∧
      ∀ i ∈ erased, i = p.2 ∨ ∃ b, (b, i, none) ∈ marks (expansionBefore s.F p arg) := by
  rw [expandCall, h]
  dsimp only
  split
  · rename_i TI hTI
    refine ⟨TI, [TI, p.2], rfl, ?_⟩
    simp only [List.mem_cons, List.not_mem_nil, or_false]
    rintro i (rfl | rfl)
    · exact .inr (mem_marks_of_mem_truncs hTI)
    · exact .inl rfl
  · exact ⟨p.2, [p.2], rfl, fun i hi => .inl (List.mem_singleton.mp hi)⟩

/-- The calls `done` of `F` are expanded, and no call is erased yet. -/
structure Expanded (F : Function) (done : List (BlockId × InstId)) (s : Expansion) : Prop where
  layout : s.F.layout = F.layout
  fresh : F.freshInst ≤ s.F.freshInst
  distinct : DistinctMarks s.F
  find : ∃ f, KeepsConst f ∧ ∀ b i, i < F.freshInst →
    (s.F.block b).find i = ((F.block b).find i).map (Instruction.mapValues f)
  old : ∀ m ∈ marks F, m ∈ marks s.F
  new : ∀ b i k, (b, i, k) ∈ marks s.F → (b, i, k) ∈ marks F ∨
    F.freshInst ≤ i ∧ k.isSome ∧ ∃ J ∈ (F.block b).insts, constDim "get_global_id" J = k
  made : ∀ p ∈ done, ∀ J ∈ (F.block p.1).insts, J.id = p.2 → ∀ k,
    constDim "get_global_id" J = some k → ∃ i, (p.1, i, some k) ∈ marks s.F
  erased : ∀ i ∈ s.CallsToErase, (∃ p ∈ globalIdCalls F, i = p.2) ∨ ∃ b, (b, i, none) ∈ marks F

theorem Expanded.start (hn : F.instIds.Nodup) : Expanded F [] ⟨F, []⟩ where
  layout := rfl
  fresh := Nat.le_refl _
  distinct := distinctMarks_of_nodup hn
  find := ⟨fun v => v, fun _ _ _ => Iff.rfl, fun b i _ => by
    have hid : Instruction.mapValues (fun v => v) = id := funext fun I => I.mapValues_id
    rw [hid, Option.map_id, id_eq]⟩
  old _ hm := hm
  new _ _ _ hm := .inl hm
  made _ hp := absurd hp List.not_mem_nil
  erased _ hi := absurd hi List.not_mem_nil

theorem Expanded.step (h : Expanded F done s) (hn : F.instIds.Nodup) (hl : F.layout.Nodup)
    (hp : p ∈ globalIdCalls F) : Expanded F (p :: done) (expandCall s p) := by
  obtain ⟨hb, J, hJ, hsome, hid⟩ := mem_globalIdCalls.mp hp
  obtain ⟨arg, harg⟩ := Option.isSome_iff_exists.mp hsome
  obtain ⟨f, hf, hfind⟩ := h.find
  have hlt : p.2 < F.freshInst := hid ▸ F.lt_freshInst (F.instIds_of_mem hb hJ)
  have hfound : (s.F.block p.1).find p.2 = some (J.mapValues f) := by
    rw [hfind p.1 p.2 hlt, ← hid, F.find_of_mem hn hb hJ, Option.map_some]
  have harg' : get_global_id_arg (J.mapValues f) = some (f arg) := get_global_id_arg_mapValues harg
  have hcall : ((s.F.block p.1).find p.2).bind get_global_id_arg = some (f arg) := by
    rw [hfound, Option.bind_some, harg']
  obtain ⟨replaced, erased, heq, herased⟩ := expandCall_eq hcall
  have hperm : (marks (expansionBefore s.F p (f arg))).Perm
      ((expansionMarks s.F.freshInst J).map (fun m => (p.1, m)) ++ marks s.F) := by
    have hexp := marks_expansionBefore (h.layout ▸ hl) (h.layout ▸ hb) harg'
    rwa [expansionMarks, hf.constDim_mapValues] at hexp
  have hrepl : marks ((expansionBefore s.F p (f arg)).replaceAllUsesWith replaced
      (.inst (s.F.freshInst + 6))) = marks (expansionBefore s.F p (f arg)) :=
    keepsConst_replace.marks_mapValues
  have hmem : ∀ m, m ∈ marks (expansionBefore s.F p (f arg)) ↔
      m ∈ (expansionMarks s.F.freshInst J).map (fun m => (p.1, m)) ∨ m ∈ marks s.F := fun m => by
    rw [hperm.mem_iff, List.mem_append]
  rw [heq]
  refine ⟨h.layout, ?_, ?_, ?_, fun m hm => ?_, fun b i k hm => ?_, fun q hq K hK hKid k hk => ?_,
    fun i hi => ?_⟩
  · dsimp only
    rw [Function.replaceAllUsesWith, Function.freshInst_mapValues]
    exact h.fresh.trans freshInst_expansionBefore_le
  · rw [DistinctMarks, hrepl]
    exact h.distinct.append hperm nodup_expansionMarks fun m hm => (mem_expansionMarks hm).1
  · refine ⟨fun v => Value.replace replaced (.inst (s.F.freshInst + 6)) (f v),
      fun v w c => (keepsConst_replace _ w c).trans (hf v w c), fun b i hi => ?_⟩
    rw [Function.replaceAllUsesWith, Function.block_mapValues, BasicBlock.find_mapValues,
      find_expansionBefore (Nat.lt_of_lt_of_le hi h.fresh), hfind b i hi, Option.map_map]
    congr 1
    exact funext fun I => Instruction.mapValues_mapValues
  · rw [hrepl]
    exact (hmem m).mpr (.inr (h.old m hm))
  · rw [hrepl] at hm
    rcases (hmem _).mp hm with hm | hm
    · obtain ⟨m, hm, hmeq⟩ := List.mem_map.mp hm
      cases hmeq
      obtain ⟨hge, hdim, hk⟩ := mem_expansionMarks hm
      exact .inr ⟨h.fresh.trans hge, hk, J, hJ, hdim.symm⟩
    · exact h.new b i k hm
  · rw [hrepl]
    rcases List.mem_cons.mp hq with rfl | hq
    · have hKJ : K = J := F.inst_eq_of_id hn hb hb hK hJ (hKid.trans hid.symm)
      refine ⟨s.F.freshInst + 2, (hmem _).mpr (.inl (List.mem_map_of_mem ?_))⟩
      rw [expansionMarks, ← hKJ, hk]
      exact List.mem_singleton_self _
    · obtain ⟨i, hi⟩ := h.made q hq K hK hKid k hk
      exact ⟨i, (hmem _).mpr (.inr hi)⟩
  · rcases List.mem_append.mp hi with hi | hi
    · exact h.erased i hi
    rcases herased i hi with rfl | ⟨b, hm⟩
    · exact .inl ⟨p, hp, rfl⟩
    · rcases (hmem _).mp hm with hm | hm
      · obtain ⟨m, hm, hmeq⟩ := List.mem_map.mp hm
        cases hmeq
        exact absurd (mem_expansionMarks hm).2.2 Bool.false_ne_true
      · exact .inr ⟨b, (h.new b i none hm).resolve_right fun hk => by cases hk.2.1⟩

theorem Expanded.foldl (h : Expanded F done s) (hn : F.instIds.Nodup) (hl : F.layout.Nodup)
    (hps : ∀ p ∈ ps, p ∈ globalIdCalls F) :
    Expanded F (ps.reverse ++ done) (ps.foldl expandCall s) := by
  induction ps generalizing done s with
  | nil => exact h
  | cons p ps ih =>
    obtain ⟨hp, hps⟩ := List.forall_mem_cons.mp hps
    rw [List.reverse_cons, List.append_assoc, List.singleton_append, List.foldl_cons]
    exact ih (h.step hn hl hp) hps

/-! ### All calls -/

/-- The expansion erases no call of `get_local_id`. -/
theorem Expanded.not_erased (h : Expanded F done s) (hn : F.instIds.Nodup) {k : Nat × Nat}
    (hm : (b, i, some k) ∈ marks s.F) : i ∉ s.CallsToErase := by
  intro hi
  rcases h.erased i hi with ⟨p, hp, rfl⟩ | ⟨b', hm'⟩
  · obtain ⟨hb, J, hJ, hsome, hid⟩ := mem_globalIdCalls.mp hp
    obtain ⟨arg, harg⟩ := Option.isSome_iff_exists.mp hsome
    rcases h.new _ _ _ hm with hm | ⟨hge, -⟩
    · obtain ⟨hb', I, hI, hmark⟩ := mem_marks.mp hm
      obtain ⟨hIid, hdim⟩ := mark_eq_some_iff.mp hmark
      have heq : I = J := F.inst_eq_of_id hn hb' hb hI hJ (hIid.trans hid.symm)
      obtain ⟨args, hop⟩ := constDim_eq_some.mp hdim
      obtain ⟨args', hop'⟩ := get_global_id_arg_eq_some.mp harg
      rw [heq, hop'] at hop
      exact absurd hop (by simp)
    · exact absurd (hid ▸ F.lt_freshInst (F.instIds_of_mem hb hJ)) (Nat.not_lt.mpr hge)
  · cases h.distinct.eq_of_id hm (h.old _ hm') rfl

theorem expanded_expandGetGlobalID (hn : F.instIds.Nodup) (hl : F.layout.Nodup) :
    Expanded F (globalIdCalls F).reverse ((globalIdCalls F).foldl expandCall ⟨F, []⟩) := by
  have h := (Expanded.start hn).foldl hn hl fun p hp => hp
  rwa [List.append_nil] at h

theorem distinctMarks_expandGetGlobalID (hn : F.instIds.Nodup) (hl : F.layout.Nodup) :
    DistinctMarks (expandGetGlobalID F) := by
  rw [DistinctMarks, expandGetGlobalID, marks_eraseInsts]
  exact (expanded_expandGetGlobalID hn hl).distinct.sublist (List.filter_sublist.map _)

theorem layout_expandGetGlobalID (hn : F.instIds.Nodup) (hl : F.layout.Nodup) :
    (expandGetGlobalID F).layout = F.layout := (expanded_expandGetGlobalID hn hl).layout

/-- The blocks keep their constant dimensions of `get_local_id`, and get those of
`get_global_id`. -/
theorem marks_expandGetGlobalID (hn : F.instIds.Nodup) (hl : F.layout.Nodup) {k : Nat × Nat} :
    (∃ i, (b, i, some k) ∈ marks (expandGetGlobalID F)) ↔ b ∈ F.layout ∧
      ∃ J ∈ (F.block b).insts, constDim "get_local_id" J = some k ∨
        constDim "get_global_id" J = some k := by
  have h := expanded_expandGetGlobalID hn hl
  have hmarks : ∀ i, (b, i, some k) ∈ marks (expandGetGlobalID F) ↔
      (b, i, some k) ∈ marks ((globalIdCalls F).foldl expandCall ⟨F, []⟩).F := fun i => by
    rw [expandGetGlobalID, marks_eraseInsts, List.mem_filter]
    exact and_iff_left_of_imp fun hm => by simpa using h.not_erased hn hm
  simp only [hmarks]
  constructor
  · rintro ⟨i, hm⟩
    refine ⟨h.layout ▸ (mem_marks.mp hm).1, ?_⟩
    rcases h.new _ _ _ hm with hm | ⟨-, -, J, hJ, hdim⟩
    · obtain ⟨-, J, hJ, hmark⟩ := mem_marks.mp hm
      exact ⟨J, hJ, .inl (mark_eq_some_iff.mp hmark).2⟩
    · exact ⟨J, hJ, .inr hdim⟩
  · rintro ⟨hb, J, hJ, hdim | hdim⟩
    · exact ⟨J.id, h.old _ (mem_marks.mpr ⟨hb, J, hJ, mark_eq_some_iff.mpr ⟨rfl, hdim⟩⟩)⟩
    · have hsome : (get_global_id_arg J).isSome :=
        Option.isSome_iff_exists.mpr ⟨_, constDim_global_iff.mp hdim⟩
      have hp : (b, J.id) ∈ globalIdCalls F := mem_globalIdCalls.mpr ⟨hb, J, hJ, hsome, rfl⟩
      exact h.made _ (List.mem_reverse.mpr hp) J hJ rfl k hdim

end

end LoopInserter

end VariOCL.IR
