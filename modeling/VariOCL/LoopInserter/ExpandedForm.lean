import VariOCL.LoopInserter.ExpandedIds
import VariOCL.IR.Translated

/-! What `CondBarrier::expandGetGlobalID` makes of a function, instruction by instruction. -/

namespace VariOCL.IR

theorem Function.freshInst_le {F : Function} {n : InstId} (h : ∀ i ∈ F.instIds, i < n + 1) :
    F.freshInst ≤ n + 1 := by
  have hmax : ∀ is : List InstId, (∀ i ∈ is, i < n + 1) → is.foldr max 0 ≤ n := by
    intro is his
    induction is with
    | nil => exact Nat.zero_le _
    | cons i is ih =>
      obtain ⟨hi, his⟩ := List.forall_mem_cons.mp his
      exact max_le (Nat.le_of_lt_succ hi) (ih his)
  exact Nat.succ_le_succ (hmax _ h)

namespace LoopInserter

/-- The calls to `get_global_id`. -/
def globalIds (F : Function) : List InstId := (globalIdCalls F).map Prod.snd

/-- The first of the instructions made for a call. -/
def slotOf (F : Function) (c : InstId) : InstId := F.freshInst + 7 * (globalIds F).idxOf c

/-- The sums in the place of the global ids `cs`. -/
def toRepl (F : Function) (cs : List InstId) : Value → Value
  | .inst i =>
    match cs.find? (fun c => replacedBy F c = i) with
    | some c => .inst (slotOf F c + 6)
    | none => .inst i
  | v => v

/-- The instruction, and in front of one of `cs` what is made for it. -/
def expandedInst (F : Function) (cs : List InstId) (f : Value → Value) (I : Instruction) :
    List Instruction :=
  (if I.id ∈ cs then
    (get_global_id_arg I).elim [] fun arg => globalIdExpansion (slotOf F I.id) (f arg)
  else []) ++ [I.mapValues f]

/-- The calls `cs` of `F` are expanded. -/
structure ExpandedTo (F : Function) (cs : List InstId) (s : Expansion) : Prop where
  entry : s.F.entry = F.entry
  layout : s.F.layout = F.layout
  insts : ∀ b ∈ F.layout,
    (s.F.block b).insts = (F.block b).insts.flatMap (expandedInst F cs (toRepl F cs))
  termId : ∀ b ∈ F.layout, (s.F.block b).termId = (F.block b).termId
  term : ∀ b ∈ F.layout, (s.F.block b).term = (F.block b).term.mapValues (toRepl F cs)
  fresh : s.F.freshInst = F.freshInst + 7 * cs.length
  erased : s.CallsToErase = cs.flatMap fun c => (onlyTrunc F c).toList ++ [c]

section
variable {F : Function} {s : Expansion} {p : BlockId × InstId} {cs rest : List InstId}
  {I J : Instruction} {arg : Value} {b : BlockId} {c i n : InstId} {f : Value → Value} {v : Value}
  {Is : List Instruction}

theorem slotOf_ge : F.freshInst ≤ slotOf F c := Nat.le_add_right ..

theorem slotOf_append (hn : (globalIds F).Nodup) (h : globalIds F = cs ++ c :: rest) :
    slotOf F c = F.freshInst + 7 * cs.length := by
  have hnot : c ∉ cs := fun hc => (List.nodup_append.mp (h ▸ hn)).2.2 c hc c List.mem_cons_self rfl
  rw [slotOf, h, List.idxOf_append_of_notMem hnot, List.idxOf_cons_self, Nat.add_zero]

theorem ids_globalIdExpansion (hI : I ∈ globalIdExpansion n v) : n ≤ I.id ∧ I.id < n + 7 := by
  simp only [globalIdExpansion, List.mem_cons, List.not_mem_nil, or_false] at hI
  rcases hI with rfl | rfl | rfl | rfl | rfl | rfl | rfl <;> simp [builtinCall, binary]

theorem mem_globalIds : c ∈ globalIds F ↔ ∃ b ∈ F.layout, ∃ J ∈ (F.block b).insts,
    (get_global_id_arg J).isSome ∧ J.id = c := by
  simp only [globalIds, List.mem_map, Prod.exists]
  constructor
  · rintro ⟨b, i, hp, rfl⟩
    exact ⟨b, mem_globalIdCalls.mp hp⟩
  · rintro ⟨b, hb, hJ⟩
    exact ⟨b, c, mem_globalIdCalls.mpr ⟨hb, hJ⟩, rfl⟩

theorem nodup_globalIds (hn : F.instIds.Nodup) : (globalIds F).Nodup := by
  have hids : globalIds F = F.layout.flatMap fun b =>
      ((F.block b).insts.filter fun I => (get_global_id_arg I).isSome).map Instruction.id := by
    rw [globalIds, globalIdCalls, List.map_flatMap]
    refine List.flatMap_congr fun b _ => ?_
    rw [List.map_map]
    rfl
  rw [hids]
  exact hn.sublist (List.Sublist.flatMap_right _ fun b _ =>
    ((List.filter_sublist (l := (F.block b).insts)).map _).trans (List.sublist_append_left _ _))

/-- What a call is replaced by is an instruction of the function. -/
theorem replacedBy_lt (hc : c ∈ globalIds F) : replacedBy F c < F.freshInst := by
  rw [replacedBy]
  cases ht : onlyTrunc F c with
  | none =>
    obtain ⟨b, hb, J, hJ, -, rfl⟩ := mem_globalIds.mp hc
    exact F.lt_freshInst (F.instIds_of_mem hb hJ)
  | some t =>
    obtain ⟨b, hb, T, hT, -, rfl⟩ := onlyTrunc_eq_some ht
    exact F.lt_freshInst (F.instIds_of_mem hb hT)

/-- A call stands for itself, or a truncation does. -/
theorem replacedBy_ne (hn : F.instIds.Nodup) (hc : c ∈ globalIds F) (hne : i ≠ c) :
    replacedBy F i ≠ c := by
  rw [replacedBy]
  cases ht : onlyTrunc F i with
  | none => exact hne
  | some t =>
    rintro rfl
    obtain ⟨b, hb, T, hT, htrunc, hid⟩ := onlyTrunc_eq_some ht
    obtain ⟨d, hd, J, hJ, harg, hJid⟩ := mem_globalIds.mp hc
    rw [F.inst_eq_of_id hn hb hd hT hJ (hid.trans hJid.symm)] at htrunc
    obtain ⟨arg, harg⟩ := Option.isSome_iff_exists.mp harg
    obtain ⟨args, hop⟩ := get_global_id_arg_eq_some.mp harg
    rw [hop] at htrunc
    exact Bool.false_ne_true htrunc

theorem toRepl_eq_self (h : ∀ c ∈ cs, v ≠ .inst (replacedBy F c)) : toRepl F cs v = v := by
  cases v with
  | inst i =>
    have hnone : cs.find? (fun c => replacedBy F c = i) = none := by
      refine List.find?_eq_none.mpr fun c hc heq => h c hc ?_
      rw [of_decide_eq_true heq]
    simp only [toRepl, hnone]
  | _ => rfl

theorem toRepl_eq_inst (hc : c < F.freshInst) (h : toRepl F cs v = .inst c) : v = .inst c := by
  cases v with
  | inst i =>
    simp only [toRepl] at h
    split at h
    · have hge := slotOf_ge (F := F) (c := ‹InstId›)
      rw [← Value.inst.inj h] at hc
      exact absurd hc (Nat.not_lt.mpr (hge.trans (Nat.le_add_right _ _)))
    · exact h
  | _ => exact h

/-- One more call is replaced. -/
theorem replace_toRepl (hc : replacedBy F c < F.freshInst) :
    Value.replace (replacedBy F c) (.inst (slotOf F c + 6)) (toRepl F cs v) =
      toRepl F (cs ++ [c]) v := by
  cases v with
  | inst i =>
    simp only [toRepl, List.find?_append]
    cases hfind : cs.find? (fun c => replacedBy F c = i) with
    | some a =>
      refine if_neg fun heq => ?_
      have hge := slotOf_ge (F := F) (c := a)
      rw [← Value.inst.inj heq] at hc
      exact absurd hc (Nat.not_lt.mpr (hge.trans (Nat.le_add_right _ _)))
    | none =>
      rw [Option.none_or, List.find?_singleton]
      by_cases heq : replacedBy F c = i
      · simp [heq, Value.replace]
      · simp [heq, Value.replace, Ne.symm heq]
  | _ => rfl

theorem mapValues_globalIdExpansion {g : Value → Value} (hg : ∀ i, n ≤ i → g (.inst i) = .inst i) :
    (globalIdExpansion n v).map (Instruction.mapValues g) = globalIdExpansion n (g v) := by
  have hbin : ∀ k name a b, n ≤ a → n ≤ b →
      (binary k name a b).mapValues g = binary k name a b := by
    intro k name a b ha hb
    simp [binary, Instruction.mapValues, Op.mapValues, hg a ha, hg b hb]
  rw [globalIdExpansion, globalIdExpansion]
  simp only [List.map_cons, List.map_nil]
  rw [hbin _ _ _ _ (Nat.le_refl n) (Nat.le_add_right _ _),
    hbin _ _ _ _ (Nat.le_add_right _ _) (Nat.le_add_right _ _),
    hbin _ _ _ _ (Nat.le_add_right _ _) (Nat.le_add_right _ _)]
  rfl

theorem mapValues_expandedInst {g : Value → Value}
    (hg : ∀ i, F.freshInst ≤ i → g (.inst i) = .inst i) :
    (expandedInst F cs f I).map (Instruction.mapValues g) =
      expandedInst F cs (fun v => g (f v)) I := by
  rw [expandedInst, expandedInst, List.map_append, List.map_singleton,
    Instruction.mapValues_mapValues]
  congr 1
  split
  · cases get_global_id_arg I with
    | none => rfl
    | some arg => exact mapValues_globalIdExpansion fun i hi => hg i (slotOf_ge.trans hi)
  · rfl

theorem expandedInst_append (h : I.id ≠ c) :
    expandedInst F (cs ++ [c]) f I = expandedInst F cs f I := by
  simp [expandedInst, h]

theorem id_expandedInst (hJ : J ∈ expandedInst F cs f I) : J.id = I.id ∨ F.freshInst ≤ J.id := by
  rcases List.mem_append.mp hJ with hJ | hJ
  · split at hJ
    · cases harg : get_global_id_arg I with
      | none =>
        rw [harg] at hJ
        cases hJ
      | some arg =>
        rw [harg] at hJ
        exact .inr (slotOf_ge.trans (ids_globalIdExpansion hJ).1)
    · cases hJ
  · rw [List.mem_singleton.mp hJ]
    exact .inl rfl

theorem find?_flatMap_expandedInst (hi : i < F.freshInst) :
    (Is.flatMap (expandedInst F cs f)).find? (·.id = i) =
      (Is.find? (·.id = i)).map (Instruction.mapValues f) := by
  induction Is with
  | nil => rfl
  | cons I Is ih =>
    rw [List.flatMap_cons, List.find?_append, ih, List.find?_cons]
    have hnew : ∀ J ∈ (if I.id ∈ cs then (get_global_id_arg I).elim [] fun arg =>
        globalIdExpansion (slotOf F I.id) (f arg) else []), ¬ J.id = i := by
      intro J hJ heq
      rw [← heq] at hi
      split at hJ
      · cases harg : get_global_id_arg I with
        | none =>
          rw [harg] at hJ
          cases hJ
        | some arg =>
          rw [harg] at hJ
          exact absurd hi (Nat.not_lt.mpr (slotOf_ge.trans (ids_globalIdExpansion hJ).1))
      · cases hJ
    rw [expandedInst, List.find?_append, List.find?_eq_none.mpr (by simpa using hnew),
      Option.none_or, List.find?_singleton]
    by_cases hI : I.id = i
    · simp [hI]
    · simp [hI]

/-- The instructions made for a call are put in front of it. -/
theorem insertAllBefore_flatMap (hn : (Is.map Instruction.id).Nodup) (hI : I ∈ Is)
    (hlt : I.id < F.freshInst) (hcs : I.id ∉ cs) (harg : get_global_id_arg I = some arg) :
    (Is.flatMap (expandedInst F cs f)).takeWhile (·.id ≠ I.id) ++
        globalIdExpansion (slotOf F I.id) (f arg) ++
        (Is.flatMap (expandedInst F cs f)).dropWhile (·.id ≠ I.id) =
      Is.flatMap (expandedInst F (cs ++ [I.id]) f) := by
  obtain ⟨pre, post, rfl⟩ := List.append_of_mem hI
  rw [List.map_append, List.map_cons] at hn
  obtain ⟨-, hpost, hdisj⟩ := List.nodup_append.mp hn
  have hpreids : ∀ K ∈ pre, K.id ≠ I.id := fun K hK =>
    hdisj _ (List.mem_map_of_mem hK) _ List.mem_cons_self
  have hpostids : ∀ K ∈ post, K.id ≠ I.id := fun K hK heq =>
    (List.nodup_cons.mp hpost).1 (heq ▸ List.mem_map_of_mem hK)
  have hpre : ∀ J ∈ pre.flatMap (expandedInst F cs f), decide (J.id ≠ I.id) = true := by
    intro J hJ
    obtain ⟨K, hK, hJ⟩ := List.mem_flatMap.mp hJ
    refine decide_eq_true fun heq => ?_
    rcases id_expandedInst hJ with hid | hge
    · exact hpreids K hK (hid.symm.trans heq)
    · exact absurd (heq ▸ hlt) (Nat.not_lt.mpr hge)
  have hone : expandedInst F cs f I = [I.mapValues f] := by
    rw [expandedInst, if_neg hcs, List.nil_append]
  have hnew : expandedInst F (cs ++ [I.id]) f I =
      globalIdExpansion (slotOf F I.id) (f arg) ++ [I.mapValues f] := by
    rw [expandedInst, if_pos (List.mem_append_right _ List.mem_cons_self), harg, Option.elim_some]
  have hrest : ∀ Ks : List Instruction, (∀ K ∈ Ks, K.id ≠ I.id) →
      Ks.flatMap (expandedInst F (cs ++ [I.id]) f) = Ks.flatMap (expandedInst F cs f) :=
    fun Ks h => List.flatMap_congr fun K hK => expandedInst_append (h K hK)
  rw [List.flatMap_append, List.flatMap_cons, hone, List.takeWhile_append_of_pos hpre,
    List.dropWhile_append_of_pos hpre, List.flatMap_append, List.flatMap_cons, hnew,
    hrest pre hpreids, hrest post hpostids]
  simp

/-! ### The users of a call -/

theorem filter_map_eq {g : Value → Value} (hg : ∀ v, g v = .inst c ↔ v = .inst c)
    (vs : List Value) :
    (vs.map g).filter (· = .inst c) = (vs.filter (· = .inst c)).map g := by
  rw [List.filter_map]
  congr 1
  refine List.filter_congr fun v _ => ?_
  simp [hg]

theorem operands_globalIdExpansion (hI : I ∈ globalIdExpansion n v) (hc : .inst c ∈ I.op.operands) :
    v = .inst c ∧ I.op.isTrunc = false ∨ n ≤ c := by
  simp only [globalIdExpansion, List.mem_cons, List.not_mem_nil, or_false] at hI
  rcases hI with rfl | rfl | rfl | rfl | rfl | rfl | rfl
  iterate 4 exact .inl ⟨(List.mem_singleton.mp hc).symm, rfl⟩
  all_goals
    refine .inr ?_
    simp only [binary, Op.operands, List.mem_cons, Value.inst.injEq, List.not_mem_nil, or_false]
      at hc
    rcases hc with rfl | rfl <;> first | exact Nat.le_refl _ | exact Nat.le_add_right _ _

variable {G : Function}

theorem usersOf_expandedInst (hl : G.layout = F.layout) (hc : c < F.freshInst)
    (hf : ∀ v, f v = .inst c ↔ v = .inst c)
    (hinsts : ∀ b ∈ F.layout, (G.block b).insts = (F.block b).insts.flatMap (expandedInst F cs f))
    (hterm : ∀ b ∈ F.layout, (G.block b).term = (F.block b).term.mapValues f)
    (hargs : ∀ b ∈ F.layout, ∀ I ∈ (F.block b).insts, I.id ∈ cs →
      get_global_id_arg I ≠ some (.inst c)) :
    G.usersOf c = (F.usersOf c).map (Option.map (Instruction.mapValues f)) := by
  rw [Function.usersOf, Function.usersOf, hl, List.map_flatMap]
  refine List.flatMap_congr fun b hb => ?_
  rw [hinsts b hb, hterm b hb, List.map_append, Terminator.operands_mapValues, filter_map_eq hf,
    List.flatMap_assoc, List.map_flatMap, List.map_map, List.map_map]
  congr 1
  refine List.flatMap_congr fun I hI => ?_
  have hnone : ∀ J ∈ (if I.id ∈ cs then (get_global_id_arg I).elim [] fun arg =>
      globalIdExpansion (slotOf F I.id) (f arg) else []),
        ((J.op.operands.filter (· = .inst c)).map fun _ => some J) = [] := by
    intro J hJ
    rw [List.map_eq_nil_iff, List.filter_eq_nil_iff]
    intro v hv heq
    rw [of_decide_eq_true heq] at hv
    split at hJ
    · cases harg : get_global_id_arg I with
      | none =>
        rw [harg] at hJ
        cases hJ
      | some arg =>
        rw [harg] at hJ
        rcases operands_globalIdExpansion hJ hv with ⟨harg', -⟩ | hge
        · exact hargs b hb I hI ‹_› (harg.trans (congrArg some ((hf arg).mp harg')))
        · exact absurd hc (Nat.not_lt.mpr (slotOf_ge.trans hge))
    · cases hJ
  rw [expandedInst, List.flatMap_append, List.flatMap_eq_nil_iff.mpr hnone, List.nil_append,
    List.flatMap_singleton, Instruction.op_mapValues, Op.operands_mapValues, filter_map_eq hf,
    List.map_map, List.map_map]
  rfl

/-- The expansions read a call with a truncation as its only use no more than the function does. -/
theorem onlyTrunc_expandedInst (hl : G.layout = F.layout) (hc : c < F.freshInst)
    (hf : ∀ v, f v = .inst c ↔ v = .inst c)
    (hinsts : ∀ b ∈ F.layout, (G.block b).insts = (F.block b).insts.flatMap (expandedInst F cs f))
    (hterm : ∀ b ∈ F.layout, (G.block b).term = (F.block b).term.mapValues f) :
    onlyTrunc G c = onlyTrunc F c := by
  by_cases hread : ∃ b ∈ F.layout, ∃ I ∈ (F.block b).insts, I.id ∈ cs ∧
      get_global_id_arg I = some (.inst c)
  · obtain ⟨b, hb, I, hI, hcs, harg⟩ := hread
    obtain ⟨args, hop⟩ := get_global_id_arg_eq_some.mp harg
    have hnone : ∀ {H : Function} {J : Instruction}, some J ∈ H.usersOf c → J.op.isTrunc = false →
        onlyTrunc H c = none := by
      intro H J hJ htrunc
      cases ht : onlyTrunc H c with
      | none => rfl
      | some t =>
        obtain ⟨TI, husers, hTI, -⟩ := usersOf_of_onlyTrunc ht
        rw [husers, List.mem_singleton] at hJ
        rw [Option.some.inj hJ, hTI] at htrunc
        cases htrunc
    rw [hnone (mem_usersOf.mpr ⟨b, hb, hI, by rw [hop]; exact List.mem_cons_self⟩)
      (by rw [hop]; rfl)]
    refine hnone (J := I.mapValues f) (mem_usersOf.mpr ⟨b, hl ▸ hb, ?_, ?_⟩)
      (by rw [Instruction.op_mapValues, hop]; rfl)
    · rw [hinsts b hb]
      exact List.mem_flatMap.mpr ⟨I, hI, List.mem_append_right _ List.mem_cons_self⟩
    · rw [Instruction.op_mapValues, Op.operands_mapValues, hop]
      exact List.mem_map.mpr ⟨_, List.mem_cons_self, (hf _).mpr rfl⟩
  · rw [onlyTrunc, usersOf_expandedInst hl hc hf hinsts hterm fun b hb I hI hcs harg =>
      hread ⟨b, hb, I, hI, hcs, harg⟩, onlyTrunc]
    cases F.usersOf c with
    | nil => rfl
    | cons user rest =>
      cases rest with
      | cons _ _ => cases user <;> rfl
      | nil =>
        cases user with
        | none => rfl
        | some TI =>
          simp only [List.map_cons, List.map_nil, Option.map_some, Instruction.op_mapValues,
            isTrunc_mapValues, Instruction.id_mapValues]

/-! ### All calls -/

theorem freshInst_expansionBefore (hb : p.1 ∈ F.layout) :
    (expansionBefore F p arg).freshInst = F.freshInst + 7 := by
  have hmem : ∀ i, i ∈ (expansionBefore F p arg).instIds →
      i ∈ F.instIds ∨ ∃ I ∈ globalIdExpansion F.freshInst arg, I.id = i := by
    intro i hi
    obtain ⟨b, hb, hi⟩ := List.mem_flatMap.mp hi
    by_cases hbp : b = p.1
    · subst hbp
      rw [expansionBefore, Function.block_updateBlock] at hi
      rcases List.mem_append.mp hi with hi | hi
      · obtain ⟨I, hI, rfl⟩ := List.mem_map.mp hi
        rcases List.mem_append.mp
          ((BasicBlock.perm_insertAllBefore p.2 _ (F.block p.1)).mem_iff.mp hI) with hI | hI
        · exact .inr ⟨I, hI, rfl⟩
        · exact .inl (F.instIds_of_mem hb hI)
      · exact .inl (List.mem_flatMap.mpr ⟨_, hb, List.mem_append_right _ hi⟩)
    · rw [expansionBefore, Function.block_updateBlock_ne _ hbp] at hi
      exact .inl (List.mem_flatMap.mpr ⟨b, hb, hi⟩)
  refine le_antisymm (Function.freshInst_le fun i hi => ?_) (Function.lt_freshInst ?_)
  · rcases hmem i hi with hi | ⟨I, hI, rfl⟩
    · exact (F.lt_freshInst hi).trans_le (Nat.le_add_right _ 7)
    · exact (ids_globalIdExpansion hI).2
  · refine List.mem_flatMap.mpr ⟨p.1, hb, List.mem_append_left _ ?_⟩
    rw [expansionBefore, Function.block_updateBlock]
    refine List.mem_map.mpr ⟨binary (F.freshInst + 6) "add" (F.freshInst + 5) (F.freshInst + 3), ?_,
      rfl⟩
    refine (BasicBlock.perm_insertAllBefore p.2 _ (F.block p.1)).mem_iff.mpr ?_
    exact List.mem_append_left _ (by simp [globalIdExpansion])

theorem ExpandedTo.start : ExpandedTo F [] ⟨F, []⟩ where
  entry := rfl
  layout := rfl
  insts b _ := by
    have hself : toRepl F [] = fun v => v :=
      funext fun v => toRepl_eq_self fun _ hc => absurd hc List.not_mem_nil
    have hone : ∀ I, expandedInst F [] (toRepl F []) I = [I] := fun I => by
      rw [expandedInst, if_neg List.not_mem_nil, List.nil_append, hself, Instruction.mapValues_id]
    rw [List.flatMap_congr fun I _ => hone I, List.flatMap_singleton']
  termId _ _ := rfl
  term b _ := (Terminator.mapValues_eq_self fun v _ => toRepl_eq_self fun _ hc =>
    absurd hc List.not_mem_nil).symm
  fresh := rfl
  erased := rfl

theorem ExpandedTo.step (h : ExpandedTo F cs s) (hn : F.instIds.Nodup) (hp : p ∈ globalIdCalls F)
    (hcs : globalIds F = cs ++ p.2 :: rest) : ExpandedTo F (cs ++ [p.2]) (expandCall s p) := by
  obtain ⟨hb, J, hJ, hsome, hid⟩ := mem_globalIdCalls.mp hp
  obtain ⟨arg, harg⟩ := Option.isSome_iff_exists.mp hsome
  have hmem : p.2 ∈ globalIds F := mem_globalIds.mpr ⟨p.1, hb, J, hJ, hsome, hid⟩
  have hnodup := nodup_globalIds hn
  have hnot : p.2 ∉ cs := fun hc =>
    (List.nodup_append.mp (hcs ▸ hnodup)).2.2 _ hc _ List.mem_cons_self rfl
  have hlt : p.2 < F.freshInst := hid ▸ F.lt_freshInst (F.instIds_of_mem hb hJ)
  have hslot : slotOf F p.2 = s.F.freshInst := (slotOf_append hnodup hcs).trans h.fresh.symm
  -- the call is found, with its argument as it is by now
  have hfound : ((s.F.block p.1).find p.2).bind get_global_id_arg = some (toRepl F cs arg) := by
    have hfind : (F.block p.1).insts.find? (·.id = p.2) = some J := hid ▸ F.find_of_mem hn hb hJ
    rw [BasicBlock.find, h.insts _ hb, find?_flatMap_expandedInst hlt, hfind, Option.map_some,
      Option.bind_some]
    exact get_global_id_arg_mapValues harg
  have hinsts : ∀ b ∈ F.layout, ((expansionBefore s.F p (toRepl F cs arg)).block b).insts =
      (F.block b).insts.flatMap (expandedInst F (cs ++ [p.2]) (toRepl F cs)) := by
    intro b hb'
    by_cases hbp : b = p.1
    · subst hbp
      rw [expansionBefore, Function.block_updateBlock, BasicBlock.insertAllBefore, h.insts _ hb,
        ← hslot, ← hid]
      have hids : ((F.block p.1).insts.map Instruction.id).Nodup :=
        (List.nodup_append.mp ((List.nodup_flatMap.mp hn).1 _ hb)).1
      exact insertAllBefore_flatMap hids hJ (hid ▸ hlt) (hid ▸ hnot) harg
    · rw [expansionBefore, Function.block_updateBlock_ne _ hbp, h.insts b hb']
      refine List.flatMap_congr fun I hI => (expandedInst_append fun heq => hbp ?_).symm
      exact F.eq_of_mem_instIds hn hb' hb (List.mem_append_left _ (List.mem_map_of_mem hI))
        (List.mem_append_left _ (heq.trans hid.symm ▸ List.mem_map_of_mem hJ))
  have hterms : ∀ b ∈ F.layout,
      ((expansionBefore s.F p (toRepl F cs arg)).block b).termId = (F.block b).termId ∧
      ((expansionBefore s.F p (toRepl F cs arg)).block b).term =
        (F.block b).term.mapValues (toRepl F cs) := by
    intro b hb'
    by_cases hbp : b = p.1
    · subst hbp
      rw [expansionBefore, Function.block_updateBlock]
      exact ⟨h.termId _ hb, h.term _ hb⟩
    · rw [expansionBefore, Function.block_updateBlock_ne _ hbp]
      exact ⟨h.termId b hb', h.term b hb'⟩
  have htoRepl : ∀ v, toRepl F cs v = .inst p.2 ↔ v = .inst p.2 := by
    refine fun v => ⟨toRepl_eq_inst hlt, ?_⟩
    rintro rfl
    refine toRepl_eq_self fun c hc heq => ?_
    exact replacedBy_ne hn hmem (fun heq' => hnot (heq' ▸ hc)) (Value.inst.inj heq).symm
  have honly : onlyTrunc (expansionBefore s.F p (toRepl F cs arg)) p.2 = onlyTrunc F p.2 :=
    onlyTrunc_expandedInst h.layout hlt htoRepl hinsts fun b hb => (hterms b hb).2
  have heq : expandCall s p = ⟨(expansionBefore s.F p (toRepl F cs arg)).replaceAllUsesWith
      (replacedBy F p.2) (.inst (slotOf F p.2 + 6)),
      s.CallsToErase ++ ((onlyTrunc F p.2).toList ++ [p.2])⟩ := by
    rw [expandCall, hfound, hslot, replacedBy, ← honly]
    dsimp only
    rw [← expansionBefore]
    cases onlyTrunc (expansionBefore s.F p (toRepl F cs arg)) p.2 <;> rfl
  rw [heq]
  have hnew : ∀ i, F.freshInst ≤ i →
      Value.replace (replacedBy F p.2) (.inst (slotOf F p.2 + 6)) (.inst i) = .inst i :=
    fun i hi => if_neg fun heq => by
      have hr := replacedBy_lt hmem
      rw [← Value.inst.inj heq] at hr
      exact absurd hr (Nat.not_lt.mpr hi)
  have hcomp : (fun v => Value.replace (replacedBy F p.2) (.inst (slotOf F p.2 + 6))
      (toRepl F cs v)) = toRepl F (cs ++ [p.2]) :=
    funext fun v => replace_toRepl (replacedBy_lt hmem)
  refine ⟨h.entry, h.layout, fun b hb => ?_, fun b hb => (hterms b hb).1, fun b hb => ?_, ?_, ?_⟩
  · dsimp only
    rw [Function.replaceAllUsesWith, Function.block_mapValues, BasicBlock.insts_mapValues,
      hinsts b hb, List.map_flatMap, ← hcomp]
    exact List.flatMap_congr fun I _ => mapValues_expandedInst hnew
  · dsimp only
    rw [Function.replaceAllUsesWith, Function.block_mapValues, BasicBlock.term_mapValues,
      (hterms b hb).2, Terminator.mapValues_mapValues, ← hcomp]
  · dsimp only
    rw [Function.replaceAllUsesWith, Function.freshInst_mapValues,
      freshInst_expansionBefore (h.layout ▸ hb), h.fresh, List.length_append, List.length_singleton,
      Nat.mul_add, Nat.add_assoc]
  · rw [h.erased, List.flatMap_append, List.flatMap_singleton]

theorem ExpandedTo.foldl {ps : List (BlockId × InstId)} (h : ExpandedTo F cs s)
    (hn : F.instIds.Nodup) (hps : ∀ p ∈ ps, p ∈ globalIdCalls F)
    (hcs : globalIds F = cs ++ ps.map Prod.snd) :
    ExpandedTo F (globalIds F) (ps.foldl expandCall s) := by
  induction ps generalizing cs s with
  | nil =>
    rw [List.map_nil, List.append_nil] at hcs
    rwa [hcs]
  | cons p ps ih =>
    obtain ⟨hp, hps⟩ := List.forall_mem_cons.mp hps
    rw [List.map_cons] at hcs
    exact ih (h.step hn hp hcs) hps (by rw [hcs, List.append_assoc, List.singleton_append])

/-- The calls, and the truncations that are their only uses. -/
def globalErased (F : Function) : List InstId :=
  (globalIds F).flatMap fun c => (onlyTrunc F c).toList ++ [c]

end

end LoopInserter

end VariOCL.IR
