import VariOCL.IR.Uses
import VariOCL.LoopInserter.Regions

/-! The calls to `get_local_id` of a region, and the induction variable in their place. -/

namespace VariOCL.IR

/-- The users of an instruction, once for each use; a terminator is `none`. -/
def Function.usersOf (F : Function) (i : InstId) : List (Option Instruction) :=
  F.layout.flatMap fun b =>
    (F.block b).insts.flatMap (fun I => (I.op.operands.filter (· = .inst i)).map fun _ => some I) ++
      ((F.block b).term.operands.filter (· = .inst i)).map fun _ => none

def Function.eraseInsts (F : Function) (is : List InstId) : Function :=
  { F with block := fun b =>
      { F.block b with insts := (F.block b).insts.filter fun I => !is.contains I.id } }

def Op.isTrunc : Op → Bool
  | .trunc _ => true
  | _ => false

namespace LoopInserter

/-- A call to `get_local_id` with the constant of the dimension. -/
def isLocalIdCall (DimensionKind : Nat) (I : Instruction) : Bool :=
  match I.op with
  | .call (some name) args =>
    name == "get_local_id" && args.head? == some (.constInt 32 DimensionKind)
  | _ => false

/-- The blocks whose id calls are replaced. -/
def MxPARegion.BBInvolved (RN : MxPARegion) : List BlockId :=
  if RN.Exit ≠ some RN.Entry then RN.BBSet else RN.Exit.toList

def localIdCalls (F : Function) (RN : MxPARegion) (DimensionKind : Nat) : List InstId :=
  RN.BBInvolved.flatMap fun b =>
    ((F.block b).insts.filter (isLocalIdCall DimensionKind)).map Instruction.id

/-- The truncation that is the only use of a call. -/
def onlyTrunc (F : Function) (a_call : InstId) : Option InstId :=
  match F.usersOf a_call with
  | [some TI] => if TI.op.isTrunc then some TI.id else none
  | _ => none

/-- The value that the induction variable stands for. -/
def replacedBy (F : Function) (a_call : InstId) : InstId := (onlyTrunc F a_call).getD a_call

def toIV (IV : InstId) (replaced : List InstId) : Value → Value
  | .inst i => if i ∈ replaced then .inst IV else .inst i
  | v => v

/-- The calls are found before any is replaced, which changes no use of another call. -/
def replaceIdCalls (F : Function) (RN : MxPARegion) (DimensionKind : Nat) (IV : InstId) : Function :=
  let calls := localIdCalls F RN DimensionKind
  (F.mapValues (toIV IV (calls.map (replacedBy F)))).eraseInsts
    (calls ++ calls.filterMap (onlyTrunc F))

/-! ### The id calls -/

/-- The instructions that a replacement erases. -/
def erasedIds (F : Function) (RN : MxPARegion) (DimensionKind : Nat) : List InstId :=
  localIdCalls F RN DimensionKind ++ (localIdCalls F RN DimensionKind).filterMap (onlyTrunc F)

/-- Calls and truncations have ids below `n`. -/
def CallsBelow (F : Function) (n : InstId) : Prop :=
  ∀ b ∈ F.layout, ∀ I ∈ (F.block b).insts,
    I.op.isTrunc ∨ (∃ d, isLocalIdCall d I) → I.id < n

section
variable {F : Function} {RN : MxPARegion} {d : Nat} {IV i n : InstId} {b : BlockId} {I : Instruction}

theorem mem_localIdCalls : i ∈ localIdCalls F RN d ↔
    ∃ b ∈ RN.BBInvolved, ∃ I ∈ (F.block b).insts, isLocalIdCall d I ∧ I.id = i := by
  simp only [localIdCalls, List.mem_flatMap, List.mem_map, List.mem_filter, and_assoc]

theorem mem_of_mem_usersOf (h : some I ∈ F.usersOf i) : ∃ b ∈ F.layout, I ∈ (F.block b).insts := by
  simp only [Function.usersOf, List.mem_flatMap, List.mem_append, List.mem_map] at h
  obtain ⟨b, hb, ⟨J, hJ, v, -, heq⟩ | ⟨v, -, heq⟩⟩ := h
  · cases heq
    exact ⟨b, hb, hJ⟩
  · cases heq

theorem onlyTrunc_eq_some {t : InstId} (h : onlyTrunc F i = some t) :
    ∃ b ∈ F.layout, ∃ TI ∈ (F.block b).insts, TI.op.isTrunc ∧ TI.id = t := by
  rw [onlyTrunc] at h
  split at h
  · rename_i TI husers
    split at h
    · obtain ⟨b, hb, hTI⟩ := mem_of_mem_usersOf (F := F) (i := i) (I := TI)
        (husers ▸ List.mem_cons_self)
      exact ⟨b, hb, TI, hTI, ‹_›, Option.some.inj h⟩
    · cases h
  · cases h

theorem CallsBelow.call_lt (h : CallsBelow F n) (hRN : ∀ b ∈ RN.BBInvolved, b ∈ F.layout)
    (hi : i ∈ localIdCalls F RN d) : i < n := by
  obtain ⟨b, hb, I, hI, hcall, rfl⟩ := mem_localIdCalls.mp hi
  exact h b (hRN b hb) I hI (.inr ⟨d, hcall⟩)

theorem CallsBelow.onlyTrunc_lt (h : CallsBelow F n) {t : InstId} (ht : onlyTrunc F i = some t) :
    t < n := by
  obtain ⟨b, hb, TI, hTI, htrunc, rfl⟩ := onlyTrunc_eq_some ht
  exact h b hb TI hTI (.inl htrunc)

theorem CallsBelow.erased_lt (h : CallsBelow F n) (hRN : ∀ b ∈ RN.BBInvolved, b ∈ F.layout)
    (hi : i ∈ erasedIds F RN d) : i < n := by
  rcases List.mem_append.mp hi with hi | hi
  · exact h.call_lt hRN hi
  · obtain ⟨c, -, hc⟩ := List.mem_filterMap.mp hi
    exact h.onlyTrunc_lt hc

theorem CallsBelow.replaced_lt (h : CallsBelow F n) (hRN : ∀ b ∈ RN.BBInvolved, b ∈ F.layout)
    (hi : i ∈ (localIdCalls F RN d).map (replacedBy F)) : i < n := by
  obtain ⟨c, hc, rfl⟩ := List.mem_map.mp hi
  rw [replacedBy]
  cases ht : onlyTrunc F c with
  | none => exact h.call_lt hRN hc
  | some t => exact h.onlyTrunc_lt ht

/-- A block of instructions that no replacement concerns. -/
theorem CallsBelow.block_replaceIdCalls (h : CallsBelow F n)
    (hRN : ∀ b ∈ RN.BBInvolved, b ∈ F.layout) (hids : ∀ I ∈ (F.block b).insts, n ≤ I.id)
    (hvalues : ∀ i, .inst i ∈ (F.block b).values → n ≤ i) :
    (replaceIdCalls F RN d IV).block b = F.block b := by
  have hmap : (F.block b).mapValues
      (toIV IV ((localIdCalls F RN d).map (replacedBy F))) = F.block b := by
    refine BasicBlock.mapValues_eq_self_iff.mpr fun v hv => ?_
    cases v with
    | inst i =>
      refine if_neg fun hi => ?_
      exact absurd (h.replaced_lt hRN hi) (Nat.not_lt.mpr (hvalues i hv))
    | _ => rfl
  have hkeep : ∀ I ∈ (F.block b).insts, !(erasedIds F RN d).contains I.id := by
    intro I hI
    simp only [Bool.not_eq_true', List.contains_eq_mem, decide_eq_false_iff_not]
    exact fun hmem => absurd (h.erased_lt hRN hmem) (Nat.not_lt.mpr (hids I hI))
  rw [erasedIds] at hkeep
  simp only [replaceIdCalls, Function.eraseInsts, Function.block_mapValues, hmap]
  rw [List.filter_eq_self.mpr hkeep]

end

section
variable {F : Function} {RN : MxPARegion} {d : Nat} {IV i n : InstId} {b : BlockId} {I : Instruction}

theorem isLocalIdCall_mapValues {f : Value → Value} (hf : ∀ v w c, f v = .constInt w c ↔ v = .constInt w c)
    (d : Nat) (I : Instruction) : isLocalIdCall d (I.mapValues f) = isLocalIdCall d I := by
  obtain ⟨i, t, op⟩ := I
  cases op with
  | call callee args =>
    cases callee with
    | none => rfl
    | some name =>
      simp only [isLocalIdCall, Instruction.mapValues, Op.mapValues]
      congr 1
      cases args with
      | nil => rfl
      | cons v args =>
        rw [List.map_cons, List.head?_cons, List.head?_cons, Bool.eq_iff_iff]
        simp [hf]
  | _ => rfl

theorem toIV_eq_constInt {IV : InstId} {replaced : List InstId} {v : Value} {w c : Nat} :
    toIV IV replaced v = .constInt w c ↔ v = .constInt w c := by
  cases v with
  | inst i =>
    rw [toIV]
    split <;> simp
  | _ => rfl

theorem isTrunc_mapValues {f : Value → Value} (op : Op) :
    (op.mapValues f).isTrunc = op.isTrunc := by cases op <;> rfl

@[simp] theorem layout_replaceIdCalls : (replaceIdCalls F RN d IV).layout = F.layout := rfl

@[simp] theorem succs_replaceIdCalls : (replaceIdCalls F RN d IV).succs b = F.succs b := by
  simp [replaceIdCalls, Function.eraseInsts, Function.succs]

/-- An instruction that is left has its old kind, and reads the induction variable for the calls. -/
theorem mem_replaceIdCalls (hI : I ∈ ((replaceIdCalls F RN d IV).block b).insts) :
    I.id ∉ erasedIds F RN d ∧ ∃ J ∈ (F.block b).insts,
      I = J.mapValues (toIV IV ((localIdCalls F RN d).map (replacedBy F))) := by
  simp only [replaceIdCalls, Function.eraseInsts, Function.block_mapValues,
    BasicBlock.insts_mapValues] at hI
  obtain ⟨hmem, hkeep⟩ := List.mem_filter.mp hI
  obtain ⟨J, hJ, rfl⟩ := List.mem_map.mp hmem
  exact ⟨by simpa [erasedIds] using hkeep, J, hJ, rfl⟩

theorem CallsBelow.replaceIdCalls (h : CallsBelow F n) :
    CallsBelow (replaceIdCalls F RN d IV) n := by
  intro b hb I hI hkind
  obtain ⟨-, J, hJ, rfl⟩ := mem_replaceIdCalls hI
  refine h b hb J hJ (hkind.imp (fun ht => ?_) fun ⟨d', hd'⟩ => ⟨d', ?_⟩)
  · rwa [Instruction.op_mapValues, isTrunc_mapValues] at ht
  · rwa [isLocalIdCall_mapValues fun v w c => toIV_eq_constInt] at hd'

/-- No call of the dimension is left in the blocks involved. -/
theorem localIdCalls_replaceIdCalls (hb : b ∈ RN.BBInvolved)
    (hI : I ∈ ((LoopInserter.replaceIdCalls F RN d IV).block b).insts) :
    isLocalIdCall d I = false := by
  obtain ⟨herased, J, hJ, rfl⟩ := mem_replaceIdCalls hI
  rw [isLocalIdCall_mapValues fun v w c => toIV_eq_constInt, ← Bool.not_eq_true]
  exact fun hcall => herased
    (List.mem_append_left _ (mem_localIdCalls.mpr ⟨b, hb, J, hJ, hcall, rfl⟩))

end

/-! ### What is read for a call -/

/-- `t` truncates the value of `c`. -/
def TruncOf (F : Function) (c t : InstId) : Prop :=
  ∃ b ∈ F.layout, ∃ T ∈ (F.block b).insts, T.id = t ∧ T.op.isTrunc ∧ .inst c ∈ T.op.operands

/-- The value of the call, or a truncation of it. -/
def StandsFor (F : Function) (c : InstId) (v : Value) : Prop :=
  v = .inst c ∨ ∃ t, v = .inst t ∧ TruncOf F c t

/-- `f` puts the induction variable in the place of calls of one dimension, and changes no other
value. -/
def PutsIV (F : Function) (RN : MxPARegion) (d : Nat) (IV : InstId) (f : Value → Value) : Prop :=
  ∀ v, f v = v ∨ (∃ c ∈ localIdCalls F RN d, StandsFor F c v) ∧ f v = .inst IV

/-- Taken out are the calls of the dimensions of `IVs`, and such truncations of them as `f` puts a
variable in the place of. -/
structure TakesOut (F : Function) (RN : MxPARegion) (IVs : List (Nat × InstId))
    (f : Value → Value) (gone : List InstId) : Prop where
  calls : ∀ p ∈ IVs, ∀ c ∈ localIdCalls F RN p.1, c ∈ gone
  others : ∀ i ∈ gone, ∃ p ∈ IVs, i ∈ localIdCalls F RN p.1 ∨
    ∃ c ∈ localIdCalls F RN p.1, TruncOf F c i ∧ f (.inst i) = .inst p.2
  reads : ∀ v, f v ≠ v → ∃ i ∈ gone, v = .inst i

section
variable {F : Function} {RN : MxPARegion} {d d' : Nat} {IV c i t : InstId} {b : BlockId}
  {I J : Instruction}

theorem mem_usersOf : some I ∈ F.usersOf i ↔
    ∃ b ∈ F.layout, I ∈ (F.block b).insts ∧ .inst i ∈ I.op.operands := by
  simp only [Function.usersOf, List.mem_flatMap, List.mem_append, List.mem_map, List.mem_filter,
    decide_eq_true_eq]
  constructor
  · rintro ⟨b, hb, ⟨J, hJ, v, ⟨hv, rfl⟩, heq⟩ | ⟨v, -, heq⟩⟩
    · cases heq
      exact ⟨b, hb, hJ, hv⟩
    · cases heq
  · rintro ⟨b, hb, hI, hi⟩
    exact ⟨b, hb, .inl ⟨I, hI, _, ⟨hi, rfl⟩, rfl⟩⟩

theorem none_mem_usersOf (hb : b ∈ F.layout) (hi : .inst i ∈ (F.block b).term.operands) :
    none ∈ F.usersOf i := by
  simp only [Function.usersOf, List.mem_flatMap, List.mem_append, List.mem_map, List.mem_filter,
    decide_eq_true_eq]
  exact ⟨b, hb, .inr ⟨_, ⟨hi, rfl⟩, trivial⟩⟩

theorem usersOf_of_onlyTrunc (h : onlyTrunc F c = some t) :
    ∃ TI : Instruction, F.usersOf c = [some TI] ∧ TI.op.isTrunc ∧ TI.id = t := by
  rw [onlyTrunc] at h
  split at h
  · split at h
    · exact ⟨_, ‹_›, ‹_›, Option.some.inj h⟩
    · cases h
  · cases h

theorem truncOf_of_onlyTrunc (h : onlyTrunc F c = some t) : TruncOf F c t := by
  obtain ⟨TI, husers, htrunc, hid⟩ := usersOf_of_onlyTrunc h
  obtain ⟨b, hb, hTI, hc⟩ := mem_usersOf.mp (husers ▸ List.mem_cons_self)
  exact ⟨b, hb, TI, hTI, hid, htrunc, hc⟩

theorem putsIV_toIV :
    PutsIV F RN d IV (toIV IV ((localIdCalls F RN d).map (replacedBy F))) := by
  intro v
  cases v with
  | inst i =>
    by_cases hi : i ∈ (localIdCalls F RN d).map (replacedBy F)
    · obtain ⟨c, hc, rfl⟩ := List.mem_map.mp hi
      refine .inr ⟨⟨c, hc, ?_⟩, if_pos hi⟩
      rw [replacedBy]
      cases ht : onlyTrunc F c with
      | none => exact .inl rfl
      | some t => exact .inr ⟨t, rfl, truncOf_of_onlyTrunc ht⟩
    · exact .inl (if_neg hi)
  | _ => exact .inl rfl

theorem takesOut_erasedIds : TakesOut F RN [(d, IV)]
    (toIV IV ((localIdCalls F RN d).map (replacedBy F))) (erasedIds F RN d) where
  calls p hp c hc := by
    obtain rfl := List.mem_singleton.mp hp
    exact List.mem_append_left _ hc
  others i hi := by
    refine ⟨_, List.mem_singleton_self _, ?_⟩
    rcases List.mem_append.mp hi with hi | hi
    · exact .inl hi
    · obtain ⟨c, hc, ht⟩ := List.mem_filterMap.mp hi
      have hrepl : i ∈ (localIdCalls F RN d).map (replacedBy F) :=
        List.mem_map.mpr ⟨c, hc, by rw [replacedBy, ht, Option.getD_some]⟩
      exact .inr ⟨c, hc, truncOf_of_onlyTrunc ht, if_pos hrepl⟩
  reads v hv := by
    cases v with
    | inst i =>
      have hrepl : i ∈ (localIdCalls F RN d).map (replacedBy F) := by
        by_contra hrepl
        exact hv (if_neg hrepl)
      obtain ⟨c, hc, rfl⟩ := List.mem_map.mp hrepl
      refine ⟨_, ?_, rfl⟩
      rw [replacedBy]
      cases ht : onlyTrunc F c with
      | none => exact List.mem_append_left _ hc
      | some t => exact List.mem_append_right _ (List.mem_filterMap.mpr ⟨c, hc, ht⟩)
    | _ => exact absurd rfl hv

theorem operands_term_replaceIdCalls : ((replaceIdCalls F RN d IV).block b).term.operands =
    (F.block b).term.operands.map (toIV IV ((localIdCalls F RN d).map (replacedBy F))) := by
  simp only [replaceIdCalls, Function.eraseInsts, Function.block_mapValues,
    BasicBlock.term_mapValues, Terminator.operands_mapValues]

/-- No use of a replaced call is left. -/
theorem not_mem_values_replaceIdCalls (hb : b ∈ F.layout) (hc : c ∈ localIdCalls F RN d)
    (hIV : c ≠ IV) : .inst c ∉ ((replaceIdCalls F RN d IV).block b).values := by
  have hread : ∀ v, toIV IV ((localIdCalls F RN d).map (replacedBy F)) v = .inst c →
      v = .inst c ∧ ∃ t, onlyTrunc F c = some t := by
    intro v hv
    have hputs : PutsIV F RN d IV (toIV IV ((localIdCalls F RN d).map (replacedBy F))) :=
      putsIV_toIV
    rcases hputs v with heq | ⟨-, heq⟩
    · rw [heq] at hv
      subst hv
      refine ⟨rfl, Option.ne_none_iff_exists'.mp fun hnone => hIV ?_⟩
      have hmem : c ∈ (localIdCalls F RN d).map (replacedBy F) :=
        List.mem_map.mpr ⟨c, hc, by rw [replacedBy, hnone, Option.getD_none]⟩
      exact (Value.inst.inj ((if_pos hmem).symm.trans heq)).symm
    · exact absurd (Value.inst.inj (hv.symm.trans heq)) hIV
  intro hmem
  rcases List.mem_append.mp hmem with hmem | hmem
  · obtain ⟨I, hI, hv⟩ := List.mem_flatMap.mp hmem
    obtain ⟨hkept, J, hJ, rfl⟩ := mem_replaceIdCalls hI
    rw [Instruction.op_mapValues, Op.operands_mapValues] at hv
    obtain ⟨v, hv, heq⟩ := List.mem_map.mp hv
    obtain ⟨rfl, t, ht⟩ := hread v heq
    obtain ⟨TI, husers, -, hid⟩ := usersOf_of_onlyTrunc ht
    have hJ : some J ∈ F.usersOf c := mem_usersOf.mpr ⟨b, hb, hJ, hv⟩
    rw [husers, List.mem_singleton] at hJ
    refine hkept (List.mem_append_right _ (List.mem_filterMap.mpr ⟨c, hc, ?_⟩))
    rw [ht, ← hid, ← Option.some.inj hJ]
    rfl
  · rw [operands_term_replaceIdCalls] at hmem
    obtain ⟨v, hv, heq⟩ := List.mem_map.mp hmem
    obtain ⟨rfl, t, ht⟩ := hread v heq
    obtain ⟨TI, husers, -⟩ := usersOf_of_onlyTrunc ht
    have hnone := none_mem_usersOf hb hv
    rw [husers, List.mem_singleton] at hnone
    cases hnone

/-- A call of another dimension stays. -/
theorem mem_localIdCalls_replaceIdCalls (hc : c ∈ localIdCalls F RN d')
    (hd : c ∉ localIdCalls F RN d) (htrunc : ∀ a ∈ localIdCalls F RN d, ¬ TruncOf F a c) :
    c ∈ localIdCalls (replaceIdCalls F RN d IV) RN d' := by
  obtain ⟨b, hb, I, hI, hcall, rfl⟩ := mem_localIdCalls.mp hc
  refine mem_localIdCalls.mpr ⟨b, hb, _, List.mem_filter.mpr ⟨List.mem_map_of_mem hI, ?_⟩, ?_, rfl⟩
  · simp only [Bool.not_eq_true', List.contains_eq_mem, decide_eq_false_iff_not,
      Instruction.id_mapValues, List.mem_append, not_or]
    refine ⟨hd, fun hmem => ?_⟩
    obtain ⟨a, hmem, ha⟩ := List.mem_filterMap.mp hmem
    exact htrunc a hmem (truncOf_of_onlyTrunc ha)
  · rwa [isLocalIdCall_mapValues fun v w c => toIV_eq_constInt]

end

end LoopInserter

end VariOCL.IR
