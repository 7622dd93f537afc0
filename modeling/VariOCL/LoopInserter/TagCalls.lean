import VariOCL.IR.Arrives
import VariOCL.IR.ValidEdits
import VariOCL.LoopInserter.LoopNest
import VariOCL.LoopInserter.WorkItems

/-! The id calls that the loops replace, told from the other calls of the region. -/

namespace VariOCL.IR.LoopInserter

open Sim

/-- The dimension of a call that one of the three loops replaces. -/
def replacedDim (I : Instruction) : Option Nat := (List.range 3).find? (isLocalIdCall · I)

/-- Such a call gives its dimension twice, which tells it from the calls that give it once. -/
def tagCall (I : Instruction) : Instruction :=
  match replacedDim I with
  | some d => { I with op := .call (some "get_local_id") [.constInt 32 d, .constInt 32 d] }
  | none => I

def tagCalls (F : Function) (RN : MxPARegion) : Function :=
  { F with block := fun b => { F.block b with
      insts := if b ∈ RN.BBInvolved then (F.block b).insts.map tagCall else (F.block b).insts } }

section
variable {F G : Function} {RN : MxPARegion} {Exit Barrier Pred b : BlockId} {L : Fin 3 → DWLoop}
  {f : Value → Value} {gone : List InstId} {I : Instruction} {c t : InstId} {d : Nat}

/-! ### One instruction -/

theorem op_of_isLocalIdCall (h : isLocalIdCall d I) :
    ∃ args, I.op = .call (some "get_local_id") (.constInt 32 d :: args) := by
  obtain ⟨i, ty, op⟩ := I
  cases op with
  | call callee args =>
    cases callee with
    | none => cases h
    | some name =>
      obtain ⟨hname, hhead⟩ := Bool.and_eq_true_iff.mp h
      obtain rfl := eq_of_beq hname
      cases args with
      | nil => cases hhead
      | cons v args =>
        obtain rfl := Option.some.inj (eq_of_beq hhead)
        exact ⟨args, rfl⟩
  | _ => cases h

theorem replacedDim_eq_some (h : isLocalIdCall d I) (hd : d < 3) : replacedDim I = some d := by
  cases hfind : replacedDim I with
  | none =>
    exact absurd h (List.find?_eq_none.mp hfind d (List.mem_range.mpr hd))
  | some e => rw [isLocalIdCall_unique (List.find?_some (p := (isLocalIdCall · I)) hfind) h]

theorem tagCall_cases (I : Instruction) :
    (tagCall I = I ∧ ∀ d < 3, ¬ isLocalIdCall d I) ∨ ∃ d < 3, isLocalIdCall d I ∧
      tagCall I = { I with op := .call (some "get_local_id") [.constInt 32 d, .constInt 32 d] } := by
  cases h : replacedDim I with
  | none =>
    refine .inl ⟨by rw [tagCall, h], fun d hd hcall => ?_⟩
    cases h.symm.trans (replacedDim_eq_some hcall hd)
  | some d =>
    exact .inr ⟨d, List.mem_range.mp (List.mem_of_find?_eq_some h),
      List.find?_some (p := (isLocalIdCall · I)) h, by rw [tagCall, h]⟩

@[simp] theorem id_tagCall (I : Instruction) : (tagCall I).id = I.id := by
  rw [tagCall]
  split <;> rfl

/-- Only calls are tagged, and they stay calls. -/
theorem tagCall_eq_or (I : Instruction) : tagCall I = I ∨ ∃ args args',
    I.op = .call (some "get_local_id") args ∧
      (tagCall I).op = .call (some "get_local_id") args' := by
  rcases tagCall_cases I with ⟨heq, -⟩ | ⟨d, -, hcall, heq⟩
  · exact .inl heq
  · obtain ⟨args, hop⟩ := op_of_isLocalIdCall hcall
    exact .inr ⟨_, _, hop, by rw [heq]⟩

theorem tagCall_of_isPhi (h : (tagCall I).op.isPhi ∨ I.op.isPhi) : tagCall I = I := by
  refine (tagCall_eq_or I).resolve_right ?_
  rintro ⟨args, args', hop, hop'⟩
  rw [hop, hop'] at h
  rcases h with h | h <;> cases h

theorem tagCall_of_isTrunc (h : (tagCall I).op.isTrunc ∨ I.op.isTrunc) : tagCall I = I := by
  refine (tagCall_eq_or I).resolve_right ?_
  rintro ⟨args, args', hop, hop'⟩
  rw [hop, hop'] at h
  rcases h with h | h <;> cases h

@[simp] theorem isPhi_tagCall (I : Instruction) : (tagCall I).op.isPhi = I.op.isPhi := by
  refine Bool.eq_iff_iff.mpr ⟨fun h => ?_, fun h => ?_⟩
  · rwa [tagCall_of_isPhi (.inl h)] at h
  · rwa [tagCall_of_isPhi (.inr h)]

@[simp] theorem isLocalIdCall_tagCall (I : Instruction) (d : Nat) :
    isLocalIdCall d (tagCall I) = isLocalIdCall d I := by
  rcases tagCall_cases I with ⟨heq, -⟩ | ⟨e, -, hcall, heq⟩
  · rw [heq]
  · have hself : isLocalIdCall e (tagCall I) := by
      rw [heq]
      simp [isLocalIdCall]
    refine Bool.eq_iff_iff.mpr ⟨fun h => ?_, fun h => ?_⟩
    · rwa [isLocalIdCall_unique h hself]
    · rwa [isLocalIdCall_unique h hcall]

/-! ### The function -/

theorem mem_insts_tagCalls : I ∈ ((tagCalls F RN).block b).insts ↔
    ∃ J ∈ (F.block b).insts, I = if b ∈ RN.BBInvolved then tagCall J else J := by
  by_cases hb : b ∈ RN.BBInvolved
  · simp [tagCalls, hb, eq_comm]
  · simp [tagCalls, hb]

@[simp] theorem map_id_tagCalls (F : Function) (RN : MxPARegion) (b : BlockId) :
    ((tagCalls F RN).block b).insts.map Instruction.id = (F.block b).insts.map Instruction.id := by
  rw [tagCalls]
  dsimp only
  split
  · simp [Function.comp_def]
  · rfl

theorem instIds_block_tagCalls (F : Function) (RN : MxPARegion) (b : BlockId) :
    ((tagCalls F RN).block b).instIds = (F.block b).instIds := by
  rw [BasicBlock.instIds, map_id_tagCalls]
  rfl

theorem instIds_tagCalls (F : Function) (RN : MxPARegion) :
    (tagCalls F RN).instIds = F.instIds :=
  List.flatMap_congr fun b _ => instIds_block_tagCalls F RN b

theorem freshInst_tagCalls (F : Function) (RN : MxPARegion) :
    (tagCalls F RN).freshInst = F.freshInst := by
  rw [Function.freshInst, instIds_tagCalls]
  rfl

theorem valid_tagCalls (hF : F.Valid) (RN : MxPARegion) : (tagCalls F RN).Valid := by
  refine hF.of_phis rfl rfl (fun _ _ => rfl) ((instIds_tagCalls F RN).symm ▸ hF.ids)
    (fun b hb => ?_) fun b hb I hI hphi => ?_
  · rw [tagCalls]
    dsimp only
    split
    · rw [List.pairwise_map]
      simpa using hF.pairwise hb
    · exact hF.pairwise hb
  · obtain ⟨J, hJ, rfl⟩ := mem_insts_tagCalls.mp hI
    split at hphi
    · rw [if_pos ‹_›, tagCall_of_isPhi (.inl hphi)]
      exact ⟨J, hJ, isPhi_tagCall J ▸ hphi, rfl⟩
    · rw [if_neg ‹_›]
      exact ⟨J, hJ, hphi, rfl⟩

theorem definedAbove_tagCalls {u j : InstId} (h : F.DefinedAbove b u j) :
    (tagCalls F RN).DefinedAbove b u j := by
  rw [Function.DefinedAbove, instIds_block_tagCalls]
  refine h.imp_right ?_
  rintro ⟨x, hx, hne, hdom, hj⟩
  exact ⟨x, hx, hne, hdom, (map_id_tagCalls F RN x).symm ▸ hj⟩

/-- The tagged calls read constants only. -/
theorem definesBeforeUse_tagCalls (hF : F.DefinesBeforeUse) (RN : MxPARegion) :
    (tagCalls F RN).DefinesBeforeUse where
  inst b hb hr I hI hphi j hj := by
    obtain ⟨J, hJ, rfl⟩ := mem_insts_tagCalls.mp hI
    refine definedAbove_tagCalls ?_
    split at hj
    · rw [if_pos ‹_›] at hphi ⊢
      rcases tagCall_cases J with ⟨heq, -⟩ | ⟨d, -, -, heq⟩
      · rw [heq] at hphi hj ⊢
        exact hF.inst b hb hr J hJ hphi j hj
      · rw [heq] at hj
        simp [Op.operands] at hj
    · rw [if_neg ‹_›] at hphi ⊢
      exact hF.inst b hb hr J hJ hphi j hj
  term b hb hr j hj := definedAbove_tagCalls (hF.term b hb hr j hj)
  phi b hb hr I hI p hp hrp j hj := by
    obtain ⟨J, hJ, rfl⟩ := mem_insts_tagCalls.mp hI
    refine definedAbove_tagCalls (hF.phi b hb hr J hJ p ?_ hrp j hj)
    split at hp
    · rcases tagCall_cases J with ⟨heq, -⟩ | ⟨d, -, -, heq⟩
      · rwa [heq] at hp
      · rw [heq] at hp
        cases hp
    · exact hp

theorem localIdCalls_tagCalls (F : Function) (RN : MxPARegion) (d : Nat) :
    localIdCalls (tagCalls F RN) RN d = localIdCalls F RN d := by
  refine List.flatMap_congr fun b hb => ?_
  have hinsts : ((tagCalls F RN).block b).insts = (F.block b).insts.map tagCall := if_pos hb
  rw [hinsts, List.filter_map, List.map_map]
  simp [Function.comp_def]

theorem truncOf_tagCalls : TruncOf (tagCalls F RN) c t ↔ TruncOf F c t := by
  constructor
  · rintro ⟨b, hb, T, hT, hid, htrunc, hc⟩
    obtain ⟨J, hJ, rfl⟩ := mem_insts_tagCalls.mp hT
    have heq : (if b ∈ RN.BBInvolved then tagCall J else J) = J := by
      split at htrunc
      · rw [if_pos ‹_›, tagCall_of_isTrunc (.inl htrunc)]
      · rw [if_neg ‹_›]
    rw [heq] at hid htrunc hc
    exact ⟨b, hb, J, hJ, hid, htrunc, hc⟩
  · rintro ⟨b, hb, T, hT, hid, htrunc, hc⟩
    refine ⟨b, hb, T, mem_insts_tagCalls.mpr ⟨T, hT, ?_⟩, hid, htrunc, hc⟩
    rw [tagCall_of_isTrunc (.inr htrunc), ite_self]

theorem standsFor_tagCalls {v : Value} : StandsFor (tagCalls F RN) c v ↔ StandsFor F c v := by
  simp only [StandsFor, truncOf_tagCalls]

/-! ### In the place of the function -/

theorem Loopable.tagCalls (h : Loopable F RN Exit Barrier Pred) :
    Loopable (tagCalls F RN) RN Exit Barrier Pred where
  closed := h.closed
  ids := (instIds_tagCalls F RN).symm ▸ h.ids
  exit := h.exit
  subset := h.subset
  root := h.root
  entry_mem := h.entry_mem
  exit_mem := h.exit_mem
  leaves := h.leaves
  barrier := h.barrier
  pred := h.pred
  enters := h.enters
  outside := h.outside
  entered := h.entered

theorem ThreeLoops.tagCalls (hL : ThreeLoops F G RN Exit Barrier L) :
    ThreeLoops (tagCalls F RN) G RN Exit Barrier L :=
  { hL with
    layout := hL.layout
    blocks_new := hL.blocks_new
    ids_new := (freshInst_tagCalls F RN).symm ▸ hL.ids_new }

theorem filter_map_tagCall {Is : List Instruction}
    (hgone : ∀ I ∈ Is, ∀ d < 3, isLocalIdCall d I → I.id ∈ gone) :
    ((Is.map tagCall).map (Instruction.mapValues f)).filter (fun I => !gone.contains I.id) =
      (Is.map (Instruction.mapValues f)).filter fun I => !gone.contains I.id := by
  induction Is with
  | nil => rfl
  | cons I Is ih =>
    obtain ⟨hI, hIs⟩ := List.forall_mem_cons.mp hgone
    rcases tagCall_cases I with ⟨heq, -⟩ | ⟨d, hd, hcall, -⟩
    · simp only [List.map_cons, List.filter_cons, heq, ih hIs]
    · simpa [hI d hd hcall] using ih hIs

/-- The tagged calls are erased. -/
theorem eraseInsts_tagCalls (hgone : ∀ d : Fin 3, ∀ c ∈ localIdCalls F RN d, c ∈ gone) :
    (((tagCalls F RN).mapValues f).eraseInsts gone).block b =
      ((F.mapValues f).eraseInsts gone).block b := by
  have hinsts : (((tagCalls F RN).block b).insts.map (Instruction.mapValues f)).filter
      (fun I => !gone.contains I.id) = ((F.block b).insts.map (Instruction.mapValues f)).filter
        fun I => !gone.contains I.id := by
    rw [tagCalls]
    dsimp only
    split
    · rename_i hb
      refine filter_map_tagCall fun I hI d hd hcall => ?_
      exact hgone ⟨d, hd⟩ _ (mem_localIdCalls.mpr ⟨b, hb, I, hI, hcall, rfl⟩)
    · rfl
  exact BasicBlock.eq_of_insts hinsts rfl rfl

theorem Replaces.tagCalls (hR : Replaces F G RN Exit Barrier Pred L f gone) :
    Replaces (tagCalls F RN) G RN Exit Barrier Pred L f gone where
  inside b hb := (hR.inside b hb).trans (by rw [eraseInsts_tagCalls hR.erased])
  outside b hb hn := (hR.outside b hb hn).trans (by rw [eraseInsts_tagCalls hR.erased])
  reads v := by simpa only [localIdCalls_tagCalls, standsFor_tagCalls] using hR.reads v
  erased := by simpa only [localIdCalls_tagCalls] using hR.erased
  others := by simpa only [localIdCalls_tagCalls, truncOf_tagCalls] using hR.others
  calls := hR.calls
  unread := by simpa only [localIdCalls_tagCalls] using hR.unread

/-! ### Where all id calls are replaced -/

section
variable {Val : Type} [DecidableEq Val] {M : Machine Val} {w w' : WorkItem Val}
  {p q : Option BlockId} {e : BlockId} {s s' : State Val} {es : List (Act Val)}
  (hw : ∀ v, w "get_local_id" [v, v] = w' "get_local_id" [v])
  (hothers : ∀ name, name ≠ "get_local_id" → w name = w' name)

include hw hothers in
theorem execInst_tagCall (hI : ∀ args, I.op = .call (some "get_local_id") args →
    ∃ d : Fin 3, args = [.constInt 32 d]) : M.execInst w (tagCall I) s = M.execInst w' I s := by
  rcases tagCall_cases I with ⟨heq, hno⟩ | ⟨d, -, hcall, heq⟩
  · have hperform : ∀ vs, M.perform w I.id I.ty I.op vs = M.perform w' I.id I.ty I.op vs := by
      intro vs
      obtain ⟨i, ty, op⟩ := I
      cases op with
      | call callee args =>
        cases callee with
        | none => rfl
        | some name =>
          have hname : name ≠ "get_local_id" := by
            rintro rfl
            obtain ⟨d, rfl⟩ := hI args rfl
            exact hno d d.isLt (by simp [isLocalIdCall])
          simp only [Machine.perform, hothers name hname]
      | _ => rfl
    simp only [heq, Machine.execInst, hperform]
  · obtain ⟨i, ty, op⟩ := I
    obtain ⟨args, hop⟩ := op_of_isLocalIdCall hcall
    obtain ⟨d', hargs⟩ := hI _ hop
    obtain ⟨-, rfl⟩ := List.cons.inj hargs
    obtain rfl : op = _ := hop
    have hname : "get_local_id" ∈ idBuiltins := by decide
    simp [heq, Machine.execInst, Op.operands, Machine.readAll, Machine.read, Machine.perform, hname,
      hw]

include hw hothers in
/-- The tags make no difference where the region asks for ids of constant dimensions only. -/
theorem runsRegion_tagCalls (hBB : ∀ b ∈ RN.BBSet, b ∈ RN.BBInvolved)
    (hconst : ∀ b ∈ RN.BBSet, ∀ I ∈ (F.block b).insts, ∀ args,
      I.op = .call (some "get_local_id") args → ∃ d : Fin 3, args = [.constInt 32 d]) :
    RunsRegion (tagCalls F RN) M w RN.BBSet p b s es q e s' ↔
      RunsRegion F M w' RN.BBSet p b s es q e s' := by
  have hinsts : ∀ Is : List Instruction, (∀ I ∈ Is, ∀ args,
      I.op = .call (some "get_local_id") args → ∃ d : Fin 3, args = [.constInt 32 d]) →
        ∀ s, M.execInsts w (Is.map tagCall) s = M.execInsts w' Is s := by
    intro Is hIs
    induction Is with
    | nil => exact fun _ => rfl
    | cons I Is ih =>
      obtain ⟨hI, hIs⟩ := List.forall_mem_cons.mp hIs
      intro s
      simp only [List.map_cons, Machine.execInsts, execInst_tagCall hw hothers hI, ih hIs]
  have hblock : ∀ b ∈ RN.BBSet, ∀ p s,
      M.execBlock w ((tagCalls F RN).block b) p s = M.execBlock w' (F.block b) p s := by
    intro b hb p s
    have heq : ((tagCalls F RN).block b).insts = (F.block b).insts.map tagCall := if_pos (hBB b hb)
    have hphis : ((F.block b).insts.takeWhile (·.op.isPhi)).map tagCall =
        (F.block b).insts.takeWhile (·.op.isPhi) := by
      conv => rhs; rw [← List.map_id' ((F.block b).insts.takeWhile (·.op.isPhi))]
      refine List.map_congr_left fun I hI => tagCall_of_isPhi (.inr ?_)
      exact List.mem_takeWhile_imp (p := fun I : Instruction => I.op.isPhi) hI
    have hrest := hinsts ((F.block b).insts.dropWhile (·.op.isPhi)) fun I hI =>
      hconst b hb I ((List.dropWhile_sublist _).subset hI)
    simp only [Machine.execBlock, heq, List.takeWhile_map, List.dropWhile_map, Function.comp_def,
      isPhi_tagCall, hphis, hrest]
    rfl
  constructor
  · exact fun h => h.congr hblock fun _ _ => rfl
  · exact fun h => h.congr (fun b hb p s => (hblock b hb p s).symm) fun _ _ => rfl

end

end

end VariOCL.IR.LoopInserter
