import VariOCL.ThreadInvariance.Updates
import Mathlib.Algebra.Order.BigOperators.Group.List

/-! The entries between two visits: those of blocks, arguments, global variables and allocas only go
down, the others are what their visit method computed last. -/

namespace VariOCL.ThreadInvariance

open IR (BlockId)

section
variable {F : Function} {order : SetOrder} {m m' m'' : InvarianceMap} {s s' s'' : State}
  {U V W : Value} {b c : BlockId} {r : InvarianceInfo Value} {I J : Instruction}

/-! ### The instructions of a function -/

theorem Function.inst_unique (hb : b ∈ F.layout) (hc : c ∈ F.layout) (hI : I ∈ (F.block b).all)
    (hJ : J ∈ (F.block c).all) (h : I.value = J.value) : b = c ∧ I = J := by
  have hid : I.id = J.id := by
    injection h
  have hnodup := List.nodup_flatMap.mp F.nodup
  have hbc : b = c := by
    by_contra hne
    have : Std.Symm (Function.onFun List.Disjoint fun b => (F.block b).all.map Instruction.id) :=
      ⟨fun _ _ h => h.symm⟩
    exact hnodup.2.forall hb hc hne (List.mem_map_of_mem hI) (hid ▸ List.mem_map_of_mem hJ)
  subst hbc
  exact ⟨rfl, List.inj_on_of_nodup_map (hnodup.1 b hb) hI hJ hid⟩

/-- The values whose entries are lowered from elsewhere. -/
inductive Function.Memory (F : Function) : Value → Prop
  | basicBlock (b : BlockId) : Memory F (.basicBlock b)
  | argument (i : Nat) (ty : Ty) : Memory F (.argument i ty)
  | globalVariable (name : String) (addressSpace : Nat) :
    Memory F (.constant (.globalVariable name addressSpace))
  | alloca {b : BlockId} {I : Instruction} : b ∈ F.layout → I ∈ (F.block b).all → I.op.isAlloca →
    Memory F I.value

theorem Function.not_memory (hb : b ∈ F.layout) (hI : I ∈ (F.block b).all)
    (hop : I.op.isAlloca = false) : ¬ F.Memory I.value := by
  intro h
  generalize hV : I.value = V at h
  cases h with
  | alloca hc hJ halloca =>
    obtain ⟨-, rfl⟩ := Function.inst_unique hb hc hI hJ hV
    rw [hop] at halloca
    cases halloca
  | _ => exact Value.noConfusion hV

theorem Function.Memory.of_isGlobalVariable (h : V.isGlobalVariable) : F.Memory V := by
  unfold Value.isGlobalVariable at h
  split at h
  · exact .globalVariable ..
  · cases h

/-- The invariance of such a value is its own entry, or the initial one. -/
theorem Function.Memory.getInvariance_congr (h : F.Memory V) (hV : m' V = m V) :
    getInvariance m' V = getInvariance m V := by
  cases h with
  | globalVariable => simp only [getInvariance, constantInvariance, hV]
  | _ => exact ThreadInvariance.getInvariance_congr (by simp [Instruction.value]) hV

/-! ### What changes besides the entry of the instruction -/

/-- Besides `V`, entries of memory are lower and the others are the same. -/
def Frame (F : Function) (V : Value) (m m' : InvarianceMap) : Prop :=
  ∀ W, W ≠ V → m' W = m W ∨ F.Memory W ∧ getInvariance m' W ≤ getInvariance m W

theorem Frame.refl (F : Function) (V : Value) (m : InvarianceMap) : Frame F V m m :=
  fun _ _ => .inl rfl

theorem Frame.trans (h : Frame F V m m') (h' : Frame F V m' m'') : Frame F V m m'' := by
  intro W hW
  rcases h W hW, h' W hW with ⟨heq | ⟨hM, hle⟩, heq' | ⟨hM', hle'⟩⟩
  · exact .inl (heq'.trans heq)
  · exact .inr ⟨hM', hle'.trans (hM'.getInvariance_congr heq).le⟩
  · exact .inr ⟨hM, (hM.getInvariance_congr heq').le.trans hle⟩
  · exact .inr ⟨hM, hle'.trans hle⟩

theorem Writes.frame (h : Writes s s' V r) : Frame F V s.variances s'.variances := by
  intro W hW
  refine (h.other W hW).imp_right fun ⟨⟨B, hB⟩, hle⟩ => ⟨?_, hle⟩
  subst hB
  exact .basicBlock B

theorem Writes.getInvariance_globalVariable (h : Writes s s' I.value r) (hV : V.isGlobalVariable) :
    getInvariance s'.variances V = getInvariance s.variances V := by
  unfold Value.isGlobalVariable at hV
  split at hV
  · next name addressSpace =>
    have heq := (h.other (.constant (.globalVariable name addressSpace))
      (by simp [Instruction.value])).resolve_right (by simp)
    simp only [getInvariance, constantInvariance, heq]
  · cases hV

theorem Frame.below (h : Frame F V m m') (hV : getInvariance m' V ≤ getInvariance m V) :
    m'.Below m := by
  refine InvarianceMap.below_of_entries fun W => ?_
  by_cases hW : W = V
  · subst hW
    exact .inr hV
  · exact (h W hW).imp_right And.right

theorem Frame.getInvariance_le (h : Frame F I.value m m') (hne : W ≠ I.value) :
    getInvariance m' W ≤ getInvariance m W :=
  getInvariance_le_of_entries (fun _ => (h _ (by simp [Instruction.value])).imp_right And.right)
    ((h W hne).imp_right And.right)

theorem Frame.le (h : Frame F V m m') (hU : F.Memory U) (hne : U ≠ V) :
    getInvariance m' U ≤ getInvariance m U :=
  (h U hne).elim (fun heq => (hU.getInvariance_congr heq).le) And.right

theorem Frame.getInvariance_eq (h : Frame F V m m') (hc : c ∈ F.layout) (hJ : J ∈ (F.block c).all)
    (hop : J.op.isAlloca = false) (hne : J.value ≠ V) :
    getInvariance m' J.value = getInvariance m J.value :=
  ThreadInvariance.getInvariance_congr (by simp [Instruction.value])
    ((h _ hne).resolve_right fun hM => F.not_memory hc hJ hop hM.1)

/-! ### The start -/

theorem initializeMap_entries (h : ∀ V, s.variances V = none ∨ ∃ r i ty, V = .argument i ty ∧
      s.variances V = some r ∧ r.width = ty.width) (V : Value) :
    (initializeMap F s).variances V = none ∨ ∃ r i ty, V = .argument i ty ∧
      (initializeMap F s).variances V = some r ∧ r.width = ty.width := by
  unfold initializeMap
  induction F.args.zipIdx generalizing s with
  | nil => exact h V
  | cons p ps ih =>
    refine ih fun W => ?_
    rcases variances_updateEntry s (.argument p.2 p.1) W _ with heq | ⟨rfl, heq⟩
    · rw [heq]
      exact h W
    · refine .inr ⟨_, _, _, rfl, heq, ?_⟩
      split <;> simp

/-- All entries but those of the arguments are the initial ones. -/
theorem start_entries (V : Value) : (start F).variances V = none ∨ ∃ r i ty, V = .argument i ty ∧
    (start F).variances V = some r ∧ r.width = ty.width :=
  initializeMap_entries (fun _ => .inl rfl) V

theorem width_initial (C : Constant) : C.initial.width = C.ty.width := by
  unfold Constant.initial
  dsimp only
  split <;> simp

/-! ### Widths -/

/-- The entries are as wide as the types say.  A constant pointer may stand for an operand of
another type. -/
def Widths (m : InvarianceMap) : Prop :=
  ∀ V, V.ty.isPointer = false ∨ (∀ C, V ≠ .constant C) → (getInvariance m V).width = V.ty.width

theorem getInvariance_congr_of_ty (hV : V.ty.isPointer = false ∨ ∀ C, V ≠ .constant C)
    (h : m' V = m V) : getInvariance m' V = getInvariance m V := by
  cases V with
  | constant C =>
    have hty : C.ty.isPointer = false := hV.resolve_right fun hC => hC C rfl
    cases C with
    | expr ty operand =>
      have hpointer : ty.isPointer = false := hty
      simp only [getInvariance, constantInvariance, h, hpointer, Bool.false_eq_true, if_false]
    | _ => simp only [getInvariance, constantInvariance, h]
  | _ => exact getInvariance_congr (by simp) h

theorem widths_start : Widths (start F).variances := by
  intro V h
  rcases start_entries (F := F) V with hnone | ⟨r, i, ty, rfl, hsome, hw⟩
  · rw [getInvariance_congr_of_ty (m := fun _ => none) h hnone]
    cases V with
    | constant C =>
      have hty : C.ty.isPointer = false := h.resolve_right fun hC => hC C rfl
      cases C with
      | expr ty operand =>
        have hpointer : ty.isPointer = false := hty
        simp only [getInvariance, constantInvariance, Option.getD_none, hpointer,
          Bool.false_eq_true, if_false]
        exact width_initial _
      | _ =>
        simp only [getInvariance, constantInvariance, Option.getD_none]
        exact width_initial _
    | _ => exact InvarianceInfo.width_ofWidth _
  · rw [getInvariance_of_some hsome]
    exact hw

theorem Widths.of_below (h : Widths m) (hm : m'.Below m) : Widths m' :=
  fun V hV => (hm V).1.trans (h V hV)

theorem Writes.widths (h : Writes s s' U r) (hs : Widths s.variances)
    (hr : U.ty.isPointer = false ∨ (∀ C, U ≠ .constant C) → r.width = U.ty.width) :
    Widths s'.variances := by
  intro V hV
  by_cases hVU : V = U
  · subst hVU
    exact h.le.1.trans (hr hV)
  · rcases h.other V hVU with heq | ⟨-, hle⟩
    · rw [getInvariance_congr_of_ty hV heq]
      exact hs V hV
    · exact hle.1.trans (hs V hV)

theorem Widths.value (h : Widths m) (I : Instruction) :
    (getInvariance m I.value).width = I.op.ty.width :=
  h _ (.inr (by simp [Instruction.value]))

theorem Widths.computed (h : Widths m) (hb : b ∈ F.layout) (hI : I ∈ (F.block b).all) :
    (DataFlow.computed F order m b I).width = I.op.ty.width := by
  refine DataFlow.width_computed fun vec elt index hop => ?_
  have htyped := F.typed b hb I hI
  rw [Instruction.isTyped, hop, Bool.not_eq_true'] at htyped
  exact h vec (.inl htyped)

theorem Op.width_of_isAlloca {op : Op} (h : op.isAlloca) : op.ty.width = 1 := by
  cases op <;> simp_all [Op.isAlloca, Op.ty, Ty.width]

theorem not_of_isGlobalVariable (h : V.isGlobalVariable) :
    ¬ (V.ty.isPointer = false ∨ ∀ C, V ≠ .constant C) := by
  unfold Value.isGlobalVariable at h
  split at h
  · rintro (hty | hC)
    · cases hty
    · exact hC _ rfl
  · cases h

namespace DataFlow

theorem isGlobalVariable_of_accessed {Ptr : Value} {p : Value × InvarianceInfo Value}
    (h : accessed s Ptr = some p) : p.1.isGlobalVariable := by
  obtain ⟨V, hV, rfl⟩ := Option.map_eq_some_iff.mp h
  exact (Bool.and_eq_true_iff.mp (Option.filter_eq_some_iff.mp hV).2).1

theorem isGlobalVariable_of_stored {ptr : Value} {ptrOperand result : InvarianceInfo Value}
    {p : Value × InvarianceInfo Value} (h : stored s ptr ptrOperand result = some p) :
    p.1.isGlobalVariable := by
  obtain ⟨V, hV, rfl⟩ := Option.map_eq_some_iff.mp h
  exact (Bool.and_eq_true_iff.mp (Option.filter_eq_some_iff.mp hV).2).1

theorem Accesses.widths {Ptr : Value} (h : Accesses F order s Ptr s') (hs : Widths s.variances) :
    Widths s'.variances := by
  cases h with
  | nothing => exact hs
  | argument =>
    exact updateArgument_writes.widths hs fun hV => InvarianceInfo.width_and.trans (hs _ hV)
  | globalVariable haccessed =>
    refine updateGlobalVariable_writes.widths hs fun hV => ?_
    exact absurd hV (not_of_isGlobalVariable (isGlobalVariable_of_accessed haccessed))

theorem Stores.widths {ptr : Value} {ptrOperand result : InvarianceInfo Value}
    (h : Stores F order s ptr ptrOperand result s') (hw : result.width = 1)
    (hs : Widths s.variances) : Widths s'.variances := by
  cases h with
  | nothing => exact hs
  | @alloca b inst hb hinst halloca =>
    refine updateInstruction_writes.widths hs fun _ => ?_
    rw [InvarianceInfo.width_and, hw]
    exact (Op.width_of_isAlloca halloca).symm
  | argument =>
    exact updateArgument_writes.widths hs fun hV => InvarianceInfo.width_and.trans (hs _ hV)
  | globalVariable hstored =>
    refine updateGlobalVariable_writes.widths hs fun hV => ?_
    exact absurd hV (not_of_isGlobalVariable (isGlobalVariable_of_stored hstored))

theorem widths_visit (hb : b ∈ F.layout) (hI : I ∈ (F.block b).all) (hs : Widths s.variances)
    (h : visit F order b s I = some s') : Widths s'.variances := by
  have hupdate : ∀ {s₀ s₁ : State}, Widths s₀.variances → Widths s₁.variances →
      Widths (updateInstruction F order b s₀ I (computed F order s₁.variances b I)).variances :=
    fun hs₀ hs₁ => updateInstruction_writes.widths hs₀ fun _ => hs₁.computed hb hI
  cases visit_visits h with
  | @update s₀ hvariances => exact hupdate (by rw [hvariances]; exact hs) hs
  | skip => exact hs
  | alloca hop hs₁ =>
    rcases hs₁ with rfl | ⟨-, rfl⟩
    · exact hupdate hs hs
    · have hs₁ : Widths (updateInstruction F order b s I (maybeNonInvariant I)).variances :=
        updateInstruction_writes.widths hs fun _ => width_maybeNonInvariant
      exact hupdate hs₁ hs₁
  | atomic hop _ hs₁ =>
    have hs₁ := hs₁.widths <| updateInstruction_writes.widths hs fun _ => by
      rw [InvarianceInfo.width_reset, InvarianceInfo.width_ofWidth, Instruction.value, hop]
      rfl
    exact hupdate hs₁ hs₁
  | store hop hs₁ =>
    refine hs₁.widths ?_ (hupdate hs hs)
    rw [hs.computed hb hI, hop]
    rfl

end DataFlow

theorem widths_run {n : Nat} (h : run F order n = some s) : Widths s.variances := by
  induction n generalizing s with
  | zero =>
    obtain rfl := Option.some.inj h
    exact widths_start
  | succ n ih =>
    obtain ⟨t, ht, ⟨-, rfl⟩ | ⟨b, work, hqueue, hblock⟩⟩ := run_succ_cases h
    · exact ih ht
    · have hb := mem_layout_of_queue ht hqueue
      exact Sim.foldlM_inv_rest (P := fun _ t => Widths t.variances) hblock (ih ht)
        fun _ _ _ _ _ hall _ hvisit hw => DataFlow.widths_visit hb (by simp [hall]) hw hvisit

/-! ### Entries that are not below what is computed from them -/

/-- No visit of an instruction other than an alloca would raise its entry. -/
def NoneRises (F : Function) (order : SetOrder) (m : InvarianceMap) : Prop :=
  ∀ b ∈ F.layout, ∀ I ∈ (F.block b).all, I.op.isAlloca = false →
    DataFlow.computed F order m b I ≤ getInvariance m I.value

theorem NoneRises.of_frame (h : NoneRises F order m) (hframe : Frame F I.value m m')
    (hbelow : m'.Below m) (hb : b ∈ F.layout) (hI : I ∈ (F.block b).all)
    (hvalue : I.op.isAlloca = false →
      DataFlow.computed F order m' b I ≤ getInvariance m' I.value) : NoneRises F order m' := by
  intro c hc J hJ hop
  by_cases hne : J.value = I.value
  · obtain ⟨rfl, rfl⟩ := Function.inst_unique hc hb hJ hI hne
    exact hvalue hop
  · rw [hframe.getInvariance_eq hc hJ hop hne]
    exact (DataFlow.computed_mono fun V _ => hbelow V).trans (h c hc J hJ hop)

/-! ### Memory -/

/-- The values whose entries are read. -/
def Function.values (F : Function) : List Value :=
  F.layout.flatMap fun b => (F.block b).all.flatMap fun I => I.value :: I.op.operands

theorem Function.value_mem (hb : b ∈ F.layout) (hI : I ∈ (F.block b).all) :
    I.value ∈ F.values :=
  List.mem_flatMap.mpr ⟨b, hb, List.mem_flatMap.mpr ⟨I, hI, List.mem_cons_self⟩⟩

theorem Function.mem_values_of_users (hc : c ∈ (F.users V).map Prod.fst) : V ∈ F.values := by
  obtain ⟨p, hp, rfl⟩ := List.mem_map.mp hc
  obtain ⟨hb, hI, hV⟩ := mem_users.mp hp
  exact List.mem_flatMap.mpr ⟨p.1, hb, List.mem_flatMap.mpr ⟨p.2, hI, List.mem_cons_of_mem _ hV⟩⟩

/-- Entries of memory are lower, and where blocks are queued one of them is. -/
structure Lowers (F : Function) (s s' : State) : Prop where
  entries : ∀ W, s'.variances W = s.variances W ∨
    F.Memory W ∧ getInvariance s'.variances W ≤ getInvariance s.variances W
  queued : ∀ c ∈ s'.queue, c ∈ s.queue ∨ ∃ U ∈ F.values, F.Memory U ∧
    ¬ getInvariance s.variances U ≤ getInvariance s'.variances U

theorem Lowers.refl (F : Function) (s : State) : Lowers F s s := ⟨fun _ => .inl rfl, fun _ => .inl⟩

theorem Lowers.of_writes (h : Writes s s' U r) (hU : F.Memory U)
    (hr : r ≤ getInvariance s.variances U) (hqueue : ∀ c ∈ s'.queue, c ∈ s.queue ∨
      (getInvariance s.variances U).eq r = false ∧ U ∈ F.values) : Lowers F s s' where
  entries W := by
    by_cases hW : W = U
    · subst hW
      exact .inr ⟨hU, h.le.trans hr⟩
    · exact h.frame W hW
  queued c hc := by
    refine (hqueue c hc).imp_right fun ⟨hne, hmem⟩ => ⟨U, hmem, hU, fun hle => ?_⟩
    rw [InvarianceInfo.eq_iff.mpr ⟨hle.trans h.le, hr⟩] at hne
    cases hne

theorem Lowers.below (h : Lowers F s s') : s'.variances.Below s.variances :=
  InvarianceMap.below_of_entries fun W => (h.entries W).imp_right And.right

theorem Lowers.frame (h : Lowers F s s') (V : Value) : Frame F V s.variances s'.variances :=
  fun W _ => h.entries W

theorem NoneRises.lowers (hlow : NoneRises F order s.variances) (h : Lowers F s s') :
    NoneRises F order s'.variances := by
  intro b hb I hI hop
  have hentry : getInvariance s'.variances I.value = getInvariance s.variances I.value :=
    getInvariance_congr (by simp [Instruction.value])
      ((h.entries I.value).resolve_right fun hM => F.not_memory hb hI hop hM.1)
  rw [hentry]
  exact (DataFlow.computed_mono fun V _ => h.below V).trans (hlow b hb I hI hop)

namespace DataFlow

theorem lowers_updateArgument {i : Nat} {ty : Ty} :
    Lowers F s (updateArgument F order s (.argument i ty) r) := by
  refine .of_writes updateArgument_writes (.argument i ty) InvarianceInfo.and_le_left fun c hc => ?_
  exact (of_mem_queue_updateArgument hc).imp_right
    (And.imp_right fun husers => Function.mem_values_of_users husers)

theorem lowers_updateGlobalVariable {GV : Value} (hGV : GV.isGlobalVariable)
    (hr : r ≤ getInvariance s.variances GV) : Lowers F s (updateGlobalVariable F order s GV r) := by
  refine .of_writes updateGlobalVariable_writes (.of_isGlobalVariable hGV) hr fun c hc => ?_
  exact (of_mem_queue_updateGlobalVariable hc).imp_right
    (And.imp_right fun husers => Function.mem_values_of_users husers)

theorem Accesses.lowers {Ptr : Value} (h : Accesses F order s Ptr s')
    (hglobal : ∀ p, accessed s Ptr = some p → p.2 ≤ getInvariance s.variances p.1) :
    Lowers F s s' := by
  cases h with
  | nothing => exact .refl F s
  | argument => exact lowers_updateArgument
  | globalVariable haccessed =>
    exact lowers_updateGlobalVariable (isGlobalVariable_of_accessed haccessed) (hglobal _ haccessed)

theorem Stores.lowers {ptr : Value} {ptrOperand result : InvarianceInfo Value}
    (h : Stores F order s ptr ptrOperand result s') (hs : Widths s.variances)
    (hw : result.width = 1)
    (hglobal : ∀ p, stored s ptr ptrOperand result = some p → p.2 ≤ getInvariance s.variances p.1) :
    Lowers F s s' := by
  cases h with
  | nothing => exact .refl F s
  | @alloca b inst hb hinst halloca =>
    have hwidth : result.width = (getInvariance s.variances inst.value).width := by
      rw [hw, hs.value inst, Op.width_of_isAlloca halloca]
    refine .of_writes updateInstruction_writes (.alloca hb hinst halloca)
      (InvarianceInfo.and_le_right hwidth) fun c hc => ?_
    exact (of_mem_queue_updateInstruction hc).imp_right
      (And.imp_right fun _ => Function.value_mem hb hinst)
  | argument => exact lowers_updateArgument
  | globalVariable hstored =>
    exact lowers_updateGlobalVariable (isGlobalVariable_of_stored hstored) (hglobal _ hstored)

end DataFlow

end

end VariOCL.ThreadInvariance
