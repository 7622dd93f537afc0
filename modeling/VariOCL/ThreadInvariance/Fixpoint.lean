import VariOCL.ThreadInvariance.Descent
import Mathlib.Tactic.FinCases

/-! The entries are a fixpoint of the visit methods once the queue is empty, where every visit
queues the blocks that read what it changes. -/

namespace VariOCL.ThreadInvariance

open IR (BlockId)

/-! ### Lanes -/

namespace InvarianceInfo

variable {V : Type} {a b c : InvarianceInfo V}

theorem eq_of_scalar (ha : a.width = 1) (hb : b.width = 1)
    (h : (a.lane 0).invariances = (b.lane 0).invariances) : a.eq b = true := by
  refine eq_iff.mpr ⟨le_of_lanes (ha.trans hb.symm) fun k hk => ?_,
    le_of_lanes (hb.trans ha.symm) fun k hk => ?_⟩
  · obtain rfl : k = 0 := by omega
    exact h.le
  · obtain rfl : k = 0 := by omega
    exact h.ge

/-- A scalar is met with the first lane. -/
theorem lane_and_scalar (ha : a.width = 1) :
    ((a.and b).lane 0).invariances = (a.lane 0).invariances ⊓ (b.lane 0).invariances := by
  rw [lane_and (by omega), if_pos (Or.inl ha), ite_self, ScalarInvarianceInfo.invariances_and]

/-- Of `a` at most what is in `R` is lost. -/
structure Between (R : Levels) (a a' : InvarianceInfo V) : Prop where
  ge : R ≤ (a'.lane 0).invariances
  le : (a'.lane 0).invariances ≤ (a.lane 0).invariances
  pos : 0 < a.width → 0 < a'.width

theorem Between.refl {R : Levels} (h : R ≤ (a.lane 0).invariances) : Between R a a :=
  ⟨h, le_rfl, id⟩

theorem Between.congr {R : Levels} (h : Between R a b) (hc : b.eq c = true) : Between R a c where
  ge := h.ge.trans ((eq_iff.mp hc).1.2 0)
  le := ((eq_iff.mp hc).2.2 0).trans h.le
  pos ha := (h.pos ha).trans_eq (eq_iff.mp hc).1.1

/-- Where there is no lane nothing changes. -/
theorem Between.of_width {R : Levels} (hR : R ≤ (a.lane 0).invariances) (hw : b.width = a.width)
    (h : 0 < a.width → R ≤ (b.lane 0).invariances ∧
      (b.lane 0).invariances ≤ (a.lane 0).invariances) : Between R a b := by
  by_cases ha : 0 < a.width
  · exact ⟨(h ha).1, (h ha).2, fun _ => hw ▸ ha⟩
  · have hlane : b.lane 0 = a.lane 0 := by
      rw [lane_of_width_le (by omega), lane_of_width_le (by omega)]
    exact ⟨hlane ▸ hR, by rw [hlane], fun ha' => absurd ha' ha⟩

theorem Between.and {R : Levels} (hR : R ≤ (a.lane 0).invariances)
    (hb : R ≤ (b.lane 0).invariances) : Between R a (a.and b) := by
  refine .of_width hR width_and fun hw => ⟨?_, lane_and_le hw⟩
  rw [lane_and hw]
  split_ifs
  · rw [ScalarInvarianceInfo.invariances_and]
    exact le_inf hR hb
  · rw [ScalarInvarianceInfo.invariances_and]
    exact le_inf hR hb
  · exact hR

end InvarianceInfo

theorem InvarianceInfo.width_setGlobal (a : InvarianceInfo Value) (kinds : Fin 3 → InvarianceKind) :
    (a.setGlobal kinds).width = a.width :=
  InvarianceInfo.width_modifyLane ..

theorem InvarianceInfo.Between.setGlobal {R : Levels} {a : InvarianceInfo Value}
    (hR : R ≤ (a.lane 0).invariances) : Between R a (a.setGlobal (R .kDimGlobal)) := by
  refine .of_width hR (width_setGlobal ..) fun hw => ?_
  have hlane : ((a.setGlobal (R .kDimGlobal)).lane 0).invariances = fun level axis =>
      if level = .kDimGlobal then R .kDimGlobal axis else (a.lane 0).invariances level axis := by
    rw [InvarianceInfo.setGlobal, InvarianceInfo.lane_modifyLane hw, if_pos rfl]
    funext level axis
    fin_cases axis <;> simp [ScalarInvarianceInfo.set]
  rw [hlane]
  constructor
  · intro level axis
    dsimp only
    split
    · next hlevel => rw [hlevel]
    · exact hR level axis
  · intro level axis
    dsimp only
    split
    · next hlevel =>
      rw [hlevel]
      exact hR .kDimGlobal axis
    · exact le_rfl

section
variable {F : Function} {order : SetOrder} {m m' : InvarianceMap} {s s₀ s₁ s' : State}
  {V : Value} {b c : BlockId} {r : InvarianceInfo Value} {I J : Instruction}

namespace DataFlow

theorem computed_congr (h : ∀ V ∈ reads F b I.op,
      (getInvariance m' V).eq (getInvariance m V) = true) :
    (computed F order m' b I).eq (computed F order m b I) = true :=
  InvarianceInfo.eq_iff.mpr
    ⟨computed_mono fun V hV => (InvarianceInfo.eq_iff.mp (h V hV)).1,
      computed_mono fun V hV => (InvarianceInfo.eq_iff.mp (h V hV)).2⟩

/-! ### Stores -/

theorem between_of_entries {R : Levels} {U : Value}
    (hentry : ∀ W, W ≠ U → (∀ B, W ≠ .basicBlock B) → m' W = m W)
    (hU : R ≤ ((getInvariance m U).lane 0).invariances →
      InvarianceInfo.Between R (getInvariance m U) (getInvariance m' U))
    (hB : ∀ B, V ≠ .basicBlock B) (hV : R ≤ ((getInvariance m V).lane 0).invariances) :
    InvarianceInfo.Between R (getInvariance m V) (getInvariance m' V) := by
  by_cases hVU : V = U
  · subst hVU
    exact hU hV
  · have hentryV := hentry V hVU hB
    cases V with
    | constant C =>
      induction C with
      | expr ty operand ih =>
        have hoperand : R ≤ ((constantInvariance m operand).lane 0).invariances →
            InvarianceInfo.Between R (constantInvariance m operand)
              (constantInvariance m' operand) := by
          intro hR
          by_cases heq : Value.constant operand = U
          · subst heq
            exact hU hR
          · exact ih (by simp) hR heq (hentry _ heq (by simp))
        simp only [getInvariance, constantInvariance, hentryV] at hV ⊢
        generalize m (.constant (.expr ty operand)) = entry at hV ⊢
        cases entry with
        | some r => exact .refl hV
        | none =>
          dsimp only [Option.getD_none] at hV ⊢
          by_cases hty : ty.isPointer = true
          · simp only [if_pos hty] at hV ⊢
            rw [InvarianceInfo.invariances_resetPointer] at hV
            obtain ⟨hge, hle, hpos⟩ := hoperand hV
            constructor <;> simpa
          · simp only [if_neg hty] at hV ⊢
            exact .refl hV
      | _ =>
        simp only [getInvariance, constantInvariance, hentryV] at hV ⊢
        exact .refl hV
    | _ =>
      simp only [getInvariance, hentryV] at hV ⊢
      exact .refl hV

/-- The base pointer loses no more than the store has lost. -/
theorem Stores.between {ptr : Value} {ptrOperand result : InvarianceInfo Value}
    (h : Stores F order s ptr ptrOperand result s') (hw : result.width = 1)
    (hB : ∀ B, V ≠ .basicBlock B)
    (hV : (result.lane 0).invariances ≤ ((getInvariance s.variances V).lane 0).invariances) :
    InvarianceInfo.Between (result.lane 0).invariances (getInvariance s.variances V)
      (getInvariance s'.variances V) := by
  cases h with
  | nothing => exact .refl hV
  | @alloca b inst hb hinst halloca =>
    have hwrites : Writes s (updateInstruction F order b s inst
        (result.and (getInvariance s.variances inst.value))) inst.value
        (result.and (getInvariance s.variances inst.value)) := updateInstruction_writes
    by_cases heq : V = inst.value
    · subst heq
      refine InvarianceInfo.Between.congr ?_ (InvarianceInfo.eq_symm hwrites.value)
      constructor
      · rw [InvarianceInfo.lane_and_scalar hw]
        exact le_inf le_rfl hV
      · rw [InvarianceInfo.lane_and_scalar hw]
        exact inf_le_right
      · intro
        rw [InvarianceInfo.width_and, hw]
        exact Nat.one_pos
    · rw [hwrites.getInvariance_eq (by simp [Instruction.value]) heq hB]
      exact .refl hV
  | @argument i ty r hty hr =>
    have hwrites : Writes s (updateArgument F order s (.argument i ty) r) (.argument i ty)
        ((getInvariance s.variances (.argument i ty)).and r) := updateArgument_writes
    by_cases heq : V = .argument i ty
    · subst heq
      refine InvarianceInfo.Between.congr (.and hV ?_) (InvarianceInfo.eq_symm hwrites.value)
      rcases hr with rfl | rfl
      · exact le_rfl
      · exact (InvarianceInfo.Between.setGlobal hV).ge
    · rw [hwrites.getInvariance_eq (by simp) heq hB]
      exact .refl hV
  | @globalVariable GV r hstored =>
    have hwrites : Writes s (updateGlobalVariable F order s GV r) GV r :=
      updateGlobalVariable_writes
    obtain ⟨GV, -, heq⟩ := Option.map_eq_some_iff.mp hstored
    obtain ⟨rfl, rfl⟩ := Prod.mk.injEq .. ▸ heq
    refine between_of_entries (U := GV) (fun W hW hB => ?_) (fun hGV => ?_) hB hV
    · exact (hwrites.other W hW).resolve_right fun h => h.1.elim hB
    · exact (InvarianceInfo.Between.setGlobal hGV).congr (InvarianceInfo.eq_symm hwrites.value)

theorem lane_computed_store (F : Function) (order : SetOrder) (m : InvarianceMap) (b : BlockId)
    {val ptr : Value} (hop : I.op = .store val ptr) :
    (computed F order m b I).width = 1 ∧ ((computed F order m b I).lane 0).invariances =
      ((getInvariance m ptr).lane 0).invariances ⊓ ((getInvariance m val).lane 0).invariances := by
  have hw : (InvarianceInfo.ofWidth I.op.ty.width : InvarianceInfo Value).width = 1 := by
    rw [InvarianceInfo.width_ofWidth, hop]
    rfl
  have hunknown : ∀ R : Levels,
      (ScalarInvarianceInfo.unknown : ScalarInvarianceInfo Value).invariances ⊓ R = R :=
    fun R => inf_eq_right.mpr fun _ _ => InvarianceKind.le_kUnknown _
  simp only [computed, hop] at hw ⊢
  refine ⟨by rw [InvarianceInfo.width_and, InvarianceInfo.width_and, hw], ?_⟩
  rw [InvarianceInfo.lane_and_scalar (by rw [InvarianceInfo.width_and, hw]),
    InvarianceInfo.lane_and_scalar hw, InvarianceInfo.lane_ofWidth, hunknown]

/-! ### Settled instructions -/

/-- The visit method computes the entry. -/
def Settled (F : Function) (order : SetOrder) (s : State) (b : BlockId) (I : Instruction) : Prop :=
  inRange s.variances I = true ∧
    (computed F order s.variances b I).eq (getInvariance s.variances I.value) = true

theorem Settled.of_writes (hrange : inRange s.variances I = true)
    (h : Writes s s' I.value (computed F order s.variances b I))
    (hself : ∀ V ∈ reads F b I.op, V = I.value ∨ (∃ B, V = .basicBlock B) →
      (getInvariance s'.variances V).eq (getInvariance s.variances V) = true) :
    Settled F order s' b I := by
  have hreads : ∀ V ∈ reads F b I.op,
      (getInvariance s'.variances V).eq (getInvariance s.variances V) = true := by
    intro V hV
    by_cases hV' : V = I.value ∨ ∃ B, V = .basicBlock B
    · exact hself V hV hV'
    · push Not at hV'
      rw [h.getInvariance_eq (by simp [Instruction.value]) hV'.1 hV'.2]
      exact InvarianceInfo.eq_refl _
  refine ⟨?_, InvarianceInfo.eq_trans (computed_congr hreads) (InvarianceInfo.eq_symm h.value)⟩
  rw [inRange_congr fun V hV => (InvarianceInfo.eq_iff.mp (hreads V hV)).1.1]
  exact hrange

theorem Accesses.variances_inst {Ptr : Value} (h : Accesses F order s Ptr s') (I : Instruction) :
    s'.variances I.value = s.variances I.value := by
  cases h with
  | nothing => rfl
  | argument => exact updateArgument_writes.variances_inst (by simp [Instruction.value])
  | globalVariable haccessed =>
    refine updateGlobalVariable_writes.variances_inst ?_
    rintro rfl
    cases isGlobalVariable_of_accessed haccessed

theorem Stores.variances_inst {ptr : Value} {ptrOperand result : InvarianceInfo Value}
    (h : Stores F order s ptr ptrOperand result s') (hc : c ∈ F.layout) (hI : I ∈ (F.block c).all)
    (hop : I.op.isAlloca = false) : s'.variances I.value = s.variances I.value := by
  cases h with
  | nothing => rfl
  | alloca hb hinst halloca =>
    refine updateInstruction_writes.variances_inst fun heq => ?_
    exact F.not_memory hc hI hop (heq ▸ .alloca hb hinst halloca)
  | argument => exact updateArgument_writes.variances_inst (by simp [Instruction.value])
  | globalVariable hstored =>
    refine updateGlobalVariable_writes.variances_inst ?_
    rintro rfl
    cases isGlobalVariable_of_stored hstored

/-- A call to a SafeAtomic function is settled by its second write. -/
theorem Settled.of_atomic {ty : Ty} {args : List Value} {Called : Value}
    (hrange : inRange s.variances I = true) (hop : I.op = .call ty args Called)
    (hfirst : Writes s s₀ I.value ((InvarianceInfo.ofWidth ty.width).reset .kNonInvariant))
    (hs₁ : s₁.variances I.value = s₀.variances I.value)
    (hs' : s' = updateInstruction F order b s₁ I (computed F order s₁.variances b I)) :
    Settled F order s' b I := by
  have hlast : Writes s₁ s' I.value (computed F order s₁.variances b I) := by
    rw [hs']
    exact updateInstruction_writes
  have hentry : getInvariance s₁.variances I.value = getInvariance s₀.variances I.value :=
    getInvariance_congr (by simp [Instruction.value]) hs₁
  have hw : (getInvariance s₁.variances I.value).width = ty.width := by
    rw [hentry, (InvarianceInfo.le_def.mp hfirst.le).1]
    simp
  refine ⟨by simpa only [inRange, hop] using hrange, ?_⟩
  refine InvarianceInfo.eq_trans (computed_congr fun V hV => ?_)
    (InvarianceInfo.eq_symm hlast.value)
  by_cases hVI : V = I.value
  · subst hVI
    have hle : computed F order s₁.variances b I ≤ getInvariance s₁.variances I.value :=
      computed_le_of_reads hop hV hw
    refine InvarianceInfo.eq_iff.mpr ⟨hlast.le.trans hle, ?_⟩
    rw [hentry]
    refine hfirst.le.trans ((InvarianceInfo.reset_kNonInvariant_le ?_).trans hlast.ge)
    rw [InvarianceInfo.width_ofWidth, (InvarianceInfo.le_def.mp hle).1, hw]
  · have hentries : ∀ W, W ≠ I.value → s'.variances W = s₁.variances W := fun W hW => by
      rw [hs']
      exact updateInstruction_variances (by simp [hop, Op.isTerminator]) hW
    rw [getInvariance_eq_of_entries (fun C => hentries _ (by simp [Instruction.value]))
      (hentries V hVI)]
    exact InvarianceInfo.eq_refl _

/-- A store that changes what it reads through the base pointer still computes the same. -/
theorem Settled.of_store {val ptr : Value} (hrange : inRange s.variances I = true)
    (hb : b ∈ F.layout) (hI : I ∈ (F.block b).all) (hop : I.op = .store val ptr)
    (hs' : Stores F order (updateInstruction F order b s I (computed F order s.variances b I)) ptr
      (getInvariance s.variances ptr) (computed F order s.variances b I) s')
    (hself : ∀ V ∈ reads F b I.op, V = I.value ∨ (∃ B, V = .basicBlock B) →
      (getInvariance s'.variances V).eq (getInvariance s.variances V) = true) :
    Settled F order s' b I := by
  have hwrites : Writes s (updateInstruction F order b s I (computed F order s.variances b I))
      I.value (computed F order s.variances b I) := updateInstruction_writes
  have hentry := hs'.variances_inst hb hI (by simp [hop, Op.isAlloca])
  obtain ⟨hw, hlane⟩ := lane_computed_store F order s.variances b hop
  obtain ⟨hw', hlane'⟩ := lane_computed_store F order s'.variances b hop
  have hbetween : ∀ V ∈ reads F b I.op, InvarianceInfo.Between
      ((computed F order s.variances b I).lane 0).invariances (getInvariance s.variances V)
      (getInvariance s'.variances V) := by
    intro V hV
    have hle : ((computed F order s.variances b I).lane 0).invariances ≤
        ((getInvariance s.variances V).lane 0).invariances := by
      rw [hop] at hV
      simp only [reads, List.mem_cons, List.not_mem_nil, or_false] at hV
      rw [hlane]
      rcases hV with rfl | rfl
      · exact inf_le_right
      · exact inf_le_left
    by_cases hV' : V = I.value ∨ ∃ B, V = .basicBlock B
    · exact (InvarianceInfo.Between.refl hle).congr (InvarianceInfo.eq_symm (hself V hV hV'))
    · push Not at hV'
      have heq := hwrites.getInvariance_eq (by simp [Instruction.value]) hV'.1 hV'.2
      rw [← heq] at hle ⊢
      exact hs'.between hw hV'.2 hle
  have hptr := hbetween ptr (by simp [hop, reads])
  have hval := hbetween val (by simp [hop, reads])
  constructor
  · simp only [inRange, hop, decide_eq_true_eq] at hrange ⊢
    exact hptr.pos hrange
  refine InvarianceInfo.eq_trans (InvarianceInfo.eq_of_scalar hw' hw ?_) ?_
  · rw [hlane']
    refine le_antisymm ?_ (le_inf hptr.ge hval.ge)
    rw [hlane]
    exact inf_le_inf hptr.le hval.le
  · rw [getInvariance_congr (by simp [Instruction.value]) hentry]
    exact InvarianceInfo.eq_symm hwrites.value

/-- Besides its own entry, a visit changes no entries of instructions but those of allocas. -/
theorem visit_variances_inst (hc : c ∈ F.layout) (hI : I ∈ (F.block c).all)
    (hop : I.op.isAlloca = false) (hne : I.value ≠ J.value) (h : visit F order b s J = some s') :
    s'.variances I.value = s.variances I.value := by
  have hupdate : ∀ (t : State) r, (updateInstruction F order b t J r).variances I.value =
      t.variances I.value := fun t r => updateInstruction_writes.variances_inst hne
  cases visit_visits h with
  | update hvariances => rw [hupdate, hvariances]
  | skip => rfl
  | alloca _ hs₁ =>
    rcases hs₁ with rfl | ⟨-, rfl⟩
    · rw [hupdate]
    · rw [hupdate, hupdate]
  | atomic _ _ hs₁ => rw [hupdate, hs₁.variances_inst, hupdate]
  | store _ hs₁ => rw [hs₁.variances_inst hc hI hop, hupdate]

/-- The visit of an instruction settles it, where what it reads of its own and of blocks stays. -/
theorem visit_settled (hb : b ∈ F.layout) (hI : I ∈ (F.block b).all) (hop : I.op.isAlloca = false)
    (hskips : skips I.op = false) (h : visit F order b s I = some s')
    (hself : ∀ V ∈ reads F b I.op, V = I.value ∨ (∃ B, V = .basicBlock B) →
      (getInvariance s'.variances V).eq (getInvariance s.variances V) = true) :
    Settled F order s' b I := by
  have hrange := inRange_of_visit h
  cases visit_visits h with
  | update hvariances =>
    exact .of_writes hrange (updateInstruction_writes.of_variances hvariances.symm rfl) hself
  | skip hskip =>
    rw [hskips] at hskip
    cases hskip
  | alloca hop' =>
    rw [hop'] at hop
    cases hop
  | atomic hop' _ hs₁ =>
    exact .of_atomic hrange hop' updateInstruction_writes (hs₁.variances_inst I) rfl
  | store hop' hs₁ => exact .of_store hrange hb hI hop' hs₁ hself

end DataFlow

/-! ### The run -/

def Value.isBasicBlock : Value → Bool
  | .basicBlock _ => true
  | _ => false

/-- Where the visit of `J` changes an invariance that another instruction reads, or `J` its own or
one of a block, the reader is behind `J` or its block is in the queue. -/
def Notifies (F : Function) (order : SetOrder) (b : BlockId) (s : State) (J : Instruction)
    (rest : List Instruction) : Prop :=
  ∀ s' ∈ DataFlow.visit F order b s J,
    ∀ c ∈ F.layout, ∀ I ∈ (F.block c).all, I.op.isAlloca = false → ∀ V ∈ DataFlow.reads F c I.op,
      (I.value = J.value → V = J.value ∨ V.isBasicBlock) →
      (getInvariance s'.variances V).eq (getInvariance s.variances V) = false →
      c ∈ s'.queue ∨ c = b ∧ I ∈ rest

/-- Every instruction is settled, or its block is in the queue or being visited. -/
def Pending (F : Function) (order : SetOrder) (s : State) (b : BlockId)
    (rest : List Instruction) : Prop :=
  ∀ c ∈ F.layout, ∀ I ∈ (F.block c).all, I.op.isAlloca = false →
    DataFlow.Settled F order s c I ∨ c ∈ s.queue ∨ c = b ∧ I ∈ rest

theorem Pending.visit {rest : List Instruction} (h : Pending F order s b (J :: rest))
    (hb : b ∈ F.layout) (hJ : J ∈ (F.block b).all) (hskips : DataFlow.skips J.op = false)
    (hnotifies : Notifies F order b s J rest) (hvisit : DataFlow.visit F order b s J = some s') :
    Pending F order s' b rest := by
  intro c hc I hI hop
  by_contra hnot
  push Not at hnot
  obtain ⟨hsettled, hqueue, hrest⟩ := hnot
  have hreads : ∀ V ∈ DataFlow.reads F c I.op,
      (I.value = J.value → V = J.value ∨ V.isBasicBlock) →
      (getInvariance s'.variances V).eq (getInvariance s.variances V) = true := by
    intro V hV hself
    by_contra hne
    rcases hnotifies s' hvisit c hc I hI hop V hV hself (Bool.eq_false_iff.mpr hne) with
      hmem | ⟨heq, hmem⟩
    · exact hqueue hmem
    · exact hrest heq hmem
  by_cases hIJ : I.value = J.value
  · obtain ⟨rfl, rfl⟩ := Function.inst_unique hc hb hI hJ hIJ
    refine hsettled (DataFlow.visit_settled hb hI hop hskips hvisit fun V hV hself =>
      hreads V hV fun _ => ?_)
    refine hself.imp_right ?_
    rintro ⟨B, rfl⟩
    rfl
  · have hreads' : ∀ V ∈ DataFlow.reads F c I.op,
        (getInvariance s'.variances V).eq (getInvariance s.variances V) = true :=
      fun V hV => hreads V hV fun heq => absurd heq hIJ
    have hentry : getInvariance s'.variances I.value = getInvariance s.variances I.value :=
      getInvariance_congr (by simp [Instruction.value])
        (DataFlow.visit_variances_inst hc hI hop hIJ hvisit)
    rcases h c hc I hI hop with hold | hmem | ⟨rfl, hmem⟩
    · refine hsettled ?_
      rw [DataFlow.Settled, hentry, DataFlow.inRange_congr fun V hV =>
        (InvarianceInfo.eq_iff.mp (hreads' V hV)).1.1]
      exact ⟨hold.1, InvarianceInfo.eq_trans (DataFlow.computed_congr hreads') hold.2⟩
    · exact hqueue ((DataFlow.visit_queues hvisit).mem hmem)
    · rcases List.mem_cons.mp hmem with rfl | hmem
      · exact hIJ rfl
      · exact hrest rfl hmem

theorem run_pending (hskips : ∀ b ∈ F.layout, ∀ I ∈ (F.block b).all, DataFlow.skips I.op = false)
    (h : ∀ n b s I rest, VisitedAt F order n b s I rest → Notifies F order b s I rest) {n : Nat}
    (hn : run F order n = some s) : ∀ c ∈ F.layout, ∀ I ∈ (F.block c).all,
      I.op.isAlloca = false → DataFlow.Settled F order s c I ∨ c ∈ s.queue := by
  induction n generalizing s with
  | zero =>
    obtain rfl := Option.some.inj hn
    exact fun c hc _ _ _ => .inr ((queue_start (F := F)).symm ▸ hc)
  | succ n ih =>
    obtain ⟨t, ht, ⟨-, rfl⟩ | ⟨b, work, hqueue, hblock⟩⟩ := run_succ_cases hn
    · exact ih ht
    have hb := mem_layout_of_queue ht hqueue
    have hstart : Pending F order { t with queue := work } b (F.block b).all := by
      intro c hc I hI hop
      rcases ih ht c hc I hI hop with hold | hmem
      · exact .inl hold
      · rw [hqueue] at hmem
        rcases List.mem_cons.mp hmem with rfl | hmem
        · exact .inr (.inr ⟨rfl, hI⟩)
        · exact .inr (.inl hmem)
    have hend := Sim.foldlM_inv_rest (P := fun rest t => Pending F order t b rest) hblock hstart
      fun pre J rest t₁ t₂ hall hpre hvisit hpending => by
        have hJ : J ∈ (F.block b).all := by simp [hall]
        exact hpending.visit hb hJ (hskips b hb J hJ)
          (h n b t₁ J rest ⟨t, work, pre, ht, hqueue, hall, hpre⟩) hvisit
    intro c hc I hI hop
    refine (hend c hc I hI hop).imp_right fun hor => hor.resolve_right fun hmem => ?_
    cases hmem.2

/-- The visit methods compute the entries of all instructions but the allocas. -/
def Fixpoint (F : Function) (order : SetOrder) (s : State) : Prop :=
  ∀ b ∈ F.layout, ∀ I ∈ (F.block b).all, I.op.isAlloca = false →
    DataFlow.inRange s.variances I = true ∧
      (DataFlow.computed F order s.variances b I).eq (getInvariance s.variances I.value) = true

/-- With an empty queue the entries are a fixpoint, if every visit queues the readers of what it
changes. -/
theorem fixpoint_run (hskips : ∀ b ∈ F.layout, ∀ I ∈ (F.block b).all, DataFlow.skips I.op = false)
    (h : ∀ n b s I rest, VisitedAt F order n b s I rest → Notifies F order b s I rest) {n : Nat}
    (hn : run F order n = some s) (hqueue : s.queue = []) : Fixpoint F order s := by
  intro b hb I hI hop
  refine (run_pending hskips h hn b hb I hI hop).resolve_right fun hmem => ?_
  rw [hqueue] at hmem
  cases hmem

end

instance {F : Function} {order : SetOrder} {b : BlockId} {s : State} {J : Instruction}
    {rest : List Instruction} : Decidable (Notifies F order b s J rest) :=
  inferInstanceAs (Decidable (∀ s' ∈ DataFlow.visit F order b s J,
    ∀ c ∈ F.layout, ∀ I ∈ (F.block c).all, I.op.isAlloca = false → ∀ V ∈ DataFlow.reads F c I.op,
      (I.value = J.value → V = J.value ∨ V.isBasicBlock) →
      (getInvariance s'.variances V).eq (getInvariance s.variances V) =
        false → c ∈ s'.queue ∨ c = b ∧ I ∈ rest))

instance {F : Function} {order : SetOrder} {s : State} : Decidable (Fixpoint F order s) :=
  inferInstanceAs (Decidable (∀ b ∈ F.layout, ∀ I ∈ (F.block b).all, I.op.isAlloca = false →
    DataFlow.inRange s.variances I = true ∧
      (DataFlow.computed F order s.variances b I).eq (getInvariance s.variances I.value) = true))

/-- What is stored in one block is loaded in the next. -/
def chain : Function where
  name := "f_kernel"
  args := [.other]
  entry := 0
  rest := [1]
  block
    | 0 => ⟨[⟨0, .alloca (.constant (.int 1))⟩,
        ⟨1, .call (.vector 4) [] (.constant (.function ⟨"__amdil_get_local_id_int", true⟩))⟩,
        ⟨2, .extractElement .other (.inst 1 (.vector 4)) (.constant (.int 0))⟩,
        ⟨3, .store (.inst 2 .other) (.inst 0 (.pointer 0))⟩], ⟨4, .br none⟩, [1]⟩
    | _ => ⟨[⟨5, .load .other (.inst 0 (.pointer 0))⟩,
        ⟨6, .standard .other [.inst 5 .other, .argument 0 .other]⟩], ⟨7, .terminator []⟩, []⟩
  nodup := by decide
  typed := by decide

theorem fixpoint_run_chain : ∃ n s, run chain .inOrder n = some s ∧ s.queue = [] ∧
    Fixpoint chain .inOrder s := by
  obtain ⟨s, hs, hqueue⟩ : ∃ s, run chain .inOrder 2 = some s ∧ s.queue = [] := by
    decide +kernel
  have hnotifies : ∀ n ∈ [0, 1], ∀ t ∈ run chain .inOrder n, ∀ c ∈ t.queue.head?,
      Sim.ForallSteps (DataFlow.visit chain .inOrder c) (Notifies chain .inOrder c)
        { t with queue := t.queue.tail } (chain.block c).all := by
    decide +kernel
  refine ⟨2, s, hs, hqueue, fixpoint_run (by decide) (fun n b t I rest h => ?_) hs hqueue⟩
  have hlt := h.lt_of_queue_eq_nil hs hqueue
  exact h.get (hnotifies n (by simp; omega))

/-! ### A branch that varies behind a PHI -/

/-- The branch is on what another work-item may have stored; the PHI comes before the store. -/
def phiAfterBranch : Function where
  name := "f_kernel"
  args := []
  entry := 0
  rest := [1, 2, 3, 4, 5]
  block
    | 0 => ⟨[⟨0, .alloca (.constant (.int 1))⟩], ⟨1, .br none⟩, [1]⟩
    | 1 => ⟨[⟨2, .load .other (.inst 0 (.pointer 0))⟩,
        ⟨3, .standard .other [.inst 2 .other, .constant (.int 0)]⟩],
        ⟨4, .br (some (.inst 3 .other))⟩, [2, 3]⟩
    | 2 => ⟨[], ⟨5, .br none⟩, [4]⟩
    | 3 => ⟨[], ⟨6, .br none⟩, [4]⟩
    | 4 => ⟨[⟨7, .phi .other [(.constant (.int 1), 2), (.constant (.int 2), 3)]⟩], ⟨8, .br none⟩,
        [5]⟩
    | _ => ⟨[⟨9, .call (.vector 4) [] (.constant (.function ⟨"__amdil_get_local_id_int", true⟩))⟩,
        ⟨10, .extractElement .other (.inst 9 (.vector 4)) (.constant (.int 0))⟩,
        ⟨11, .store (.inst 10 .other) (.inst 0 (.pointer 0))⟩], ⟨12, .terminator []⟩, []⟩
  nodup := by decide
  typed := by decide

theorem not_fixpoint_phiAfterBranch : ∃ s, run phiAfterBranch .inOrder 10 = some s ∧
    s.queue = [] ∧ ¬ Fixpoint phiAfterBranch .inOrder s := by
  decide +kernel

end VariOCL.ThreadInvariance
