import VariOCL.ThreadInvariance.Descent
import VariOCL.Sim.Worklist

/-! The work queue runs empty where no visit raises an entry and the visits that write twice, those
of dynamic allocas and of the SafeAtomic functions, do not queue each other's blocks for ever. -/

namespace VariOCL.ThreadInvariance

open IR (BlockId)

/-! ### The rank -/

/-- How far the entries may still fall. -/
def Function.rank (F : Function) (m : InvarianceMap) : Nat :=
  (F.values.map fun V => (getInvariance m V).rank).sum

section
variable {F : Function} {order : SetOrder} {m m' : InvarianceMap} {s s' s'' : State}
  {V : Value} {b c : BlockId} {r : InvarianceInfo Value} {I : Instruction}
  {level : Nat → BlockId → Nat}

theorem Function.rank_le (h : m'.Below m) : F.rank m' ≤ F.rank m :=
  List.sum_le_sum fun V _ => InvarianceInfo.rank_le (h V)

theorem Function.rank_lt (h : m'.Below m) (hV : V ∈ F.values)
    (hne : ¬ getInvariance m V ≤ getInvariance m' V) : F.rank m' < F.rank m :=
  List.sum_lt_sum _ _ (fun V _ => InvarianceInfo.rank_le (h V))
    ⟨V, hV, InvarianceInfo.rank_lt (h V) hne⟩

/-- No entry rises, and where none falls the new blocks are of a lower level than `b`. -/
structure Descends (F : Function) (level : Nat → BlockId → Nat) (b : BlockId) (s s' : State) :
    Prop where
  below : s'.variances.Below s.variances
  queued : ∀ c ∈ s'.queue, c ∈ s.queue ∨ F.rank s'.variances < F.rank s.variances ∨
    level (F.rank s.variances) c < level (F.rank s.variances) b

theorem Descends.refl (F : Function) (level : Nat → BlockId → Nat) (b : BlockId) (s : State) :
    Descends F level b s s :=
  ⟨.refl _, fun _ => .inl⟩

theorem Descends.trans (h : Descends F level b s s') (h' : Descends F level b s' s'') :
    Descends F level b s s'' where
  below := h'.below.trans h.below
  queued c hc := by
    have hrank := Function.rank_le (F := F) h.below
    rcases h'.queued c hc with hc | hlt | hlevel
    · exact (h.queued c hc).imp_right (Or.imp_left (Function.rank_le h'.below).trans_lt)
    · exact .inr (.inl (hlt.trans_le hrank))
    · rcases hrank.lt_or_eq with hlt | heq
      · exact .inr (.inl ((Function.rank_le h'.below).trans_lt hlt))
      · exact .inr (.inr (heq ▸ hlevel))

theorem Lowers.descends (h : Lowers F s s') : Descends F level b s s' where
  below := h.below
  queued c hc := (h.queued c hc).imp_right fun ⟨_, hU, _, hne⟩ =>
    .inl (Function.rank_lt h.below hU hne)

theorem Writes.descends (h : Writes s s' V r) (hr : r ≤ getInvariance s.variances V)
    (hV : V ∈ F.values)
    (hqueue : ∀ c ∈ s'.queue, c ∈ s.queue ∨ (getInvariance s.variances V).eq r = false) :
    Descends F level b s s' where
  below := h.below hr
  queued c hc := by
    refine (hqueue c hc).imp_right fun hne => .inl (Function.rank_lt (h.below hr) hV fun hle => ?_)
    rw [InvarianceInfo.eq_iff.mpr ⟨hle.trans h.le, hr⟩] at hne
    cases hne

end

namespace DataFlow

variable (F : Function) (order : SetOrder)

/-! ### Visits that write twice -/

/-- The global variable whose entry the visit of `I` writes over, and what it becomes. -/
def overwritten (b : BlockId) (s : State) (I : Instruction) :
    Option (Value × InvarianceInfo Value) :=
  match I.op with
  | .call ty args Called =>
    if calledSafeAtomic Called then
      accessed (updateInstruction F order b s I
        ((InvarianceInfo.ofWidth ty.width).reset .kNonInvariant)) ((args ++ [Called]).headD Called)
    else none
  | .store _ ptr =>
    let result := computed F order s.variances b I
    stored (updateInstruction F order b s I result) ptr (getInvariance s.variances ptr) result
  | _ => none

/-- The visits that write an entry twice, with another value first. -/
def writesTwice (b : BlockId) (s : State) (I : Instruction) : Bool :=
  match I.op with
  | .alloca arraySize => !isStaticAlloca F b arraySize
  | .call ty _ Called => calledSafeAtomic Called && !(computed F order s.variances b I).eq
    ((InvarianceInfo.ofWidth ty.width).reset .kNonInvariant)
  | _ => false

/-- A visit that does not fail and raises no entry; where it writes twice, the blocks that it queues
are of a lower level. -/
structure Quiet (level : Nat → BlockId → Nat) (b : BlockId) (s : State) (I : Instruction) :
    Prop where
  succeeds : (visit F order b s I).isSome
  alloca : I.op.isAlloca →
    (InvarianceInfo.ofWidth 1).reset .kInvariant ≤ getInvariance s.variances I.value
  global : ∀ p, overwritten F order b s I = some p → p.2 ≤ getInvariance s.variances p.1
  requeued : writesTwice F order b s I → ∀ c ∈ userBlocks F b I.value,
    level (F.rank s.variances) c < level (F.rank s.variances) b

section
variable {F order} {s s₁ s' : State} {b c : BlockId} {I : Instruction} {level : Nat → BlockId → Nat}

/-- A visit that writes what it computes. -/
theorem visit_update (hlow : NoneRises F order s.variances) (hb : b ∈ F.layout)
    (hI : I ∈ (F.block b).all) (hop : I.op.isAlloca = false)
    (h : Writes s s' I.value (computed F order s.variances b I))
    (hqueue : ∀ c ∈ s'.queue, c ∈ s.queue ∨
      (getInvariance s.variances I.value).eq (computed F order s.variances b I) = false) :
    NoneRises F order s'.variances ∧ Descends F level b s s' := by
  have hle := hlow b hb I hI hop
  have hbelow := h.below hle
  refine ⟨hlow.of_frame h.frame hbelow hb hI fun _ => ?_,
    h.descends hle (Function.value_mem hb hI) hqueue⟩
  exact (computed_mono fun V _ => hbelow V).trans h.ge

/-! ### Allocas -/

theorem computed_le_reset {arraySize : Value} (h : I.op = .alloca arraySize) (m : InvarianceMap) :
    computed F order m b I ≤ (InvarianceInfo.ofWidth 1).reset .kInvariant := by
  simp only [computed, h]
  exact InvarianceInfo.resetPointer_le _ _

theorem mem_userBlocks_of_alloca {arraySize : Value} {r : InvarianceInfo Value}
    (h : I.op = .alloca arraySize) (hc : c ∈ (updateInstruction F order b s I r).queue) :
    c ∈ s.queue ∨ (getInvariance s.variances I.value).eq r = false ∧ c ∈ userBlocks F b I.value :=
  (of_mem_queue_updateInstruction hc).imp_right
    (And.imp_right fun hor => hor.resolve_right (by simp [h, Op.isTerminator]))

theorem visit_alloca {arraySize : Value} (hlow : NoneRises F order s.variances) (hb : b ∈ F.layout)
    (hI : I ∈ (F.block b).all) (hop : I.op = .alloca arraySize)
    (hquiet : Quiet F order level b s I) (hs₁ : s₁ = s ∨ isStaticAlloca F b arraySize = false ∧
      s₁ = updateInstruction F order b s I (maybeNonInvariant I))
    (hs' : s' = updateInstruction F order b s₁ I (computed F order s₁.variances b I)) :
    NoneRises F order s'.variances ∧ Descends F level b s s' := by
  have hwrites : Writes s₁ s' I.value (computed F order s₁.variances b I) := by
    rw [hs']
    exact updateInstruction_writes
  have hle : computed F order s₁.variances b I ≤ getInvariance s.variances I.value :=
    (computed_le_reset hop s₁.variances).trans (hquiet.alloca (by simp [hop, Op.isAlloca]))
  have hframe : Frame F I.value s.variances s₁.variances := by
    rcases hs₁ with rfl | ⟨-, rfl⟩
    · exact Frame.refl F _ _
    · exact updateInstruction_writes.frame
  have hbelow := (hframe.trans hwrites.frame).below (hwrites.le.trans hle)
  refine ⟨hlow.of_frame (hframe.trans hwrites.frame) hbelow hb hI fun h => ?_, hbelow,
    fun c hc => ?_⟩
  · simp [hop, Op.isAlloca] at h
  · rw [hs'] at hc
    rcases hs₁ with rfl | ⟨hdynamic, rfl⟩
    · refine (mem_userBlocks_of_alloca hop hc).imp_right fun hchanged => .inl ?_
      have hne := hchanged.1
      refine Function.rank_lt hbelow (Function.value_mem hb hI) fun hge => ?_
      rw [InvarianceInfo.eq_iff.mpr ⟨hge.trans hwrites.le, hle⟩] at hne
      cases hne
    · have hlevel := hquiet.requeued (by simp [writesTwice, hop, hdynamic])
      rcases mem_userBlocks_of_alloca hop hc with hc | ⟨-, hc⟩
      · exact (mem_userBlocks_of_alloca hop hc).imp_right fun hc => .inr (hlevel c hc.2)
      · exact .inr (.inr (hlevel c hc))

/-! ### Calls to the SafeAtomic functions -/

theorem mem_userBlocks_of_call {ty : Ty} {args : List Value} {Called : Value}
    {r : InvarianceInfo Value} (h : I.op = .call ty args Called)
    (hc : c ∈ (updateInstruction F order b s I r).queue) :
    c ∈ s.queue ∨ (getInvariance s.variances I.value).eq r = false ∧ c ∈ userBlocks F b I.value :=
  (of_mem_queue_updateInstruction hc).imp_right
    (And.imp_right fun hor => hor.resolve_right (by simp [h, Op.isTerminator]))

/-- What the call computes is up to its own entry, and this is written. -/
theorem computed_le_of_call {ty : Ty} {args : List Value} {Called : Value}
    (hop : I.op = .call ty args Called)
    (hw : (getInvariance s.variances I.value).width = ty.width)
    (h : Writes s s' I.value (computed F order s.variances b I)) :
    computed F order s'.variances b I ≤ getInvariance s'.variances I.value := by
  by_cases hread : I.value ∈ reads F b I.op
  · have hbelow := h.below (computed_le_of_reads hop hread hw)
    exact (computed_mono fun V _ => hbelow V).trans h.ge
  · refine (computed_mono fun V hV => ?_).trans h.ge
    exact (h.frame (F := F)).getInvariance_le fun heq => hread (heq ▸ hV)

theorem visit_atomic {ty : Ty} {args : List Value} {Called : Value} {s₀ : State}
    (hlow : NoneRises F order s.variances) (hs : Widths s.variances) (hb : b ∈ F.layout)
    (hI : I ∈ (F.block b).all) (hop : I.op = .call ty args Called)
    (hatomic : calledSafeAtomic Called)
    (hquiet : Quiet F order level b s I)
    (hs₀ : s₀ = updateInstruction F order b s I
      ((InvarianceInfo.ofWidth ty.width).reset .kNonInvariant))
    (hs₁ : Accesses F order s₀ ((args ++ [Called]).headD Called) s₁)
    (hs' : s' = updateInstruction F order b s₁ I (computed F order s₁.variances b I)) :
    NoneRises F order s'.variances ∧ Descends F level b s s' := by
  have hne : I.op.isAlloca = false := by simp [hop, Op.isAlloca]
  have hw : (getInvariance s.variances I.value).width = ty.width := by
    rw [hs.value, hop]
    rfl
  have hnon : ∀ {a : InvarianceInfo Value}, a.width = ty.width →
      (InvarianceInfo.ofWidth ty.width).reset .kNonInvariant ≤ a := fun h =>
    InvarianceInfo.reset_kNonInvariant_le (by rw [InvarianceInfo.width_ofWidth, h])
  have hfirst : Writes s s₀ I.value ((InvarianceInfo.ofWidth ty.width).reset .kNonInvariant) := by
    rw [hs₀]
    exact updateInstruction_writes
  have hfirstBelow := hfirst.below (hnon hw)
  have hlowers : Lowers F s₀ s₁ := hs₁.lowers fun p hp => by
    rw [hfirst.getInvariance_globalVariable (isGlobalVariable_of_accessed hp)]
    refine hquiet.global p ?_
    simp only [overwritten, hop, hatomic, if_true, ← hs₀, hp]
  have hlast : Writes s₁ s' I.value (computed F order s₁.variances b I) := by
    rw [hs']
    exact updateInstruction_writes
  have hbelow₁ := hlowers.below.trans hfirstBelow
  have hcomputed : computed F order s₁.variances b I ≤ computed F order s.variances b I :=
    computed_mono fun V _ => hbelow₁ V
  have hle := hcomputed.trans (hlow b hb I hI hne)
  have hframe := (hfirst.frame.trans (hlowers.frame I.value)).trans hlast.frame
  have hbelow := hframe.below (hlast.le.trans hle)
  refine ⟨hlow.of_frame hframe hbelow hb hI fun _ =>
    computed_le_of_call hop ((hbelow₁ _).1.trans hw) hlast, hbelow, fun c hc => ?_⟩
  have husers : c ∈ userBlocks F b I.value →
      (getInvariance s.variances I.value).eq
          ((InvarianceInfo.ofWidth ty.width).reset .kNonInvariant) = false ∨
        (getInvariance s₁.variances I.value).eq (computed F order s₁.variances b I) = false →
      F.rank s'.variances < F.rank s.variances ∨
        level (F.rank s.variances) c < level (F.rank s.variances) b := by
    intro hc hchanged
    by_cases htwice : writesTwice F order b s I = true
    · exact .inr (hquiet.requeued htwice c hc)
    · simp only [writesTwice, hop, hatomic, Bool.true_and, Bool.not_eq_true', Bool.not_eq_false]
        at htwice
      have hcomputed₁ := hcomputed.trans (InvarianceInfo.eq_iff.mp htwice).1
      rcases hchanged with hchanged | hchanged
      · refine .inl (Function.rank_lt hbelow (Function.value_mem hb hI) fun hge => ?_)
        rw [InvarianceInfo.eq_iff.mpr ⟨hge.trans (hlast.le.trans hcomputed₁), hnon hw⟩] at hchanged
        cases hchanged
      · have hentry : getInvariance s₁.variances I.value = getInvariance s₀.variances I.value :=
          getInvariance_congr (by simp [Instruction.value])
            ((hlowers.entries I.value).resolve_right fun hM => F.not_memory hb hI hne hM.1)
        have hwidth := (InvarianceInfo.le_def.mp (hle)).1.trans hw
        rw [hentry, InvarianceInfo.eq_iff.mpr ⟨hfirst.le.trans (hnon hwidth),
          hcomputed₁.trans hfirst.ge⟩] at hchanged
        cases hchanged
  rw [hs'] at hc
  rcases mem_userBlocks_of_call hop hc with hc | ⟨hchanged, hc⟩
  · rcases hlowers.queued c hc with hc | ⟨U, hU, hM, hfalls⟩
    · rw [hs₀] at hc
      exact (mem_userBlocks_of_call hop hc).imp_right fun hc => husers hc.2 (.inl hc.1)
    · have hU' : U ≠ I.value := fun heq => F.not_memory hb hI hne (heq ▸ hM)
      refine .inr (.inl (Function.rank_lt hbelow hU fun hge => hfalls ?_))
      exact (hfirstBelow U).trans (hge.trans (hlast.frame.le hM hU'))
  · exact .inr (husers hc (.inr hchanged))

/-! ### Every visit -/

theorem visit_store {val ptr : Value} (hlow : NoneRises F order s.variances)
    (hs : Widths s.variances) (hb : b ∈ F.layout) (hI : I ∈ (F.block b).all)
    (hop : I.op = .store val ptr) (hquiet : Quiet F order level b s I)
    (hs' : Stores F order (updateInstruction F order b s I (computed F order s.variances b I)) ptr
      (getInvariance s.variances ptr) (computed F order s.variances b I) s') :
    NoneRises F order s'.variances ∧ Descends F level b s s' := by
  have hwrites : Writes s (updateInstruction F order b s I (computed F order s.variances b I))
      I.value (computed F order s.variances b I) := updateInstruction_writes
  obtain ⟨hlow₁, hdescends⟩ : _ ∧ Descends F level b s _ :=
    visit_update hlow hb hI (by simp [hop, Op.isAlloca]) hwrites fun c hc =>
      (of_mem_queue_updateInstruction hc).imp_right And.left
  have hw : (computed F order s.variances b I).width = 1 := by
    rw [hs.computed hb hI, hop]
    rfl
  have hlowers := hs'.lowers (hs.of_below hdescends.below) hw fun p hp => by
    rw [hwrites.getInvariance_globalVariable (isGlobalVariable_of_stored hp)]
    refine hquiet.global p ?_
    simp only [overwritten, hop, hp]
  exact ⟨hlow₁.lowers hlowers, hdescends.trans hlowers.descends⟩

theorem visit_descends (hlow : NoneRises F order s.variances) (hs : Widths s.variances)
    (hb : b ∈ F.layout) (hI : I ∈ (F.block b).all) (hquiet : Quiet F order level b s I)
    (hvisit : visit F order b s I = some s') :
    NoneRises F order s'.variances ∧ Descends F level b s s' := by
  cases visit_visits hvisit with
  | update hvariances hqueue hop =>
    refine visit_update hlow hb hI hop (updateInstruction_writes.of_variances hvariances.symm rfl)
      fun c hc => ?_
    rcases of_mem_queue_updateInstruction hc with hc | ⟨hne, -⟩
    · exact .inl (hqueue ▸ hc)
    · exact .inr (hvariances ▸ hne)
  | skip => exact ⟨hlow, .refl ..⟩
  | alloca hop hs₁ => exact visit_alloca hlow hb hI hop hquiet hs₁ rfl
  | atomic hop hatomic hs₁ => exact visit_atomic hlow hs hb hI hop hatomic hquiet rfl hs₁ rfl
  | store hop hs₁ => exact visit_store hlow hs hb hI hop hquiet hs₁

theorem analyzeBlock_descends (hlow : NoneRises F order s.variances) (hs : Widths s.variances)
    (hb : b ∈ F.layout)
    (hquiet : ∀ pre I rest t, (F.block b).all = pre ++ I :: rest →
      pre.foldlM (visit F order b) s = some t → Quiet F order level b t I) :
    ∃ s', analyzeBlock F order s b = some s' ∧ NoneRises F order s'.variances ∧
      Descends F level b s s' := by
  refine Sim.exists_foldlM (P := fun _ t => NoneRises F order t.variances ∧ Descends F level b s t)
    ⟨hlow, .refl ..⟩ fun pre I rest t hall hpre h => ?_
  obtain ⟨hlow, hdescends⟩ := h
  have hI : I ∈ (F.block b).all := by simp [hall]
  have hquiet := hquiet pre I rest t hall hpre
  obtain ⟨t', hvisit⟩ := Option.isSome_iff_exists.mp hquiet.succeeds
  obtain ⟨hlow', hdescends'⟩ :=
    visit_descends hlow (hs.of_below hdescends.below) hb hI hquiet hvisit
  exact ⟨t', hvisit, hlow', hdescends.trans hdescends'⟩

end

end DataFlow

section
variable {F : Function} {order : SetOrder} {N : Nat} {s₀ : State}

/-- A round of quiet visits. -/
theorem round_of_quiet {level : Nat → BlockId → Nat} {n : Nat} {s : State}
    (hs : run F order n = some s) (hlow : NoneRises F order s.variances)
    (h : ∀ b t I rest, VisitedAt F order n b t I rest → DataFlow.Quiet F order level b t I) :
    ∃ s', run F order (n + 1) = some s' ∧ NoneRises F order s'.variances ∧ (s.queue ≠ [] →
      Sim.Round State.queue (fun s => F.rank s.variances) level s s') := by
  cases hqueue : s.queue with
  | nil =>
    refine ⟨s, run_add_of_queue_eq_nil hs hqueue 1, hlow, fun hne => ?_⟩
    exact absurd rfl hne
  | cons b work =>
    have hb : b ∈ F.layout := mem_layout_of_queue hs hqueue
    obtain ⟨s', hs', hlow', hdescends⟩ := DataFlow.analyzeBlock_descends
      (s := { s with queue := work }) hlow (widths_run hs :) hb fun pre I rest t hall hpre =>
        h b t I rest ⟨s, work, pre, hs, hqueue, hall, hpre⟩
    refine ⟨s', ?_, hlow', fun _ => ?_⟩
    · rw [run_succ, hs, Option.bind_some, step, hqueue]
      exact hs'
    obtain ⟨new, hnew, hout⟩ := DataFlow.analyzeBlock_queues hs'
    rcases (Function.rank_le (F := F) hdescends.below).lt_or_eq with hlt | heq
    · exact .descend hlt
    · refine .requeue heq hqueue hnew fun c hc => ?_
      rcases hdescends.queued c (by rw [hnew]; exact List.mem_append_right _ hc) with
        hmem | hlt | hlevel
      · exact absurd hmem (hout c hc).1
      · exact absurd heq hlt.ne
      · exact hlevel

/-- The work queue becomes empty if all visits are quiet from a round on at which none would raise
an entry; the first round is such a one. -/
theorem exists_run_queue_eq_nil (level : Nat → BlockId → Nat) (hs₀ : run F order N = some s₀)
    (hlow : NoneRises F order s₀.variances) (h : ∀ n ≥ N, ∀ b s I rest,
      VisitedAt F order n b s I rest → DataFlow.Quiet F order level b s I) :
    ∃ n s, run F order n = some s ∧ s.queue = [] := by
  have hrun : ∀ k, ∃ s, run F order (N + k) = some s ∧ NoneRises F order s.variances := by
    intro k
    induction k with
    | zero => exact ⟨s₀, hs₀, hlow⟩
    | succ k ih =>
      obtain ⟨s, hs, hlow⟩ := ih
      obtain ⟨s', hs', hlow', -⟩ := round_of_quiet hs hlow (h (N + k) (Nat.le_add_right ..))
      exact ⟨s', hs', hlow'⟩
  choose t ht using hrun
  have hround : ∀ k, (t k).queue ≠ [] → Sim.Round State.queue (fun s => F.rank s.variances) level
      (t k) (t (k + 1)) := by
    intro k hne
    obtain ⟨s', hs', -, hround⟩ :=
      round_of_quiet (ht k).1 (ht k).2 (h (N + k) (Nat.le_add_right ..))
    obtain rfl : t (k + 1) = s' := Option.some.inj ((ht (k + 1)).1.symm.trans hs')
    exact hround hne
  obtain ⟨k, hk⟩ := Sim.exists_queue_eq_nil hround
  exact ⟨N + k, t k, (ht k).1, hk⟩

end

/-! ### A run that ends -/

instance {F : Function} {order : SetOrder} {m : InvarianceMap} : Decidable (NoneRises F order m) :=
  inferInstanceAs (Decidable (∀ b ∈ F.layout, ∀ I ∈ (F.block b).all, I.op.isAlloca = false →
    DataFlow.computed F order m b I ≤ getInvariance m I.value))

instance {F : Function} {order : SetOrder} {level : Nat → BlockId → Nat} {b : BlockId} {s : State}
    {I : Instruction} : Decidable (DataFlow.Quiet F order level b s I) :=
  decidable_of_iff ((DataFlow.visit F order b s I).isSome ∧ (I.op.isAlloca →
      (InvarianceInfo.ofWidth 1).reset .kInvariant ≤ getInvariance s.variances I.value) ∧
      (∀ p ∈ DataFlow.overwritten F order b s I, p.2 ≤ getInvariance s.variances p.1) ∧
      (DataFlow.writesTwice F order b s I → ∀ c ∈ DataFlow.userBlocks F b I.value,
        level (F.rank s.variances) c < level (F.rank s.variances) b))
    ⟨fun h => ⟨h.1, h.2.1, h.2.2.1, h.2.2.2⟩, fun h => ⟨h.1, h.2, h.3, h.4⟩⟩

/-- The store in the second block lowers the alloca of the first, to which the change of the
argument leads back; the third block uses a dynamic alloca and the result of an atomic addition. -/
def spilled : Function where
  name := "f_kernel"
  args := [.pointer kMemLocal, .pointer kMemGlobal, .other]
  entry := 0
  rest := [1, 2]
  block
    | 0 => ⟨[⟨0, .alloca (.constant (.int 1))⟩,
        ⟨1, .standard (.pointer kMemLocal) [.argument 0 (.pointer kMemLocal)]⟩], ⟨2, .br none⟩, [1]⟩
    | 1 => ⟨[⟨3, .call (.vector 4) [] (.constant (.function ⟨"__amdil_get_global_id_int", true⟩))⟩,
        ⟨4, .extractElement .other (.inst 3 (.vector 4)) (.constant (.int 0))⟩,
        ⟨5, .store (.inst 4 .other) (.inst 0 (.pointer 0))⟩,
        ⟨6, .store (.inst 4 .other) (.argument 0 (.pointer kMemLocal))⟩,
        ⟨7, .store (.inst 4 .other) (.constant (.globalVariable "g" kMemLocal))⟩,
        ⟨8, .alloca (.argument 2 .other)⟩,
        ⟨9, .call .other [.argument 1 (.pointer kMemGlobal), .constant (.int 1)]
          (.constant (.function ⟨"__atom_add_gi32", true⟩))⟩], ⟨10, .br none⟩, [2]⟩
    | _ => ⟨[⟨11, .load .other (.inst 0 (.pointer 0))⟩, ⟨12, .load .other (.inst 8 (.pointer 0))⟩,
        ⟨13, .standard .other [.inst 9 .other, .inst 12 .other]⟩], ⟨14, .terminator []⟩, []⟩
  nodup := by decide
  typed := by decide

theorem exists_run_queue_eq_nil_spilled :
    ∃ n s, run spilled .inOrder n = some s ∧ s.queue = [] := by
  obtain ⟨t, ht, hqueue⟩ : ∃ s, run spilled .inOrder 9 = some s ∧ s.queue = [] := by
    decide +kernel
  obtain ⟨s₀, hs₀, hlow⟩ : ∃ s, run spilled .inOrder 6 = some s ∧
      NoneRises spilled .inOrder s.variances := by
    decide +kernel
  have hquiet : ∀ n ∈ [6, 7, 8], ∀ t ∈ run spilled .inOrder n, ∀ c ∈ t.queue.head?,
      Sim.ForallSteps (DataFlow.visit spilled .inOrder c)
        (fun s I _ => DataFlow.Quiet spilled .inOrder (fun _ b => 2 - b) c s I)
        { t with queue := t.queue.tail } (spilled.block c).all := by
    decide +kernel
  refine exists_run_queue_eq_nil (fun _ b => 2 - b) hs₀ hlow fun n hn b s I rest h => ?_
  have hlt := h.lt_of_queue_eq_nil ht hqueue
  exact h.get (hquiet n (by simp; omega))

/-! ### Runs that do not end -/

section
variable {F : Function} {order : SetOrder} {s s' : State} {b : BlockId} {I : Instruction}
  {arraySize : Value}

namespace DataFlow

/-- The two entries differ, so that one of the writes is a change. -/
theorem mem_queue_visit_alloca (hop : I.op = .alloca arraySize)
    (hdynamic : isStaticAlloca F b arraySize = false) (huse : b ∈ userBlocks F b I.value)
    (h : visit F order b s I = some s') : b ∈ s'.queue := by
  have hvisit : visit F order b s I = some
      (let s₁ := updateInstruction F order b s I (maybeNonInvariant I)
      updateInstruction F order b s₁ I (computed F order s₁.variances b I)) := by
    simp only [visit, inRange, hop, hdynamic, Bool.false_eq_true, if_false, if_true]
  obtain rfl := Option.some.inj (hvisit.symm.trans h)
  dsimp only
  generalize hs₁ : updateInstruction F order b s I (maybeNonInvariant I) = s₁
  by_cases hfirst : (getInvariance s.variances I.value).eq (maybeNonInvariant I) = false
  · refine updateInstruction_queues.mem ?_
    rw [← hs₁]
    exact mem_queue_updateInstruction hfirst huse
  · refine mem_queue_updateInstruction (Bool.eq_false_iff.mpr fun heq => ?_) huse
    have hwrites : Writes s s₁ I.value (maybeNonInvariant I) := by
      rw [← hs₁]
      exact updateInstruction_writes
    have hle : computed F order s₁.variances b I ≤ maybeNonInvariant I :=
      (InvarianceInfo.eq_iff.mp heq).2.trans hwrites.le
    have hlane := (InvarianceInfo.le_def.mp hle).2 0 .kDimLocal 0
    simp only [computed, maybeNonInvariant, hop, InvarianceInfo.invariances_resetPointer] at hlane
    have hlane : InvarianceKind.kInvariant ≤ .kMaybeNonInvariant := hlane
    exact absurd hlane (by decide)

/-- The instructions whose visits do not fail in a state where a branch condition is a scalar. -/
def neverFails : Op → Bool
  | .alloca _ => true
  | .phi _ _ => true
  | .br (some condition) => condition.ty = .other
  | .br none => true
  | .terminator _ => true
  | _ => false

theorem exists_visit (h : neverFails I.op) (hs : Widths s.variances) :
    ∃ s', visit F order b s I = some s' := by
  obtain ⟨i, op⟩ := I
  cases op with
  | alloca arraySize =>
    simp only [visit, inRange, if_true]
    split <;> exact ⟨_, rfl⟩
  | br condition =>
    cases condition with
    | none => exact ⟨_, rfl⟩
    | some condition =>
      have hty : condition.ty = .other := by simpa [neverFails] using h
      have hw : (getInvariance s.variances condition).width = 1 := by
        rw [hs condition (.inl (by rw [hty]; rfl)), hty]
        rfl
      simp [visit, inRange, hw]
  | phi ty incoming => exact ⟨_, rfl⟩
  | terminator operands => exact ⟨_, rfl⟩
  | _ => cases h

end DataFlow

/-- A dynamic alloca that a PHI of its own block uses keeps the block in the queue. -/
theorem mem_run_queue (hb : b ∈ F.layout) (hI : I ∈ (F.block b).all)
    (hop : I.op = .alloca arraySize) (hdynamic : DataFlow.isStaticAlloca F b arraySize = false)
    (huse : b ∈ DataFlow.userBlocks F b I.value) {n : Nat} (h : run F order n = some s) :
    b ∈ s.queue := by
  induction n generalizing s with
  | zero =>
    obtain rfl := Option.some.inj h
    exact (queue_start (F := F)).symm ▸ hb
  | succ n ih =>
    obtain ⟨t, ht, ⟨-, rfl⟩ | ⟨next, work, hqueue, hblock⟩⟩ := run_succ_cases h
    · exact ih ht
    have hmem := ih ht
    rw [hqueue] at hmem
    rcases List.mem_cons.mp hmem with rfl | hmem
    · obtain ⟨pre, rest, hall⟩ := List.append_of_mem hI
      rw [DataFlow.analyzeBlock, hall, List.foldlM_append] at hblock
      obtain ⟨t₁, -, hblock⟩ := Option.bind_eq_some_iff.mp hblock
      rw [List.foldlM_cons] at hblock
      obtain ⟨t₂, hvisit, hblock⟩ := Option.bind_eq_some_iff.mp hblock
      exact (DataFlow.foldlM_visit_queues hblock).mem
        (DataFlow.mem_queue_visit_alloca hop hdynamic huse hvisit)
    · exact (DataFlow.analyzeBlock_queues hblock).mem hmem

theorem exists_run (h : ∀ b ∈ F.layout, ∀ I ∈ (F.block b).all, DataFlow.neverFails I.op)
    (n : Nat) : ∃ s, run F order n = some s := by
  induction n with
  | zero => exact ⟨_, rfl⟩
  | succ n ih =>
    obtain ⟨s, hs⟩ := ih
    cases hqueue : s.queue with
    | nil => exact ⟨s, run_add_of_queue_eq_nil hs hqueue 1⟩
    | cons b work =>
      have hb := mem_layout_of_queue hs hqueue
      have hstep : ∀ pre I rest t, (F.block b).all = pre ++ I :: rest →
          pre.foldlM (DataFlow.visit F order b) { s with queue := work } = some t →
          Widths t.variances →
          ∃ t', DataFlow.visit F order b t I = some t' ∧ Widths t'.variances := by
        intro pre I rest t hall _ hw
        have hI : I ∈ (F.block b).all := by simp [hall]
        obtain ⟨t', ht'⟩ := DataFlow.exists_visit (h b hb I hI) hw
        exact ⟨t', ht', DataFlow.widths_visit hb hI hw ht'⟩
      obtain ⟨s', hs', -⟩ := Sim.exists_foldlM (P := fun _ (t : State) => Widths t.variances)
        (x := { s with queue := work }) (widths_run hs :) hstep
      refine ⟨s', ?_⟩
      rw [run_succ, hs, Option.bind_some, step, hqueue]
      exact hs'

end

/-- An alloca of as many elements as the first argument says, in a loop. -/
def allocaInLoop : Function where
  name := "f"
  args := [.other, .other]
  entry := 0
  rest := [1, 2]
  block
    | 0 => ⟨[], ⟨0, .br none⟩, [1]⟩
    | 1 => ⟨[⟨1, .phi (.pointer 0) [(.constant (.undef (.pointer 0)), 0),
          (.inst 2 (.pointer 0), 1)]⟩,
        ⟨2, .alloca (.argument 0 .other)⟩],
        ⟨3, .br (some (.argument 1 .other))⟩, [1, 2]⟩
    | _ => ⟨[], ⟨4, .terminator []⟩, []⟩
  nodup := by decide
  typed := by decide

theorem not_exists_run_queue_eq_nil_allocaInLoop :
    (∀ n, (run allocaInLoop .inOrder n).isSome) ∧
      ¬ ∃ n s, run allocaInLoop .inOrder n = some s ∧ s.queue = [] := by
  constructor
  · intro n
    exact Option.isSome_iff_exists.mpr (exists_run (by decide) n)
  · rintro ⟨n, s, hs, hqueue⟩
    have hmem : (1 : BlockId) ∈ s.queue :=
      mem_run_queue (I := ⟨2, .alloca (.argument 0 .other)⟩) (by decide)
        (by simp [allocaInLoop, Block.all]) rfl rfl (by decide) hs
    rw [hqueue] at hmem
    cases hmem

/-! ### A static alloca that is raised again -/

section
variable {F : Function} {order : SetOrder} {s : State} {b d : BlockId} {I J : Instruction}
  {condition : Option Value} {work : List BlockId}

theorem DataFlow.visit_of_settled (hop : J.op = .br condition) (h : inRange s.variances J = true ∧
      (getInvariance s.variances J.value).eq (computed F order s.variances b J) = true) :
    visit F order b s J = some s := by
  simp only [visit, hop, if_true, updateInstruction, h.1, h.2]

theorem DataFlow.settled_congr {m m' : InvarianceMap} (h : inRange m J = true ∧
      (getInvariance m J.value).eq (computed F order m b J) = true)
    (hvalue : getInvariance m' J.value = getInvariance m J.value)
    (hreads : ∀ V ∈ reads F b J.op, getInvariance m' V = getInvariance m V) :
    inRange m' J = true ∧ (getInvariance m' J.value).eq (computed F order m' b J) = true := by
  rw [hvalue, inRange_congr fun V hV => congrArg _ (hreads V hV)]
  refine ⟨h.1, InvarianceInfo.eq_iff.mpr ?_⟩
  obtain ⟨hle, hge⟩ := InvarianceInfo.eq_iff.mp h.2
  exact ⟨hle.trans (computed_mono fun V hV => (hreads V hV).ge),
    (computed_mono fun V hV => (hreads V hV).le).trans hge⟩

/-- A round on a block of one instruction, the entry of which changes, and a branch of which the
entry stays. -/
theorem step_pair (hqueue : s.queue = b :: work) (hall : (F.block b).all = [I, J])
    (hvisit : ∀ t, DataFlow.visit F order b t I = some (DataFlow.updateInstruction F order b t I
      (DataFlow.computed F order t.variances b I)))
    (hI : I.op.isTerminator = false) (hJ : J.op = .br condition)
    (hne : ∀ V ∈ J.value :: condition.toList, V ≠ I.value)
    (hsettled : DataFlow.inRange s.variances J = true ∧ (getInvariance s.variances J.value).eq
      (DataFlow.computed F order s.variances b J) = true)
    (husers : order.iterate (DataFlow.userBlocks F b I.value) = [d]) (hd : d ∉ work)
    (hchanged : (getInvariance s.variances I.value).eq
      (DataFlow.computed F order s.variances b I) = false) :
    ∃ s', step F order s = some s' ∧ s'.queue = work ++ [d] ∧
      (getInvariance s'.variances I.value).eq (DataFlow.computed F order s.variances b I) = true ∧
      ∀ V, V ≠ I.value → getInvariance s'.variances V = getInvariance s.variances V := by
  generalize hs₁ : DataFlow.updateInstruction F order b { s with queue := work } I
    (DataFlow.computed F order s.variances b I) = s₁
  have hentries : ∀ V, V ≠ I.value →
      getInvariance s₁.variances V = getInvariance s.variances V := by
    intro V hV
    have hentry : ∀ W, W ≠ I.value → s₁.variances W = s.variances W := fun W hW => by
      rw [← hs₁]
      exact DataFlow.updateInstruction_variances hI hW
    exact getInvariance_eq_of_entries (fun C => hentry _ (by simp [Instruction.value]))
      (hentry V hV)
  refine ⟨s₁, ?_, ?_, ?_, hentries⟩
  · have hreads : ∀ V ∈ DataFlow.reads F b J.op,
        getInvariance s₁.variances V = getInvariance s.variances V := by
      rw [hJ]
      exact fun V hV => hentries V (hne V (List.mem_cons_of_mem _ hV))
    have hstay : DataFlow.visit F order b s₁ J = some s₁ :=
      DataFlow.visit_of_settled hJ
        (DataFlow.settled_congr hsettled (hentries _ (hne _ List.mem_cons_self)) hreads)
    have hstep : step F order s = DataFlow.analyzeBlock F order { s with queue := work } b := by
      rw [step, hqueue]
    rw [hstep]
    unfold DataFlow.analyzeBlock
    rw [hall, List.foldlM_cons, hvisit]
    simpa [hs₁] using hstay
  · rw [← hs₁, DataFlow.updateInstruction, if_neg (by simp [hchanged]), hI]
    simp only [Bool.false_eq_true, if_false, State.pushBlocks, husers, queue_updateEntry]
    simp [pushBack, hd]
  · rw [← hs₁]
    exact DataFlow.updateInstruction_writes.value

end

/-- The branch of block 5 is on a static alloca, which the store in block 6 lowers and the visits of
the entry raise; the change of an argument leads back there.  The blocks 4, 3 and 2 are a loop
behind the PHI of block 1, which reads the branch but is no user of it. -/
def raisedAlloca : Function where
  name := "f_kernel"
  args := [.pointer kMemLocal, .pointer kMemLocal, .other]
  entry := 0
  rest := [1, 2, 3, 4, 5, 6, 7, 8, 9, 10]
  block
    | 0 => ⟨[⟨0, .alloca (.constant (.int 1))⟩,
        ⟨1, .standard (.pointer kMemLocal) [.argument 0 (.pointer kMemLocal)]⟩], ⟨2, .br none⟩, [6]⟩
    | 6 => ⟨[⟨3, .call (.vector 4) [] (.constant (.function ⟨"__amdil_get_local_id_int", true⟩))⟩,
        ⟨4, .extractElement .other (.inst 3 (.vector 4)) (.constant (.int 0))⟩,
        ⟨5, .store (.inst 4 .other) (.inst 0 (.pointer 0))⟩], ⟨6, .br none⟩, [7]⟩
    | 7 => ⟨[⟨7, .call (.vector 4) [] (.constant (.function ⟨"__amdil_get_group_id_int", true⟩))⟩,
        ⟨8, .extractElement .other (.inst 7 (.vector 4)) (.constant (.int 0))⟩,
        ⟨9, .store (.inst 8 .other) (.argument 1 (.pointer kMemLocal))⟩,
        ⟨10, .store (.inst 8 .other) (.argument 0 (.pointer kMemLocal))⟩], ⟨11, .br none⟩, [5]⟩
    | 5 => ⟨[⟨12, .load .other (.inst 0 (.pointer 0))⟩,
        ⟨13, .standard .other [.inst 12 .other, .constant (.int 0)]⟩],
        ⟨14, .br (some (.inst 13 .other))⟩, [8, 9]⟩
    | 8 => ⟨[], ⟨15, .br none⟩, [1]⟩
    | 9 => ⟨[], ⟨16, .br none⟩, [1]⟩
    | 1 => ⟨[⟨17, .phi .other [(.constant (.int 1), 8), (.constant (.int 2), 9)]⟩,
        ⟨18, .standard .other [.inst 1 (.pointer kMemLocal)]⟩,
        ⟨19, .load .other (.argument 1 (.pointer kMemLocal))⟩], ⟨20, .br none⟩, [4]⟩
    | 4 => ⟨[⟨21, .phi .other [(.inst 17 .other, 1), (.inst 25 .other, 2)]⟩], ⟨22, .br none⟩, [3]⟩
    | 3 => ⟨[⟨23, .standard .other [.inst 21 .other, .constant (.int 1)]⟩], ⟨24, .br none⟩, [2]⟩
    | 2 => ⟨[⟨25, .standard .other [.inst 23 .other, .constant (.int 1)]⟩],
        ⟨26, .br (some (.argument 2 .other))⟩, [4, 10]⟩
    | _ => ⟨[], ⟨27, .terminator []⟩, []⟩
  nodup := by decide
  typed := by decide

local instance neZero_waveAxes : NeZero 3 := Nat.instNeZeroSucc

/-- The two invariances that go round in the loop. -/
def wave (steady : Bool) : InvarianceInfo Value :=
  let result := (InvarianceInfo.ofWidth 1).reset .kInvariant
  if steady then result else result.modifyLane 0 (·.set .kDimLocal 0 .kNonInvariant)

/-- The value of each block of the loop, the block before it and the one behind it. -/
def loopValue : BlockId → Value
  | 4 => .inst 21 .other
  | 3 => .inst 23 .other
  | _ => .inst 25 .other

def loopPrev : BlockId → BlockId
  | 4 => 2
  | 3 => 4
  | _ => 3

def loopNext : BlockId → BlockId
  | 4 => 3
  | 3 => 2
  | _ => 4

/-- The branches of the loop are settled, and what comes into it does not vary. -/
structure Rotates (s : State) (w : BlockId → Bool) (queue : List BlockId) : Prop where
  queue : s.queue = queue
  incoming : (getInvariance s.variances (.inst 17 .other)).eq (wave true)
  one : (getInvariance s.variances (.constant (.int 1))).eq (wave true)
  value : ∀ c ∈ [2, 3, 4], (getInvariance s.variances (loopValue c)).eq (wave (w c))
  branch : ∀ c ∈ [2, 3, 4], DataFlow.inRange s.variances (raisedAlloca.block c).term ∧
    (getInvariance s.variances (raisedAlloca.block c).term.value).eq
      (DataFlow.computed raisedAlloca .inOrder s.variances c (raisedAlloca.block c).term)

section
variable {s : State} {w : BlockId → Bool} {c : BlockId} {work : List BlockId}

theorem and_wave (a : Bool) :
    (((InvarianceInfo.ofWidth 1).and (wave a)).and (wave true)).eq (wave a) = true := by
  cases a <;> decide

theorem and_and_wave (a : Bool) : ((((InvarianceInfo.ofWidth 1).and (wave true)).and (wave a)).and
    (InvarianceInfo.ofWidth 1)).eq (wave a) = true := by
  cases a <;> decide

/-- A visit of a block of the loop takes the invariance over from the block before it. -/
theorem Rotates.computed (h : Rotates s w (c :: work)) (hc : c ∈ [2, 3, 4]) :
    ∃ I condition, (raisedAlloca.block c).all = [I, (raisedAlloca.block c).term] ∧
      I.value = loopValue c ∧ I.op.isTerminator = false ∧
      (raisedAlloca.block c).term.op = .br condition ∧
      (∀ V ∈ (raisedAlloca.block c).term.value :: condition.toList, V ≠ I.value) ∧
      (∀ t, DataFlow.visit raisedAlloca .inOrder c t I = some
        (DataFlow.updateInstruction raisedAlloca .inOrder c t I
          (DataFlow.computed raisedAlloca .inOrder t.variances c I))) ∧
      SetOrder.inOrder.iterate (DataFlow.userBlocks raisedAlloca c I.value) = [loopNext c] ∧
      (DataFlow.computed raisedAlloca .inOrder s.variances c I).eq (wave (w (loopPrev c))) := by
  have hvalue := h.value
  simp only [List.mem_cons, List.not_mem_nil, or_false] at hc
  rcases hc with rfl | rfl | rfl
  · refine ⟨⟨25, .standard .other [.inst 23 .other, .constant (.int 1)]⟩, _, rfl, rfl, rfl, rfl,
      by decide, fun _ => rfl, by decide, ?_⟩
    exact InvarianceInfo.eq_trans (InvarianceInfo.and_congr (InvarianceInfo.and_congr
      (InvarianceInfo.eq_refl _) (hvalue 3 (by decide))) h.one) (and_wave _)
  · refine ⟨⟨23, .standard .other [.inst 21 .other, .constant (.int 1)]⟩, _, rfl, rfl, rfl, rfl,
      by decide, fun _ => rfl, by decide, ?_⟩
    exact InvarianceInfo.eq_trans (InvarianceInfo.and_congr (InvarianceInfo.and_congr
      (InvarianceInfo.eq_refl _) (hvalue 4 (by decide))) h.one) (and_wave _)
  · refine ⟨⟨21, .phi .other [(.inst 17 .other, 1), (.inst 25 .other, 2)]⟩, _, rfl, rfl, rfl, rfl,
      by decide, fun _ => rfl, by decide, ?_⟩
    have hcontrol : DataFlow.controlled raisedAlloca 4
        [(.inst 17 .other, 1), (.inst 25 .other, 2)] = [] := by decide +kernel
    have hphi : DataFlow.computed raisedAlloca .inOrder s.variances 4
        ⟨21, .phi .other [(.inst 17 .other, 1), (.inst 25 .other, 2)]⟩ =
          (((InvarianceInfo.ofWidth 1).and (getInvariance s.variances (.inst 17 .other))).and
            (getInvariance s.variances (.inst 25 .other))).and (.ofWidth 1) := by
      unfold DataFlow.controlled at hcontrol
      simp only [DataFlow.computed, DataFlow.phiResult, hcontrol]
      rfl
    rw [hphi]
    exact InvarianceInfo.eq_trans (InvarianceInfo.and_congr (InvarianceInfo.and_congr
      (InvarianceInfo.and_congr (InvarianceInfo.eq_refl _) h.incoming) (hvalue 2 (by decide)))
      (InvarianceInfo.eq_refl _)) (and_and_wave _)

theorem Rotates.step (h : Rotates s w (c :: work)) (hc : c ∈ [2, 3, 4])
    (hw : w c ≠ w (loopPrev c)) (hnext : loopNext c ∉ work) :
    ∃ s', step raisedAlloca .inOrder s = some s' ∧
      Rotates s' (Function.update w c (w (loopPrev c))) (work ++ [loopNext c]) := by
  obtain ⟨I, condition, hall, hvalue, hop, hbr, hne, hvisit, husers, hcomputed⟩ := h.computed hc
  have hchanged : (getInvariance s.variances I.value).eq
      (DataFlow.computed raisedAlloca .inOrder s.variances c I) = false := by
    rw [hvalue]
    refine Bool.eq_false_iff.mpr fun heq => hw ?_
    have hwave := InvarianceInfo.eq_trans (InvarianceInfo.eq_symm (h.value c hc))
      (InvarianceInfo.eq_trans heq hcomputed)
    generalize w c = a₁, w (loopPrev c) = a₂ at hwave ⊢
    revert a₁ a₂
    decide
  obtain ⟨s', hstep, hqueue, hentry, hothers⟩ := step_pair h.queue hall hvisit hop hbr hne
    (h.branch c hc) husers hnext hchanged
  rw [hvalue] at hentry hothers
  have hapart : ∀ c ∈ [2, 3, 4], loopValue c ≠ .inst 17 .other ∧
      loopValue c ≠ .constant (.int 1) ∧ ∀ d ∈ [2, 3, 4], (loopValue d = loopValue c → d = c) ∧
        ∀ V ∈ (raisedAlloca.block d).term.value ::
          DataFlow.reads raisedAlloca d (raisedAlloca.block d).term.op, V ≠ loopValue c := by
    decide
  obtain ⟨hincoming, hone, hloop⟩ := hapart c hc
  refine ⟨s', hstep, hqueue, ?_, ?_, fun d hd => ?_, fun d hd => ?_⟩
  · rw [hothers _ hincoming.symm]
    exact h.incoming
  · rw [hothers _ hone.symm]
    exact h.one
  · by_cases hdc : d = c
    · subst hdc
      rw [Function.update_self]
      exact InvarianceInfo.eq_trans hentry hcomputed
    · rw [Function.update_of_ne hdc, hothers _ fun heq => hdc ((hloop d hd).1 heq)]
      exact h.value d hd
  · have hterm := (hloop d hd).2
    exact DataFlow.settled_congr (h.branch d hd) (hothers _ (hterm _ List.mem_cons_self))
      fun V hV => hothers V (hterm V (List.mem_cons_of_mem _ hV))

theorem Rotates.congr {w' : BlockId → Bool} (h : Rotates s w work)
    (hw : ∀ c ∈ [2, 3, 4], w c = w' c) : Rotates s w' work where
  queue := h.queue
  incoming := h.incoming
  one := h.one
  value c hc := hw c hc ▸ h.value c hc
  branch := h.branch

/-- Three rounds turn the one wave into the other. -/
theorem Rotates.turn {n : Nat} {a : Bool} (hs : run raisedAlloca .inOrder n = some s)
    (h : Rotates s (fun c => if c = 4 then a else !a) [3, 4]) :
    ∃ s', run raisedAlloca .inOrder (n + 3) = some s' ∧
      Rotates s' (fun c => if c = 4 then !a else !!a) [3, 4] := by
  obtain ⟨s₁, hs₁, h₁⟩ := h.step (by decide) (by cases a <;> decide) (by decide)
  obtain ⟨s₂, hs₂, h₂⟩ := h₁.step (by decide) (by cases a <;> decide) (by decide)
  obtain ⟨s₃, hs₃, h₃⟩ := h₂.step (by decide) (by cases a <;> decide) (by decide)
  refine ⟨s₃, ?_, h₃.congr (by cases a <;> decide)⟩
  simp only [run, hs, hs₁, hs₂, hs₃, Option.bind_some]

end

theorem exists_run_of_le {F : Function} {order : SetOrder} {s : State} {n m : Nat} (hnm : n ≤ m)
    (h : run F order m = some s) : ∃ t, run F order n = some t := by
  induction m generalizing s with
  | zero =>
    obtain rfl := Nat.le_zero.mp hnm
    exact ⟨s, h⟩
  | succ m ih =>
    rcases Nat.le_succ_iff.mp hnm with hle | rfl
    · obtain ⟨t, ht, -⟩ := run_succ_cases h
      exact ih hle ht
    · exact ⟨s, h⟩

/-- `Build` need not end where all allocas are static and in the entry block. -/
theorem not_exists_run_queue_eq_nil_raisedAlloca :
    (∀ n, (run raisedAlloca .inOrder n).isSome) ∧
      ¬ ∃ n s, run raisedAlloca .inOrder n = some s ∧ s.queue = [] := by
  have hturns : ∀ k, ∃ s a, run raisedAlloca .inOrder (33 + 3 * k) = some s ∧
      Rotates s (fun c => if c = 4 then a else !a) [3, 4] := by
    intro k
    induction k with
    | zero =>
      obtain ⟨s, hs, hqueue, hincoming, hone, hvalue, hbranch⟩ :
          ∃ s, run raisedAlloca .inOrder 33 = some s ∧ s.queue = [3, 4] ∧
            (getInvariance s.variances (.inst 17 .other)).eq (wave true) ∧
            (getInvariance s.variances (.constant (.int 1))).eq (wave true) ∧
            (∀ c ∈ [2, 3, 4],
              (getInvariance s.variances (loopValue c)).eq (wave (if c = 4 then true else !true))) ∧
            ∀ c ∈ [2, 3, 4], DataFlow.inRange s.variances (raisedAlloca.block c).term ∧
              (getInvariance s.variances (raisedAlloca.block c).term.value).eq
                (DataFlow.computed raisedAlloca .inOrder s.variances c
                  (raisedAlloca.block c).term) := by
        decide +kernel
      exact ⟨s, true, hs, hqueue, hincoming, hone, hvalue, hbranch⟩
    | succ k ih =>
      obtain ⟨s, a, hs, h⟩ := ih
      obtain ⟨s', hs', h'⟩ := h.turn hs
      exact ⟨s', !a, hs', h'⟩
  constructor
  · intro n
    obtain ⟨s, a, hs, -⟩ := hturns n
    exact Option.isSome_iff_exists.mpr (exists_run_of_le (by omega) hs)
  · rintro ⟨n, s, hs, hqueue⟩
    obtain ⟨t, a, ht, h⟩ := hturns n
    obtain ⟨k, hk⟩ := Nat.exists_eq_add_of_le (show n ≤ 33 + 3 * n by omega)
    rw [hk, run_add_of_queue_eq_nil hs hqueue k] at ht
    obtain rfl := Option.some.inj ht
    rw [h.queue] at hqueue
    cases hqueue

end VariOCL.ThreadInvariance
