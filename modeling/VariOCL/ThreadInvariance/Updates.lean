import VariOCL.ThreadInvariance.Reads
import VariOCL.Sim.Worklist

/-! What the update methods do to the entries and to the queue. -/

namespace VariOCL.ThreadInvariance

open IR (BlockId)

/-! ### Maps -/

section
variable {m m' : InvarianceMap} {V W : Value} {r : InvarianceInfo Value}

/-- No value varies less in `m'` than in `m`. -/
def InvarianceMap.Below (m' m : InvarianceMap) : Prop :=
  ∀ V, getInvariance m' V ≤ getInvariance m V

theorem getInvariance_of_some (h : m V = some r) : getInvariance m V = r := by
  cases V with
  | constant C => cases C <;> simp [getInvariance, constantInvariance, h]
  | _ => simp [getInvariance, h]

theorem getInvariance_congr (hV : ∀ C, V ≠ .constant C) (h : m' V = m V) :
    getInvariance m' V = getInvariance m V := by
  cases V with
  | constant C => exact absurd rfl (hV C)
  | _ => simp only [getInvariance, h]

theorem getInvariance_eq_of_entries (h : ∀ C, m' (.constant C) = m (.constant C))
    (hV : m' V = m V) : getInvariance m' V = getInvariance m V := by
  cases V with
  | constant C =>
    induction C with
    | expr ty operand ih =>
      have hoperand := ih (h operand)
      simp only [getInvariance] at hoperand
      simp only [getInvariance, constantInvariance, hV, hoperand]
    | _ => simp only [getInvariance, constantInvariance, hV]
  | _ => exact getInvariance_congr (by simp) hV

/-- An invariance may rest on the entries of constants besides its own. -/
theorem getInvariance_le_of_entries
    (h : ∀ C, m' (.constant C) = m (.constant C) ∨
      getInvariance m' (.constant C) ≤ getInvariance m (.constant C))
    (hV : m' V = m V ∨ getInvariance m' V ≤ getInvariance m V) :
    getInvariance m' V ≤ getInvariance m V := by
  rcases hV with hV | hV
  · cases V with
    | constant C =>
      induction C with
      | expr ty operand ih =>
        have hoperand := (h operand).elim ih id
        simp only [getInvariance, constantInvariance, hV]
        cases m (.constant (.expr ty operand)) with
        | some r => exact le_rfl
        | none =>
          dsimp only [Option.getD_none]
          split
          · exact (InvarianceInfo.resetPointer_le _ _).trans
              (hoperand.trans (InvarianceInfo.le_resetPointer _ _))
          · exact le_rfl
      | _ => exact (by simp only [getInvariance, constantInvariance, hV] : _ = _).le
    | _ => exact (getInvariance_congr (by simp) hV).le
  · exact hV

/-- Entries that stay or go down. -/
theorem InvarianceMap.below_of_entries
    (h : ∀ V, m' V = m V ∨ getInvariance m' V ≤ getInvariance m V) : m'.Below m :=
  fun V => getInvariance_le_of_entries (fun C => h (.constant C)) (h V)

theorem InvarianceMap.Below.refl (m : InvarianceMap) : m.Below m := fun _ => le_rfl

theorem InvarianceMap.Below.trans {m'' : InvarianceMap} (h : m''.Below m') (h' : m'.Below m) :
    m''.Below m := fun V => (h V).trans (h' V)

end

/-! ### Entries -/

section
variable {s s' s'' : State} {V W : Value} {r : InvarianceInfo Value}

theorem variances_updateEntry (s : State) (V W : Value) (r : InvarianceInfo Value) :
    (s.updateEntry V r).variances W = s.variances W ∨
      W = V ∧ (s.updateEntry V r).variances W = some r := by
  unfold State.updateEntry
  split
  · exact .inl rfl
  · by_cases hW : W = V
    · subst hW
      exact .inr ⟨rfl, Function.update_self ..⟩
    · exact .inl (Function.update_of_ne hW ..)

/-- The entry of `V` is now `r`, up to `operator==`; of the others, those of blocks may be lower. -/
structure Writes (s s' : State) (V : Value) (r : InvarianceInfo Value) : Prop where
  value : (getInvariance s'.variances V).eq r = true
  other : ∀ W, W ≠ V → s'.variances W = s.variances W ∨
    (∃ B, W = .basicBlock B) ∧ getInvariance s'.variances W ≤ getInvariance s.variances W

theorem Writes.updateEntry : Writes s (s.updateEntry V r) V r := by
  unfold State.updateEntry
  split
  · next heq => exact ⟨heq, fun _ _ => .inl rfl⟩
  · refine ⟨?_, fun W hW => .inl (Function.update_of_ne hW ..)⟩
    rw [getInvariance_of_some (Function.update_self ..)]
    exact InvarianceInfo.eq_refl r

theorem Writes.of_variances {s₀ s₁ : State} (h : Writes s s' V r) (hs : s₀.variances = s.variances)
    (hs' : s₁.variances = s'.variances) : Writes s₀ s₁ V r := by
  constructor
  · rw [hs']
    exact h.value
  · intro W hW
    rw [hs, hs']
    exact h.other W hW

theorem Writes.le (h : Writes s s' V r) : getInvariance s'.variances V ≤ r :=
  (InvarianceInfo.eq_iff.mp h.value).1

theorem Writes.ge (h : Writes s s' V r) : r ≤ getInvariance s'.variances V :=
  (InvarianceInfo.eq_iff.mp h.value).2

theorem Writes.below (h : Writes s s' V r) (hr : r ≤ getInvariance s.variances V) :
    s'.variances.Below s.variances := by
  refine InvarianceMap.below_of_entries fun W => ?_
  by_cases hW : W = V
  · subst hW
    exact .inr (h.le.trans hr)
  · exact (h.other W hW).imp_right And.right

/-- What is neither `V` nor a block keeps its invariance, as long as `V` is no constant. -/
theorem Writes.getInvariance_eq (h : Writes s s' V r) (hV : ∀ C, V ≠ .constant C) (hW : W ≠ V)
    (hB : ∀ B, W ≠ .basicBlock B) : getInvariance s'.variances W = getInvariance s.variances W :=
  getInvariance_eq_of_entries (fun C => (h.other _ (hV C).symm).resolve_right (by simp))
    ((h.other W hW).resolve_right fun ⟨⟨B, heq⟩, _⟩ => hB B heq)

theorem Writes.variances_inst {I : Instruction} (h : Writes s s' V r) (hV : I.value ≠ V) :
    s'.variances I.value = s.variances I.value :=
  (h.other _ hV).resolve_right (by simp [Instruction.value])

end

/-! ### The queue -/

/-- Blocks of the function that were not queued are, behind the others. -/
def Queues (F : Function) (s s' : State) : Prop :=
  ∃ new, s'.queue = s.queue ++ new ∧ ∀ c ∈ new, c ∉ s.queue ∧ c ∈ F.layout

section
variable {F : Function} {order : SetOrder} {s s' s'' : State} {V : Value} {b c : BlockId}
  {r : InvarianceInfo Value} {blocks : List BlockId} {I : Instruction}

theorem Queues.refl (s : State) : Queues F s s := ⟨[], by simp, by simp⟩

theorem Queues.of_queue (h : s'.queue = s.queue) : Queues F s s' := ⟨[], by simp [h], by simp⟩

theorem Queues.trans (h : Queues F s s') (h' : Queues F s' s'') : Queues F s s'' := by
  obtain ⟨new, heq, hnew⟩ := h
  obtain ⟨new', heq', hnew'⟩ := h'
  refine ⟨new ++ new', by rw [heq', heq, List.append_assoc], fun c hc => ?_⟩
  rcases List.mem_append.mp hc with hc | hc
  · exact hnew c hc
  · obtain ⟨hnot, hc⟩ := hnew' c hc
    rw [heq] at hnot
    exact ⟨fun hmem => hnot (List.mem_append_left _ hmem), hc⟩

theorem Queues.mem (h : Queues F s s') (hc : c ∈ s.queue) : c ∈ s'.queue := by
  obtain ⟨new, heq, -⟩ := h
  rw [heq]
  exact List.mem_append_left _ hc

theorem Queues.subset (h : Queues F s s') (hs : s.queue ⊆ F.layout) : s'.queue ⊆ F.layout := by
  obtain ⟨new, heq, hnew⟩ := h
  rw [heq]
  exact List.append_subset.mpr ⟨hs, fun c hc => (hnew c hc).2⟩

theorem mem_foldl_pushBack {queue : List BlockId} :
    c ∈ blocks.foldl pushBack queue ↔ c ∈ queue ∨ c ∈ blocks := by
  induction blocks generalizing queue with
  | nil => simp
  | cons b blocks ih =>
    rw [List.foldl_cons, ih, pushBack]
    split
    · next hb =>
      rw [List.mem_cons]
      constructor
      · exact Or.imp_right .inr
      · rintro (hc | rfl | hc)
        · exact .inl hc
        · exact .inl hb
        · exact .inr hc
    · simp [or_assoc]

theorem foldl_pushBack (blocks queue : List BlockId) :
    ∃ new, blocks.foldl pushBack queue = queue ++ new ∧
      ∀ c ∈ new, c ∉ queue ∧ c ∈ blocks := by
  induction blocks generalizing queue with
  | nil => exact ⟨[], by simp, by simp⟩
  | cons b blocks ih =>
    rw [List.foldl_cons, pushBack]
    split
    · obtain ⟨new, heq, hnew⟩ := ih queue
      exact ⟨new, heq, fun c hc => ⟨(hnew c hc).1, List.mem_cons_of_mem _ (hnew c hc).2⟩⟩
    · next hb =>
      obtain ⟨new, heq, hnew⟩ := ih (queue ++ [b])
      refine ⟨b :: new, by rw [heq, List.append_assoc, List.singleton_append], fun c hc => ?_⟩
      rcases List.mem_cons.mp hc with rfl | hc
      · exact ⟨hb, List.mem_cons_self⟩
      · obtain ⟨hnot, hc⟩ := hnew c hc
        exact ⟨fun hmem => hnot (List.mem_append_left _ hmem), List.mem_cons_of_mem _ hc⟩

theorem mem_queue_pushBlocks :
    c ∈ (s.pushBlocks order blocks).queue ↔ c ∈ s.queue ∨ c ∈ blocks := by
  rw [State.pushBlocks, mem_foldl_pushBack, order.mem_iterate]

theorem Queues.pushBlocks (hblocks : blocks ⊆ F.layout) :
    Queues F s (s.pushBlocks order blocks) := by
  obtain ⟨new, heq, hnew⟩ := foldl_pushBack (order.iterate blocks) s.queue
  exact ⟨new, heq, fun c hc =>
    ⟨(hnew c hc).1, hblocks ((order.mem_iterate _ _).mp (hnew c hc).2)⟩⟩

theorem mem_users {p : BlockId × Instruction} :
    p ∈ F.users V ↔ p.1 ∈ F.layout ∧ p.2 ∈ (F.block p.1).all ∧ V ∈ p.2.op.operands := by
  simp only [Function.users, List.mem_flatMap, List.mem_map, List.mem_filter, decide_eq_true_eq]
  constructor
  · rintro ⟨b, hb, I, ⟨hI, hV⟩, rfl⟩
    exact ⟨hb, hI, hV⟩
  · rintro ⟨hb, hI, hV⟩
    exact ⟨p.1, hb, p.2, ⟨hI, hV⟩, rfl⟩

theorem users_subset : (F.users V).map Prod.fst ⊆ F.layout := by
  intro c hc
  obtain ⟨p, hp, rfl⟩ := List.mem_map.mp hc
  exact (mem_users.mp hp).1

theorem mem_userBlocks : c ∈ DataFlow.userBlocks F b V ↔ c ∈ F.layout ∧
    ∃ I ∈ (F.block c).all, V ∈ I.op.operands ∧ (c ≠ b ∨ I.op.isPhi) := by
  simp only [DataFlow.userBlocks, List.mem_map, List.mem_filter, mem_users, Bool.or_eq_true,
    decide_eq_true_eq]
  constructor
  · rintro ⟨p, ⟨⟨hc, hI, hV⟩, hor⟩, rfl⟩
    exact ⟨hc, p.2, hI, hV, hor⟩
  · rintro ⟨hc, I, hI, hV, hor⟩
    exact ⟨(c, I), ⟨⟨hc, hI, hV⟩, hor⟩, rfl⟩

@[simp] theorem layout_cfg (F : Function) : F.cfg.layout = F.layout := rfl

theorem getOutputDependence_subset : F.getOutputDependence b ⊆ F.layout := by
  intro c hc
  rw [Function.getOutputDependence] at hc
  cases hout : (IR.ControlDependence.runOnFunction {} F.cfg).outputDependences b with
  | none =>
    rw [hout] at hc
    cases hc
  | some S =>
    rw [hout] at hc
    exact ((IR.ControlDependence.runOnFunction_stores.hasOutput b c).mp ⟨S, hout, hc⟩).2.1

theorem queue_updateEntry : (s.updateEntry V r).queue = s.queue := by
  unfold State.updateEntry
  split <;> rfl

/-! ### The update methods -/

namespace DataFlow

theorem queue_updateBlockEntries {blocks : List BlockId} :
    (blocks.foldl (updateBlockEntry r) s).queue = s.queue := by
  induction blocks generalizing s with
  | nil => rfl
  | cons B blocks ih => rw [List.foldl_cons, ih, updateBlockEntry, queue_updateEntry]

/-- Entries of blocks only go down. -/
theorem variances_updateBlockEntries (blocks : List BlockId) (W : Value) :
    (blocks.foldl (updateBlockEntry r) s).variances W = s.variances W ∨ (∃ B, W = .basicBlock B) ∧
      getInvariance (blocks.foldl (updateBlockEntry r) s).variances W ≤
        getInvariance s.variances W := by
  induction blocks generalizing s with
  | nil => exact .inl rfl
  | cons B blocks ih =>
    have hwrites : Writes s (updateBlockEntry r s B) (.basicBlock B) _ := Writes.updateEntry
    have hbelow := hwrites.below InvarianceInfo.and_le_left W
    by_cases hW : ∃ B', W = .basicBlock B'
    · refine .inr ⟨hW, ?_⟩
      rcases ih (s := updateBlockEntry r s B) with heq | ⟨-, hle⟩
      · obtain ⟨B', rfl⟩ := hW
        exact (getInvariance_congr (by simp) heq).le.trans hbelow
      · exact hle.trans hbelow
    · have hne : W ≠ .basicBlock B := fun heq => hW ⟨B, heq⟩
      refine .inl ((ih.resolve_right fun h => hW h.1).trans ?_)
      exact (hwrites.other W hne).resolve_right fun h => hW h.1

theorem updateInstruction_writes :
    Writes s (updateInstruction F order b s I r) I.value r := by
  unfold updateInstruction
  split
  · next heq => exact ⟨heq, fun _ _ => .inl rfl⟩
  · have hentry := Writes.updateEntry (s := s) (V := I.value) (r := r)
    dsimp only
    split
    · refine ⟨?_, fun W hW => ?_⟩
      · have hvalue := (variances_updateBlockEntries (r := r) (s := s.updateEntry I.value r)
          (F.getOutputDependence b) I.value).resolve_right fun ⟨⟨B, h⟩, _⟩ => nomatch h
        rw [State.pushBlocks, getInvariance_congr (by simp [Instruction.value]) hvalue]
        exact hentry.value
      · rcases variances_updateBlockEntries (r := r) (s := s.updateEntry I.value r)
          (F.getOutputDependence b) W with heq | ⟨hB, hle⟩
        · rcases hentry.other W hW with heq' | ⟨hB, hle⟩
          · exact .inl (heq.trans heq')
          · obtain ⟨B, rfl⟩ := hB
            exact .inr ⟨⟨B, rfl⟩, (getInvariance_congr (by simp) heq).le.trans hle⟩
        · obtain ⟨B, rfl⟩ := hB
          refine .inr ⟨⟨B, rfl⟩, hle.trans ?_⟩
          exact (hentry.other _ hW).elim
            (fun heq => (getInvariance_congr (by simp) heq).le) And.right
    · exact hentry.of_variances rfl rfl

/-- The instructions that are no terminators write their own entries only. -/
theorem updateInstruction_variances (hop : I.op.isTerminator = false) {W : Value}
    (hW : W ≠ I.value) : (updateInstruction F order b s I r).variances W = s.variances W := by
  unfold updateInstruction
  split
  · rfl
  · rw [hop]
    exact (variances_updateEntry s I.value W r).resolve_right fun h => hW h.1

theorem updateInstruction_queues :
    Queues F s (updateInstruction F order b s I r) := by
  unfold updateInstruction
  split
  · exact .refl s
  · have husers : userBlocks F b I.value ⊆ F.layout := fun c hc => (mem_userBlocks.mp hc).1
    dsimp only
    split
    · refine (Queues.of_queue ?_).trans (.pushBlocks (List.append_subset.mpr
        ⟨husers, getOutputDependence_subset⟩))
      rw [queue_updateBlockEntries, queue_updateEntry]
    · exact (Queues.of_queue queue_updateEntry).trans (.pushBlocks husers)

/-- The users of an instruction whose entry changes are queued. -/
theorem mem_queue_updateInstruction (hr : (getInvariance s.variances I.value).eq r = false)
    (hc : c ∈ userBlocks F b I.value) : c ∈ (updateInstruction F order b s I r).queue := by
  unfold updateInstruction
  rw [if_neg (by simp [hr])]
  dsimp only
  split
  · exact mem_queue_pushBlocks.mpr (.inr (List.mem_append_left _ hc))
  · exact mem_queue_pushBlocks.mpr (.inr hc)

theorem of_mem_queue_updateInstruction (hc : c ∈ (updateInstruction F order b s I r).queue) :
    c ∈ s.queue ∨ (getInvariance s.variances I.value).eq r = false ∧
      (c ∈ userBlocks F b I.value ∨ I.op.isTerminator) := by
  unfold updateInstruction at hc
  split at hc
  · exact .inl hc
  · next hne =>
    have hne := Bool.eq_false_iff.mpr hne
    dsimp only at hc
    split at hc
    · next hterm => exact .inr ⟨hne, .inr hterm⟩
    · rcases mem_queue_pushBlocks.mp hc with hc | hc
      · rw [queue_updateEntry] at hc
        exact .inl hc
      · exact .inr ⟨hne, .inl hc⟩

theorem updateArgument_writes {Arg : Value} : Writes s (updateArgument F order s Arg r) Arg
    ((getInvariance s.variances Arg).and r) := by
  unfold updateArgument
  dsimp only
  split
  · next heq => exact ⟨heq, fun _ _ => .inl rfl⟩
  · exact Writes.updateEntry.of_variances rfl rfl

theorem updateArgument_queues {Arg : Value} : Queues F s (updateArgument F order s Arg r) := by
  unfold updateArgument
  dsimp only
  split
  · exact .refl s
  · exact (Queues.of_queue queue_updateEntry).trans (.pushBlocks users_subset)

theorem of_mem_queue_updateArgument {Arg : Value}
    (hc : c ∈ (updateArgument F order s Arg r).queue) : c ∈ s.queue ∨
      (getInvariance s.variances Arg).eq ((getInvariance s.variances Arg).and r) = false ∧
        c ∈ (F.users Arg).map Prod.fst := by
  unfold updateArgument at hc
  dsimp only at hc
  split at hc
  · exact .inl hc
  · next hne =>
    rcases mem_queue_pushBlocks.mp hc with hc | hc
    · rw [queue_updateEntry] at hc
      exact .inl hc
    · exact .inr ⟨Bool.eq_false_iff.mpr hne, hc⟩

theorem updateGlobalVariable_writes {GV : Value} :
    Writes s (updateGlobalVariable F order s GV r) GV r := by
  unfold updateGlobalVariable
  split
  · next heq => exact ⟨heq, fun _ _ => .inl rfl⟩
  · exact Writes.updateEntry.of_variances rfl rfl

theorem updateGlobalVariable_queues {GV : Value} :
    Queues F s (updateGlobalVariable F order s GV r) := by
  unfold updateGlobalVariable
  split
  · exact .refl s
  · exact (Queues.of_queue queue_updateEntry).trans (.pushBlocks users_subset)

theorem of_mem_queue_updateGlobalVariable {GV : Value}
    (hc : c ∈ (updateGlobalVariable F order s GV r).queue) : c ∈ s.queue ∨
      (getInvariance s.variances GV).eq r = false ∧ c ∈ (F.users GV).map Prod.fst := by
  unfold updateGlobalVariable at hc
  split at hc
  · exact .inl hc
  · next hne =>
    rcases mem_queue_pushBlocks.mp hc with hc | hc
    · rw [queue_updateEntry] at hc
      exact .inl hc
    · exact .inr ⟨Bool.eq_false_iff.mpr hne, hc⟩

/-- The global a call to a SafeAtomic function accesses, and what its entry becomes. -/
def accessed (s : State) (Ptr : Value) : Option (Value × InvarianceInfo Value) :=
  let ptrOperand := getInvariance s.variances Ptr
  ((ptrOperand.lane 0).basePtr.filter fun V => V.isGlobalVariable && V.ty = .pointer kMemGlobal).map
    fun GV => (GV, ptrOperand.setGlobal fun _ => .kNonInvariant)

/-- What a call to a SafeAtomic function may do to the base pointer. -/
inductive Accesses (F : Function) (order : SetOrder) (s : State) (Ptr : Value) : State → Prop
  | nothing : Accesses F order s Ptr s
  | argument (i : Nat) (ty : Ty) (r : InvarianceInfo Value) :
    Accesses F order s Ptr (updateArgument F order s (.argument i ty) r)
  | globalVariable {GV : Value} {r : InvarianceInfo Value} : accessed s Ptr = some (GV, r) →
    Accesses F order s Ptr (updateGlobalVariable F order s GV r)

theorem updateAccessed_accesses {Ptr : Value} (h : updateAccessed F order s Ptr = some s') :
    Accesses F order s Ptr s' := by
  unfold updateAccessed at h
  dsimp only at h
  split_ifs at h
  · cases h
    exact .nothing
  · split at h
    · cases h
    · next hbase =>
      split at h
      · next hty =>
        split at h
        · cases h
          refine .globalVariable ?_
          simp [accessed, hbase, Value.isGlobalVariable, hty]
        · cases h
          exact .argument ..
        · cases h
          exact .nothing
      · cases h
        exact .nothing

/-- The global whose entry a store writes over, and what it becomes. -/
def stored (s : State) (ptr : Value) (ptrOperand result : InvarianceInfo Value) :
    Option (Value × InvarianceInfo Value) :=
  ((ptrOperand.lane 0).basePtr.filter fun V =>
    V.isGlobalVariable && ptr.ty = .pointer kMemLocal).map fun GV =>
      (GV, (getInvariance s.variances GV).setGlobal ((result.lane 0).invariances .kDimGlobal))

/-- What a store may do to the base pointer. -/
inductive Stores (F : Function) (order : SetOrder) (s : State) (ptr : Value)
    (ptrOperand result : InvarianceInfo Value) : State → Prop
  | nothing : Stores F order s ptr ptrOperand result s
  | alloca {b : BlockId} {inst : Instruction} : b ∈ F.layout → inst ∈ (F.block b).all →
    inst.op.isAlloca → Stores F order s ptr ptrOperand result
      (updateInstruction F order b s inst (result.and (getInvariance s.variances inst.value)))
  | argument {i : Nat} {ty : Ty} {r : InvarianceInfo Value} : ty.isPointer → (r = result ∨
      r = (getInvariance s.variances (.argument i ty)).setGlobal
        ((result.lane 0).invariances .kDimGlobal)) →
    Stores F order s ptr ptrOperand result (updateArgument F order s (.argument i ty) r)
  | globalVariable {GV : Value} {r : InvarianceInfo Value} :
    stored s ptr ptrOperand result = some (GV, r) →
    Stores F order s ptr ptrOperand result (updateGlobalVariable F order s GV r)

theorem findAlloca_spec {p : BlockId × Instruction} (h : F.findAlloca V = some p) :
    p.1 ∈ F.layout ∧ p.2 ∈ (F.block p.1).all ∧ p.2.value = V ∧ p.2.op.isAlloca := by
  have hmem := List.mem_of_find?_eq_some h
  have hp := List.find?_some h
  simp only [List.mem_flatMap, List.mem_map] at hmem
  obtain ⟨b, hb, I, hI, rfl⟩ := hmem
  rw [Bool.and_eq_true, decide_eq_true_eq] at hp
  exact ⟨hb, hI, hp⟩

theorem updateStored_stores {ptr : Value} {ptrOperand result : InvarianceInfo Value}
    (h : updateStored F order s ptr ptrOperand result = some s') :
    Stores F order s ptr ptrOperand result s' := by
  unfold updateStored at h
  dsimp only at h
  split at h
  · cases h
    exact .nothing
  · next basePtr hbase =>
    by_cases hptr : basePtr.ty.isPointer = true
    · rw [if_neg (by simp [hptr])] at h
      split at h
      · split at h
        · next b inst hfind =>
          obtain ⟨hb, hinst, rfl, halloca⟩ := findAlloca_spec hfind
          cases h
          exact .alloca hb hinst halloca
        · split at h
          · cases h
            exact .argument hptr (.inl rfl)
          · cases h
            exact .nothing
      · split at h
        · next hlocal =>
          split_ifs at h
          · cases h
            exact .nothing
          · split at h
            · cases h
              refine .globalVariable ?_
              simp [stored, hbase, Value.isGlobalVariable, hlocal]
            · cases h
              exact .argument hptr (.inr rfl)
            · cases h
              exact .nothing
        · cases h
          exact .nothing
    · rw [if_pos (by simp [hptr])] at h
      cases h
      exact .nothing

/-- An `extractelement` whose index is no constant; `visitExtractElementInst` gives it no entry. -/
def skips : Op → Bool
  | .extractElement _ _ (.constant (.int _)) => false
  | .extractElement _ _ _ => true
  | _ => false

/-- What the visit of an instruction may do. -/
inductive Visits (F : Function) (order : SetOrder) (b : BlockId) (s : State) (I : Instruction) :
    State → Prop
  | update {s₀ : State} : s₀.variances = s.variances → s₀.queue = s.queue →
    I.op.isAlloca = false →
    Visits F order b s I (updateInstruction F order b s₀ I (computed F order s.variances b I))
  | skip : skips I.op → Visits F order b s I s
  | alloca {arraySize : Value} {s₁ : State} : I.op = .alloca arraySize →
    (s₁ = s ∨ isStaticAlloca F b arraySize = false ∧
      s₁ = updateInstruction F order b s I (maybeNonInvariant I)) →
    Visits F order b s I (updateInstruction F order b s₁ I (computed F order s₁.variances b I))
  | atomic {ty : Ty} {args : List Value} {Called : Value} {s₁ : State} :
    I.op = .call ty args Called → calledSafeAtomic Called →
    Accesses F order (updateInstruction F order b s I
      ((InvarianceInfo.ofWidth ty.width).reset .kNonInvariant))
      ((args ++ [Called]).headD Called) s₁ →
    Visits F order b s I (updateInstruction F order b s₁ I (computed F order s₁.variances b I))
  | store {val ptr : Value} {s₁ : State} : I.op = .store val ptr →
    Stores F order (updateInstruction F order b s I (computed F order s.variances b I)) ptr
      (getInvariance s.variances ptr) (computed F order s.variances b I) s₁ →
    Visits F order b s I s₁

theorem inRange_of_visit (h : visit F order b s I = some s') : inRange s.variances I = true := by
  unfold visit at h
  split at h
  · assumption
  · cases h

theorem visit_visits (h : visit F order b s I = some s') : Visits F order b s I s' := by
  unfold visit at h
  rw [if_pos (inRange_of_visit h)] at h
  obtain ⟨i, op⟩ := I
  cases op with
  | alloca arraySize =>
    dsimp only at h
    split at h
    · cases h
      exact .alloca rfl (.inl rfl)
    · next hstatic =>
      cases h
      exact .alloca rfl (.inr ⟨by simpa using hstatic, rfl⟩)
  | call ty args Called =>
    dsimp only at h
    split at h
    · next hatomic =>
      obtain ⟨s₁, hs₁, rfl⟩ := Option.map_eq_some_iff.mp h
      exact .atomic rfl hatomic (updateAccessed_accesses hs₁)
    · cases h
      exact .update rfl rfl rfl
  | extractElement ty vec index =>
    cases index with
    | constant C =>
      cases C with
      | int n =>
        cases h
        exact .update rfl rfl rfl
      | _ =>
        cases h
        exact .skip rfl
    | _ =>
      cases h
      exact .skip rfl
  | load ty ptr =>
    cases ty <;>
    · cases h
      exact .update rfl rfl rfl
  | store val ptr => exact .store rfl (updateStored_stores h)
  | _ =>
    cases h
    exact .update rfl rfl rfl

theorem Accesses.queues {Ptr : Value} (h : Accesses F order s Ptr s') : Queues F s s' := by
  cases h with
  | nothing => exact .refl s
  | argument => exact updateArgument_queues
  | globalVariable => exact updateGlobalVariable_queues

theorem Stores.queues {ptr : Value} {ptrOperand result : InvarianceInfo Value}
    (h : Stores F order s ptr ptrOperand result s') : Queues F s s' := by
  cases h with
  | nothing => exact .refl s
  | alloca => exact updateInstruction_queues
  | argument => exact updateArgument_queues
  | globalVariable => exact updateGlobalVariable_queues

theorem visit_queues (h : visit F order b s I = some s') : Queues F s s' := by
  cases visit_visits h with
  | update _ hqueue => exact (Queues.of_queue hqueue).trans updateInstruction_queues
  | skip => exact .refl s
  | alloca _ hs₁ =>
    rcases hs₁ with rfl | ⟨-, rfl⟩
    · exact updateInstruction_queues
    · exact updateInstruction_queues.trans updateInstruction_queues
  | atomic _ _ hs₁ =>
    exact (updateInstruction_queues.trans hs₁.queues).trans updateInstruction_queues
  | store _ hs₁ => exact updateInstruction_queues.trans hs₁.queues

theorem foldlM_visit_queues {Is : List Instruction} (h : Is.foldlM (visit F order b) s = some s') :
    Queues F s s' :=
  Sim.foldlM_inv_rest (P := fun _ t => Queues F s t) h (.refl s)
    fun _ _ _ _ _ _ _ hvisit hs => hs.trans (visit_queues hvisit)

theorem analyzeBlock_queues (h : analyzeBlock F order s b = some s') : Queues F s s' :=
  foldlM_visit_queues h

end DataFlow

/-! ### The visits of a run -/

/-- In round `n` the run comes to `I`, an instruction of `b`, in the state `s`; `rest` is behind
it. -/
def VisitedAt (F : Function) (order : SetOrder) (n : Nat) (b : BlockId) (s : State)
    (I : Instruction) (rest : List Instruction) : Prop :=
  ∃ t work pre, run F order n = some t ∧ t.queue = b :: work ∧ (F.block b).all = pre ++ I :: rest ∧
    pre.foldlM (DataFlow.visit F order b) { t with queue := work } = some s

theorem run_succ (n : Nat) : run F order (n + 1) = (run F order n).bind (step F order) := rfl

/-- A round that does not fail takes a block from the queue, if there is one. -/
theorem run_succ_cases {n : Nat} (h : run F order (n + 1) = some s') :
    ∃ t, run F order n = some t ∧ (t.queue = [] ∧ s' = t ∨ ∃ b work, t.queue = b :: work ∧
      DataFlow.analyzeBlock F order { t with queue := work } b = some s') := by
  obtain ⟨t, ht, hstep⟩ := Option.bind_eq_some_iff.mp h
  refine ⟨t, ht, ?_⟩
  unfold step at hstep
  split at hstep
  · next hqueue => exact .inl ⟨hqueue, (Option.some.inj hstep).symm⟩
  · next b work hqueue => exact .inr ⟨b, work, hqueue, hstep⟩

theorem queue_start : (start F).queue = F.layout := by
  have hinit : ∀ s : State, (initializeMap F s).queue = s.queue := by
    intro s
    unfold initializeMap
    induction F.args.zipIdx generalizing s with
    | nil => rfl
    | cons p ps ih => rw [List.foldl_cons, ih, queue_updateEntry]
  exact hinit _

theorem queue_run_subset {n : Nat} (h : run F order n = some s) : s.queue ⊆ F.layout := by
  induction n generalizing s with
  | zero =>
    obtain rfl := Option.some.inj h
    rw [queue_start]
    exact List.Subset.refl _
  | succ n ih =>
    obtain ⟨t, ht, ⟨-, rfl⟩ | ⟨b, work, hqueue, hblock⟩⟩ := run_succ_cases h
    · exact ih ht
    · exact (DataFlow.analyzeBlock_queues hblock).subset fun c hc =>
        ih ht (by rw [hqueue]; exact List.mem_cons_of_mem _ hc)

theorem mem_layout_of_queue {n : Nat} {work : List BlockId} (h : run F order n = some s)
    (hqueue : s.queue = b :: work) : b ∈ F.layout :=
  queue_run_subset h (by rw [hqueue]; exact List.mem_cons_self)

theorem run_add_of_queue_eq_nil {n : Nat} (h : run F order n = some s) (hqueue : s.queue = [])
    (k : Nat) : run F order (n + k) = some s := by
  induction k with
  | zero => exact h
  | succ k ih =>
    rw [← Nat.add_assoc, run_succ, ih]
    exact show step F order s = some s by rw [step, hqueue]

theorem VisitedAt.lt_of_queue_eq_nil {n N : Nat} {rest : List Instruction}
    (h : VisitedAt F order n b s I rest) (hN : run F order N = some s') (hqueue : s'.queue = []) :
    n < N := by
  obtain ⟨t, work, pre, ht, ht', -⟩ := h
  by_contra hle
  obtain ⟨k, rfl⟩ := Nat.exists_eq_add_of_le (Nat.le_of_not_lt hle)
  obtain rfl : s' = t := Option.some.inj ((run_add_of_queue_eq_nil hN hqueue k).symm.trans ht)
  rw [hqueue] at ht'
  cases ht'

/-- The visits of one round. -/
theorem VisitedAt.get {n : Nat} {rest : List Instruction}
    {P : BlockId → State → Instruction → List Instruction → Prop}
    (h : VisitedAt F order n b s I rest) (hP : ∀ t ∈ run F order n, ∀ c ∈ t.queue.head?,
      Sim.ForallSteps (DataFlow.visit F order c) (P c) { t with queue := t.queue.tail }
        (F.block c).all) : P b s I rest := by
  obtain ⟨t, work, pre, ht, hqueue, hall, hpre⟩ := h
  have hround := hP t ht b (by rw [hqueue]; rfl)
  rw [hqueue, hall] at hround
  exact hround.get hpre

end

end VariOCL.ThreadInvariance
