import VariOCL.ThreadInvariance.DataFlow
import VariOCL.ThreadInvariance.Order

/-! Which entries a visit method reads, and that it computes no more where they hold no more. -/

namespace VariOCL.ThreadInvariance

open IR (BlockId)

namespace DataFlow

variable (F : Function) (order : SetOrder)

/-- The value whose entry is the control invariance from `BB`. -/
def controlValue (BB : BlockId) : Value :=
  match (F.block BB).term.op with
  | .br (some condition) => condition
  | _ => (F.block BB).term.value

/-- The calls that get the meet of their operands. -/
def isStandardCall : Value → Bool
  | .constant (.function Called) => Called.isDeclaration && !isGlobalIndex Called &&
    !isLocalIndex Called && !isGroupIndex Called
  | _ => false

/-- The incoming edges whose control counts. -/
def controlled (thisBlock : BlockId) (incoming : List (Value × BlockId)) :
    List (Value × BlockId) :=
  incoming.filter fun p => !F.cfg.dominates thisBlock p.2 && !F.cfg.dominates p.2 thisBlock &&
    !p.1.isUndefValue

/-- The values whose entries `computed` depends on. -/
def reads (b : BlockId) : Op → List Value
  | .standard _ operands => operands
  | .call _ args Called => if isStandardCall Called then args ++ [Called] else []
  | .insertElement vec elt (.constant (.int _)) => [vec, elt]
  | .insertElement vec elt index => [vec, elt, index]
  | .extractElement _ vec (.constant (.int _)) => [vec]
  | .shuffleVector _ lhs rhs _ => [lhs, rhs]
  | .load _ ptr => [ptr]
  | .store val ptr => [val, ptr]
  | .phi _ incoming => incoming.map Prod.fst ++ (controlled F b incoming).flatMap fun p =>
    (F.getInputDependence p.2).map (controlValue F)
  | .br condition => condition.toList
  | _ => []

variable {F order}

theorem controlInvarianceFromBlock_eq (variances : InvarianceMap) (BB : BlockId) :
    controlInvarianceFromBlock F variances BB = getInvariance variances (controlValue F BB) := by
  rw [controlInvarianceFromBlock, controlValue]
  cases (F.block BB).term.op with
  | br condition => cases condition <;> rfl
  | _ => rfl

section
variable {m m' : InvarianceMap} {b : BlockId} {I : Instruction}

/-- A meet over a list. -/
theorem foldl_and_mono {α : Type} {f g : α → InvarianceInfo Value} {xs : List α}
    {r r' : InvarianceInfo Value} (hr : r ≤ r') (h : ∀ x ∈ xs, f x ≤ g x) :
    xs.foldl (fun r x => r.and (f x)) r ≤ xs.foldl (fun r x => r.and (g x)) r' := by
  induction xs generalizing r r' with
  | nil => exact hr
  | cons x xs ih =>
    obtain ⟨hx, hxs⟩ := List.forall_mem_cons.mp h
    exact ih (InvarianceInfo.and_mono hr hx) hxs

theorem foldl_and_le_init {α : Type} {f : α → InvarianceInfo Value} (xs : List α)
    (r : InvarianceInfo Value) : xs.foldl (fun r x => r.and (f x)) r ≤ r := by
  induction xs generalizing r with
  | nil => exact le_rfl
  | cons x xs ih => exact (ih _).trans InvarianceInfo.and_le_left

/-- A meet is below the operands of its width. -/
theorem foldl_and_le {α : Type} {f : α → InvarianceInfo Value} {xs : List α} {x : α}
    {r : InvarianceInfo Value} (hx : x ∈ xs) (hw : (f x).width = r.width) :
    xs.foldl (fun r x => r.and (f x)) r ≤ f x := by
  induction xs generalizing r with
  | nil => cases hx
  | cons y ys ih =>
    rcases List.mem_cons.mp hx with rfl | hx
    · exact (foldl_and_le_init ys _).trans (InvarianceInfo.and_le_right hw.symm)
    · exact ih hx (by rw [InvarianceInfo.width_and, hw])

theorem standardRule_mono
    (h : ∀ V ∈ I.op.operands, getInvariance m V ≤ getInvariance m' V) :
    standardRule m I ≤ standardRule m' I :=
  foldl_and_mono le_rfl h

theorem callResult_mono {Called : Value}
    (h : isStandardCall Called → ∀ V ∈ I.op.operands, getInvariance m V ≤ getInvariance m' V) :
    callResult m I Called ≤ callResult m' I Called := by
  unfold callResult
  split
  · split_ifs with hg hl hgr hd
    · exact le_rfl
    · exact le_rfl
    · exact le_rfl
    · exact standardRule_mono (h (by simp [isStandardCall, hg, hl, hgr, hd]))
    · exact le_rfl
  · exact le_rfl

theorem phiResult_mono {ty : Ty} {incoming : List (Value × BlockId)}
    (h : ∀ V ∈ reads F b (.phi ty incoming), getInvariance m V ≤ getInvariance m' V) :
    phiResult F order m b ty incoming ≤ phiResult F order m' b ty incoming := by
  have hvalue : ∀ p ∈ incoming, getInvariance m p.1 ≤ getInvariance m' p.1 := fun p hp =>
    h p.1 (List.mem_append_left _ (List.mem_map_of_mem hp))
  have hblock : ∀ p ∈ controlled F b incoming,
      controlInvarianceForBlock F order m p.2 ≤ controlInvarianceForBlock F order m' p.2 := by
    intro p hp
    refine foldl_and_mono le_rfl fun B hB => ?_
    rw [controlInvarianceFromBlock_eq, controlInvarianceFromBlock_eq]
    have hB' := (order.mem_iterate _ _).mp hB
    exact h _ (List.mem_append_right _
      (List.mem_flatMap.mpr ⟨p, hp, List.mem_map_of_mem hB'⟩))
  unfold phiResult
  dsimp only
  split_ifs
  · exact InvarianceInfo.and_mono (foldl_and_mono le_rfl hvalue) (foldl_and_mono le_rfl hblock)
  · exact foldl_and_mono le_rfl hvalue

theorem shuffleResult_mono {ty : Ty} {lhs rhs mask : Value}
    (hlhs : getInvariance m lhs ≤ getInvariance m' lhs)
    (hrhs : getInvariance m rhs ≤ getInvariance m' rhs) :
    shuffleResult m ty lhs rhs mask ≤ shuffleResult m' ty lhs rhs mask := by
  have hfold : ∀ {α : Type} (xs : List α) {f g : InvarianceInfo Value → α → InvarianceInfo Value}
      {r r' : InvarianceInfo Value}, (∀ r r' x, r ≤ r' → f r x ≤ g r' x) → r ≤ r' →
      xs.foldl f r ≤ xs.foldl g r' := by
    intro α xs f g r r' hfg hr
    induction xs generalizing r r' with
    | nil => exact hr
    | cons x xs ih => exact ih (hfg r r' x hr)
  unfold shuffleResult
  dsimp only
  split
  · refine hfold _ (fun r r' p hr => ?_) le_rfl
    split
    · refine InvarianceInfo.modifyLane_mono hr ?_
      rw [hrhs.1]
      split_ifs
      · exact hrhs.2 _
      · exact hlhs.2 _
    · exact hr
  · exact hfold _ (fun r r' i hr => InvarianceInfo.modifyLane_mono hr (hlhs.2 0)) le_rfl

/-- A visit method computes no more from entries that hold no more. -/
theorem computed_mono (h : ∀ V ∈ reads F b I.op, getInvariance m V ≤ getInvariance m' V) :
    computed F order m b I ≤ computed F order m' b I := by
  obtain ⟨i, op⟩ := I
  cases op with
  | alloca arraySize => exact le_rfl
  | standard ty operands => exact standardRule_mono h
  | call ty args Called =>
    refine callResult_mono fun hstd V hV => h V ?_
    rwa [reads, if_pos hstd]
  | insertElement vec elt index =>
    cases index with
    | constant C =>
      cases C with
      | int ind =>
        have helt := h elt (by simp [reads])
        exact InvarianceInfo.modifyLane_mono (h vec (by simp [reads])) (helt.2 0)
      | _ =>
        simp only [computed]
        simp only [reads] at h
        exact standardRule_mono h
    | _ =>
      simp only [computed]
      simp only [reads] at h
      exact standardRule_mono h
  | extractElement ty vec index =>
    cases index with
    | constant C =>
      cases C with
      | int ind =>
        exact InvarianceInfo.modifyLane_mono le_rfl ((h vec (by simp [reads])).2 (laneIndex ind))
      | _ => exact le_rfl
    | _ => exact le_rfl
  | shuffleVector ty lhs rhs mask =>
    exact shuffleResult_mono (h lhs (by simp [reads])) (h rhs (by simp [reads]))
  | load ty ptr => exact InvarianceInfo.and_mono le_rfl (h ptr (by simp [reads]))
  | store val ptr =>
    exact InvarianceInfo.and_mono (InvarianceInfo.and_mono le_rfl (h ptr (by simp [reads])))
      (h val (by simp [reads]))
  | phi ty incoming => exact phiResult_mono h
  | br condition =>
    cases condition with
    | none => exact le_rfl
    | some condition => exact InvarianceInfo.ofWidth_or_mono (h condition (by simp [reads]))
  | terminator operands => exact le_rfl
  | other ty operands => exact le_rfl

/-- Whether an assertion fails is up to the widths of what is read. -/
theorem inRange_congr (h : ∀ V ∈ reads F b I.op,
    (getInvariance m V).width = (getInvariance m' V).width) : inRange m I = inRange m' I := by
  obtain ⟨i, op⟩ := I
  cases op with
  | insertElement vec elt index =>
    cases index with
    | constant C =>
      cases C with
      | int ind => simp only [inRange, h vec (by simp [reads]), h elt (by simp [reads])]
      | _ => rfl
    | _ => rfl
  | extractElement ty vec index =>
    cases index with
    | constant C =>
      cases C with
      | int ind => simp only [inRange, h vec (by simp [reads])]
      | _ => rfl
    | _ => rfl
  | shuffleVector ty lhs rhs mask =>
    have hlhs := h lhs (by simp [reads])
    have hrhs := h rhs (by simp [reads])
    simp only [inRange, shuffleInRange, apply_ite InvarianceInfo.width, hlhs, hrhs]
  | store val ptr => simp only [inRange, h ptr (by simp [reads])]
  | br condition =>
    cases condition with
    | none => rfl
    | some condition => simp only [inRange, h condition (by simp [reads])]
  | _ => rfl

/-- What a call gets is below what it reads at its own width. -/
theorem computed_le_of_reads {ty : Ty} {args : List Value} {Called : Value}
    (hop : I.op = .call ty args Called) {V : Value} (hV : V ∈ reads F b I.op)
    (hw : (getInvariance m V).width = ty.width) :
    computed F order m b I ≤ getInvariance m V := by
  rw [hop, reads] at hV
  split at hV
  · next hstd =>
    have hcomputed : computed F order m b I = standardRule m I := by
      simp only [computed, hop]
      unfold isStandardCall at hstd
      split at hstd
      · simp only [Bool.and_eq_true, Bool.not_eq_true'] at hstd
        simp [callResult, hstd]
      · cases hstd
    rw [hcomputed]
    refine foldl_and_le ?_ ?_
    · rw [hop]
      exact hV
    · rw [hw, hop, InvarianceInfo.width_ofWidth]
      rfl
  · cases hV

/-! ### Widths -/

theorem width_foldl_and {α : Type} {f : α → InvarianceInfo Value} (xs : List α)
    (r : InvarianceInfo Value) : (xs.foldl (fun r x => r.and (f x)) r).width = r.width := by
  induction xs generalizing r with
  | nil => rfl
  | cons x xs ih => rw [List.foldl_cons, ih, InvarianceInfo.width_and]

theorem width_standardRule : (standardRule m I).width = I.op.ty.width :=
  (width_foldl_and _ _).trans (InvarianceInfo.width_ofWidth _)

theorem width_maybeNonInvariant : (maybeNonInvariant I).width = I.op.ty.width := by
  rw [maybeNonInvariant, InvarianceInfo.width_reset, InvarianceInfo.width_ofWidth]

theorem width_setAxes (level : DimLevel) (r : InvarianceInfo Value) :
    (setAxes level r).width = r.width := by
  simp [setAxes]

theorem width_callResult {Called : Value} : (callResult m I Called).width = I.op.ty.width := by
  unfold callResult
  split
  · split_ifs <;> simp [width_setAxes, width_standardRule, width_maybeNonInvariant]
  · exact width_maybeNonInvariant

theorem width_phiResult {ty : Ty} {incoming : List (Value × BlockId)} :
    (phiResult F order m b ty incoming).width = ty.width := by
  unfold phiResult
  dsimp only
  split_ifs
  · rw [InvarianceInfo.width_and, width_foldl_and, InvarianceInfo.width_ofWidth]
  · rw [width_foldl_and, InvarianceInfo.width_ofWidth]

theorem width_shuffleResult {ty : Ty} {lhs rhs mask : Value} :
    (shuffleResult m ty lhs rhs mask).width = ty.width := by
  have hfold : ∀ {α : Type} (xs : List α) {f : InvarianceInfo Value → α → InvarianceInfo Value}
      {r : InvarianceInfo Value}, (∀ r x, (f r x).width = r.width) →
      (xs.foldl f r).width = r.width := by
    intro α xs f r hf
    induction xs generalizing r with
    | nil => rfl
    | cons x xs ih => rw [List.foldl_cons, ih, hf]
  unfold shuffleResult
  dsimp only
  split
  · rw [hfold, InvarianceInfo.width_ofWidth]
    intro r p
    split
    · exact InvarianceInfo.width_modifyLane ..
    · rfl
  · rw [hfold, InvarianceInfo.width_ofWidth]
    exact fun r i => InvarianceInfo.width_modifyLane ..

/-- What is computed for an instruction is as wide as its type. -/
theorem width_computed (h : ∀ vec elt index, I.op = .insertElement vec elt index →
    (getInvariance m vec).width = vec.ty.width) :
    (computed F order m b I).width = I.op.ty.width := by
  obtain ⟨i, op⟩ := I
  cases op with
  | standard ty operands => exact width_standardRule
  | call ty args Called => exact width_callResult
  | insertElement vec elt index =>
    cases index with
    | constant C =>
      cases C with
      | int ind => exact (InvarianceInfo.width_modifyLane ..).trans (h vec elt _ rfl)
      | _ => exact width_standardRule
    | _ => exact width_standardRule
  | extractElement ty vec index =>
    cases index with
    | constant C => cases C <;> simp [computed]
    | _ => simp [computed]
  | shuffleVector ty lhs rhs mask => exact width_shuffleResult
  | phi ty incoming => exact width_phiResult
  | br condition => cases condition <;> simp [computed]
  | terminator operands => exact width_maybeNonInvariant
  | other ty operands => exact width_maybeNonInvariant
  | _ => simp [computed]

end

end DataFlow

end VariOCL.ThreadInvariance
