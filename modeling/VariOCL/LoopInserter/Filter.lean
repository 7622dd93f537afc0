import VariOCL.IR.Split
import VariOCL.LoopInserter.Regions
import VariOCL.TripletInvariance.IdCalls

/-! The filter of `CondBarrier::runOnFunction`: a region found trivial or uniform gets no loops. -/

namespace VariOCL.IR.LoopInserter

open Sim
open TripletInvarianceAnalysis (Analysis Triplets isUniform IdsVary IsIdCall)

inductive FilterFailure
  | nullPointer
  | analysis (e : TripletInvarianceAnalysis.Failure)
  deriving DecidableEq

abbrev Filter := StateT Triplets (Except FilterFailure)

def Filter.lift {α : Type} (x : Analysis α) : Filter α := fun s =>
  match x s with
  | .ok r => .ok r
  | .error e => .error (.analysis e)

section
variable (F : Function) (preds : BlockId → List BlockId) (users : InstId → List InstId)
  (fuel : Nat)

/-- `Br` is null for a terminator that is no branch. -/
def isBasicBlockTrivial (BB : BlockId) : Except FilterFailure Bool :=
  if (F.block BB).size = 1 ∧ (F.succs BB).length = 1 ∧ (getSinglePredecessor preds BB).isSome then
    match (F.block BB).term with
    | .br _ => .ok true
    | .condBr _ _ _ => .ok false
    | _ => .error .nullPointer
  else .ok false

def isBasicBlockUniform (BB : BlockId) : Analysis Bool :=
  (F.block BB).instIds.foldlM (fun IsBBUniform Inst => do
    let u ← isUniform F users fuel (.value (.inst Inst))
    pure (IsBBUniform && u)) true

def isRegionTrivial (RN : MxPARegion) : Except FilterFailure Bool :=
  if RN.Exit ≠ some RN.Entry then RN.BBSet.allM (isBasicBlockTrivial F preds)
  else isBasicBlockTrivial F preds RN.Entry

def isRegionUniform (RN : MxPARegion) : Analysis Bool :=
  if RN.Exit ≠ some RN.Entry then RN.BBSet.allM (isBasicBlockUniform F users fuel)
  else isBasicBlockUniform F users fuel RN.Entry

/-- Whether a region is put into `PR`. -/
def needsLoops (RN : MxPARegion) : Filter Bool := do
  if ← isRegionTrivial F preds RN then pure false
  else
    let u ← Filter.lift (isRegionUniform F users fuel RN)
    pure !u

def filterRegions (RD : List MxPARegion) : Filter (List MxPARegion) :=
  RD.foldlM (fun PR RN => do
    if ← needsLoops F preds users fuel RN then pure (PR ++ [RN]) else pure PR) []

end

/-- The blocks the filter looks at. -/
def MxPARegion.checked (RN : MxPARegion) : List BlockId :=
  if RN.Exit ≠ some RN.Entry then RN.BBSet else [RN.Entry]

section
variable {F : Function} {preds : BlockId → List BlockId} {users : InstId → List InstId} {fuel : Nat}
  {marked : InstId → Prop} {RN : MxPARegion}

theorem isBasicBlockTrivial_spec {b : BlockId} (h : isBasicBlockTrivial F preds b = .ok true) :
    (F.block b).insts = [] ∧ ∃ d, (F.block b).term = .br d := by
  rw [isBasicBlockTrivial] at h
  split at h
  · rename_i hb
    refine ⟨List.eq_nil_of_length_eq_zero (Nat.succ.inj hb.1), ?_⟩
    split at h
    · exact ⟨_, ‹_›⟩
    · cases h
    · cases h
  · cases h

theorem isRegionTrivial_spec (h : isRegionTrivial F preds RN = .ok true) :
    ∀ b ∈ RN.checked, (F.block b).insts = [] ∧ ∃ d, (F.block b).term = .br d := by
  have hall : ∀ {bs : List BlockId}, bs.allM (isBasicBlockTrivial F preds) = .ok true →
      ∀ b ∈ bs, isBasicBlockTrivial F preds b = .ok true := by
    intro bs hbs
    induction bs with
    | nil => exact fun b hb => absurd hb List.not_mem_nil
    | cons b bs ih =>
      rw [List.allM_cons] at hbs
      cases hb : isBasicBlockTrivial F preds b with
      | error e =>
        rw [hb] at hbs
        cases hbs
      | ok u =>
        rw [hb] at hbs
        cases u with
        | false => cases hbs
        | true => exact List.forall_mem_cons.mpr ⟨hb, ih hbs⟩
  intro b hb
  rw [isRegionTrivial] at h
  rw [MxPARegion.checked] at hb
  split at h
  · rw [if_pos ‹_›] at hb
    exact isBasicBlockTrivial_spec (hall h b hb)
  · rw [if_neg ‹_›, List.mem_singleton] at hb
    exact hb ▸ isBasicBlockTrivial_spec h

theorem isBasicBlockUniform_spec (b : BlockId) : Triple (IdsVary F marked)
    (isBasicBlockUniform F users fuel b) fun u s =>
      IdsVary F marked s ∧ (u = true → ∀ i ∈ (F.block b).instIds, IsIdCall F i → marked i) := by
  have hfold : ∀ (is : List InstId) (u₀ : Bool), Triple (IdsVary F marked)
      (is.foldlM (fun IsBBUniform Inst => do
        let u ← isUniform F users fuel (.value (.inst Inst))
        pure (IsBBUniform && u)) u₀) fun u s => IdsVary F marked s ∧
          (u = true → u₀ = true ∧ ∀ i ∈ is, IsIdCall F i → marked i) := by
    intro is
    induction is with
    | nil => exact fun u₀ => .pure u₀ fun s hs =>
        ⟨hs, fun hu => ⟨hu, fun i hi => absurd hi List.not_mem_nil⟩⟩
    | cons i is ih =>
      intro u₀
      rw [List.foldlM_cons]
      refine .bind (.bind (TripletInvarianceAnalysis.isUniform_spec i) fun u =>
        .pure (R := fun u' s => IdsVary F marked s ∧
          (u' = true → u₀ = true ∧ (IsIdCall F i → marked i))) _ fun s hs => ⟨hs.1, fun hu => ?_⟩)
        fun u => ?_
      · obtain ⟨hu₀, hu⟩ := Bool.and_eq_true_iff.mp hu
        exact ⟨hu₀, hs.2 hu⟩
      · rintro s u' s' ⟨hs, hu⟩ hx
        obtain ⟨hs', hu'⟩ := ih u hs hx
        refine ⟨hs', fun h => ?_⟩
        obtain ⟨hu₁, his⟩ := hu' h
        exact ⟨(hu hu₁).1, List.forall_mem_cons.mpr ⟨(hu hu₁).2, his⟩⟩
  exact (hfold (F.block b).instIds true).post fun u s h => ⟨h.1, fun hu => (h.2 hu).2⟩

/-- A region found uniform has no id call in the blocks looked at, marks apart. -/
theorem isRegionUniform_spec : Triple (IdsVary F marked) (isRegionUniform F users fuel RN)
    fun u s => IdsVary F marked s ∧
      (u = true → ∀ b ∈ RN.checked, ∀ i ∈ (F.block b).instIds, IsIdCall F i → marked i) := by
  rw [isRegionUniform, MxPARegion.checked]
  split
  · exact .allM fun b _ => isBasicBlockUniform_spec b
  · exact (isBasicBlockUniform_spec RN.Entry).post fun u s h =>
      ⟨h.1, fun hu b hb => List.mem_singleton.mp hb ▸ h.2 hu⟩

theorem idsVary_lift {α : Type} {x : Analysis α}
    (h : Triple (IdsVary F marked) x fun _ => IdsVary F marked) :
    Triple (IdsVary F marked) (Filter.lift x) fun _ => IdsVary F marked := by
  intro s a s' hs hx
  cases hxs : x s with
  | error e =>
    rw [Filter.lift, hxs] at hx
    cases hx
  | ok r =>
    rw [Filter.lift, hxs] at hx
    cases hx
    exact h hs hxs

theorem idsVary_needsLoops : Triple (IdsVary F marked) (needsLoops F preds users fuel RN)
    fun _ => IdsVary F marked := by
  refine .bind (R := fun _ => IdsVary F marked) ?_ fun t => ?_
  · intro s a s' hs hx
    cases ht : isRegionTrivial F preds RN with
    | error e =>
      rw [ht] at hx
      cases hx
    | ok t =>
      rw [ht] at hx
      cases hx
      exact hs
  · split
    · exact .pure _ fun _ hs => hs
    · exact .bind (idsVary_lift (isRegionUniform_spec.post fun _ _ h => h.1)) fun _ =>
        .pure _ fun _ hs => hs

theorem idsVary_filterRegions {RD : List MxPARegion} : Triple (IdsVary F marked)
    (filterRegions F preds users fuel RD) fun _ => IdsVary F marked := by
  refine .foldlM [] fun PR RN _ => .bind idsVary_needsLoops fun u => ?_
  split
  · exact .pure _ fun _ hs => hs
  · exact .pure _ fun _ hs => hs

/-- The filter leaves a region out as it found it trivial or uniform. -/
theorem needsLoops_false {s s' : Triplets}
    (h : needsLoops F preds users fuel RN s = .ok (false, s')) :
    isRegionTrivial F preds RN = .ok true ∨
      isRegionUniform F users fuel RN s = .ok (true, s') := by
  cases ht : isRegionTrivial F preds RN with
  | error e =>
    rw [needsLoops, ht] at h
    cases h
  | ok t =>
    cases t with
    | true => exact .inl rfl
    | false =>
      right
      rw [needsLoops, ht] at h
      cases hu : isRegionUniform F users fuel RN s with
      | error e =>
        change (Filter.lift _ s).bind _ = _ at h
        rw [Filter.lift, hu] at h
        cases h
      | ok r =>
        obtain ⟨u, s''⟩ := r
        change (Filter.lift _ s).bind _ = _ at h
        rw [Filter.lift, hu] at h
        cases u with
        | false => cases h
        | true =>
          cases h
          rfl

end

end VariOCL.IR.LoopInserter
