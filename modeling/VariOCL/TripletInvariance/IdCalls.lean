import VariOCL.IR.Split
import VariOCL.TripletInvariance.Guarded

/-! The analysis never takes a work-item id of a constant dimension for uniform, marks apart. -/

namespace VariOCL.IR.TripletInvarianceAnalysis

open Sim

/-- A call of `get_local_id` or `get_global_id` with one of `DimensionKinds`. -/
def IsIdCall (F : Function) (i : InstId) : Prop :=
  ∃ ty name args, F.node i = some (.inst ⟨i, ty, .call (some name) args⟩) ∧
    (name = "get_local_id" ∨ name = "get_global_id") ∧
    (idTriplet (args.headD .undefValue)).isSome

theorem idTriplet_ne {dim : Value} {T : TripletType} (h : idTriplet dim = some T) :
    T ≠ invariantTriplet := by
  rintro rfl
  simp only [idTriplet, invariantTriplet] at h
  split_ifs at h <;> cases h

/-- No id call outside `marked` is or will be found uniform. -/
def IdsVary (F : Function) (marked : InstId → Prop) (s : Triplets) : Prop :=
  ∀ i, IsIdCall F i → ¬ marked i →
    s.TI (.value (.inst i)) ≠ some invariantTriplet ∧ s.CycleColorMap i ≠ .grey

section
variable {F : Function} {users : InstId → List InstId} {marked : InstId → Prop} {fuel n : Nat}

theorem idsVary_set {V : Key} {T : TripletType}
    (h : ∀ i, V = .value (.inst i) → IsIdCall F i → ¬ marked i → T ≠ invariantTriplet) :
    Triple (IdsVary F marked) (setTripletToValue V T) fun _ => IdsVary F marked := by
  refine .modify fun s hs i hi hm => ⟨?_, (hs i hi hm).2⟩
  dsimp only
  split
  · rename_i hV
    exact fun hT => h i hV.symm hi hm (Option.some.inj hT)
  · exact (hs i hi hm).1

/-- What an evaluation of `V` keeps, and what it returns for an id call. -/
def Evaluates (F : Function) (marked : InstId → Prop) (V : Key) (x : Analysis TripletType) : Prop :=
  Triple (IdsVary F marked) x fun T s => IdsVary F marked s ∧
    ∀ i, V = .value (.inst i) → IsIdCall F i → ¬ marked i → T ≠ invariantTriplet

theorem Evaluates.keeps {V : Key} {x : Analysis TripletType} (h : Evaluates F marked V x) :
    Triple (IdsVary F marked) x fun _ => IdsVary F marked := h.post fun _ _ h => h.1

/-- What `IdsVary` says of one call. -/
def Varies (i : InstId) (s : Triplets) : Prop :=
  s.TI (.value (.inst i)) ≠ some invariantTriplet ∧ s.CycleColorMap i ≠ .grey

theorem IsIdCall.not_takesColor {i : InstId} (hi : IsIdCall F i) : ¬ takesColor F i := by
  obtain ⟨ty, name, args, hnode, -⟩ := hi
  simp [takesColor, hnode]

theorem IsIdCall.guarded {i : InstId} (hi : IsIdCall F i) :
    Guarded F (.value (.inst i)) (Varies i) where
  put s V T hV hs := by
    refine ⟨?_, hs.2⟩
    rw [Triplets.put_of_ne T hV.symm]
    exact hs.1
  paint s j hj hs := by
    refine ⟨hs.1, ?_⟩
    have hij : i ≠ j := fun h => hi.not_takesColor (h ▸ hj)
    rw [Triplets.paint]
    simpa [hij] using hs.2
  idle s v hs hv h := by
    cases h
    simp only [Triplets.inProgress, Bool.and_eq_true, decide_eq_true_eq] at hv
    exact hs.2 hv.1

variable (users) in
theorem IsIdCall.getOrCalculateTriplet {i : InstId} (hi : IsIdCall F i) (n : Nat) :
    Triple (Varies i) (getOrCalculateTriplet F users n (.value (.inst i)))
      fun T s => Varies i s ∧ T ≠ invariantTriplet := by
  cases n with
  | zero => exact .throw _
  | succ n =>
    unfold TripletInvarianceAnalysis.getOrCalculateTriplet
    refine .bind (.get _) fun s => ?_
    cases hTI : s.TI (.value (.inst i)) with
    | some T =>
      refine .pure T ?_
      rintro _ ⟨rfl, hs⟩
      exact ⟨hs, fun hT => hs.1 (hT ▸ hTI)⟩
    | none =>
      obtain ⟨ty, name, args, hnode, hname, hdim⟩ := hi
      obtain ⟨T, hT⟩ := Option.isSome_iff_exists.mp hdim
      have hput : Triple (Varies i) (setTripletToValue (.value (.inst i)) T) fun _ => Varies i := by
        refine .modify fun s hs => ⟨fun h => ?_, hs.2⟩
        exact idTriplet_ne hT (Option.some.inj ((Triplets.put_self _ T).symm.trans h))
      have hcall : callTriplet (TripletInvarianceAnalysis.getOrCalculateTriplet F users n)
          (.value (.inst i)) (some name) args = setTripletType (.value (.inst i)) T := by
        simp only [callTriplet, calledFunctionName, Option.getD_some, if_pos hname, hT]
      simp only [hnode, instTriplet, hcall]
      refine Triple.pre (P := Varies i) ?_ fun _ hs => hs.2
      exact .bind hput fun _ => .pure T fun s hs => ⟨hs, idTriplet_ne hT⟩

theorem evaluates_getOrCalculateTriplet (V : Key) :
    Evaluates F marked V (getOrCalculateTriplet F users n V) := by
  intro s T s' hs hx
  refine ⟨fun i hi hm => ?_, fun i hV hi hm => ?_⟩
  · have hself := fun n => (hi.getOrCalculateTriplet users n).post fun _ _ h => h.1
    exact hi.guarded.getOrCalculateTriplet hself n V (hs i hi hm) hx
  · cases hV
    exact (hi.getOrCalculateTriplet users n (hs i hi hm) hx).2

/-! ### The marks of the barrier loops -/

/-- The blocks a barrier loop marks as uniform. -/
def barrierMarks (F : Function) (preds : BlockId → List BlockId) (LI : List Loop) : List BlockId :=
  ((LI.flatMap fun TL => TL :: TL.subLoops).filter (isBarrierLoop F)).flatMap fun L =>
    L.header :: (getLoopLatch preds L).toList

def Marked (F : Function) (preds : BlockId → List BlockId) (LI : List Loop) (i : InstId) : Prop :=
  ∃ b ∈ barrierMarks F preds LI, i ∈ (F.block b).instIds

variable {preds : BlockId → List BlockId} {LI : List Loop} {globals : List String}

theorem idsVary_markBlock {b : BlockId} {T : TripletType}
    (h : T = invariantTriplet → ∀ i ∈ (F.block b).instIds, marked i) :
    Triple (IdsVary F marked) (markBlock F b T) fun _ => IdsVary F marked := by
  refine .forM fun i hi => idsVary_set ?_
  rintro j hj - hm hT
  cases hj
  exact hm (h hT _ hi)

theorem idsVary_markLoop {L : Loop} (hL : L ∈ LI.flatMap fun TL => TL :: TL.subLoops) :
    Triple (IdsVary F (Marked F preds LI)) (markLoop F preds L)
      fun _ => IdsVary F (Marked F preds LI) := by
  have hmark : ∀ b ∈ L.header :: (getLoopLatch preds L).toList,
      (if isBarrierLoop F L then invariantTriplet else nonInvariantTriplet) = invariantTriplet →
        ∀ i ∈ (F.block b).instIds, Marked F preds LI i := by
    intro b hb hT i hi
    split at hT
    · exact ⟨b, List.mem_flatMap.mpr ⟨L, List.mem_filter.mpr ⟨hL, ‹_›⟩, hb⟩, hi⟩
    · cases hT
  refine .bind (idsVary_markBlock (hmark L.header List.mem_cons_self)) fun _ => ?_
  split
  · rename_i latch hlatch
    exact idsVary_markBlock (hmark latch (by simp [hlatch]))
  · exact .pure _ fun _ hs => hs

theorem idsVary_runOnFunction :
    Triple (IdsVary F (Marked F preds LI)) (runOnFunction F users fuel preds LI globals)
      fun _ => IdsVary F (Marked F preds LI) := by
  refine .bind (.forM fun g _ => idsVary_set nofun) fun _ => .bind (.forM fun TL hTL => ?_) fun _ =>
    .bind (idsVary_set nofun) fun _ => .forM fun b _ => .forM fun i _ => ?_
  · refine .bind (idsVary_markLoop (List.mem_flatMap.mpr ⟨TL, hTL, List.mem_cons_self⟩)) fun _ =>
      .forM fun L hL => idsVary_markLoop (List.mem_flatMap.mpr ⟨TL, hTL, ?_⟩)
    exact List.mem_cons_of_mem _ hL
  · exact .bind (evaluates_getOrCalculateTriplet _).keeps fun _ => .pure _ fun _ hs => hs

theorem idsVary_noTriplets : IdsVary F marked noTriplets := fun _ _ _ => ⟨nofun, nofun⟩

/-- What `isUniform` finds uniform is no id call, marks apart. -/
theorem isUniform_spec (i : InstId) : Triple (IdsVary F marked)
    (isUniform F users fuel (.value (.inst i))) fun u s =>
      IdsVary F marked s ∧ (u = true → IsIdCall F i → marked i) := by
  refine .bind (evaluates_getOrCalculateTriplet _) fun T => .pure _ fun s hs => ⟨hs.1, ?_⟩
  intro hT hi
  by_contra hm
  exact hs.2 i rfl hi hm (of_decide_eq_true hT)

end

end VariOCL.IR.TripletInvarianceAnalysis
