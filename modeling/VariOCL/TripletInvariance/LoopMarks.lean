import VariOCL.IR.Split
import VariOCL.TripletInvariance.Guarded

/-! Which instructions of the headers and latches of loops the analysis marks: those of the
top-level loops and of the loops directly in them. -/

namespace VariOCL.IR.TripletInvarianceAnalysis

open Sim

/-- The loops of the forest, at every depth. -/
inductive InForest (LI : List Loop) : Loop → Prop
  | top {L : Loop} : L ∈ LI → InForest LI L
  | sub {L L' : Loop} : InForest LI L → L' ∈ L.subLoops → InForest LI L'

/-- An instruction of the header or of the latch, if it is unique. -/
def InHeaderOrLatch (F : Function) (preds : BlockId → List BlockId) (L : Loop) (i : InstId) :
    Prop := ∃ b ∈ L.header :: (getLoopLatch preds L).toList, i ∈ (F.block b).instIds

/-- The loops with `i` in their header or latch have a barrier, or none of them has. -/
def Agreed (F : Function) (preds : BlockId → List BlockId) (LI : List Loop) (barrier : Bool)
    (i : InstId) : Prop :=
  ∀ L, InForest LI L → InHeaderOrLatch F preds L i → isBarrierLoop F L = barrier

/-- The instructions of the headers and latches of barrier loops are found uniform, and those of
other loops are not. -/
def LoopsMarked (F : Function) (users : InstId → List InstId) (preds : BlockId → List BlockId)
    (LI : List Loop) (s : Triplets) : Prop :=
  ∀ L, InForest LI L → ∀ i, InHeaderOrLatch F preds L i →
    Agreed F preds LI (isBarrierLoop F L) i →
      ∀ n, isUniform F users (n + 1) (.value (.inst i)) s = .ok (isBarrierLoop F L, s)

/-- An instruction that is in the header or latch of a top-level loop or of a loop directly in
one. -/
def InOuterLoop (F : Function) (preds : BlockId → List BlockId) (LI : List Loop) (i : InstId) :
    Prop := ∃ TL ∈ LI, ∃ L ∈ TL :: TL.subLoops, InHeaderOrLatch F preds L i

/-- The triplet of a PHI or of an unconditional branch, whatever the rest of the function is. -/
def fixedTriplet : Node → Option TripletType
  | .inst ⟨_, _, .phi _⟩ => some nonInvariantTriplet
  | .term (.br _) => some invariantTriplet
  | _ => none

def markOf (F : Function) (L : Loop) : TripletType :=
  if isBarrierLoop F L then invariantTriplet else nonInvariantTriplet

/-- What `runOnFunction` does before it evaluates anything. -/
def setMarks (F : Function) (preds : BlockId → List BlockId) (LI : List Loop)
    (globals : List String) : Analysis Unit := do
  globals.forM fun g => setTripletToValue (.value (.global g)) invariantTriplet
  markLoops F preds LI
  setTripletToValue (.block F.entry) invariantTriplet

def evaluateAll (F : Function) (users : InstId → List InstId) (fuel : Nat) : Analysis Unit :=
  F.layout.forM fun b => (F.block b).instIds.forM fun i => do
    let _ ← getOrCalculateTriplet F users fuel (.value (.inst i))

/-- The value has a triplet that satisfies `Q`. -/
def HasTriplet (k : Key) (Q : TripletType → Prop) (s : Triplets) : Prop := ∃ T ∈ s.TI k, Q T

section
variable {F : Function} {users : InstId → List InstId} {preds : BlockId → List BlockId}
  {LI : List Loop} {globals : List String} {k : Key} {T : TripletType} {P : Triplets → Prop}
  {Q : TripletType → Prop}
  {i : InstId} {s : Triplets} {fuel : Nat}

/-! ### One entry under the evaluations -/

/-- An entry that is there stays. -/
theorem guarded_entry (k : Key) (T : TripletType) : Guarded F k fun s => s.TI k = some T where
  put s V T' hV hs := (Triplets.put_of_ne T' hV.symm).trans hs
  paint _ _ _ hs := hs
  idle s v hs hv hk := by
    rw [← hk, Triplets.isNone_of_inProgress hv] at hs
    cases hs

theorem isUniform_of_entry (h : s.TI k = some T) (n : Nat) :
    isUniform F users (n + 1) k s = .ok (decide (T = invariantTriplet), s) := by
  change (getOrCalculateTriplet F users (n + 1) k s).bind _ = _
  rw [getOrCalculateTriplet_of_entry h]
  rfl

theorem evaluates_entry (n : Nat) (V : Key) :
    Triple (fun s => s.TI k = some T) (getOrCalculateTriplet F users n V)
      fun _ s => s.TI k = some T := by
  refine (guarded_entry k T).getOrCalculateTriplet (fun n => ?_) n V
  cases n with
  | zero => exact .throw _
  | succ n =>
    intro s T' s' hs hx
    rw [getOrCalculateTriplet_of_entry hs] at hx
    cases hx
    exact hs

/-- An unmarked PHI or branch has no triplet but its own. -/
def Fixed (i : InstId) (T : TripletType) (s : Triplets) : Prop :=
  (s.TI (.value (.inst i)) = none ∨ s.TI (.value (.inst i)) = some T) ∧ s.CycleColorMap i ≠ .grey

theorem guarded_fixed (hi : ¬ takesColor F i) : Guarded F (.value (.inst i)) (Fixed i T) where
  put s V T' hV hs := by
    refine ⟨?_, hs.2⟩
    rw [Triplets.put_of_ne T' hV.symm]
    exact hs.1
  paint s j hj hs := by
    have hij : i ≠ j := fun h => hi (h ▸ hj)
    refine ⟨hs.1, ?_⟩
    rw [Triplets.paint]
    simpa [hij] using hs.2
  idle s v hs hv hk := by
    cases hk
    simp only [Triplets.inProgress, Bool.and_eq_true, decide_eq_true_eq] at hv
    exact hs.2 hv.1

theorem not_takesColor_of_fixedTriplet {nd : Node} (hnode : F.node i = some nd)
    (hT : fixedTriplet nd = some T) : ¬ takesColor F i := by
  match nd, hT with
  | .inst ⟨_, _, .phi _⟩, _ => simp [takesColor, hnode]
  | .term (.br _), _ => simp [takesColor, hnode]

theorem getOrCalculateTriplet_fixed {nd : Node} (hnode : F.node i = some nd)
    (hT : fixedTriplet nd = some T) (n : Nat) :
    Triple (Fixed i T) (getOrCalculateTriplet F users n (.value (.inst i)))
      fun T' s => T' = T ∧ Fixed i T s := by
  cases n with
  | zero => exact .throw _
  | succ n =>
    unfold getOrCalculateTriplet
    refine .bind (.get _) fun s => ?_
    cases hTI : s.TI (.value (.inst i)) with
    | some T' =>
      refine .pure T' ?_
      rintro _ ⟨rfl, hs⟩
      rcases hs.1 with hnone | hsome
      · cases hnone.symm.trans hTI
      · exact ⟨Option.some.inj (hTI.symm.trans hsome), hs⟩
    | none =>
      have hset : Triple (Fixed i T) (setTripletType (.value (.inst i)) T)
          fun T' s => T' = T ∧ Fixed i T s :=
        .bind (.modify fun s hs => ⟨.inr (Triplets.put_self _ T), hs.2⟩) fun _ =>
          .pure T fun s hs => ⟨rfl, hs⟩
      refine Triple.pre (P := Fixed i T) ?_ fun _ hs => hs.2
      simp only [hnode]
      match nd, hT with
      | .inst ⟨_, _, .phi _⟩, rfl => exact hset
      | .term (.br _), rfl => exact hset

theorem evaluates_fixed {nd : Node} (hnode : F.node i = some nd)
    (hT : fixedTriplet nd = some T) (n : Nat) (V : Key) :
    Triple (Fixed i T) (getOrCalculateTriplet F users n V) fun _ => Fixed i T :=
  (guarded_fixed (not_takesColor_of_fixedTriplet hnode hT)).getOrCalculateTriplet
    (fun n => (getOrCalculateTriplet_fixed hnode hT n).post fun _ _ h => h.2) n V

/-! ### The marks -/

theorem markLoop_eq (L : Loop) : markLoop F preds L =
    (L.header :: (getLoopLatch preds L).toList).forM fun b => markBlock F b (markOf F L) := by
  rw [markLoop]
  cases getLoopLatch preds L with
  | none => rfl
  | some latch =>
    change _ = markBlock F L.header _ >>= fun _ => markBlock F latch _ >>= fun _ => pure ()
    simp only [bind_pure_unit]
    rfl

theorem markLoops_eq : markLoops F preds LI =
    LI.forM fun TL => (TL :: TL.subLoops).forM (markLoop F preds) := rfl

/-- What writes to the other entries keep, a loop without `i` keeps. -/
theorem markLoop_keeps (hP : ∀ s V T, V ≠ .value (.inst i) → P s → P (s.put V T)) {L : Loop}
    (hi : ¬ InHeaderOrLatch F preds L i) : Triple P (markLoop F preds L) fun _ => P := by
  rw [markLoop_eq]
  refine .forM fun b hb => .forM fun j hj => .modify fun s hs => hP s _ _ ?_ hs
  intro h
  cases h
  exact hi ⟨b, hb, hj⟩

theorem setTripletToValue_hasTriplet {V : Key} {T : TripletType} (h : V = k → Q T) :
    Triple (HasTriplet k Q) (setTripletToValue V T) fun _ => HasTriplet k Q := by
  rintro s _ s' ⟨T', hT', hQ⟩ hx
  cases hx
  by_cases hV : V = k
  · subst hV
    exact ⟨T, Triplets.put_self V T, h rfl⟩
  · exact ⟨T', (Triplets.put_of_ne T (Ne.symm hV)).trans hT', hQ⟩

theorem setTripletToValue_sets {T : TripletType} (h : Q T) :
    Triple P (setTripletToValue k T) fun _ => HasTriplet k Q :=
  .modify fun _ _ => ⟨T, Triplets.put_self k T, h⟩

theorem markLoop_hasTriplet {L : Loop} (hL : InHeaderOrLatch F preds L i → Q (markOf F L)) :
    Triple (HasTriplet (.value (.inst i)) Q) (markLoop F preds L)
      fun _ => HasTriplet (.value (.inst i)) Q := by
  rw [markLoop_eq]
  refine .forM fun b hb => .forM fun j hj => setTripletToValue_hasTriplet fun h => ?_
  cases h
  exact hL ⟨b, hb, hj⟩

theorem markLoop_marks {L : Loop} (hL : InHeaderOrLatch F preds L i) (hQ : Q (markOf F L)) :
    Triple (fun _ => True) (markLoop F preds L) fun _ => HasTriplet (.value (.inst i)) Q := by
  obtain ⟨b, hb, hi⟩ := hL
  rw [markLoop_eq]
  apply Triple.forM_mem hb
  · exact fun c _ => .forM fun j _ => .modify fun _ _ => trivial
  · apply Triple.forM_mem hi
    · exact fun j _ => .modify fun _ _ => trivial
    · exact setTripletToValue_sets hQ
    · exact fun j _ => setTripletToValue_hasTriplet fun _ => hQ
  · exact fun c _ => .forM fun j _ => setTripletToValue_hasTriplet fun _ => hQ

/-- An instruction of an outer loop gets the mark of one of the loops it is in. -/
theorem markLoops_marks (hi : InOuterLoop F preds LI i)
    (hQ : ∀ L, InForest LI L → InHeaderOrLatch F preds L i → Q (markOf F L)) :
    Triple (fun _ => True) (markLoops F preds LI) fun _ => HasTriplet (.value (.inst i)) Q := by
  obtain ⟨TL, hTL, L, hL, hLi⟩ := hi
  have hforest : ∀ TL ∈ LI, ∀ L ∈ TL :: TL.subLoops, InForest LI L := fun TL hTL L hL =>
    (List.mem_cons.mp hL).elim (fun h => h ▸ .top hTL) fun h => .sub (.top hTL) h
  rw [markLoops_eq]
  apply Triple.forM_mem hTL
  · exact fun TL _ => .forM fun L _ s _ _ _ _ => trivial
  · apply Triple.forM_mem hL
    · exact fun L _ _ _ _ _ _ => trivial
    · exact markLoop_marks hLi (hQ L (hforest TL hTL L hL) hLi)
    · exact fun L hL => markLoop_hasTriplet (hQ L (hforest TL hTL L hL))
  · exact fun TL hTL => .forM fun L hL => markLoop_hasTriplet (hQ L (hforest TL hTL L hL))

theorem markLoops_keeps (hP : ∀ s V T, V ≠ .value (.inst i) → P s → P (s.put V T))
    (hi : ¬ InOuterLoop F preds LI i) : Triple P (markLoops F preds LI) fun _ => P := by
  rw [markLoops_eq]
  exact .forM fun TL hTL => .forM fun L hL => markLoop_keeps hP fun h => hi ⟨TL, hTL, L, hL, h⟩

/-- No loop is left out of a forest that is at most two deep. -/
theorem inOuterLoop_of_subLoops (h : ∀ TL ∈ LI, ∀ L ∈ TL.subLoops, L.subLoops = []) {L : Loop}
    (hL : InForest LI L) (hi : InHeaderOrLatch F preds L i) : InOuterLoop F preds LI i := by
  have htop : ∃ TL ∈ LI, L ∈ TL :: TL.subLoops := by
    clear hi
    induction hL with
    | top hTL => exact ⟨_, hTL, List.mem_cons_self⟩
    | @sub L L' _ hL' ih =>
      obtain ⟨TL, hTL, hmem⟩ := ih
      rcases List.mem_cons.mp hmem with rfl | hmem
      · exact ⟨L, hTL, List.mem_cons_of_mem _ hL'⟩
      · rw [h TL hTL L hmem] at hL'
        cases hL'
  obtain ⟨TL, hTL, hmem⟩ := htop
  exact ⟨TL, hTL, L, hmem, hi⟩

theorem runOnFunction_eq : runOnFunction F users fuel preds LI globals =
    setMarks F preds LI globals >>= fun _ => evaluateAll F users fuel := by
  simp only [runOnFunction, setMarks, evaluateAll, bind_assoc]

theorem setMarks_marks (hi : InOuterLoop F preds LI i)
    (hQ : ∀ L, InForest LI L → InHeaderOrLatch F preds L i → Q (markOf F L)) :
    Triple (fun _ => True) (setMarks F preds LI globals)
      fun _ => HasTriplet (.value (.inst i)) Q :=
  .bind (.forM fun g _ => .modify fun _ _ => trivial) fun _ =>
    .bind (markLoops_marks hi hQ) fun _ => setTripletToValue_hasTriplet fun h => by cases h

theorem setMarks_keeps (hP : ∀ s V T, V ≠ .value (.inst i) → P s → P (s.put V T))
    (hi : ¬ InOuterLoop F preds LI i) : Triple P (setMarks F preds LI globals) fun _ => P :=
  .bind (.forM fun g _ => .modify fun s => hP s _ _ (by simp)) fun _ =>
    .bind (markLoops_keeps hP hi) fun _ => .modify fun s => hP s _ _ (by simp)

/-- The marks decide the entries of the instructions that are marked. -/
theorem runOnFunction_entry {barrier : Bool} (hi : InOuterLoop F preds LI i)
    (hagreed : Agreed F preds LI barrier i) :
    Triple (fun _ => True) (runOnFunction F users fuel preds LI globals)
      fun _ s => s.TI (.value (.inst i)) =
        some (if barrier then invariantTriplet else nonInvariantTriplet) := by
  have hmarks : Triple (fun _ => True) (setMarks F preds LI globals) fun _ =>
      HasTriplet (.value (.inst i))
        (· = if barrier then invariantTriplet else nonInvariantTriplet) :=
    setMarks_marks hi fun L hL hLi => by rw [markOf, hagreed L hL hLi]
  rw [runOnFunction_eq]
  refine .bind (hmarks.post ?_) fun _ => .forM fun b _ => .forM fun j _ => ?_
  · rintro _ s ⟨T, hT, rfl⟩
    exact hT
  · exact .bind (evaluates_entry _ _) fun _ => .pure _ fun _ hs => hs

/-- An instruction with a fixed triplet keeps it if no loop marks it. -/
theorem runOnFunction_fixed {nd : Node} (hnode : F.node i = some nd)
    (hT : fixedTriplet nd = some T) (hi : ¬ InOuterLoop F preds LI i) :
    Triple (Fixed i T) (runOnFunction F users fuel preds LI globals) fun _ => Fixed i T := by
  have hP := (guarded_fixed (T := T) (not_takesColor_of_fixedTriplet hnode hT))
  rw [runOnFunction_eq]
  refine .bind (setMarks_keeps hP.put hi) fun _ => .forM fun b _ => .forM fun j _ => ?_
  exact .bind (evaluates_fixed hnode hT _ _) fun _ => .pure _ fun _ hs => hs

/-- The loops are marked if their headers and latches belong to top-level loops and the loops
directly in these, and not if one of the others holds a PHI or branch that is to be marked. -/
theorem runOnFunction_loopsMarked
    (hrun : runOnFunction F users fuel preds LI globals noTriplets = .ok ((), s)) :
    ((∀ L, InForest LI L → ∀ i, InHeaderOrLatch F preds L i →
      Agreed F preds LI (isBarrierLoop F L) i → InOuterLoop F preds LI i) →
        LoopsMarked F users preds LI s) ∧
    ∀ L, InForest LI L → ∀ i, InHeaderOrLatch F preds L i →
      Agreed F preds LI (isBarrierLoop F L) i → ¬ InOuterLoop F preds LI i →
        (∃ nd T, F.node i = some nd ∧ fixedTriplet nd = some T ∧
          ¬ (T = invariantTriplet ↔ isBarrierLoop F L)) → ¬ LoopsMarked F users preds LI s := by
  constructor
  · intro hall L hL i hi hagreed n
    have hentry := runOnFunction_entry (hall L hL i hi hagreed) hagreed trivial hrun
    rw [isUniform_of_entry hentry]
    cases isBarrierLoop F L <;> rfl
  · rintro L hL i hi hagreed houter ⟨nd, T, hnode, hT, hne⟩ hmarked
    have hfixed := runOnFunction_fixed hnode hT houter ⟨.inl rfl, fun h => by cases h⟩ hrun
    have hu : Triple (Fixed i T) (isUniform F users 1 (.value (.inst i)))
        fun u _ => u = decide (T = invariantTriplet) :=
      .bind (getOrCalculateTriplet_fixed hnode hT 1) fun T' => .pure _ fun _ h => by rw [h.1]
    have heq := hu hfixed (hmarked L hL i hi hagreed 0)
    apply hne
    rw [heq, decide_eq_true_eq]

end

/-- A barrier in the inner of two nested loops, with a PHI at its header, and a loop without one. -/
def nestOfTwo : Function where
  name := "nest_of_two"
  entry := 0
  rest := [1, 2, 3, 4, 5]
  block
    | 0 => ⟨[], 10, .br 1⟩
    | 1 => ⟨[], 11, .br 2⟩
    | 2 => ⟨[⟨0, .int 32, .phi [(.constInt 32 0, 1), (.constInt 32 1, 2)]⟩, barrierCall 1], 12,
        .condBr (.argument 0) 2 3⟩
    | 3 => ⟨[], 13, .condBr (.argument 0) 1 4⟩
    | 4 => ⟨[⟨2, .int 32, .phi [(.constInt 32 0, 3), (.constInt 32 1, 4)]⟩], 14,
        .condBr (.argument 0) 4 5⟩
    | _ => ⟨[], 15, .ret none⟩

def loopsOfTwo : List Loop := [.mk 1 [1, 2, 3] [.mk 2 [2] []], .mk 4 [4] []]

theorem runOnFunction_loopsMarked_nestOfTwo : ∃ s, runOnFunction nestOfTwo (fun _ => []) 2
    nestOfTwo.predEdges loopsOfTwo [] noTriplets = .ok ((), s) ∧
      LoopsMarked nestOfTwo (fun _ => []) nestOfTwo.predEdges loopsOfTwo s := by
  have hruns : (runOnFunction nestOfTwo (fun _ => []) 2 nestOfTwo.predEdges loopsOfTwo []
      noTriplets).toOption.any (fun _ => true) = true := by decide
  obtain ⟨⟨_, s⟩, hs, -⟩ := exists_ok_of_any hruns
  refine ⟨s, hs, (runOnFunction_loopsMarked hs).1 fun L hL i hi _ => ?_⟩
  refine inOuterLoop_of_subLoops ?_ hL hi
  simp [loopsOfTwo, Loop.subLoops]

/-- A barrier in the innermost of three nested loops, with a PHI at its header. -/
def nestOfThree : Function where
  name := "nest_of_three"
  entry := 0
  rest := [1, 2, 3, 4, 5, 6]
  block
    | 0 => ⟨[], 10, .br 1⟩
    | 1 => ⟨[], 11, .br 2⟩
    | 2 => ⟨[], 12, .br 3⟩
    | 3 => ⟨[⟨0, .int 32, .phi [(.constInt 32 0, 2), (.constInt 32 1, 3)]⟩, barrierCall 1], 13,
        .condBr (.argument 0) 3 4⟩
    | 4 => ⟨[], 14, .condBr (.argument 0) 2 5⟩
    | 5 => ⟨[], 15, .condBr (.argument 0) 1 6⟩
    | _ => ⟨[], 16, .ret none⟩

def innermost : Loop := .mk 3 [3] []

def loopsOfThree : List Loop := [.mk 1 [1, 2, 3, 4, 5] [.mk 2 [2, 3, 4] [innermost]]]

theorem inForest_innermost : InForest loopsOfThree innermost :=
  .sub (.sub (.top List.mem_cons_self) List.mem_cons_self) List.mem_cons_self

theorem inForest_loopsOfThree {L : Loop} (h : InForest loopsOfThree L) :
    L = .mk 1 [1, 2, 3, 4, 5] [.mk 2 [2, 3, 4] [innermost]] ∨ L = .mk 2 [2, 3, 4] [innermost] ∨
      L = innermost := by
  induction h with
  | top h => exact .inl (List.mem_singleton.mp h)
  | sub _ h ih =>
    rcases ih with rfl | rfl | rfl
    · exact .inr (.inl (List.mem_singleton.mp h))
    · exact .inr (.inr (List.mem_singleton.mp h))
    · cases h

theorem exists_runOnFunction_nestOfThree : ∃ s, runOnFunction nestOfThree (fun _ => []) 2
    nestOfThree.predEdges loopsOfThree [] noTriplets = .ok ((), s) ∧
      s.TI (.value (.inst 0)) = some nonInvariantTriplet := by
  have hruns : (runOnFunction nestOfThree (fun _ => []) 2 nestOfThree.predEdges loopsOfThree []
      noTriplets).toOption.any
        (fun r => r.2.TI (.value (.inst 0)) == some nonInvariantTriplet) = true := by decide
  obtain ⟨⟨_, s⟩, hs, htest⟩ := exists_ok_of_any hruns
  exact ⟨s, hs, beq_iff_eq.mp htest⟩

/-- The PHI at the header of the third loop is not taken for uniform. -/
theorem not_loopsMarked_nestOfThree : ∃ s, runOnFunction nestOfThree (fun _ => []) 2
    nestOfThree.predEdges loopsOfThree [] noTriplets = .ok ((), s) ∧
      ¬ LoopsMarked nestOfThree (fun _ => []) nestOfThree.predEdges loopsOfThree s := by
  obtain ⟨s, hs, hentry⟩ := exists_runOnFunction_nestOfThree
  refine ⟨s, hs, fun h => ?_⟩
  have hin : InHeaderOrLatch nestOfThree nestOfThree.predEdges innermost 0 :=
    ⟨3, List.mem_cons_self, by decide⟩
  have hagreed : Agreed nestOfThree nestOfThree.predEdges loopsOfThree true 0 := by
    intro L hL _
    rcases inForest_loopsOfThree hL with rfl | rfl | rfl <;> decide
  have hu := h innermost inForest_innermost 0 hin hagreed 0
  rw [isUniform_of_entry hentry] at hu
  cases hu

end VariOCL.IR.TripletInvarianceAnalysis
