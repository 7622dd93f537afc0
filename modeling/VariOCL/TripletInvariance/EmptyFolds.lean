import VariOCL.Sim.Avoids
import VariOCL.TripletInvariance.AsksFor
import VariOCL.TripletInvariance.LoopMarks

/-! The vectors whose first element the evaluation of a triplet reads: which of them are empty. -/

namespace VariOCL.IR.TripletInvarianceAnalysis

open Sim

def isLoad (F : Function) (i : InstId) : Bool :=
  match F.node i with
  | some (.inst ⟨_, _, .load _⟩) => true
  | _ => false

/-- The functions that `getOrCalculateTriplet` knows by name. -/
def isWorkItemBuiltin (name : String) : Bool :=
  name = "get_local_id" ∨ name = "get_global_id" ∨ name ∈ uniformBuiltins

/-- An alloca that is used by loads alone, and a call without arguments that is not a work-item
builtin. -/
def FoldsNothing (F : Function) (users : InstId → List InstId) (i : InstId) : Prop :=
  match F.node i with
  | some (.inst ⟨_, _, .alloca _ _⟩) => users i ≠ [] ∧ ∀ u ∈ users i, isLoad F u
  | some (.inst ⟨_, _, .call callee []⟩) => ¬ isWorkItemBuiltin (calledFunctionName callee)
  | _ => False

/-- What would fold nothing has a triplet. -/
def FoldsKnown (F : Function) (users : InstId → List InstId) (s : Triplets) : Prop :=
  ∀ i, FoldsNothing F users i → (s.TI (.value (.inst i))).isSome

section
variable {F : Function} {users : InstId → List InstId} {V : Key} {i u : InstId} {s : Triplets}
  {getTriplet : Key → Analysis TripletType} {preds : BlockId → List BlockId} {LI : List Loop}

theorem FoldsKnown.put (h : FoldsKnown F users s) (V : Key) (T : TripletType) :
    FoldsKnown F users (s.put V T) := by
  intro i hi
  by_cases hV : .value (.inst i) = V
  · rw [← hV, Triplets.put_self]
    rfl
  · rw [Triplets.put_of_ne T hV]
    exact h i hi

theorem avoids_setTripletToValue (V : Key) (T : TripletType) :
    Avoids (FoldsKnown F users) .emptyVector (setTripletToValue V T) fun _ => True :=
  .modify fun _ hs => hs.put V T

theorem avoids_setTripletType (V : Key) (T : TripletType) :
    Avoids (FoldsKnown F users) .emptyVector (setTripletType V T) fun _ => True :=
  (avoids_setTripletToValue V T).bind fun _ _ => .pure T trivial

theorem avoids_setCycleColor (i : InstId) (c : CycleColor) :
    Avoids (FoldsKnown F users) .emptyVector (setCycleColor i c) fun _ => True :=
  .modify fun _ hs => hs

theorem avoids_unionAll {VT : List TripletType} (h : VT ≠ []) (V : Key) :
    Avoids (FoldsKnown F users) .emptyVector (do
      let T ← (unionAll VT : Analysis TripletType)
      setTripletType V T) fun _ => True := by
  cases VT with
  | nil => exact absurd rfl h
  | cons T VT => exact avoids_setTripletType V _

section
variable (ih : ∀ V, Avoids (FoldsKnown F users) .emptyVector (getTriplet V) fun _ => True)
include ih

theorem avoids_unionOperands {operands : List Key} (h : operands ≠ []) :
    Avoids (FoldsKnown F users) .emptyVector (unionOperands getTriplet V operands) fun _ => True := by
  refine (Avoids.mapM fun k _ => ih k).bind fun VT hVT => avoids_unionAll ?_ V
  intro hnil
  rw [hnil] at hVT
  exact h (List.length_eq_zero_iff.mp hVT.symm)

/-- A user adds a triplet to `VT`, or it is a load and leaves `VT` as it was. -/
theorem avoids_addUser (VT : List TripletType) (u : InstId) :
    Avoids (FoldsKnown F users) .emptyVector (addUser F getTriplet V VT u) fun VT' =>
      VT' ≠ [] ∨ isLoad F u ∧ VT' = VT := by
  have hadd : ∀ T, VT ++ [T] ≠ [] ∨ isLoad F u ∧ VT ++ [T] = VT := fun T => .inl (by simp)
  refine Avoids.get.bind fun s _ => ?_
  split
  · exact (avoids_setTripletType _ _).bind fun T _ => .pure _ (hadd T)
  · split
    · exact (ih _).bind fun T _ => .pure _ (hadd T)
    · exact .pure _ (.inr ⟨by simp [isLoad, *], rfl⟩)
    · exact (avoids_setTripletType _ _).bind fun T _ => .pure _ (hadd T)

theorem avoids_allocaTriplet (h : users i ≠ [] → ∃ u ∈ users i, ¬ isLoad F u) :
    Avoids (FoldsKnown F users) .emptyVector (allocaTriplet F users getTriplet i) fun _ => True := by
  refine (avoids_setCycleColor i _).bind fun _ _ => ?_
  split
  · exact avoids_setTripletType _ _
  · rename_i hempty
    obtain ⟨u, hu, hload⟩ := h (by simpa using hempty)
    refine Avoids.bind (R := (· ≠ [])) (.foldlM_mem [] hu ?_ ?_) fun VT hVT =>
      avoids_unionAll hVT _
    · intro VT w _
      refine (avoids_addUser ih VT w).post fun VT' hVT' hVT => ?_
      exact hVT'.elim id fun hw => hw.2 ▸ hVT
    · intro VT
      exact (avoids_addUser ih VT u).post fun VT' hVT' => hVT'.resolve_right fun hw => hload hw.1

theorem avoids_accessTriplet (operand : Value) :
    Avoids (FoldsKnown F users) .emptyVector (accessTriplet getTriplet i operand) fun _ => True := by
  refine (avoids_setCycleColor i _).bind fun _ _ => Avoids.get.bind fun s _ => ?_
  split
  · exact avoids_setTripletType _ _
  · exact (ih _).bind fun T _ => avoids_setTripletType _ T

theorem avoids_callTriplet {callee : Option String} {args : List Value}
    (h : args = [] → isWorkItemBuiltin (calledFunctionName callee)) :
    Avoids (FoldsKnown F users) .emptyVector (callTriplet getTriplet V callee args) fun _ => True := by
  rw [callTriplet]
  split
  · split
    · exact avoids_setTripletType _ _
    · exact .pure _ trivial
  · split
    · exact avoids_setTripletType _ _
    · refine avoids_unionOperands ih fun hnil => ?_
      have hname := h (List.map_eq_nil_iff.mp hnil)
      simp only [isWorkItemBuiltin, decide_eq_true_eq] at hname
      tauto

theorem avoids_gepTriplet (ptr : Value) (indices : List Value) :
    Avoids (FoldsKnown F users) .emptyVector (gepTriplet getTriplet V ptr indices) fun _ => True := by
  refine (ih _).bind fun T _ => ?_
  split
  · exact avoids_setTripletType _ _
  · exact (Avoids.mapM fun A _ => ih _).bind fun VT _ => avoids_setTripletType _ _

theorem avoids_instTriplet {I : Instruction} (hnode : F.node i = some (.inst I))
    (h : ¬ FoldsNothing F users i) :
    Avoids (FoldsKnown F users) .emptyVector (instTriplet F users getTriplet i I.op) fun _ => True := by
  obtain ⟨id, ty, op⟩ := I
  rw [FoldsNothing, hnode] at h
  cases op with
  | phi incoming => exact avoids_setTripletType _ _
  | alloca t n =>
    refine avoids_allocaTriplet ih fun hne => ?_
    by_contra hall
    push Not at hall
    exact h ⟨hne, hall⟩
  | load p => exact avoids_accessTriplet ih p
  | store v p => exact avoids_accessTriplet ih v
  | gep t p is =>
    cases t with
    | ptr => exact avoids_gepTriplet ih p is
    | _ => exact avoids_setTripletType _ _
  | call callee args =>
    refine avoids_callTriplet ih fun hnil => ?_
    subst hnil
    exact not_not.mp h
  | trunc v => exact avoids_unionOperands ih (List.cons_ne_nil _ _)
  | other o vs =>
    simp only [instTriplet]
    split
    · exact avoids_setTripletType _ _
    · refine avoids_unionOperands ih fun hnil => ‹¬ _› ?_
      rw [List.map_eq_nil_iff.mp hnil]
      rfl

theorem avoids_termTriplet (t : Terminator) :
    Avoids (FoldsKnown F users) .emptyVector (termTriplet getTriplet V t) fun _ => True := by
  cases t with
  | condBr c d d' => exact (ih _).bind fun T _ => avoids_setTripletType _ T
  | switch c d cs => exact avoids_unionOperands ih (List.cons_ne_nil _ _)
  | _ => exact avoids_setTripletType _ _

end

theorem inProgress_of_white (h : ∀ i, s.CycleColorMap i = .white) (v : Value) :
    s.inProgress v = false := by
  cases v with
  | inst i => simp [Triplets.inProgress, h i]
  | _ => rfl

theorem avoids_getOrCalculateTriplet (n : Nat) (V : Key) :
    Avoids (FoldsKnown F users) .emptyVector (getOrCalculateTriplet F users n V) fun _ => True := by
  induction n generalizing V with
  | zero => exact .throw nofun
  | succ n ih =>
    unfold getOrCalculateTriplet
    refine Avoids.get.bind fun s hs => ?_
    split
    · exact .pure _ trivial
    · rename_i hTI
      split
      · exact avoids_setTripletType _ _
      · split
        · exact avoids_setTripletType _ _
        · exact avoids_termTriplet ih _
        · rename_i i _ I hnode
          refine avoids_instTriplet ih hnode fun hi => ?_
          have hsome := hs i hi
          rw [hTI] at hsome
          cases hsome
      · exact avoids_setTripletType _ _

/-! ### The empty ones -/

/-- Loads whose evaluation has not begun add nothing to `VT`. -/
theorem foldlM_addUser_of_isLoad {us : List InstId} {s : Triplets} (hus : ∀ u ∈ us, isLoad F u)
    (hs : ∀ u ∈ us, s.inProgress (.inst u) = false) (VT : List TripletType) :
    us.foldlM (addUser F getTriplet V) VT s = .ok (VT, s) := by
  induction us with
  | nil => rfl
  | cons u us ih =>
    have hload := hus u List.mem_cons_self
    have hstep : addUser F getTriplet V VT u s = .ok (VT, s) := by
      rw [isLoad] at hload
      split at hload
      · rename_i hnode
        exact addUser_load (hs u List.mem_cons_self) hnode
      · cases hload
    rw [List.foldlM_cons]
    change (addUser F getTriplet V VT u s).bind _ = _
    rw [hstep]
    exact ih (fun w hw => hus w (List.mem_cons_of_mem u hw))
      fun w hw => hs w (List.mem_cons_of_mem u hw)

theorem getOrCalculateTriplet_foldsNothing (h : FoldsNothing F users i)
    (hTI : s.TI (.value (.inst i)) = none) (hidle : ∀ v, s.inProgress v = false) :
    getOrCalculateTriplet F users 1 (.value (.inst i)) s = .error .emptyVector := by
  rw [FoldsNothing] at h
  split at h
  · rename_i id ty t n hnode
    obtain ⟨hne, hload⟩ := h
    rw [getOrCalculateTriplet_inst hTI hnode]
    have hidle' : ∀ u ∈ users i, (s.paint i .grey).inProgress (.inst u) = false := by
      intro u hu
      have hui : u ≠ i := by
        rintro rfl
        have := hload u hu
        rw [isLoad, hnode] at this
        cases this
      have hu' := hidle (.inst u)
      simp only [Triplets.inProgress, Triplets.paint, if_neg hui] at hu' ⊢
      exact hu'
    have hfold : (users i).foldlM (addUser F (getOrCalculateTriplet F users 0) (.value (.inst i)))
        [] (s.paint i .grey) = .ok ([], s.paint i .grey) :=
      foldlM_addUser_of_isLoad hload hidle' []
    change allocaTriplet F users (getOrCalculateTriplet F users 0) i s = _
    change (if (users i).isEmpty then setTripletType (.value (.inst i)) invariantTriplet
      else _ : Analysis TripletType) (s.paint i .grey) = _
    rw [if_neg (by simpa using hne)]
    change ((users i).foldlM (addUser F _ (.value (.inst i))) [] (s.paint i .grey)).bind _ = _
    rw [hfold]
    rfl
  · rename_i id ty callee hnode
    rw [getOrCalculateTriplet_inst hTI hnode]
    simp only [isWorkItemBuiltin, decide_eq_true_eq, not_or] at h
    change callTriplet (getOrCalculateTriplet F users 0) (.value (.inst i)) callee [] s = _
    simp only [callTriplet]
    rw [if_neg (by tauto), if_neg h.2.2]
    rfl
  · exact h.elim

/-- From a state in which nothing is in progress, no vector is empty where its first element is read,
if and only if what would fold nothing has a triplet already. -/
theorem neverFoldsNothing_iff_foldsKnown (hidle : ∀ v, s.inProgress v = false) :
    (∀ n V, getOrCalculateTriplet F users n V s ≠ .error .emptyVector) ↔ FoldsKnown F users s := by
  refine ⟨fun h i hi => ?_, fun h n V => (avoids_getOrCalculateTriplet n V s h).1⟩
  by_contra hTI
  exact h _ _ (getOrCalculateTriplet_foldsNothing hi (by simpa using hTI) hidle)

/-- No vector is empty where its first element is read, if and only if every alloca that is used
has a use that is not a load, and every call without arguments is of a work-item builtin. -/
theorem neverFoldsNothing_iff (F : Function) (users : InstId → List InstId) :
    (∀ n V s, getOrCalculateTriplet F users n V s ≠ .error .emptyVector) ↔
      ∀ i, ¬ FoldsNothing F users i := by
  constructor
  · intro h i hi
    exact h _ _ _ (getOrCalculateTriplet_foldsNothing (s := noTriplets) hi rfl
      (inProgress_of_white fun _ => rfl))
  · exact fun h n V s => (avoids_getOrCalculateTriplet n V s fun i hi => absurd hi (h i)).1

/-- `natlop_2exits`: a kernel that calls `B()`. -/
def callsB : Function where
  name := "natlop_2exits"
  entry := 0
  rest := []
  block _ := ⟨[⟨0, .int 32, .call (some "B") []⟩], 1, .ret none⟩

theorem getOrCalculateTriplet_callsB :
    ¬ ∀ (F : Function) (users : InstId → List InstId) n V,
      getOrCalculateTriplet F users n V noTriplets ≠ .error .emptyVector :=
  fun h => h callsB (fun _ => []) 1 (.value (.inst 0)) rfl

/-! ### The whole analysis -/

theorem setMarks_foldsKnown (hmarked : ∀ i, FoldsNothing F users i → InOuterLoop F preds LI i)
    (globals : List String) :
    Triple (fun _ => True) (setMarks F preds LI globals) fun _ => FoldsKnown F users := by
  intro s _ s' _ hx i hi
  obtain ⟨T, hT, -⟩ :=
    setMarks_marks (Q := fun _ => True) (hmarked i hi) (fun _ _ _ => trivial) trivial hx
  rw [hT]
  rfl

theorem setMarks_white (globals : List String) :
    Triple (fun s => ∀ i, s.CycleColorMap i = .white) (setMarks F preds LI globals)
      fun _ s => ∀ i, s.CycleColorMap i = .white := by
  refine .bind (.forM fun g _ => .modify fun _ hs => hs) fun _ => .bind ?_ fun _ =>
    .modify fun _ hs => hs
  rw [markLoops_eq]
  refine .forM fun TL _ => .forM fun L _ => ?_
  rw [markLoop_eq]
  exact .forM fun b _ => .forM fun i _ => .modify fun _ hs => hs

/-- Once the loops are marked, no vector is empty where its first element is read, if and only if what
would fold nothing is in the header or latch of a loop that is marked. -/
theorem setMarks_neverFoldsNothing_iff (globals : List String) :
    Triple (· = noTriplets) (setMarks F preds LI globals) fun _ s =>
      (∀ n V, getOrCalculateTriplet F users n V s ≠ .error .emptyVector) ↔
        ∀ i, FoldsNothing F users i → InOuterLoop F preds LI i := by
  rintro _ _ s rfl hx
  have hidle := inProgress_of_white (setMarks_white globals (fun _ => rfl) hx)
  rw [neverFoldsNothing_iff_foldsKnown hidle]
  refine ⟨fun h i hi => ?_, fun h => setMarks_foldsKnown h globals trivial hx⟩
  by_contra hout
  have hnone : s.TI (.value (.inst i)) = none :=
    setMarks_keeps (P := fun s => s.TI (.value (.inst i)) = none)
      (fun s V T hV hs => (Triplets.put_of_ne T (Ne.symm hV)).trans hs) hout rfl hx
  have hsome := h i hi
  rw [hnone] at hsome
  cases hsome

/-- So the analysis of a function in which all of these are marked reads no empty vector. -/
theorem runOnFunction_neverFoldsNothing
    (hmarked : ∀ i, FoldsNothing F users i → InOuterLoop F preds LI i) (fuel : Nat)
    (globals : List String) :
    runOnFunction F users fuel preds LI globals noTriplets ≠ .error .emptyVector := by
  have hmarks : Avoids (fun _ => True) .emptyVector (setMarks F preds LI globals)
      fun _ => True := by
    refine (Avoids.forM fun g _ => .modify fun _ _ => trivial).bind fun _ _ =>
      Avoids.bind (R := fun _ => True) ?_ fun _ _ => .modify fun _ _ => trivial
    rw [markLoops_eq]
    refine .forM fun TL _ => .forM fun L _ => ?_
    rw [markLoop_eq]
    exact .forM fun b _ => .forM fun i _ => .modify fun _ _ => trivial
  have hall : Avoids (FoldsKnown F users) .emptyVector (evaluateAll F users fuel) fun _ => True :=
    .forM fun b _ => .forM fun i _ => (avoids_getOrCalculateTriplet fuel _).bind fun _ _ =>
      .pure _ trivial
  rw [runOnFunction_eq]
  change (setMarks F preds LI globals noTriplets).bind (fun r => evaluateAll F users fuel r.2) ≠ _
  cases hx : setMarks F preds LI globals noTriplets with
  | error e => exact fun h => (hmarks _ trivial).1 (hx.trans (congrArg _ (Except.error.inj h)))
  | ok r => exact (hall r.2 (setMarks_foldsKnown hmarked globals trivial hx)).1

end

end VariOCL.IR.TripletInvarianceAnalysis
