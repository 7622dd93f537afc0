import VariOCL.TripletInvariance.Guarded

/-! What the evaluation of a triplet asks for, and what is left to be done in a state. -/

namespace VariOCL.IR.TripletInvarianceAnalysis

/-! ### What an evaluation asks for -/

def instOf : Value → Option InstId
  | .inst i => some i
  | _ => none

def isAlloca (F : Function) (i : InstId) : Bool :=
  match F.node i with
  | some (.inst ⟨_, _, .alloca _ _⟩) => true
  | _ => false

/-- A load or a store. -/
def isAccess (F : Function) (i : InstId) : Bool :=
  match F.node i with
  | some (.inst ⟨_, _, .load _⟩) => true
  | some (.inst ⟨_, _, .store _ _⟩) => true
  | _ => false

def storedInst (F : Function) (i : InstId) : Option InstId :=
  match F.node i with
  | some (.inst ⟨_, _, .store v _⟩) => instOf v
  | _ => none

/-- An operand of a load or store that is marked itself is cut off by its mark. -/
def unmarkedInst (F : Function) (v : Value) : List InstId :=
  (instOf v).toList.filter fun j => !takesColor F j

def opAsks (F : Function) (users : List InstId) : Op → List InstId
  | .alloca _ _ => (users.takeWhile (isAccess F)).filterMap (storedInst F)
  | .load p => unmarkedInst F p
  | .store v _ => unmarkedInst F v
  | .phi _ => []
  | .call callee args =>
    if calledFunctionName callee = "get_local_id" ∨ calledFunctionName callee = "get_global_id" then
      []
    else if calledFunctionName callee ∈ uniformBuiltins then []
    else args.filterMap instOf
  | .gep .ptr p is => (p :: is).filterMap instOf
  | .gep _ _ _ => []
  | op => op.operands.filterMap instOf

def termAsks : Terminator → List InstId
  | .condBr c _ _ => (instOf c).toList
  | .switch c _ _ => (instOf c).toList
  | _ => []

/-- The instructions whose triplets the evaluation of `i` asks for, whatever was asked before. -/
def asksFor (F : Function) (users : InstId → List InstId) (i : InstId) : List InstId :=
  match F.node i with
  | none => []
  | some (.term t) => termAsks t
  | some (.inst I) => opAsks F (users i) I.op

/-! ### What is left to be done -/

/-- Only what takes a color is grey, which no evaluation changes. -/
def ColorsOk (F : Function) (s : Triplets) : Prop :=
  ∀ i, s.CycleColorMap i = .grey → takesColor F i

/-- A state after `s`. -/
structure Later (F : Function) (s t : Triplets) : Prop where
  grey : ∀ i, s.CycleColorMap i = .grey → t.CycleColorMap i = .grey
  entry : ∀ k, t.TI k = none → s.TI k = none
  colors : ColorsOk F s → ColorsOk F t

/-- The marks and the triplets of allocas still to be set. -/
def undone (F : Function) (s : Triplets) : Nat :=
  F.instIds.countP (fun i => takesColor F i && s.CycleColorMap i ≠ .grey) +
    F.instIds.countP fun i => isAlloca F i && (s.TI (.value (.inst i))).isNone

/-- The state in which the body of the evaluation of `i` begins. -/
def Triplets.entered (F : Function) (s : Triplets) (i : InstId) : Triplets :=
  if takesColor F i then s.paint i .grey else s

section
variable {F : Function} {users : InstId → List InstId} {s t u : Triplets} {i j : InstId} {V : Key}
  {v : Value} {w : Nat}

theorem mem_instIds_of_node {nd : Node} (h : F.node i = some nd) : i ∈ F.instIds := by
  obtain ⟨b, hb, hnode⟩ := List.exists_of_findSome?_eq_some h
  refine List.mem_flatMap.mpr ⟨b, hb, ?_⟩
  rw [BasicBlock.instIds, List.mem_append, List.mem_singleton, List.mem_map]
  rw [BasicBlock.node] at hnode
  split at hnode
  · exact .inr (Eq.symm ‹_›)
  · obtain ⟨J, hJ, -⟩ := Option.map_eq_some_iff.mp hnode
    have hid : J.id = i := by simpa using List.find?_some hJ
    exact .inl ⟨J, List.mem_of_find?_eq_some hJ, hid⟩

theorem mem_instIds_of_takesColor (h : takesColor F i) : i ∈ F.instIds := by
  cases hnode : F.node i with
  | none => simp [takesColor, hnode] at h
  | some nd => exact mem_instIds_of_node hnode

theorem takesColor_of_isAlloca (h : isAlloca F i) : takesColor F i := by
  rw [isAlloca] at h
  split at h
  · simp [takesColor, *]
  · cases h

theorem takesColor_iff : takesColor F i ↔ isAlloca F i ∨ isAccess F i := by
  rw [takesColor, isAlloca, isAccess]
  split <;> simp_all

theorem Later.refl (s : Triplets) : Later F s s := ⟨fun _ h => h, fun _ h => h, fun h => h⟩

theorem Later.trans (h : Later F s t) (h' : Later F t u) : Later F s u :=
  ⟨fun i hi => h'.grey i (h.grey i hi), fun k hk => h.entry k (h'.entry k hk),
    fun hs => h'.colors (h.colors hs)⟩

theorem Later.put (h : Later F s t) (V : Key) (T : TripletType) : Later F s (t.put V T) where
  grey := h.grey
  entry k hk := by
    refine h.entry k ?_
    by_cases hkV : k = V
    · rw [hkV, Triplets.put_self] at hk
      cases hk
    · rwa [Triplets.put_of_ne T hkV] at hk
  colors := h.colors

theorem later_entered (F : Function) (s : Triplets) (i : InstId) : Later F s (s.entered F i) := by
  rw [Triplets.entered]
  split
  · rename_i hi
    refine ⟨fun j hj => ?_, fun _ h => h, fun hs j hj => ?_⟩
    · rw [Triplets.paint]
      dsimp only
      split <;> simp [hj]
    · rw [Triplets.paint] at hj
      dsimp only at hj
      split at hj
      · rename_i hji
        exact hji ▸ hi
      · exact hs j hj
  · exact .refl s

theorem Later.undone_le (h : Later F s t) : undone F t ≤ undone F s := by
  refine Nat.add_le_add (List.countP_mono_left fun i _ hi => ?_)
    (List.countP_mono_left fun i _ hi => ?_)
  · simp only [Bool.and_eq_true, decide_eq_true_eq] at hi ⊢
    exact ⟨hi.1, fun hs => hi.2 (h.grey i hs)⟩
  · simp only [Bool.and_eq_true, Option.isNone_iff_eq_none] at hi ⊢
    exact ⟨hi.1, h.entry _ hi.2⟩

theorem Later.undone_lt_of_decided (h : Later F s t) (hi : isAlloca F i)
    (hs : s.TI (.value (.inst i)) = none) (ht : t.TI (.value (.inst i)) ≠ none) :
    undone F t < undone F s := by
  refine Nat.add_lt_add_of_le_of_lt (List.countP_mono_left fun j _ hj => ?_)
    (Graph.countP_lt_countP (fun j _ hj => ?_)
      (mem_instIds_of_takesColor (takesColor_of_isAlloca hi)) ?_ ?_)
  · simp only [Bool.and_eq_true, decide_eq_true_eq] at hj ⊢
    exact ⟨hj.1, fun hs => hj.2 (h.grey j hs)⟩
  · simp only [Bool.and_eq_true, Option.isNone_iff_eq_none] at hj ⊢
    exact ⟨hj.1, h.entry _ hj.2⟩
  · simp [hi, hs]
  · simpa [hi, Option.isSome_iff_ne_none] using ht

theorem undone_entered_lt (hi : takesColor F i) (hs : s.CycleColorMap i ≠ .grey) :
    undone F (s.entered F i) < undone F s := by
  have hl := later_entered F s i
  refine Nat.add_lt_add_of_lt_of_le (Graph.countP_lt_countP (fun j _ hj => ?_)
    (mem_instIds_of_takesColor hi) ?_ ?_) (List.countP_mono_left fun j _ hj => ?_)
  · simp only [Bool.and_eq_true, decide_eq_true_eq] at hj ⊢
    exact ⟨hj.1, fun hs => hj.2 (hl.grey j hs)⟩
  · simp [hi, hs]
  · simp [Triplets.entered, Triplets.paint, hi]
  · simp only [Bool.and_eq_true, Option.isNone_iff_eq_none] at hj ⊢
    exact ⟨hj.1, hl.entry _ hj.2⟩

end

theorem mem_instIds_of_asksFor {F : Function} {users : InstId → List InstId} {i j : InstId}
    (h : j ∈ asksFor F users i) : i ∈ F.instIds := by
  rw [asksFor] at h
  cases hnode : F.node i with
  | none =>
    rw [hnode] at h
    exact absurd h List.not_mem_nil
  | some nd => exact mem_instIds_of_node hnode

end VariOCL.IR.TripletInvarianceAnalysis
