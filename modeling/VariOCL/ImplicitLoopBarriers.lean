import VariOCL.LoopBarriers
import VariOCL.TripletInvariance.Guarded

/-! ImplicitLoopBarriers.cpp: barriers for innermost loops whose header and exit condition are uniform.
The analysis takes no block but the entry for uniform, so no loop gets one. -/

namespace VariOCL.IR

open Sim
open TripletInvarianceAnalysis

namespace ImplicitLoopBarriers

section
variable (users : InstId → List InstId) (fuel : Nat)

def addInnerLoopBarrier (F : Function) (L : Loop) : Analysis Function := do
  if L.subLoops.length > 0 then pure F
  else match getExitingBlock F L with
  | none => pure F
  | some brexit => do
    let u ← isUniform F users fuel (.block L.header)
    if u then
      match (F.block brexit).term with
      | .condBr c _ _ => do
        let u ← isUniform F users fuel (.value c)
        if u then
          pure ((F.createBarrierBeforeTerminator brexit).createBarrierAtFirstNonPHI L.header)
        else pure F
      | _ => pure F
    else pure F

def processLoop (F : Function) (L : Loop) : Analysis Function :=
  if isBarrierLoop F L then pure F else addInnerLoopBarrier users fuel F L

/-- `none` where the exiting block, which is asked for its function, is null. -/
def runOnLoop (F : Option Function) (L : Loop) : Analysis (Option Function) :=
  match F with
  | none => pure none
  | some F =>
    if (getExitingBlock F L).isNone then pure none
    else do
      let G ← processLoop users fuel F L
      pure (some G)

/-- The pass on the loops of `LI`, behind the analysis of the function. -/
def runOnFunction (preds : BlockId → List BlockId) (TL : List Loop) (globals : List String)
    (F : Function) (LI : List Loop) : Analysis (Option Function) := do
  TripletInvarianceAnalysis.runOnFunction F users fuel preds TL globals
  LI.foldlM (runOnLoop users fuel) (some F)

end

/-- No block but the entry is or will be found uniform. -/
def BlockVaries (b : BlockId) (s : Triplets) : Prop := s.TI (.block b) ≠ some invariantTriplet

section
variable {F : Function} {b : BlockId} {users : InstId → List InstId} {fuel : Nat}
  {preds : BlockId → List BlockId} {TL LI : List Loop} {globals : List String} {L : Loop}

theorem guarded_blockVaries : Guarded F (.block b) (BlockVaries b) where
  put s V T hV hs := by
    rw [BlockVaries, Triplets.put_of_ne T hV.symm]
    exact hs
  paint s i _ hs := hs
  idle s v _ _ h := by cases h

theorem blockVaries_set {V : Key} {T : TripletType} (h : V = .block b → T ≠ invariantTriplet) :
    Triple (BlockVaries b) (setTripletToValue V T) fun _ => BlockVaries b := by
  refine .modify fun s hs => ?_
  by_cases hV : V = .block b
  · subst hV
    exact fun heq => h rfl (Option.some.inj ((Triplets.put_self _ T).symm.trans heq))
  · have hput : BlockVaries b (s.put V T) := by rwa [BlockVaries, Triplets.put_of_ne T (Ne.symm hV)]
    exact hput

theorem nonInvariantTriplet_ne : nonInvariantTriplet ≠ invariantTriplet := by decide

/-- A block that is not the entry is asked for. -/
theorem blockVaries_block {n : Nat} (hb : b ≠ F.entry) : Triple (BlockVaries b)
    (getOrCalculateTriplet F users n (.block b)) fun T s => BlockVaries b s ∧ T ≠ invariantTriplet := by
  cases n with
  | zero => exact .throw _
  | succ n =>
    unfold TripletInvarianceAnalysis.getOrCalculateTriplet
    refine .bind (.get _) fun s => ?_
    cases hTI : s.TI (.block b) with
    | some T =>
      refine .pure T ?_
      rintro _ ⟨rfl, hs⟩
      exact ⟨hs, fun hT => hs (hT ▸ hTI)⟩
    | none =>
      simp only [if_neg hb]
      refine Triple.pre (P := BlockVaries b) ?_ fun _ hs => hs.2
      exact .bind (blockVaries_set fun _ => nonInvariantTriplet_ne) fun _ =>
        .pure _ fun _ hs => ⟨hs, nonInvariantTriplet_ne⟩

theorem blockVaries_getOrCalculateTriplet (hb : b ≠ F.entry) (V : Key) :
    Triple (BlockVaries b) (getOrCalculateTriplet F users fuel V) fun _ => BlockVaries b :=
  guarded_blockVaries.getOrCalculateTriplet
    (fun _ => (blockVaries_block hb).post fun _ _ h => h.1) fuel V

theorem blockVaries_markBlock {x : BlockId} {T : TripletType} :
    Triple (BlockVaries b) (markBlock F x T) fun _ => BlockVaries b :=
  .forM fun i _ => blockVaries_set fun h => by cases h

theorem blockVaries_markLoop :
    Triple (BlockVaries b) (markLoop F preds L) fun _ => BlockVaries b := by
  refine .bind blockVaries_markBlock fun _ => ?_
  split
  · exact blockVaries_markBlock
  · exact .pure _ fun _ hs => hs

theorem blockVaries_runOnFunction (hb : b ≠ F.entry) : Triple (BlockVaries b)
    (TripletInvarianceAnalysis.runOnFunction F users fuel preds TL globals)
      fun _ => BlockVaries b := by
  refine .bind (.forM fun g _ => blockVaries_set fun h => by cases h) fun _ =>
    .bind (.forM fun L _ => ?_) fun _ => .bind (blockVaries_set fun h => ?_) fun _ =>
      .forM fun x _ => .forM fun i _ => ?_
  · exact .bind blockVaries_markLoop fun _ => .forM fun L _ => blockVaries_markLoop
  · exact absurd (Key.block.inj h).symm hb
  · exact .bind (blockVaries_getOrCalculateTriplet hb _) fun _ => .pure _ fun _ hs => hs

/-- No block but the entry is or will be found uniform. -/
def BlocksVary (F : Function) (s : Triplets) : Prop := ∀ b, b ≠ F.entry → BlockVaries b s

theorem isUniform_block (hb : b ≠ F.entry) : Triple (BlocksVary F)
    (isUniform F users fuel (.block b)) fun u s => BlocksVary F s ∧ u = false := by
  refine .bind (R := fun T s => BlocksVary F s ∧ T ≠ invariantTriplet) (fun s T s' hs hx => ⟨?_, ?_⟩)
    fun T => .pure _ fun s hs => ⟨hs.1, decide_eq_false hs.2⟩
  · exact fun x hx' => blockVaries_getOrCalculateTriplet hx' _ (hs x hx') hx
  · exact (blockVaries_block hb (hs b hb) hx).2

/-- The header of the loop is not found uniform, and so the loop is left alone. -/
theorem processLoop_unchanged (hL : L.header ≠ F.entry) : Triple (BlocksVary F)
    (processLoop users fuel F L) fun G s => BlocksVary F s ∧ G = F := by
  have hdone : Triple (BlocksVary F) (pure F : Analysis Function) fun G s =>
      BlocksVary F s ∧ G = F := .pure F fun _ hs => ⟨hs, rfl⟩
  rw [processLoop, addInnerLoopBarrier]
  split
  · exact hdone
  split
  · exact hdone
  split
  · exact hdone
  · refine .bind (isUniform_block hL) fun u => ?_
    rintro s G s' ⟨hs, rfl⟩ hx
    exact hdone hs hx

theorem runOnLoop_unchanged (hL : L.header ≠ F.entry) : Triple (BlocksVary F)
    (runOnLoop users fuel (some F) L) fun G s => BlocksVary F s ∧
      G = if (getExitingBlock F L).isNone then none else some F := by
  rw [runOnLoop]
  split
  · exact .pure none fun _ hs => ⟨hs, rfl⟩
  · refine .bind (processLoop_unchanged hL) fun G => .pure _ ?_
    rintro s ⟨hs, rfl⟩
    exact ⟨hs, rfl⟩

/-- A crash stays one. -/
theorem runOnLoop_none : Triple (BlocksVary F) (LI.foldlM (runOnLoop users fuel) none)
    fun G s => BlocksVary F s ∧ G = none := by
  induction LI with
  | nil => exact .pure none fun _ hs => ⟨hs, rfl⟩
  | cons L LI ih =>
    rw [List.foldlM_cons]
    refine .bind (R := fun G s => BlocksVary F s ∧ G = none) (.pure none fun _ hs => ⟨hs, rfl⟩)
      fun G => ?_
    rintro s G' s' ⟨hs, rfl⟩ hx
    exact ih hs hx

theorem foldlM_unchanged (hLI : ∀ L ∈ LI, L.header ≠ F.entry) : Triple (BlocksVary F)
    (LI.foldlM (runOnLoop users fuel) (some F)) fun G s => BlocksVary F s ∧
      G = if LI.any fun L => (getExitingBlock F L).isNone then none else some F := by
  induction LI with
  | nil => exact .pure _ fun _ hs => ⟨hs, rfl⟩
  | cons L LI ih =>
    obtain ⟨hL, hLI⟩ := List.forall_mem_cons.mp hLI
    rw [List.foldlM_cons]
    refine .bind (runOnLoop_unchanged hL) fun G => ?_
    rintro s G' s' ⟨hs, rfl⟩ hx
    rw [List.any_cons]
    cases hexit : (getExitingBlock F L).isNone with
    | true =>
      rw [hexit] at hx
      exact runOnLoop_none hs hx
    | false =>
      rw [hexit] at hx
      exact ih hLI hs hx

/-- The pass crashes at a loop without a unique exiting block, and else leaves the function as it is. -/
theorem runOnFunction_unchanged (hLI : ∀ L ∈ LI, L.header ≠ F.entry) {G : Option Function}
    {s : Triplets} (h : runOnFunction users fuel preds TL globals F LI noTriplets = .ok (G, s)) :
    G = if LI.any fun L => (getExitingBlock F L).isNone then none else some F := by
  have hall : Triple (fun s => s = noTriplets)
      (runOnFunction users fuel preds TL globals F LI) fun G s => BlocksVary F s ∧
        G = if LI.any fun L => (getExitingBlock F L).isNone then none else some F := by
    refine .bind (R := fun _ => BlocksVary F) (fun s _ s' hs hx b hb => ?_)
      fun _ => foldlM_unchanged hLI
    subst hs
    exact blockVaries_runOnFunction hb (fun h => by cases h) hx
  exact (hall rfl h).2

/-- A loop that all work-items leave together. -/
def uniformLoop : Function where
  name := "uniform"
  entry := 0
  rest := [1, 2]
  block
    | 0 => ⟨[], 10, .br 1⟩
    | 1 => ⟨[⟨0, .int 32, .other "add" [.argument 0, .argument 0]⟩], 11, .condBr (.argument 0) 1 2⟩
    | _ => ⟨[], 12, .ret none⟩

theorem runOnFunction_unchanged_uniformLoop : ∃ r : Option Function × Triplets,
    runOnFunction (fun _ => []) 3 uniformLoop.predEdges [.mk 1 [1] []] [] uniformLoop [.mk 1 [1] []]
      noTriplets = .ok r ∧ r.1 = if [Loop.mk 1 [1] []].any fun L =>
        (getExitingBlock uniformLoop L).isNone then none else some uniformLoop := by
  have hruns : (runOnFunction (fun _ => []) 3 uniformLoop.predEdges [.mk 1 [1] []] [] uniformLoop
      [.mk 1 [1] []] noTriplets).toOption.any (fun _ => true) = true := by decide
  obtain ⟨⟨G, s⟩, hs, -⟩ := exists_ok_of_any hruns
  exact ⟨(G, s), hs, runOnFunction_unchanged (by decide) hs⟩

end

end ImplicitLoopBarriers

end VariOCL.IR
