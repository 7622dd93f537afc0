import VariOCL.HiveOff.Basic
import VariOCL.Sim.Loop

/-! `CondBarrier`: the parallel regions of a kernel, collected from its exits upwards.  The back of
a vector of the source is the head of its list. -/

namespace VariOCL.IR.LoopInserter

inductive Failure
  | assertion (message : String)
  | outOfFuel
  deriving DecidableEq

structure MxPARegion where
  BBSet : List BlockId
  Entry : BlockId
  Exit : Option BlockId
  deriving DecidableEq

def ensureARealEntryOnTopABarrierEntry (F : Function) : Except Failure Function :=
  if F.predEdges F.entry ≠ [] then
    .error (.assertion "Entry block to function must not have predecessors!")
  else if !containsJustABarrier (F.block F.entry) then
    .error (.assertion "F's entry BB is not a barrier BB (forgot hive off barriers?)!")
  else if (F.succs F.entry).length ≠ 1 then
    .error (.assertion "local_size insertion detects invalid function entry!")
  else .ok (F.splitBlock F.entry (F.block F.entry).front)

/-- `preds` lists the predecessors in the order of the use lists. -/
def getSinglePredecessor (preds : BlockId → List BlockId) (BB : BlockId) : Option BlockId :=
  match preds BB with
  | [p] => some p
  | _ => none

section
variable (F : Function) (preds : BlockId → List BlockId)

def addPredecessors : Nat → List BlockId → BlockId → Except Failure (List BlockId)
  | 0, _, _ => .error .outOfFuel
  | n + 1, v, b => (preds b).foldlM (fun v i =>
      if containsJustABarrier (F.block i) && containsJustABarrier (F.block b) then
        addPredecessors n v i
      else .ok (i :: v)) v

structure Flooding where
  BBWorkList : List BlockId
  RegionBBSet : List BlockId
  RegionEntryBarrier : Option BlockId

/-- The body of the worklist loop. -/
def floodStep (fuel : Nat) (s : Flooding) : Except Failure (Option Flooding) :=
  match s.BBWorkList with
  | [] => .ok none
  | CurrentBB :: rest =>
    if CurrentBB ∈ s.RegionBBSet then .ok (some { s with BBWorkList := rest })
    else if hasBarrier (F.block CurrentBB) then
      .ok (some ⟨rest, s.RegionBBSet, s.RegionEntryBarrier.or (some CurrentBB)⟩)
    else (addPredecessors F preds fuel rest CurrentBB).map fun w =>
      some ⟨w, CurrentBB :: s.RegionBBSet, s.RegionEntryBarrier⟩

/-- The region of a finished flooding; `none` is the source's `NULL`. -/
def regionOf (Barrier : BlockId) (s : Flooding) : Except Failure (Option MxPARegion) :=
  if s.RegionBBSet.isEmpty then .ok none
  else match s.RegionEntryBarrier with
  | none => .ok none
  | some RegionEntryBarrier =>
    match (F.succs RegionEntryBarrier).find? (· ∈ s.RegionBBSet) with
    | none => .error (.assertion "RegionBBSet.count(Entry) != 0")
    | some Entry => .ok (some ⟨s.RegionBBSet, Entry, getSinglePredecessor preds Barrier⟩)

def createRegionBeforeBarrier (fuel : Nat) (Barrier : BlockId) :
    Except Failure (Option MxPARegion) := do
  let BBWorkList ← addPredecessors F preds fuel [] Barrier
  let s ← Sim.loop (floodStep F preds fuel) .outOfFuel fuel ⟨BBWorkList, [], none⟩
  regionOf F preds Barrier s

end

section
variable (getLoopFor : BlockId → Option BlockId)

/-- `IS_IN_THE_SAME_LOOP`; a loop is named by its header. -/
def isInTheSameLoop (BarrierBB EntryBB : BlockId) : Bool :=
  (getLoopFor BarrierBB).isSome && (getLoopFor EntryBB).isSome &&
    getLoopFor EntryBB == getLoopFor BarrierBB

structure Scan where
  ExitBlocks : List BlockId
  LoopBarrierBB : Option BlockId
  ExitBB : Option BlockId
  found_predecessors : Nat

/-- The body of the loop over the predecessors of a region's entry. -/
def scanPredecessor (VisitedBarriers : List BlockId) (EntryBB : BlockId) (s : Scan)
    (BarrierBB : BlockId) : Scan :=
  if BarrierBB ∈ VisitedBarriers then s
  else if isInTheSameLoop getLoopFor BarrierBB EntryBB then
    { s with
      ExitBlocks := s.LoopBarrierBB.toList ++ s.ExitBlocks
      LoopBarrierBB := some BarrierBB
      found_predecessors := s.found_predecessors + 1 }
  else { s with ExitBB := some BarrierBB, found_predecessors := s.found_predecessors + 1 }

/-- A loop predecessor goes first, and the other one onto the stack. -/
def preferLoopBarrier (VisitedBarriers : List BlockId) (s : Scan) : Scan :=
  match s.LoopBarrierBB with
  | none => s
  | some LoopBarrierBB =>
    { s with
      ExitBlocks := s.ExitBB.toList ++ s.ExitBlocks
      ExitBB := if LoopBarrierBB ∈ VisitedBarriers then s.ExitBB else some LoopBarrierBB }

def scanPredecessors (preds : BlockId → List BlockId) (VisitedBarriers : List BlockId)
    (EntryBB : BlockId) (ExitBlocks : List BlockId) : Scan :=
  preferLoopBarrier VisitedBarriers
    ((preds EntryBB).foldl (scanPredecessor getLoopFor VisitedBarriers EntryBB)
      ⟨ExitBlocks, none, none, 0⟩)

/-- `ExitBB` is set while the inner loop runs. -/
structure Gathering where
  PRVector : List MxPARegion
  ExitBlocks : List BlockId
  VisitedBarriers : List BlockId
  ExitBB : Option BlockId

/-- The body of the loop that collects the exits of the kernel. -/
def collectExit (F : Function) (ExitBlocks : List BlockId) (i : BlockId) :
    Except Failure (List BlockId) :=
  if (F.succs i).isEmpty then
    if containsJustABarrier (F.block i) then .ok (i :: ExitBlocks)
    else .error (.assertion "All exits must be barrier blocks.")
  else .ok ExitBlocks

/-- What the inner loop does with the region before `ExitBB`. -/
def visitRegion (preds : BlockId → List BlockId) (s : Gathering) (ExitBB : BlockId)
    (PR : MxPARegion) : Except Failure (Option Gathering) :=
  let VisitedBarriers := ExitBB :: s.VisitedBarriers
  let scan := scanPredecessors getLoopFor preds VisitedBarriers PR.Entry s.ExitBlocks
  if scan.found_predecessors = 0 then
    .ok (some ⟨s.PRVector ++ [PR], scan.ExitBlocks, VisitedBarriers, none⟩)
  else if scan.ExitBB.isNone then
    .error (.assertion "Parallel region without entry barrier!")
  else .ok (some ⟨s.PRVector ++ [PR], scan.ExitBlocks, VisitedBarriers, scan.ExitBB⟩)

/-- One turn of the two nested loops: a block is popped, or a region collected. -/
def gatherStep (F : Function) (preds : BlockId → List BlockId) (fuel : Nat) (s : Gathering) :
    Except Failure (Option Gathering) :=
  match s.ExitBB with
  | none =>
    match s.ExitBlocks with
    | [] => .ok none
    | ExitBB :: rest =>
      if containsJustABarrier (F.block ExitBB) then
        .ok (some { s with ExitBlocks := rest, ExitBB := some ExitBB })
      else .error (.assertion "Region formation must start from a barrier BB")
  | some ExitBB =>
    match createRegionBeforeBarrier F preds fuel ExitBB with
    | .error e => .error e
    | .ok none => .ok (some { s with ExitBB := none })
    | .ok (some PR) => visitRegion getLoopFor preds s ExitBB PR

/-- `fuel` bounds the loops below `createRegionBeforeBarrier`, and `turns` those of the function. -/
def gatherParallelRegions (F : Function) (preds : BlockId → List BlockId) (fuel turns : Nat) :
    Except Failure (List MxPARegion) := do
  let ExitBlocks ← F.layout.foldlM (collectExit F) []
  let s ← Sim.loop (gatherStep getLoopFor F preds fuel) .outOfFuel turns
    ⟨[], ExitBlocks, [], none⟩
  pure s.PRVector

end

end VariOCL.IR.LoopInserter
