import VariOCL.LoopInserter.Filter
import VariOCL.LoopInserter.GlobalIds
import VariOCL.LoopInserter.LocalMemory
import VariOCL.LoopInserter.LoopNest
import VariOCL.LoopInserter.RegionContext

/-! `CondBarrier::runOnFunction`. -/

namespace VariOCL.IR

def BasicBlock.insertAllAtFirstNonPHI (Is : List Instruction) (BB : BasicBlock) : BasicBlock :=
  { BB with insts := BB.insts.takeWhile (·.op.isPhi) ++ Is ++ BB.insts.dropWhile (·.op.isPhi) }

namespace LoopInserter

open TripletInvarianceAnalysis (Loop noTriplets)

/-! ### Before the regions are formed -/

/-- `Lsz` and `Flat3DSize`. -/
structure LocalSizeInfo where
  Lsz0 : InstId
  Lsz1 : InstId
  Lsz2 : InstId
  Flat3DSize : InstId

def insertLocalSizeInfoToEntry (F : Function) : Function × LocalSizeInfo :=
  let n := F.freshInst
  (F.updateBlock F.entry (BasicBlock.insertAllBefore (F.block F.entry).termId
    [builtinCall n "get_local_size" (.constInt 32 0),
      builtinCall (n + 1) "get_local_size" (.constInt 32 1),
      builtinCall (n + 2) "get_local_size" (.constInt 32 2),
      binary (n + 3) "mul" (n + 2) (n + 1), binary (n + 4) "mul" (n + 3) n]),
    ⟨n, n + 1, n + 2, n + 4⟩)

/-- The privatised locals are those of the module, which `F` has been changed in. -/
def privatizedFunction (M : Module) (F : Function) : Function :=
  let M' := { M with functions := M.functions.map fun G => if G.name = F.name then F else G }
  ((privatizeLocals F.name M').functions.find? (·.name = F.name)).getD F

def prepare (M : Module) (F : Function) : Except Failure (Function × LocalSizeInfo) := do
  let F ← ensureARealEntryOnTopABarrierEntry (expandGetGlobalID F)
  let r := insertLocalSizeInfoToEntry F
  pure (privatizedFunction M r.1, r.2)

/-! ### The regions that get loops -/

inductive RunFailure
  | run (e : Failure)
  | filter (e : FilterFailure)
  deriving DecidableEq

def liftRun {α : Type} : Except Failure α → Except RunFailure α := Except.mapError .run

/-- The use lists and LLVM's loops of a function; `fuel` bounds the loops of the pass. -/
structure Analyses where
  preds : Function → BlockId → List BlockId
  users : Function → InstId → List InstId
  LI : Function → List Loop
  getLoopFor : Function → BlockId → Option BlockId
  fuel : Nat

/-- `PR`, the regions that are neither trivial nor uniform.  The analyses the pass requires have run
on `Original`, and only the triplets of new instructions are computed later. -/
def regionsToLoop (A : Analyses) (globals : List Global) (Original F : Function) :
    Except RunFailure (List MxPARegion) := do
  let TIA ← Except.mapError (fun e => .filter (.analysis e))
    (TripletInvarianceAnalysis.runOnFunction Original (A.users Original) A.fuel (A.preds Original)
      (A.LI Original) (globals.map Global.name) noTriplets)
  let PRVector ← liftRun (gatherParallelRegions (A.getLoopFor F) F (A.preds F) A.fuel A.fuel)
  let r ← Except.mapError .filter (filterRegions F (A.preds F) (A.users F) A.fuel PRVector TIA.2)
  pure r.1

/-! ### The loops -/

/-- The three calls and the index computed from them, at the first non-PHI of the region. -/
def flatIdxCode (L : LocalSizeInfo) (n : InstId) : List Instruction :=
  [builtinCall n "get_local_id" (.constInt 32 0),
    builtinCall (n + 1) "get_local_id" (.constInt 32 1),
    builtinCall (n + 2) "get_local_id" (.constInt 32 2),
    binary (n + 3) "mul" (n + 2) L.Lsz0, binary (n + 4) "mul" (n + 3) L.Lsz1,
    binary (n + 5) "mul" (n + 1) L.Lsz0, binary (n + 6) "add" (n + 4) (n + 5),
    binary (n + 7) "add" (n + 6) n]

def insertFlatIdx (L : LocalSizeInfo) (s : Function × IndexedRegions) (R : MxPARegion) :
    Function × IndexedRegions :=
  let n := s.1.freshInst
  (s.1.updateBlock R.Entry (BasicBlock.insertAllAtFirstNonPHI (flatIdxCode L n)),
    s.2 ++ [(R, n + 7)])

def loopRegions (A : Analyses) (L : LocalSizeInfo) (PR : List MxPARegion) (F : Function) :
    Except Failure Function := do
  let s := PR.foldl (insertFlatIdx L) (F, [])
  let c ← PR.foldlM (deployRegionContext s.2 A.users L.Flat3DSize) ⟨s.1, []⟩
  let r ← PR.foldlM (fun s RN => insertLoops A.preds RN s.1 s.2) (c.F, F.dominatorTree)
  pure r.1

/-! ### After the loops are inserted -/

def removeBarrierCalls (F : Function) : Function :=
  { F with block := fun b =>
      { F.block b with insts := (F.block b).insts.filter fun I => !I.isBarrier } }

/-- `I->moveBefore(Pos)` for the instruction `I` of a block and a position in the entry block. -/
def moveToEntry (Pos : InstId) (F : Function) (p : BlockId × Instruction) : Function :=
  if p.2.id = Pos then F
  else (F.updateBlock p.1 fun BB => { BB with insts := BB.insts.erase p.2 }).updateBlock F.entry
    (BasicBlock.insertAllBefore Pos [p.2])

def isStaticAlloca (I : Instruction) : Bool :=
  match I.op with
  | .alloca _ (.constInt _ _) => true
  | _ => false

def moveAllocasToEntry (F : Function) : Function :=
  let firstInsertionPt := (F.block F.entry).getFirstNonPHI
  (F.rest.flatMap fun b => ((F.block b).insts.filter isStaticAlloca).map fun I => (b, I)).foldl
    (moveToEntry firstInsertionPt) F

def uniformBIFs : List String :=
  ["get_local_size", "get_global_size", "get_work_dim", "get_num_groups", "get_group_id",
    "get_global_offset"]

def isUniformBIFCall (I : Instruction) : Bool :=
  match I.op with
  | .call (some name) _ => uniformBIFs.contains name
  | _ => false

def moveUniformBIFCallsToEntry (F : Function) : Function :=
  let firstInsertionPt := (F.block F.entry).getFirstNonPHI
  (F.layout.flatMap fun b => ((F.block b).insts.filter isUniformBIFCall).map fun I => (b, I)).foldl
    (moveToEntry firstInsertionPt) F

def CondBarrier.runOnFunction (A : Analyses) (M : Module) (F : Function) : Except RunFailure Function := do
  let p ← liftRun (prepare M F)
  let PR ← regionsToLoop A M.globals F p.1
  if PR.isEmpty then pure p.1
  else do
    let F ← liftRun (loopRegions A p.2 PR p.1)
    pure (moveUniformBIFCallsToEntry (moveAllocasToEntry (removeBarrierCalls F)))

end LoopInserter

end VariOCL.IR
