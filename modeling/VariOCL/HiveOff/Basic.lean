import VariOCL.IR.Trace

/-! `HiveOffBarrier`: every barrier call gets a block of its own, and the function starts and ends in
such blocks. -/

namespace VariOCL.IR

def BasicBlock.front (BB : BasicBlock) : InstId := (BB.insts.head?.map Instruction.id).getD BB.termId

/-- `I->getNextNode()`; the terminator is the last node of its block. -/
def BasicBlock.getNextNode (BB : BasicBlock) (I : InstId) : InstId :=
  ((BB.insts.dropWhile (·.id ≠ I)).tail.head?.map Instruction.id).getD BB.termId

/-- `BB->getTerminator()->getPrevNode()`. -/
def BasicBlock.prevOfTerminator (BB : BasicBlock) : InstId :=
  (BB.insts.getLast?.map Instruction.id).getD BB.termId

def BasicBlock.getFirstNonPHI (BB : BasicBlock) : InstId :=
  ((BB.insts.dropWhile (·.op.isPhi)).head?.map Instruction.id).getD BB.termId

/-- `I->getParent()`. -/
def Function.getParent (F : Function) (I : InstId) : Option BlockId :=
  F.layout.find? fun b => (F.block b).insts.any (·.id = I)

/-- The form the region formation relies on. -/
structure Function.HivedOff (F : Function) : Prop where
  alone : ∀ b ∈ F.layout, hasBarrier (F.block b) → containsJustABarrier (F.block b)
  entry : containsJustABarrier (F.block F.entry)
  exits : ∀ b ∈ F.layout, F.succs b = [] → containsJustABarrier (F.block b)
  pred : ∀ b ∈ F.layout, b ≠ F.entry → hasBarrier (F.block b) →
    ∃ p, F.predEdges b = [p] ∧ (F.block p).term = .br b

namespace HiveOff

def hiveOffEntry (F : Function) : Function :=
  if containsJustABarrier (F.block F.entry) then F
  else (F.splitBlock F.entry (F.block F.entry).front).createBarrierBeforeTerminator F.entry

/-- One iteration of the loop over the blocks, with the block it creates behind `b`. -/
def hiveOffExit (F : Function) (b : BlockId) : Function × List BlockId :=
  if (F.succs b).isEmpty && !containsJustABarrier (F.block b) then
    if endsWithBarrier (F.block b) then
      (F.splitBlock b (F.block b).prevOfTerminator, [F.freshBlock])
    else
      ((F.splitBlock b (F.block b).termId).createBarrierBeforeTerminator F.freshBlock,
        [F.freshBlock])
  else (F, [])

/-- The iterator goes on with the created block, which is behind `b` in the list of blocks. -/
def hiveOffExits : Nat → Function → List BlockId → Function
  | 0, F, _ => F
  | _ + 1, F, [] => F
  | n + 1, F, b :: bs => hiveOffExits n (hiveOffExit F b).1 ((hiveOffExit F b).2 ++ bs)

def hiveOffEntryAndExits (F : Function) : Function :=
  hiveOffExits (2 * (hiveOffEntry F).layout.length) (hiveOffEntry F) (hiveOffEntry F).layout

def collectBarriers (F : Function) : List InstId :=
  F.layout.flatMap fun b => ((F.block b).insts.filter Instruction.isBarrier).map Instruction.id

def splitBlockBeforeBarrier (F : Function) (Old : BlockId) (SplitPt : InstId) : Function :=
  F.splitBlock Old SplitPt

def splitBlockAfterBarrier (F : Function) (Old : BlockId) (SplitPt : InstId) : Function :=
  F.splitBlock Old ((F.block Old).getNextNode SplitPt)

/-- The function in which the barrier ends its block. -/
def splitAfter (F : Function) (B : BlockId) (I : InstId) : Function :=
  if (F.block B).getNextNode I ≠ (F.block B).termId then splitBlockAfterBarrier F B I else F

/-- The body of the loop of `ProcessBarrier`, with its `Changed`. -/
def processBarrierInst (F : Function) (I : InstId) : Function × Bool :=
  match F.getParent I with
  | none => (F, false)
  | some B =>
    let F' := splitAfter F B I
    if B = F'.entry ∧ (F'.block B).getFirstNonPHI = I then
      (F', (F.block B).getNextNode I ≠ (F.block B).termId)
    else (splitBlockBeforeBarrier F' B I, true)

def processBarrier (F : Function) (BarrierSet : List InstId) : Function × Bool :=
  BarrierSet.foldl (fun (F, Changed) I =>
    ((processBarrierInst F I).1, Changed || (processBarrierInst F I).2)) (F, false)

/-- `verifyAnalysis`: every collected barrier is hived off. -/
def verifyAnalysis (F : Function) (BarrierSet : List InstId) : Bool :=
  BarrierSet.all fun I => (F.getParent I).any fun b => containsJustABarrier (F.block b)

/-- `order` lists the pointer set of barriers the way its iterator does. -/
def runOnFunction (order : List InstId → List InstId) (F : Function) : Function × Bool :=
  processBarrier (hiveOffEntryAndExits F) (order (collectBarriers (hiveOffEntryAndExits F)))

end HiveOff

end VariOCL.IR
