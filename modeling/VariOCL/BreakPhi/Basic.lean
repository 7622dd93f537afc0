import VariOCL.ImplicitCdgBarriers
import VariOCL.IR.Uses

/-! `BreakPhi`: the blocks that control a barrier keep the PHIs their branch depends on, and all
other PHIs become loads from a stack slot. -/

namespace VariOCL.IR

namespace BreakPhi

def BBsCtrl (F : Function) (CD : ControlDep) : List BlockId :=
  (ImplicitCdgBarriers.barSet F).flatMap fun Y => F.layout.filter fun X =>
    CD.isIterativelyCtrlDep X Y && X != Y

/-- The instructions of a block with their operands, the terminator last. -/
def usersIn (insts : List Instruction) (TI : InstId) (term : Terminator) :
    List (InstId × List Value) :=
  (insts.map fun I => (I.id, I.op.operands)) ++ [(TI, term.operands)]

def addUsed (users : List (InstId × List Value)) (S : List InstId) (Inst : InstId) : List InstId :=
  if Inst ∉ S ∧ ∃ u ∈ users, u.1 ∈ S ∧ .inst Inst ∈ u.2 then Inst :: S else S

/-- The body of the `do` loop, while it finds an instruction that is new. -/
def findTransitiveUses (users : List (InstId × List Value)) (insts : List InstId) :
    Nat → List InstId → List InstId
  | 0, S => S
  | n + 1, S =>
    let S' := insts.foldl (addUsed users) S
    if S'.length = S.length then S else findTransitiveUses users insts n S'

def transitiveUsesByTI (insts : List Instruction) (TI : InstId) (term : Terminator) :
    List InstId :=
  findTransitiveUses (usersIn insts TI term) (insts.map Instruction.id) (insts.length + 1) [TI]

/-- `ctrl` lists the blocks of `BBsCtrl`. -/
def collectUnbreakablePHIs (F : Function) (ctrl : List BlockId) : List InstId :=
  ctrl.flatMap fun b =>
    let BB := F.block b
    ((BB.insts.filter (·.op.isPhi)).map Instruction.id).filter
      (· ∈ transitiveUsesByTI BB.insts BB.termId BB.term)

/-- `CreateStore(val, alloca)` at the end of one incoming block. -/
def storeIncoming (slot : InstId) (F : Function) (p : Value × BlockId) : Function :=
  F.updateBlock p.2 (BasicBlock.insertBeforeTerminator ⟨F.freshInst, .void, .store p.1 (.inst slot)⟩)

/-- The PHI `PN` of block `b` becomes a load, which `insertLoad` puts in its place. -/
def breakPhi (insertLoad : Instruction → Function → Function) (F : Function) (b : BlockId)
    (PN : Instruction) : Function :=
  let slot := F.freshInst
  let F₁ := F.updateBlock F.entry
    (BasicBlock.insertFront ⟨slot, .ptr, .alloca PN.ty (.constInt 32 1)⟩)
  let F₂ := PN.op.incoming.foldl (storeIncoming slot) F₁
  let loadedValue := F₂.freshInst
  ((insertLoad ⟨loadedValue, PN.ty, .load (.inst slot)⟩ F₂).replaceAllUsesWith PN.id
    (.inst loadedValue)).updateBlock b (BasicBlock.erase PN.id)

/-- `BreakPhi2Alloca2(PN, To->getTerminator())`. -/
def breakPhi2Alloca2 (F : Function) (From To : BlockId) (PN : Instruction) : Function :=
  breakPhi (fun I F => F.updateBlock To (BasicBlock.insertBeforeTerminator I)) F From PN

/-- The body of the last loop of `SplitAndSinkFromTo`. -/
def sink (From To : BlockId) (F : Function) (i : InstId) : Function :=
  match (F.block From).find i with
  | none => F
  | some Inst =>
    if Inst.op.isPhi then breakPhi2Alloca2 F From To Inst
    else (F.updateBlock From (BasicBlock.erase i)).updateBlock To
      (BasicBlock.insertBeforeTerminator Inst)

/-- The assertion on the size of `To` holds for a block just split off before its terminator. -/
def splitAndSinkFromTo (F : Function) (From To : BlockId) : Function :=
  let S := transitiveUsesByTI (F.block From).insts (F.block To).termId (F.block To).term
  let InstToMove := ((F.block From).insts.map Instruction.id).filter (· ∉ S)
  InstToMove.foldl (sink From To) F

def splitAndSinkBlock (F : Function) (Old : BlockId) : Function :=
  splitAndSinkFromTo (F.splitBlock Old (F.block Old).termId) Old F.freshBlock

/-- `ctrl` lists the blocks of `BBsCtrl` by their addresses. -/
def splitAndSink (F : Function) (ctrl : List BlockId) : Function := ctrl.foldl splitAndSinkBlock F

/-- The body of the last loop of `BreakPhi2Alloca`. -/
def breakPhi2AllocaAt (F : Function) (p : BlockId × InstId) : Function :=
  match (F.block p.1).find p.2 with
  | none => F
  | some PN => breakPhi (fun I F => F.updateBlock p.1 (BasicBlock.insertBefore PN.id I)) F p.1 PN

def breakPhi2Alloca (F : Function) (UnbreakablePHIs : List InstId) : Function :=
  let PHIs := F.layout.flatMap fun b =>
    (((F.block b).insts.filter fun I => I.op.isPhi && !UnbreakablePHIs.contains I.id).map
      fun I => (b, I.id))
  PHIs.foldl breakPhi2AllocaAt F

def runOnFunction (F : Function) (ctrl : List BlockId) : Function :=
  breakPhi2Alloca (splitAndSink F ctrl) (collectUnbreakablePHIs F ctrl)

end BreakPhi

end VariOCL.IR
