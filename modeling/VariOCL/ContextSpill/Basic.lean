import VariOCL.LoopInserter.GlobalIds
import VariOCL.LoopInserter.RegionContext

/-! `ContextSpill`: first the values that are used outside their blocks, then the PHIs, are kept in
arrays with a cell for each work-item, and loaded where they are used. -/

namespace VariOCL.IR.ContextSpill

open LoopInserter (Failure builtinCall binary contextGep elementType)

/-- The members the pass sets in the entry block. -/
structure Sizes where
  Lsz : Nat → InstId
  Flat3DSize : InstId

def insertCallToGetX (n : InstId) (FuncName : String) (dimindx : Nat) : Instruction :=
  builtinCall n FuncName (.constInt 32 dimindx)

/-- `Lsz`, `Flat3DSize` and the instruction in front of which the slots are allocated. -/
def prologue (n : InstId) : List Instruction :=
  [insertCallToGetX n "get_local_size" 0, insertCallToGetX (n + 1) "get_local_size" 1,
    insertCallToGetX (n + 2) "get_local_size" 2, binary (n + 3) "mul" (n + 2) (n + 1),
    binary (n + 4) "mul" (n + 3) n, ⟨n + 5, .int 32, .other "bitcast" [.constInt 32 0]⟩]

def sizesFrom (n : InstId) : Sizes := ⟨fun d => n + d, n + 4⟩

/-- Used in another block, or by a PHI. -/
def isValueEscaped (F : Function) (BB : BlockId) (Inst : InstId) : Bool :=
  F.layout.any fun b =>
    ((F.block b).insts.any fun I => I.op.operands.contains (.inst Inst) && (b != BB || I.op.isPhi)) ||
      ((F.block b).term.operands.contains (.inst Inst) && b != BB)

def escapedInsts (F : Function) : List InstId :=
  (F.layout.flatMap fun b =>
    ((F.block b).insts.filter fun I => isValueEscaped F b I.id).map Instruction.id).reverse

def phiInsts (F : Function) : List InstId :=
  (F.layout.flatMap fun b =>
    ((F.block b).insts.filter fun I => I.op.isPhi).map Instruction.id).reverse

section
variable (S : Sizes)

def insert3DAllocaFor (n : InstId) (I : Instruction) : Instruction :=
  ⟨n, .ptr, .alloca I.ty (.inst S.Flat3DSize)⟩

/-- The cell of the work-item in the array `I`, the last of the values. -/
def insert3DGepFor (n I : InstId) : List Instruction :=
  [insertCallToGetX n "get_local_id" 0, insertCallToGetX (n + 1) "get_local_id" 1,
    insertCallToGetX (n + 2) "get_local_id" 2, binary (n + 3) "mul" (n + 2) (S.Lsz 0),
    binary (n + 4) "mul" (n + 3) (S.Lsz 1), binary (n + 5) "mul" (n + 1) (S.Lsz 0),
    binary (n + 6) "add" (n + 4) (n + 5), binary (n + 7) "add" (n + 6) n, contextGep (n + 8) I (n + 7)]

def insert3DLoadFor (n : InstId) (I : Instruction) : List Instruction :=
  insert3DGepFor S n I.id ++ [⟨n + 9, elementType I, .load (.inst (n + 8))⟩]

def insert3DStoreFor (n : InstId) (I : Value) (Alloca : InstId) : List Instruction :=
  insert3DGepFor S n Alloca ++ [⟨n + 9, .void, .store I (.inst (n + 8))⟩]

/-! ### Values used outside their blocks -/

/-- The body of the loop over the incoming values; `Loads` has the load of each block. -/
def loadIncoming (Slot : Instruction) (I : InstId) (s : Function × List (BlockId × InstId))
    (p : Value × BlockId) : Function × List (BlockId × InstId) :=
  if p.1 = .inst I ∧ (s.2.find? (·.1 = p.2)).isNone then
    let n := s.1.freshInst
    (s.1.updateBlock p.2 (BasicBlock.insertAllBefore (s.1.block p.2).termId (insert3DLoadFor S n Slot)),
      (p.2, n + 9) :: s.2)
  else s

/-- What a PHI takes from `b`. -/
def loadedIncoming (Loads : List (BlockId × InstId)) (I : InstId) (b : BlockId) (v : Value) : Value :=
  match Loads.find? (·.1 = b) with
  | some l => Value.replace I (.inst l.2) v
  | none => v

def mapIncoming (f : BlockId → Value → Value) : Op → Op
  | .phi incoming => .phi (incoming.map fun p => (f p.2 p.1, p.2))
  | op => op

/-- `PN->setIncomingValue(i, ..)` for the entries of the PHI `PN`. -/
def setIncomingValues (PN : InstId) (f : BlockId → Value → Value) (BB : BasicBlock) : BasicBlock :=
  { BB with insts := BB.insts.map fun I =>
      if I.id = PN then { I with op := mapIncoming f I.op } else I }

/-- The body of the loop over the users. -/
def reloadUser (Slot : Instruction) (I : InstId) (F : Function) (U : InstId) : Function :=
  match F.blockOf U with
  | none => F
  | some BB =>
    match (F.block BB).find U with
    | some ⟨_, _, .phi incoming⟩ =>
      let s := incoming.foldl (loadIncoming S Slot I) (F, [])
      s.1.updateBlock BB (setIncomingValues U (loadedIncoming s.2 I))
    | _ =>
      let n := F.freshInst
      (F.updateBlock BB (BasicBlock.insertAllBefore U (insert3DLoadFor S n Slot))).updateBlock BB
        (BasicBlock.replaceUsesIn U (Value.replace I (.inst (n + 9))))

variable (AllocaPoint : InstId) (users : Function → InstId → List InstId)

/-- `users` lists the users of an instruction in the order in which `use_back()` yields them. -/
def DemoteRegToStack (F : Function) (i : InstId) : Function :=
  match F.blockOf i with
  | none => F
  | some BB =>
    match (F.block BB).find i with
    | none => F
    | some I =>
      if (users F i).isEmpty then F.updateBlock BB (BasicBlock.erase i)
      else
        let Slot := insert3DAllocaFor S F.freshInst I
        let F₁ := F.updateBlock F.entry (BasicBlock.insertAllBefore AllocaPoint [Slot])
        let F₂ := (users F i).foldl (reloadUser S Slot i) F₁
        F₂.updateBlock BB
          (BasicBlock.insertAllAfter i (insert3DStoreFor S F₂.freshInst (.inst i) Slot.id))

/-! ### PHIs -/

/-- The body of the loop over the operands. -/
def storeIncoming (Slot : InstId) (F : Function) (p : Value × BlockId) : Function :=
  F.updateBlock p.2 (BasicBlock.insertAllBefore (F.block p.2).termId
    (insert3DStoreFor S F.freshInst p.1 Slot))

def DemotePHIToStack (F : Function) (P : InstId) : Function :=
  match F.blockOf P with
  | none => F
  | some BB =>
    match (F.block BB).find P with
    | none => F
    | some PN =>
      if (users F P).isEmpty then F.updateBlock BB (BasicBlock.erase P)
      else
        let Slot := insert3DAllocaFor S F.freshInst PN
        let F₁ := F.updateBlock F.entry (BasicBlock.insertAllBefore AllocaPoint [Slot])
        let F₂ := PN.op.incoming.foldl (storeIncoming S Slot.id) F₁
        let n := F₂.freshInst
        ((F₂.updateBlock BB (BasicBlock.insertAllAfter P (insert3DLoadFor S n Slot))).replaceAllUsesWith
          P (.inst (n + 9))).updateBlock BB (BasicBlock.erase P)

end

def runOnFunction (users : Function → InstId → List InstId) (F : Function) :
    Except Failure Function :=
  if F.predEdges F.entry ≠ [] then
    .error (.assertion "Entry block to function must not have predecessors!")
  else if containsJustABarrier (F.block F.entry) = false then
    .error (.assertion "F's entry BB is not a barrier BB (forgot hive off barriers?)!")
  else
    let n := F.freshInst
    let F₀ := F.updateBlock F.entry fun BB => { BB with insts := prologue n ++ BB.insts }
    let F₁ := (escapedInsts F₀).foldl (DemoteRegToStack (sizesFrom n) (n + 5) users) F₀
    .ok ((phiInsts F₁).foldl (DemotePHIToStack (sizesFrom n) (n + 5) users) F₁)

end VariOCL.IR.ContextSpill
