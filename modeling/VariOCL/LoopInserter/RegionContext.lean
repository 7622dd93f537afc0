import VariOCL.LoopInserter.Contains
import VariOCL.LoopInserter.ReplaceIds

/-! `CondBarrier::deployRegionContext`: values a region hands on to another one are stored for each
work-item and loaded again where they are used. -/

namespace VariOCL.IR

/-- Behind the definition of `i` and the PHIs that follow it. -/
def BasicBlock.insertAllAfter (i : InstId) (Is : List Instruction) (BB : BasicBlock) : BasicBlock :=
  let after := (BB.insts.dropWhile (·.id ≠ i)).tail
  { BB with insts := BB.insts.takeWhile (·.id ≠ i) ++ (BB.insts.dropWhile (·.id ≠ i)).take 1 ++
      after.takeWhile (·.op.isPhi) ++ Is ++ after.dropWhile (·.op.isPhi) }

/-- `User->replaceUsesOfWith(..)`, the terminator among the users. -/
def BasicBlock.replaceUsesIn (User : InstId) (f : Value → Value) (BB : BasicBlock) : BasicBlock where
  insts := BB.insts.map fun I => if I.id = User then I.mapValues f else I
  termId := BB.termId
  term := if BB.termId = User then BB.term.mapValues f else BB.term

/-- The block of an instruction or terminator. -/
def Function.blockOf (F : Function) (i : InstId) : Option BlockId :=
  F.layout.find? fun b => (F.block b).instIds.contains i

def Op.isAlloca : Op → Bool
  | .alloca _ _ => true
  | _ => false

namespace LoopInserter

/-- The regions of `PR`, each with its index from `R2IMap`. -/
abbrev IndexedRegions := List (MxPARegion × InstId)

/-- `findRegionContains` and `R2IMap`. -/
def findIndexed (F : Function) (PR : IndexedRegions) (BB : BlockId) : Option (MxPARegion × InstId) :=
  PR.find? fun R => R.1.claims F BB

/-- The region of an instruction or terminator. -/
def findIndexedOf (F : Function) (PR : IndexedRegions) (i : InstId) :
    Option (MxPARegion × InstId) := (F.blockOf i).bind (findIndexed F PR)

/-- The contexts are named after their instructions. -/
structure Contexts where
  F : Function
  NamedContexts : List (InstId × InstId)

def elementType (Inst : Instruction) : Ty :=
  match Inst.op with
  | .alloca elem _ => elem
  | _ => Inst.ty

def getContextReplacementOf (Flat3DSize : InstId) (s : Contexts) (Inst : Instruction) :
    Contexts × InstId :=
  match s.NamedContexts.find? (·.1 = Inst.id) with
  | some c => (s, c.2)
  | none =>
    let AI := s.F.freshInst
    (⟨s.F.updateBlock s.F.entry (BasicBlock.insertBeforeTerminator
      ⟨AI, .ptr, .alloca (elementType Inst) (.inst Flat3DSize)⟩), (Inst.id, AI) :: s.NamedContexts⟩, AI)

def contextGep (n Alloca FlatIdx : InstId) : Instruction :=
  ⟨n, .ptr, .gep .ptr (.inst Alloca) [.inst FlatIdx]⟩

section
variable (PR : IndexedRegions) (users : Function → InstId → List InstId)

/-- Returns the store, if there is one. -/
def doContextStore (F : Function) (BB : BlockId) (Inst : Instruction) (Alloca : InstId) :
    Except Failure (Function × Option InstId) :=
  match findIndexed F PR BB with
  | none => .error (.assertion "Context Store cannot be performed on an empty region")
  | some R =>
    if Inst.op.isAlloca then .ok (F, none)
    else
      let n := F.freshInst
      .ok (F.updateBlock BB (BasicBlock.insertAllAfter Inst.id
        [contextGep n Alloca R.2, ⟨n + 1, .void, .store (.inst Inst.id) (.inst n)⟩]), some (n + 1))

/-- Returns the value that is loaded, or the slot of an alloca. -/
def doContextReload (F : Function) (Inst : Instruction) (Alloca Before : InstId) :
    Except Failure (Function × InstId) :=
  match F.blockOf Before with
  | none => .error (.assertion "Context reload cannot be performed on an empty region")
  | some BB =>
    match findIndexed F PR BB with
    | none => .error (.assertion "Context reload cannot be performed on an empty region")
    | some R =>
      let n := F.freshInst
      if Inst.op.isAlloca then
        .ok (F.updateBlock BB (BasicBlock.insertAllBefore Before [contextGep n Alloca R.2]), n)
      else
        .ok (F.updateBlock BB (BasicBlock.insertAllBefore Before
          [contextGep n Alloca R.2, ⟨n + 1, elementType Inst, .load (.inst n)⟩]), n + 1)

/-- LLVM's `Region::getEnteringBlock`. -/
def MxPARegion.getEnteringBlock (F : Function) (R : MxPARegion) : Option BlockId :=
  match (F.predEdges R.Entry).filter fun p =>
      (Graph.reachFrom F.succs F.layout F.entry).contains p && !R.contains F p with
  | [p] => some p
  | _ => none

/-- Before the user, or at the end of the last block a PHI takes the value from. -/
def reloadLocation (F : Function) (R : MxPARegion) (BB : BlockId) (Inst User : InstId) :
    Except Failure InstId :=
  match (F.block BB).find User with
  | some ⟨_, _, .phi incoming⟩ =>
    if R.getEnteringBlock F = some BB then
      .error (.assertion "Cannot add context reload for a PHI at the region entry!")
    else
      match (incoming.filter (·.1 = .inst Inst)).getLast? with
      | some p => .ok (F.block p.2).termId
      | none => .error (.assertion "IncomingBB != NULL")
  | _ => .ok User

/-- The body of the loop over the uses. -/
def reloadUse (Inst : Instruction) (Alloca : InstId) (F : Function) (User : InstId) :
    Except Failure Function :=
  match F.blockOf User with
  | none => .ok F
  | some BB =>
    match findIndexed F PR BB with
    | none => .ok F
    | some R => do
      let ReloadLocation ← reloadLocation F R.1 BB Inst.id User
      let r ← doContextReload PR F Inst Alloca ReloadLocation
      pure (r.1.updateBlock BB (BasicBlock.replaceUsesIn User
        (Value.replace Inst.id (.inst r.2))))

/-- `users` lists the users of an instruction in the order of its use list. -/
def performContextBuffering (Flat3DSize : InstId) (s : Contexts) (p : BlockId × Instruction) :
    Except Failure Contexts := do
  let c := getContextReplacementOf Flat3DSize s p.2
  let r ← doContextStore PR c.1.F p.1 p.2 c.2
  let Uses := (users r.1 p.2.id).filter fun User => some User ≠ r.2
  let F ← Uses.foldlM (reloadUse PR p.2 c.2) r.1
  pure ⟨F, c.1.NamedContexts⟩

/-- Whether an instruction of a region with the instructions `ATI` goes onto the `WorkList`. -/
def needsContext (F : Function) (ATI : List InstId) (Inst : Instruction) : Bool :=
  !Inst.op.isPhi && (users F Inst.id).any fun user =>
    Inst.op.isAlloca || !ATI.contains user && (findIndexedOf F PR user).isSome

def contextWorkList (F : Function) (R : MxPARegion) : List (BlockId × Instruction) :=
  let ATI := R.BBInvolved.flatMap fun b => (F.block b).instIds
  R.BBInvolved.flatMap fun b =>
    ((F.block b).insts.filter (needsContext PR users F ATI)).map fun I => (b, I)

def deployRegionContext (Flat3DSize : InstId) (s : Contexts) (R : MxPARegion) :
    Except Failure Contexts :=
  (contextWorkList PR users s.F R).foldlM (performContextBuffering PR users Flat3DSize) s

end

end LoopInserter

end VariOCL.IR
