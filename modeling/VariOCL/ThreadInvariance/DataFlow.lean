import VariOCL.ThreadInvariance.Lattice
import VariOCL.ControlDependence
import Mathlib.Algebra.Ring.Nat

/-! `DataFlow` and `ThreadInvarianceImpl` of ThreadInvariance.cpp: the invariance of every value of
a function, by a work queue of blocks. -/

namespace VariOCL.ThreadInvariance

open IR (BlockId InstId)

/-! ### The function -/

inductive Ty
  | vector (numElements : Nat)
  | pointer (addressSpace : Nat)
  | other
  deriving DecidableEq

/-- The width of `InvarianceInfo(const Value&)`. -/
def Ty.width : Ty → Nat
  | .vector numElements => numElements
  | _ => 1

def Ty.isPointer : Ty → Bool
  | .pointer _ => true
  | _ => false

structure CalledFunction where
  name : String
  isDeclaration : Bool
  deriving DecidableEq

inductive Constant
  | globalVariable (name : String) (addressSpace : Nat)
  | function (Called : CalledFunction)
  | int (n : Nat)
  | vector (elements : List (Option Nat))
  | undef (ty : Ty)
  | expr (ty : Ty) (operand : Constant)
  | other (ty : Ty)
  deriving DecidableEq

def Constant.ty : Constant → Ty
  | .globalVariable _ addressSpace => .pointer addressSpace
  | .function _ => .pointer 0
  | .int _ => .other
  | .vector elements => .vector elements.length
  | .undef ty => ty
  | .expr ty _ => ty
  | .other ty => ty

inductive Value
  | inst (id : InstId) (ty : Ty)
  | argument (index : Nat) (ty : Ty)
  | basicBlock (b : BlockId)
  | constant (C : Constant)
  deriving DecidableEq

namespace Value

def ty : Value → Ty
  | .inst _ ty => ty
  | .argument _ ty => ty
  | .basicBlock _ => .other
  | .constant C => C.ty

def isUndefValue : Value → Bool
  | .constant (.undef _) => true
  | _ => false

def isGlobalVariable : Value → Bool
  | .constant (.globalVariable _ _) => true
  | _ => false

end Value

/-- An instruction by the visit method it gets; `standard` stands for the binary operators, casts,
comparisons, address computations and selections. -/
inductive Op
  | alloca (arraySize : Value)
  | standard (ty : Ty) (operands : List Value)
  | call (ty : Ty) (args : List Value) (calledValue : Value)
  | insertElement (vec elt index : Value)
  | extractElement (ty : Ty) (vec index : Value)
  | shuffleVector (ty : Ty) (lhs rhs mask : Value)
  | load (ty : Ty) (ptr : Value)
  | store (val ptr : Value)
  | phi (ty : Ty) (incoming : List (Value × BlockId))
  | br (condition : Option Value)
  | terminator (operands : List Value)
  | other (ty : Ty) (operands : List Value)
  deriving DecidableEq

namespace Op

def ty : Op → Ty
  | .alloca _ => .pointer 0
  | .standard ty _ => ty
  | .call ty _ _ => ty
  | .insertElement vec _ _ => vec.ty
  | .extractElement ty _ _ => ty
  | .shuffleVector ty _ _ _ => ty
  | .load ty _ => ty
  | .store _ _ => .other
  | .phi ty _ => ty
  | .br _ => .other
  | .terminator _ => .other
  | .other ty _ => ty

def operands : Op → List Value
  | .alloca arraySize => [arraySize]
  | .standard _ operands => operands
  | .call _ args calledValue => args ++ [calledValue]
  | .insertElement vec elt index => [vec, elt, index]
  | .extractElement _ vec index => [vec, index]
  | .shuffleVector _ lhs rhs mask => [lhs, rhs, mask]
  | .load _ ptr => [ptr]
  | .store val ptr => [val, ptr]
  | .phi _ incoming => incoming.map Prod.fst
  | .br condition => condition.toList
  | .terminator operands => operands
  | .other _ operands => operands

def isPhi : Op → Bool
  | .phi _ _ => true
  | _ => false

def isAlloca : Op → Bool
  | .alloca _ => true
  | _ => false

def isTerminator : Op → Bool
  | .br _ => true
  | .terminator _ => true
  | _ => false

end Op

structure Instruction where
  id : InstId
  op : Op
  deriving DecidableEq

def Instruction.value (I : Instruction) : Value := .inst I.id I.op.ty

structure Block where
  insts : List Instruction
  term : Instruction
  successors : List BlockId

/-- The instructions in the order `visit(BB)` takes them. -/
def Block.all (BB : Block) : List Instruction := BB.insts ++ [BB.term]

/-- What `insertelement` changes is a vector. -/
def Instruction.isTyped (I : Instruction) : Bool :=
  match I.op with
  | .insertElement vec _ _ => !vec.ty.isPointer
  | _ => true

structure Function where
  name : String
  args : List Ty
  entry : BlockId
  rest : List BlockId
  block : BlockId → Block
  nodup : ((entry :: rest).flatMap fun b => (block b).all.map Instruction.id).Nodup
  typed : ∀ b ∈ entry :: rest, ∀ I ∈ (block b).all, I.isTyped

namespace Function

def layout (F : Function) : List BlockId := F.entry :: F.rest

/-- The blocks and branches alone. -/
def cfg (F : Function) : IR.Function where
  name := F.name
  entry := F.entry
  rest := F.rest
  block b := ⟨[], b,
    match (F.block b).successors with
    | [] => .ret none
    | d :: cs => .switch .undefValue d (cs.map fun c => (0, c))⟩

/-- The instructions that have `V` for an operand, with their blocks. -/
def users (F : Function) (V : Value) : List (BlockId × Instruction) :=
  F.layout.flatMap fun b =>
    ((F.block b).all.filter fun I => V ∈ I.op.operands).map fun I => (b, I)

/-- `dyn_cast<AllocaInst>(V)`, with the parent. -/
def findAlloca (F : Function) (V : Value) : Option (BlockId × Instruction) :=
  (F.layout.flatMap fun b => (F.block b).all.map fun I => (b, I)).find?
    fun p => p.2.value = V && p.2.op.isAlloca

def getInputDependence (F : Function) (BB : BlockId) : List BlockId :=
  ((IR.ControlDependence.runOnFunction {} F.cfg).inputDependences BB).getD []

/-- `getOutputDependence` of the terminator of `BB`. -/
def getOutputDependence (F : Function) (BB : BlockId) : List BlockId :=
  ((IR.ControlDependence.runOnFunction {} F.cfg).outputDependences BB).getD []

end Function

/-! ### OpenClAl.cpp -/

def kMemPrivate : Nat := 0
def kMemGlobal : Nat := 1
def kMemLocal : Nat := 3

/-- `IsThisFunctionAKernel` of a function with a body. -/
def isThisFunctionAKernel (F : Function) : Bool :=
  "_kernel".toList.isSuffixOf F.name.toList

def isWorkItemFunction (name : String) (F : CalledFunction) : Bool :=
  F.isDeclaration && F.name = name

def isGlobalIndex : CalledFunction → Bool := isWorkItemFunction "__amdil_get_global_id_int"
def isLocalIndex : CalledFunction → Bool := isWorkItemFunction "__amdil_get_local_id_int"
def isGroupIndex : CalledFunction → Bool := isWorkItemFunction "__amdil_get_group_id_int"

def isSafeAtomic (F : CalledFunction) : Bool :=
  F.name = "__atom_inc_lu32" || F.name = "__atom_add_gi32" || F.name = "__atom_min_gu32" ||
    F.name = "__atom_max_gu32"

/-! ### ThreadInvarianceImpl -/

abbrev InvarianceMap := Value → Option (InvarianceInfo Value)

def Constant.initial (C : Constant) : InvarianceInfo Value :=
  let result := (InvarianceInfo.ofWidth C.ty.width).reset .kInvariant
  if C.ty.isPointer then result.resetPointer (.constant C) else result

/-- `getInvariance` of a constant. -/
def constantInvariance (variances : InvarianceMap) : Constant → InvarianceInfo Value
  | .expr ty operand =>
    (variances (.constant (.expr ty operand))).getD
      (if ty.isPointer then (constantInvariance variances operand).resetPointer (.constant operand)
      else (Constant.expr ty operand).initial)
  | C => (variances (.constant C)).getD C.initial

def getInvariance (variances : InvarianceMap) : Value → InvarianceInfo Value
  | .constant C => constantInvariance variances C
  | V => (variances V).getD (.ofWidth V.ty.width)

structure State where
  variances : InvarianceMap
  globalInvariances : List Value
  coarseDetected : Bool
  queue : List BlockId

namespace State

/-- `ThreadInvarianceImpl::updateInvariance` -/
def updateEntry (s : State) (V : Value) (result : InvarianceInfo Value) : State :=
  if (getInvariance s.variances V).eq result then s
  else
    { s with
      variances := Function.update s.variances V (some result)
      globalInvariances := if V.isGlobalVariable then s.globalInvariances.insert V
        else s.globalInvariances }

def setCoarseDetected (s : State) : State := { s with coarseDetected := true }

end State

/-- The order in which a set of blocks is iterated. -/
structure SetOrder where
  iterate : List BlockId → List BlockId
  mem_iterate : ∀ bs b, b ∈ iterate bs ↔ b ∈ bs

/-- Blocks in the order they were put in. -/
def SetOrder.inOrder : SetOrder := ⟨id, fun _ _ => Iff.rfl⟩

def pushBack (queue : List BlockId) (b : BlockId) : List BlockId :=
  if b ∈ queue then queue else queue ++ [b]

def State.pushBlocks (order : SetOrder) (s : State) (blocks : List BlockId) : State :=
  { s with queue := (order.iterate blocks).foldl pushBack s.queue }

/-! ### DataFlow -/

local instance neZero_axes : NeZero 3 := Nat.instNeZeroSucc

/-- `a[0].Set(kDimGlobal, i, kinds i)` for the three axes. -/
def InvarianceInfo.setGlobal (a : InvarianceInfo Value) (kinds : Fin 3 → InvarianceKind) :
    InvarianceInfo Value :=
  a.modifyLane 0 fun lane =>
    ([0, 1, 2] : List (Fin 3)).foldl (fun lane i => lane.set .kDimGlobal i (kinds i)) lane

namespace DataFlow

variable (F : Function) (order : SetOrder)

def updateArgument (s : State) (Arg : Value) (result : InvarianceInfo Value) : State :=
  let original := getInvariance s.variances Arg
  let actualInvariance := original.and result
  if original.eq actualInvariance then s
  else (s.updateEntry Arg actualInvariance).pushBlocks order ((F.users Arg).map Prod.fst)

def updateGlobalVariable (s : State) (GV : Value) (result : InvarianceInfo Value) : State :=
  if (getInvariance s.variances GV).eq result then s
  else (s.updateEntry GV result).pushBlocks order ((F.users GV).map Prod.fst)

/-- The blocks that use an instruction of `currentBlock`. -/
def userBlocks (currentBlock : BlockId) (V : Value) : List BlockId :=
  ((F.users V).filter fun u => u.1 ≠ currentBlock || u.2.op.isPhi).map Prod.fst

/-- The body of the loop over `outDependences`. -/
def updateBlockEntry (result : InvarianceInfo Value) (s : State) (B : BlockId) : State :=
  s.updateEntry (.basicBlock B) ((getInvariance s.variances (.basicBlock B)).and result)

/-- `updateInvariance` of an instruction of `currentBlock`. -/
def updateInstruction (currentBlock : BlockId) (s : State) (I : Instruction)
    (result : InvarianceInfo Value) : State :=
  if (getInvariance s.variances I.value).eq result then s
  else
    let s := s.updateEntry I.value result
    let blocks := userBlocks F currentBlock I.value
    if I.op.isTerminator then
      let outDependences := F.getOutputDependence currentBlock
      (outDependences.foldl (updateBlockEntry result) s).pushBlocks order
        (blocks ++ outDependences)
    else s.pushBlocks order blocks

def controlInvarianceFromBlock (variances : InvarianceMap) (BB : BlockId) :
    InvarianceInfo Value :=
  match (F.block BB).term.op with
  | .br (some condition) => getInvariance variances condition
  | _ => getInvariance variances (F.block BB).term.value

def controlInvarianceForBlock (variances : InvarianceMap) (BB : BlockId) : InvarianceInfo Value :=
  (order.iterate (F.getInputDependence BB)).foldl
    (fun result B => result.and (controlInvarianceFromBlock F variances B))
    ((InvarianceInfo.ofWidth 1).reset .kInvariant)

/-- The meet of the operands. -/
def standardRule (variances : InvarianceMap) (I : Instruction) : InvarianceInfo Value :=
  I.op.operands.foldl (fun result O => result.and (getInvariance variances O))
    (.ofWidth I.op.ty.width)

def maybeNonInvariant (I : Instruction) : InvarianceInfo Value :=
  (InvarianceInfo.ofWidth I.op.ty.width).reset .kMaybeNonInvariant

/-- `result[axis].Set(level, axis, kNonInvariant)` for the three axes. -/
def setAxes (level : DimLevel) (result : InvarianceInfo Value) : InvarianceInfo Value :=
  ([0, 1, 2] : List (Fin 3)).foldl
    (fun result axis => result.modifyLane axis.val (·.set level axis .kNonInvariant)) result

/-- `visitCallInst` without what it does for the SafeAtomic functions; they are declared, as far as
they are the built-in ones.  The branch on `GetIndexAxis` is behind those of the index functions it
asks for. -/
def callResult (variances : InvarianceMap) (I : Instruction) (Called : Value) :
    InvarianceInfo Value :=
  let invariant : InvarianceInfo Value := (InvarianceInfo.ofWidth I.op.ty.width).reset .kInvariant
  match Called with
  | .constant (.function Called) =>
    if isGlobalIndex Called then setAxes .kDimLocal (setAxes .kDimGlobal invariant)
    else if isLocalIndex Called then setAxes .kDimLocal invariant
    else if isGroupIndex Called then setAxes .kDimGlobal invariant
    else if Called.isDeclaration then standardRule variances I
    else maybeNonInvariant I
  | _ => maybeNonInvariant I

def phiResult (variances : InvarianceMap) (thisBlock : BlockId) (ty : Ty)
    (incoming : List (Value × BlockId)) : InvarianceInfo Value :=
  let result := incoming.foldl (fun result p => result.and (getInvariance variances p.1))
    (.ofWidth ty.width)
  let nbSkipped := (incoming.filter (·.1.isUndefValue)).length
  let control := (incoming.filter fun p => !F.cfg.dominates thisBlock p.2 &&
      !F.cfg.dominates p.2 thisBlock && !p.1.isUndefValue).foldl
    (fun control p => control.and (controlInvarianceForBlock F order variances p.2))
    (.ofWidth ty.width)
  if nbSkipped = 0 ∨ 1 < incoming.length - nbSkipped then result.and control else result

def shuffleResult (variances : InvarianceMap) (ty : Ty) (lhs rhs mask : Value) :
    InvarianceInfo Value :=
  let lhs := getInvariance variances lhs
  let rhs := getInvariance variances rhs
  let result : InvarianceInfo Value := .ofWidth ty.width
  match mask with
  | .constant (.vector elements) =>
    elements.zipIdx.foldl (fun result p => match p.1 with
      | some ind => result.modifyLane p.2 fun _ =>
        (if ind / rhs.width ≠ 0 then rhs else lhs).lane (ind % rhs.width)
      | none => result) result
  | _ => (List.range ty.width).foldl (fun result i => result.modifyLane i fun _ => lhs.lane 0)
    result

/-- A 64-bit index as the `unsigned` that `operator[]` takes. -/
def laneIndex (ind : Nat) : Nat := ind % 2 ^ 32

/-- The invariance the visit method of `I`, an instruction of block `b`, computes for `I`, if no
assertion fails. -/
def computed (variances : InvarianceMap) (b : BlockId) (I : Instruction) : InvarianceInfo Value :=
  let result : InvarianceInfo Value := .ofWidth I.op.ty.width
  match I.op with
  | .alloca _ => (result.reset .kInvariant).resetPointer I.value
  | .standard _ _ => standardRule variances I
  | .call _ _ Called => callResult variances I Called
  | .insertElement vec elt (.constant (.int ind)) =>
    (getInvariance variances vec).modifyLane (laneIndex ind) fun _ =>
      (getInvariance variances elt).lane 0
  | .insertElement _ _ _ => standardRule variances I
  | .extractElement _ vec (.constant (.int ind)) =>
    (result.reset .kMaybeNonInvariant).modifyLane 0 fun _ =>
      (getInvariance variances vec).lane (laneIndex ind)
  | .extractElement _ _ _ => result.reset .kMaybeNonInvariant
  | .shuffleVector ty lhs rhs mask => shuffleResult variances ty lhs rhs mask
  | .load _ ptr => result.and (getInvariance variances ptr)
  | .store val ptr => (result.and (getInvariance variances ptr)).and (getInvariance variances val)
  | .phi ty incoming => phiResult F order variances b ty incoming
  | .br none => result
  | .br (some condition) => result.or (getInvariance variances condition)
  | .terminator _ => maybeNonInvariant I
  | .other _ _ => maybeNonInvariant I

/-- The calls for which the lanes of the three axes are set. -/
def isIndexCall : Value → Bool
  | .constant (.function Called) =>
    isGlobalIndex Called || isLocalIndex Called || isGroupIndex Called
  | _ => false

/-- The lanes `visitShuffleVectorInst` reads and writes are there. -/
def shuffleInRange (variances : InvarianceMap) (ty : Ty) (lhs rhs mask : Value) : Bool :=
  let lhs := getInvariance variances lhs
  let rhs := getInvariance variances rhs
  match mask with
  | .constant (.vector elements) => elements.zipIdx.all fun p => match p.1 with
    | some ind =>
      p.2 < ty.width && ind % rhs.width < (if ind / rhs.width ≠ 0 then rhs else lhs).width
    | none => true
  | _ => ty.width = 0 || 0 < lhs.width

/-- The assertions of `operator[]` and `operator|=` hold where the visit method of `I` computes the
invariance of `I`. -/
def inRange (variances : InvarianceMap) (I : Instruction) : Bool :=
  match I.op with
  | .call ty _ Called => !isIndexCall Called || 3 ≤ ty.width
  | .insertElement vec elt (.constant (.int ind)) =>
    laneIndex ind < (getInvariance variances vec).width && 0 < (getInvariance variances elt).width
  | .extractElement ty vec (.constant (.int ind)) =>
    0 < ty.width && laneIndex ind < (getInvariance variances vec).width
  | .shuffleVector ty lhs rhs mask => shuffleInRange variances ty lhs rhs mask
  | .store _ ptr => 0 < (getInvariance variances ptr).width
  | .br (some condition) => (getInvariance variances condition).width = 1
  | _ => true

def isStaticAlloca (b : BlockId) (arraySize : Value) : Bool :=
  match arraySize with
  | .constant (.int _) => b = F.entry
  | _ => false

def calledSafeAtomic : Value → Bool
  | .constant (.function Called) =>
    isSafeAtomic Called && !isIndexCall (.constant (.function Called))
  | _ => false

/-- What `visitCallInst` does to the memory a SafeAtomic function accesses.  A base pointer that is
missing is dereferenced. -/
def updateAccessed (s : State) (Ptr : Value) : Option State :=
  let ptrOperand := getInvariance s.variances Ptr
  let newInvariance := ptrOperand.setGlobal fun _ => .kNonInvariant
  if ptrOperand.width = 0 then none
  else if newInvariance.eq ptrOperand then some s
  else
    match (ptrOperand.lane 0).basePtr with
    | none => none
    | some basePtr =>
      if basePtr.ty = .pointer kMemGlobal then
        match basePtr with
        | .constant (.globalVariable _ _) =>
          some (updateGlobalVariable F order s basePtr newInvariance)
        | .argument _ _ => some (updateArgument F order s basePtr newInvariance)
        | _ => some s
      else some s

/-- What `visitStoreInst` does to the base pointer, `ptrOperand` being the invariance of `ptr` and
`result` that of the store. -/
def updateStored (s : State) (ptr : Value) (ptrOperand result : InvarianceInfo Value) :
    Option State :=
  match (ptrOperand.lane 0).basePtr with
  | none => some s
  | some basePtr =>
    let baseInv := getInvariance s.variances basePtr
    if !basePtr.ty.isPointer then some s
    else if ptr.ty = .pointer kMemPrivate then
      match F.findAlloca basePtr with
      | some (b, inst) => some (updateInstruction F order b s inst (result.and baseInv))
      | none =>
        match basePtr with
        | .argument _ _ => some (updateArgument F order s basePtr result)
        | _ => some s
    else if ptr.ty = .pointer kMemLocal then
      let newInv := baseInv.setGlobal ((result.lane 0).invariances .kDimGlobal)
      if baseInv.width = 0 then none
      else if newInv.eq baseInv then some s
      else
        match basePtr with
        | .constant (.globalVariable _ _) => some (updateGlobalVariable F order s basePtr newInv)
        | .argument _ _ => some (updateArgument F order s basePtr newInv)
        | _ => some s
    else some s

/-- `visit` of an instruction of block `b`; `none` where an assertion fails or there is no base
pointer to read from. -/
def visit (b : BlockId) (s : State) (I : Instruction) : Option State :=
  let update (s : State) := updateInstruction F order b s I (computed F order s.variances b I)
  if inRange s.variances I then
    match I.op with
    | .alloca arraySize =>
      if isStaticAlloca F b arraySize then some (update s)
      else some (update (updateInstruction F order b s I (maybeNonInvariant I)))
    | .call ty args Called =>
      if calledSafeAtomic Called then
        let s := updateInstruction F order b s I
          ((InvarianceInfo.ofWidth ty.width).reset .kNonInvariant)
        (updateAccessed F order s ((args ++ [Called]).headD Called)).map update
      else some (update s)
    | .extractElement _ _ (.constant (.int _)) => some (update s)
    | .extractElement _ _ _ => some s
    | .load (.vector _) _ => some (update s.setCoarseDetected)
    | .store _ ptr => updateStored F order (update s) ptr (getInvariance s.variances ptr)
      (computed F order s.variances b I)
    | _ => some (update s)
  else none

def analyzeBlock (s : State) (BB : BlockId) : Option State :=
  (F.block BB).all.foldlM (visit F order BB) s

end DataFlow

/-! ### Build -/

variable (F : Function) (order : SetOrder)

def initializeMap (s : State) : State :=
  F.args.zipIdx.foldl (fun s p =>
    let A : Value := .argument p.2 p.1
    let result : InvarianceInfo Value := (InvarianceInfo.ofWidth p.1.width).reset
      (if isThisFunctionAKernel F then .kInvariant else .kMaybeNonInvariant)
    s.updateEntry A (if p.1.isPointer then result.resetPointer A else result)) s

/-- `Build` before the loop. -/
def start : State := initializeMap F ⟨fun _ => none, [], false, F.layout⟩

/-- The body of the loop of `Build`, while the queue is not empty. -/
def step (s : State) : Option State :=
  match s.queue with
  | [] => some s
  | next :: work => DataFlow.analyzeBlock F order { s with queue := work } next

/-- `Build` after `n` rounds. -/
def run : Nat → Option State
  | 0 => some (start F)
  | n + 1 => (run n).bind (step F order)

end VariOCL.ThreadInvariance
