import VariOCL.IR.Edit

/-! `TripletInvarianceAnalysis`: which values are the same in every work-item, once for each of the
three dimensions of a work-group. -/

namespace VariOCL.IR

/-- An instruction by its address; terminators are instructions. -/
inductive Node
  | inst (I : Instruction)
  | term (t : Terminator)

def BasicBlock.node (BB : BasicBlock) (id : InstId) : Option Node :=
  if BB.termId = id then some (.term BB.term)
  else (BB.insts.find? (·.id = id)).map .inst

def Function.node (F : Function) (id : InstId) : Option Node :=
  F.layout.findSome? fun b => (F.block b).node id

namespace TripletInvarianceAnalysis

inductive CycleColor
  | white
  | grey
  | black
  deriving DecidableEq

inductive Color
  | kInvariant
  | kNonInvariant
  | kUnknown
  | kMaybeNonInvariant
  deriving DecidableEq

structure TripletType where
  x : Color
  y : Color
  z : Color
  deriving DecidableEq

def invariantTriplet : TripletType := ⟨.kInvariant, .kInvariant, .kInvariant⟩

def nonInvariantTriplet : TripletType := ⟨.kNonInvariant, .kNonInvariant, .kNonInvariant⟩

def colorLUT : Color → Color → Color
  | .kNonInvariant, _ => .kNonInvariant
  | _, .kNonInvariant => .kNonInvariant
  | .kUnknown, _ => .kUnknown
  | _, .kUnknown => .kUnknown
  | .kInvariant, .kInvariant => .kInvariant
  | _, _ => .kUnknown

def tripletUnion (T1 T2 : TripletType) : TripletType :=
  ⟨colorLUT T1.x T2.x, colorLUT T1.y T2.y, colorLUT T1.z T2.z⟩

inductive Failure
  | emptyVector
  | outOfFuel
  deriving DecidableEq

/-- `T = VT[0]`, and the rest of `VT` folded into it. -/
def unionAll : List TripletType → Except Failure TripletType
  | [] => .error .emptyVector
  | T :: VT => .ok (VT.foldl tripletUnion T)

/-- A loop of the loop forest. -/
inductive Loop
  | mk (header : BlockId) (blocks : List BlockId) (subLoops : List Loop)

def Loop.header : Loop → BlockId
  | .mk h _ _ => h

def Loop.blocks : Loop → List BlockId
  | .mk _ bs _ => bs

def Loop.subLoops : Loop → List Loop
  | .mk _ _ ls => ls

/-- The keys of `TripletIndex`. -/
inductive Key
  | value (v : Value)
  | block (b : BlockId)
  deriving DecidableEq

/-- `TC[F]` and `CycleColorMap`. -/
structure Triplets where
  TI : Key → Option TripletType
  CycleColorMap : InstId → CycleColor

abbrev Analysis := StateT Triplets (Except Failure)

def setTripletToValue (V : Key) (T : TripletType) : Analysis Unit :=
  modify fun s => { s with TI := fun k => if k = V then some T else s.TI k }

def setCycleColor (I : InstId) (c : CycleColor) : Analysis Unit :=
  modify fun s => { s with CycleColorMap := fun i => if i = I then c else s.CycleColorMap i }

/-- `setTripletType(F, V, &T, ..)` and `return T`. -/
def setTripletType (V : Key) (T : TripletType) : Analysis TripletType := do
  setTripletToValue V T
  pure T

/-- A value whose evaluation has begun and has no triplet yet. -/
def Triplets.inProgress (s : Triplets) : Value → Bool
  | .inst i => s.CycleColorMap i = .grey && (s.TI (.value (.inst i))).isNone
  | _ => false

/-- The built-in functions taken to be the same in every work-item. -/
def uniformBuiltins : List String :=
  ["get_local_size", "get_global_size", "get_work_dim", "get_num_groups", "get_group_id",
    "get_global_offset"]

/-- `getCalledFunctionName`. -/
def calledFunctionName (callee : Option String) : String := callee.getD "indirect call"

/-- `DimensionKinds`: the constants 0, 1 and 2 of type `i32`. -/
def dimensionKind (d : Nat) : Value := .constInt 32 d

/-- The triplet of a work-item id, if its dimension is one of `DimensionKinds`. -/
def idTriplet (dim : Value) : Option TripletType :=
  if dim = dimensionKind 0 then some ⟨.kNonInvariant, .kInvariant, .kInvariant⟩
  else if dim = dimensionKind 1 then some ⟨.kInvariant, .kNonInvariant, .kInvariant⟩
  else if dim = dimensionKind 2 then some ⟨.kInvariant, .kInvariant, .kNonInvariant⟩
  else none

def Terminator.keys : Terminator → List Key
  | .switch c d cs => .value c :: .block d ::
      cs.flatMap fun p => [.value (.constInt 32 p.1), .block p.2]
  | t => t.operands.map .value

section
variable (F : Function) (users : InstId → List InstId)

section
variable (getTriplet : Key → Analysis TripletType)

/-- `VT` of some operands, folded into the triplet of `V`. -/
def unionOperands (V : Key) (operands : List Key) : Analysis TripletType := do
  let VT ← operands.mapM getTriplet
  let T ← unionAll VT
  setTripletType V T

/-- The triplet of a user of an alloca, added to `VT`; that of a load is left out. -/
def addUser (V : Key) (VT : List TripletType) (User : InstId) : Analysis (List TripletType) := do
  let s ← get
  if s.inProgress (.inst User) then
    let T ← setTripletType (.value (.inst User)) invariantTriplet
    pure (VT ++ [T])
  else match F.node User with
  | some (.inst ⟨_, _, .store val _⟩) => do
    let T ← getTriplet (.value val)
    pure (VT ++ [T])
  | some (.inst ⟨_, _, .load _⟩) => pure VT
  | _ => do
    let T ← setTripletType V nonInvariantTriplet
    pure (VT ++ [T])

def allocaTriplet (i : InstId) : Analysis TripletType := do
  setCycleColor i .grey
  if (users i).isEmpty then setTripletType (.value (.inst i)) invariantTriplet
  else
    let VT ← (users i).foldlM (addUser F getTriplet (.value (.inst i))) []
    let T ← unionAll VT
    setTripletType (.value (.inst i)) T

/-- A load takes the triplet of its pointer, and a store that of its value. -/
def accessTriplet (i : InstId) (operand : Value) : Analysis TripletType := do
  setCycleColor i .grey
  let s ← get
  if s.inProgress operand then setTripletType (.value operand) nonInvariantTriplet
  else
    let T ← getTriplet (.value operand)
    setTripletType (.value (.inst i)) T

def callTriplet (V : Key) (callee : Option String) (args : List Value) : Analysis TripletType :=
  let name := calledFunctionName callee
  if name = "get_local_id" ∨ name = "get_global_id" then
    match idTriplet (args.headD .undefValue) with
    | some T => setTripletType V T
    | none => pure invariantTriplet
  else if name ∈ uniformBuiltins then setTripletType V invariantTriplet
  else unionOperands getTriplet V (args.map .value)

def gepTriplet (V : Key) (ptr : Value) (indices : List Value) : Analysis TripletType := do
  let T ← getTriplet (.value ptr)
  if indices.all fun v => match v with | .constInt _ _ => true | _ => false then
    setTripletType V T
  else
    let VT ← indices.mapM fun A => getTriplet (.value A)
    setTripletType V (VT.foldl tripletUnion T)

def instTriplet (i : InstId) (op : Op) : Analysis TripletType :=
  match op with
  | .alloca _ _ => allocaTriplet F users getTriplet i
  | .load ptr => accessTriplet getTriplet i ptr
  | .store val _ => accessTriplet getTriplet i val
  | .phi _ => setTripletType (.value (.inst i)) nonInvariantTriplet
  | .call callee args => callTriplet getTriplet (.value (.inst i)) callee args
  | .gep .ptr ptr indices => gepTriplet getTriplet (.value (.inst i)) ptr indices
  | .gep _ _ _ => setTripletType (.value (.inst i)) nonInvariantTriplet
  | op =>
    if op.operands.isEmpty then setTripletType (.value (.inst i)) invariantTriplet
    else unionOperands getTriplet (.value (.inst i)) (op.operands.map .value)

def termTriplet (V : Key) : Terminator → Analysis TripletType
  | .br _ => setTripletType V invariantTriplet
  | .ret _ => setTripletType V invariantTriplet
  | .unreachable => setTripletType V invariantTriplet
  | .condBr c _ _ => do
    let T ← getTriplet (.value c)
    setTripletType V T
  | .switch c d cs => unionOperands getTriplet V (Terminator.keys (.switch c d cs))

end

/-- `users` lists the uses of an instruction in the order of its use list. -/
def getOrCalculateTriplet : Nat → Key → Analysis TripletType
  | 0, _ => throw .outOfFuel
  | n + 1, V => do
    let s ← get
    match s.TI V with
    | some T => pure T
    | none =>
      match V with
      | .block b =>
        setTripletType V (if b = F.entry then invariantTriplet else nonInvariantTriplet)
      | .value (.inst i) =>
        match F.node i with
        | none => setTripletType V nonInvariantTriplet
        | some (.term t) => termTriplet (getOrCalculateTriplet n) V t
        | some (.inst I) => instTriplet F users (getOrCalculateTriplet n) i I.op
      | .value _ => setTripletType V invariantTriplet

def isUniform (fuel : Nat) (V : Key) : Analysis Bool := do
  let T ← getOrCalculateTriplet F users fuel V
  pure (T = invariantTriplet)

def isBarrierLoop (L : Loop) : Bool := L.blocks.any fun b => hasBarrier (F.block b)

/-- `L->getLoopLatch()`: the block of the one edge back to the header. -/
def getLoopLatch (preds : BlockId → List BlockId) (L : Loop) : Option BlockId :=
  match (preds L.header).filter (· ∈ L.blocks) with
  | [latch] => some latch
  | _ => none

def markBlock (b : BlockId) (T : TripletType) : Analysis Unit :=
  (F.block b).instIds.forM fun i => setTripletToValue (.value (.inst i)) T

/-- The marks of a loop's header and latch. -/
def markLoop (preds : BlockId → List BlockId) (L : Loop) : Analysis Unit := do
  let T := if isBarrierLoop F L then invariantTriplet else nonInvariantTriplet
  markBlock F L.header T
  match getLoopLatch preds L with
  | some latch => markBlock F latch T
  | none => pure ()

def markLoops (preds : BlockId → List BlockId) (LI : List Loop) : Analysis Unit :=
  LI.forM fun TL => do
    markLoop F preds TL
    TL.subLoops.forM (markLoop F preds)

def runOnFunction (fuel : Nat) (preds : BlockId → List BlockId) (LI : List Loop)
    (globals : List String) : Analysis Unit := do
  globals.forM fun g => setTripletToValue (.value (.global g)) invariantTriplet
  markLoops F preds LI
  setTripletToValue (.block F.entry) invariantTriplet
  F.layout.forM fun b => (F.block b).instIds.forM fun i => do
    let _ ← getOrCalculateTriplet F users fuel (.value (.inst i))

end

def noTriplets : Triplets := ⟨fun _ => none, fun _ => .white⟩

end TripletInvarianceAnalysis

end VariOCL.IR
