import VariOCL.IR.Split

/-! `BarrierTailReplication`: what follows a barrier is copied until the barrier dominates all it
reaches without taking a back edge. -/

namespace VariOCL.IR

/-- The addresses of the copies made of the blocks and instructions of `F`. -/
def Function.cloneBlock (F : Function) (b : BlockId) : BlockId := F.freshBlock + b

def Function.cloneInst (F : Function) (i : InstId) : InstId := F.freshInst + i

namespace BarrierTailReplication

/-- `ValueToValueMapTy` on blocks and instructions; an instruction may be mapped to null. -/
structure ReferenceMap where
  blocks : BlockId → Option BlockId
  values : InstId → Option (Option InstId)

namespace ReferenceMap

def empty : ReferenceMap := ⟨fun _ => none, fun _ => none⟩

/-- `insert` keeps an entry that is there. -/
def insertBlock (m : ReferenceMap) (b new_b : BlockId) : ReferenceMap :=
  { m with blocks := fun x => if x = b then (m.blocks b).or (some new_b) else m.blocks x }

def insertValue (m : ReferenceMap) (i : InstId) (v : Option InstId) : ReferenceMap :=
  { m with values := fun x => if x = i then (m.values i).or (some v) else m.values x }

/-- `reference_map[v]`, which makes a null entry for a value that is not there. -/
def index (m : ReferenceMap) : Value → ReferenceMap × Option Value
  | .inst i => (m.insertValue i none, ((m.values i).getD none).map .inst)
  | _ => (m, none)

/-- `MapValue`: a null entry counts as missing. -/
def mapValue (m : ReferenceMap) : Value → Value
  | .inst i => (((m.values i).getD none).map .inst).getD (.inst i)
  | v => v

def mapBlock (m : ReferenceMap) (b : BlockId) : BlockId := (m.blocks b).getD b

end ReferenceMap

def remapInstruction (m : ReferenceMap) (I : Instruction) : Instruction :=
  { I with op := (I.op.mapValues m.mapValue).mapBlocks m.mapBlock }

def remapBlock (m : ReferenceMap) (BB : BasicBlock) : BasicBlock :=
  { BB with
    insts := BB.insts.map (remapInstruction m)
    term := (BB.term.mapValues m.mapValue).mapBlocks m.mapBlock }

def findSubgraph (F : Function) (entry : BlockId) : List BlockId :=
  Graph.reachFrom (fun b => (F.succs b).filter fun successor => !F.dominates successor b) F.layout
    entry

def getIncomingValueForBlock (incoming : List (Value × BlockId)) (b : BlockId) : Value :=
  ((incoming.find? fun p => p.2 = b).map Prod.fst).getD .undefValue

/-- The loop over the PHIs of a successor outside the subgraph. -/
def addIncoming (b new_b : BlockId) : ReferenceMap → List Instruction →
    ReferenceMap × List Instruction
  | m, [] => (m, [])
  | m, I :: Is =>
    match I.op with
    | .phi incoming =>
      let v := getIncomingValueForBlock incoming b
      let r := m.index v
      let rest := addIncoming b new_b r.1 Is
      (rest.1, { I with op := .phi (incoming ++ [(r.2.getD v, new_b)]) } :: rest.2)
    | _ => (m, I :: Is)

def addIncomingTo (b new_b : BlockId) (st : Function × ReferenceMap) (successor : BlockId) :
    Function × ReferenceMap :=
  let r := addIncoming b new_b st.2 (st.1.block successor).insts
  (st.1.updateBlock successor fun BB => { BB with insts := r.2 }, r.1)

/-- `BasicBlock::Create(.., f)`. -/
def appendBlock (F : Function) (b : BlockId) (BB : BasicBlock) : Function :=
  { F with rest := F.rest ++ [b], block := fun x => if x = b then BB else F.block x }

def cloneInsts (F : Function) (BB : BasicBlock) : BasicBlock :=
  { BB with
    insts := BB.insts.map fun I => { I with id := F.cloneInst I.id }
    termId := F.cloneInst BB.termId }

/-- One block of `graph`; `F` is the function before the first. -/
def replicateBasicBlock (F : Function) (graph : List BlockId) (st : Function × ReferenceMap)
    (b : BlockId) : Function × ReferenceMap :=
  let new_b := F.cloneBlock b
  let BB := st.1.block b
  let m := BB.instIds.foldl (fun m i => m.insertValue i (some (F.cloneInst i)))
    (st.2.insertBlock b new_b)
  (BB.term.successors.filter (· ∉ graph)).foldl (addIncomingTo b new_b)
    (appendBlock st.1 new_b (cloneInsts F BB), m)

def replicateBasicBlocks (F : Function) (graph : List BlockId) : Function × ReferenceMap :=
  graph.foldl (replicateBasicBlock F graph) (F, .empty)

def updateReferences (F : Function) (graph : List BlockId) (m : ReferenceMap) : Function :=
  graph.foldl (fun F b => F.updateBlock b (remapBlock m)) F

def replicateSubgraph (F : Function) (entry : BlockId) : Function × BlockId :=
  let subgraph := findSubgraph F entry
  let r := replicateBasicBlocks F subgraph
  (updateReferences r.1 (subgraph.map F.cloneBlock) r.2, r.2.mapBlock entry)

def setSuccessor (F : Function) (s : BlockId) (i : Nat) (b : BlockId) : Function :=
  F.updateBlock s fun BB => { BB with term := BB.term.setSuccessor i b }

structure State where
  F : Function
  processed_bbs : List BlockId
  changed : Bool

/-- One successor of `subgraph_entry`; the dominator tree is up to date at every query. -/
def joinedSuccessor (recurse : BlockId → State → Option State) (dominator subgraph_entry : BlockId)
    (st : State) (i : Nat) : Option State :=
  match (st.F.succs subgraph_entry)[i]? with
  | none => some st
  | some b =>
    if b ∈ st.processed_bbs then some st
    else if st.F.dominates b subgraph_entry then some st
    else if st.F.dominates dominator b then recurse b st
    else
      let r := replicateSubgraph st.F b
      some { st with F := setSuccessor r.1 subgraph_entry i r.2, changed := true }

/-- `none` where the assertion fails or the fuel runs out. -/
def replicateJoinedSubgraphs (dominator : BlockId) : Nat → BlockId → State → Option State
  | 0, _, _ => none
  | n + 1, subgraph_entry, st =>
    if st.F.dominates dominator subgraph_entry then
      ((List.range (st.F.succs subgraph_entry).length).foldlM
        (joinedSuccessor (replicateJoinedSubgraphs dominator n) dominator subgraph_entry) st).map
        fun st => { st with processed_bbs := subgraph_entry :: st.processed_bbs }
    else none

/-- The call for a block with a barrier, with a set of processed blocks of its own. -/
def replicateAt (fuel : Nat) (bb : BlockId) (st : State) : Option State :=
  if hasBarrier (st.F.block bb) then
    (replicateJoinedSubgraphs bb fuel bb { st with processed_bbs := [] }).map
      fun st' => { st' with processed_bbs := st.processed_bbs }
  else some st

def dfsSuccessor (recurse : BlockId → State → Option State) (bb : BlockId) (st : State) (i : Nat) :
    Option State :=
  match (st.F.succs bb)[i]? with
  | none => some st
  | some b => recurse b st

def findBarriersDFS (fuel : Nat) : Nat → BlockId → State → Option State
  | 0, _, _ => none
  | n + 1, bb, st =>
    if bb ∈ st.processed_bbs then some st
    else do
      let st ← replicateAt fuel bb { st with processed_bbs := bb :: st.processed_bbs }
      (List.range (st.F.succs bb).length).foldlM (dfsSuccessor (findBarriersDFS fuel n) bb) st

def processFunction (fuel : Nat) (F : Function) : Option State :=
  findBarriersDFS fuel fuel F.entry ⟨F, [], false⟩

end BarrierTailReplication

end VariOCL.IR
