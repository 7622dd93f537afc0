import VariOCL.LoopInserter.ReplaceIds

/-! `CondBarrier::expandGetGlobalID`: global ids are computed from local ids. -/

namespace VariOCL.IR.LoopInserter

def builtinCall (i : InstId) (name : String) (arg : Value) : Instruction :=
  ⟨i, .int 32, .call (some name) [arg]⟩

def binary (i : InstId) (opcode : String) (a b : InstId) : Instruction :=
  ⟨i, .int 32, .other opcode [.inst a, .inst b]⟩

/-- The argument of a call to `get_global_id`. -/
def get_global_id_arg (I : Instruction) : Option Value :=
  match I.op with
  | .call (some name) (arg :: _) => if name = "get_global_id" then some arg else none
  | _ => none

/-- The last of the instructions is `the_repl`. -/
def globalIdExpansion (n : InstId) (arg : Value) : List Instruction :=
  [builtinCall n "get_local_size" arg, builtinCall (n + 1) "get_group_id" arg,
    builtinCall (n + 2) "get_local_id" arg, builtinCall (n + 3) "get_global_offset" arg,
    binary (n + 4) "mul" n (n + 1), binary (n + 5) "add" (n + 4) (n + 2),
    binary (n + 6) "add" (n + 5) (n + 3)]

structure Expansion where
  F : Function
  CallsToErase : List InstId

/-- What the loop does at the call `a_call` of block `BB`. -/
def expandCall (s : Expansion) (p : BlockId × InstId) : Expansion :=
  match ((s.F.block p.1).find p.2).bind get_global_id_arg with
  | none => s
  | some arg =>
    let the_repl := .inst (s.F.freshInst + 6)
    let F' := s.F.updateBlock p.1
      (BasicBlock.insertAllBefore p.2 (globalIdExpansion s.F.freshInst arg))
    match onlyTrunc F' p.2 with
    | some TI => ⟨F'.replaceAllUsesWith TI the_repl, s.CallsToErase ++ [TI, p.2]⟩
    | none => ⟨F'.replaceAllUsesWith p.2 the_repl, s.CallsToErase ++ [p.2]⟩

def globalIdCalls (F : Function) : List (BlockId × InstId) :=
  F.layout.flatMap fun b =>
    ((F.block b).insts.filter fun I => (get_global_id_arg I).isSome).map fun I => (b, I.id)

def expandGetGlobalID (F : Function) : Function :=
  let s := (globalIdCalls F).foldl expandCall ⟨F, []⟩
  s.F.eraseInsts s.CallsToErase

end VariOCL.IR.LoopInserter
