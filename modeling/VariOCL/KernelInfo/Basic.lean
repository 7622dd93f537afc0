import Mathlib.Algebra.Ring.Nat
import Mathlib.Data.List.Infix

/-! `CL_KernelInfo`: what the metadata node `opencl.kernels` says of the kernels of a module,
gathered into one vector for each kind of information. -/

namespace VariOCL.KernelInfo

/-! ### Modules as the reader sees them -/

inductive Ty
  | pointer (addressSpace : Nat) (element : Ty)
  | other (name : String)
  deriving DecidableEq

/-- The allocas are those of the whole body, each by its name and its alignment. -/
structure KernelFunction where
  name : String
  argTypes : List Ty
  allocas : List (String × Nat)

/-- An operand of a metadata node; only a string has a name. -/
inductive MDValue
  | string (s : String)
  | constantInt (n : Nat)
  | other
  deriving DecidableEq

def MDValue.name : MDValue → String
  | string s => s
  | _ => ""

structure MDNode where
  operands : List MDValue

/-- An operand of `opencl.kernels`: the kernel, and the nodes with information about it. -/
structure KernelNode where
  kernel : KernelFunction
  nodes : List MDNode

inductive Failure
  | outOfRange
  | nullConstant
  deriving DecidableEq

def MDNode.operand (N : MDNode) (i : Nat) : Except Failure MDValue :=
  match N.operands[i]? with
  | some v => .ok v
  | none => .error .outOfRange

/-- `dyn_cast<ConstantInt>(V)->getZExtValue()` -/
def MDValue.zExtValue : MDValue → Except Failure Nat
  | constantInt n => .ok n
  | _ => .error .nullConstant

/-! ### The reader -/

structure CLKernelInfo where
  clKernelNum : Nat
  kernelNames : List String := []
  kernelNumArgs : List Nat := []
  attrNames : List String := []
  wkgpSizeHints : List (List Nat) := []
  reqdWkgpSizes : List (List Nat) := []
  localMemSizes : List Nat := []
  privMemSizes : List Nat := []
  addrQualifier : List String := []
  accessQualifier : List String := []
  argTypeNames : List String := []
  argTypeQual : List Nat := []
  argNames : List String := []
  kernelDims : List Nat := []
  kernelArgTypes : List (List Ty) := []

/-- `SOCL_ADDR_QUAL` -/
def soclAddrQual : List String := ["0", "3", "2", "1"]

def addrQual (v : MDValue) : Except Failure String := do
  let c ← v.zExtValue
  match soclAddrQual[c]? with
  | some q => pure q
  | none => .error .outOfRange

def accessQual (v : MDValue) : String :=
  if v.name = "read_only" then "3"
  else if v.name = "write_only" then "2"
  else if v.name = "read_write" then "1"
  else "0"

/-- `s.find(word) != std::string::npos` -/
def hasWord (s word : String) : Bool := decide (word.toList <:+: s.toList)

def typeQual (v : MDValue) : Nat :=
  (if hasWord v.name "const" then 1 else 0) + (if hasWord v.name "restrict" then 2 else 0) +
    (if hasWord v.name "volatile" then 4 else 0)

/-- The loop over the operands `1 .. n`. -/
def readArgs {α : Type} (info : MDNode) (n : Nat) (f : MDValue → Except Failure α) :
    Except Failure (List α) :=
  if n < info.operands.length then (info.operands.tail.take n).mapM f else .error .outOfRange

namespace CLKernelInfo

/-- `kernel_num_args.at(nk)` -/
def numArgsAt (self : CLKernelInfo) (nk : Nat) : Except Failure Nat :=
  match self.kernelNumArgs[nk]? with
  | some n => .ok n
  | none => .error .outOfRange

/-- `v.back() = x` -/
def setBack {α : Type} (v : List α) (x : α) : List α := v.dropLast ++ [x]

def asUnsigned (n : Nat) : Nat := n % 2 ^ 32

/-- `__attribute__((name(first,second,third)))` -/
def sizeAttribute (name : String) (first second third : Nat) : String :=
  "__attribute__((" ++ name ++ "(" ++ toString first ++ "," ++ toString second ++ "," ++
    toString third ++ ")))"

def readAddrSpace (nk : Nat) (info : MDNode) (self : CLKernelInfo) :
    Except Failure CLKernelInfo := do
  let self := { self with kernelNumArgs := self.kernelNumArgs ++ [info.operands.length - 1] }
  let n ← self.numArgsAt nk
  let qs ← readArgs info n addrQual
  pure { self with addrQualifier := self.addrQualifier ++ [String.join qs] }

def readAccessQual (nk : Nat) (info : MDNode) (self : CLKernelInfo) :
    Except Failure CLKernelInfo := do
  let n ← self.numArgsAt nk
  let qs ← readArgs info n fun v => pure (accessQual v)
  pure { self with accessQualifier := self.accessQualifier ++ [String.join qs] }

def readArgType (nk : Nat) (info : MDNode) (self : CLKernelInfo) :
    Except Failure CLKernelInfo := do
  let n ← self.numArgsAt nk
  let names ← readArgs info n fun v => pure v.name
  pure { self with argTypeNames := self.argTypeNames ++ names }

def readArgTypeQual (nk : Nat) (info : MDNode) (self : CLKernelInfo) :
    Except Failure CLKernelInfo := do
  let n ← self.numArgsAt nk
  let qs ← readArgs info n fun v => pure (typeQual v)
  pure { self with argTypeQual := self.argTypeQual ++ qs }

def readArgName (nk : Nat) (info : MDNode) (self : CLKernelInfo) :
    Except Failure CLKernelInfo := do
  let n ← self.numArgsAt nk
  let names ← readArgs info n fun v => pure v.name
  pure { self with argNames := self.argNames ++ names }

/-- An attribute that is none of the three leaves everything as it is. -/
def readAttribute (infoName : String) (info : MDNode) (self : CLKernelInfo) :
    Except Failure CLKernelInfo :=
  if infoName = "vec_type_hint" then
    .ok { self with
      attrNames := setBack self.attrNames "__attribute__((vec_type_hint(vectype)))" }
  else do
    let first ← asUnsigned <$> ((← info.operand 1).zExtValue)
    let second ← asUnsigned <$> ((← info.operand 2).zExtValue)
    let third ← asUnsigned <$> ((← info.operand 3).zExtValue)
    if infoName = "work_group_size_hint" then
      pure { self with
        wkgpSizeHints := setBack self.wkgpSizeHints [first, second, third]
        attrNames := setBack self.attrNames (sizeAttribute infoName first second third) }
    else if infoName = "reqd_work_group_size" then
      pure { self with
        reqdWkgpSizes := setBack self.reqdWkgpSizes [first, second, third]
        attrNames := setBack self.attrNames (sizeAttribute infoName first second third) }
    else pure self

/-- The body of the loop over the metadata of kernel `nk`. -/
def readNode (nk : Nat) (self : CLKernelInfo) (info : MDNode) : Except Failure CLKernelInfo := do
  let infoName := (← info.operand 0).name
  if infoName = "kernel_arg_addr_space" then self.readAddrSpace nk info
  else if infoName = "kernel_arg_access_qual" then self.readAccessQual nk info
  else if infoName = "kernel_arg_type" then self.readArgType nk info
  else if infoName = "kernel_arg_type_qual" then self.readArgTypeQual nk info
  else if infoName = "kernel_arg_name" then self.readArgName nk info
  else self.readAttribute infoName info

/-- The address space of a pointer is left out. -/
def unqualified : Ty → Ty
  | .pointer _ element => .pointer 0 element
  | ty => ty

/-- The alignments of the allocas that are not for an argument. -/
def privSize (f : KernelFunction) : Nat :=
  ((f.allocas.filter fun AI => !".addr".toList.isSuffixOf AI.1.toList).map Prod.snd).sum

/-- What is pushed once for each kernel, before its metadata is read and after it. -/
def beginKernel (self : CLKernelInfo) (f : KernelFunction) : CLKernelInfo :=
  { self with
    kernelArgTypes := self.kernelArgTypes ++ [f.argTypes.map unqualified]
    kernelNames := self.kernelNames ++ [f.name]
    wkgpSizeHints := self.wkgpSizeHints ++ [[0, 0, 0]]
    reqdWkgpSizes := self.reqdWkgpSizes ++ [[0, 0, 0]]
    attrNames := self.attrNames ++ [""] }

def endKernel (self : CLKernelInfo) (f : KernelFunction) : CLKernelInfo :=
  { self with
    localMemSizes := self.localMemSizes ++ [0]
    privMemSizes := self.privMemSizes ++ [privSize f]
    kernelDims := self.kernelDims ++ [3] }

def readKernel (self : CLKernelInfo) (nk : Nat) (N : KernelNode) : Except Failure CLKernelInfo := do
  let self ← N.nodes.foldlM (readNode nk) (self.beginKernel N.kernel)
  pure (self.endKernel N.kernel)

def readKernels (self : CLKernelInfo) : Nat → List KernelNode → Except Failure CLKernelInfo
  | _, [] => .ok self
  | nk, N :: Ns => do
    let self ← self.readKernel nk N
    self.readKernels (nk + 1) Ns

/-- `CL_KernelInfo::CL_KernelInfo` on the operands of `opencl.kernels`. -/
def ofKernels (oclKernelmd : List KernelNode) : Except Failure CLKernelInfo :=
  readKernels { clKernelNum := oclKernelmd.length } 0 oclKernelmd

end CLKernelInfo

end VariOCL.KernelInfo
