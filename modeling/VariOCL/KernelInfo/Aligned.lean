import VariOCL.KernelInfo.Basic
import VariOCL.Sim.Loop
import Mathlib.Data.List.Basic

/-! For which kernels the vectors of `CL_KernelInfo` have one entry each, in the order of the
kernels. -/

namespace VariOCL.KernelInfo

/-! ### The metadata of a kernel -/

structure Arg where
  ty : Ty
  addressSpace : Nat
  accessQual : String
  typeName : String
  typeQual : String
  name : String

/-- The nodes about the arguments, in the order they are written in. -/
inductive ArgInfo
  | addrSpace
  | accessQual
  | type
  | typeQual
  | name
  deriving DecidableEq

def ArgInfo.all : List ArgInfo := [addrSpace, accessQual, type, typeQual, name]

def ArgInfo.infoName : ArgInfo → String
  | addrSpace => "kernel_arg_addr_space"
  | accessQual => "kernel_arg_access_qual"
  | type => "kernel_arg_type"
  | typeQual => "kernel_arg_type_qual"
  | name => "kernel_arg_name"

def ArgInfo.operand : ArgInfo → Arg → MDValue
  | addrSpace, a => .constantInt a.addressSpace
  | accessQual, a => .string a.accessQual
  | type, a => .string a.typeName
  | typeQual, a => .string a.typeQual
  | name, a => .string a.name

def ArgInfo.node (info : ArgInfo) (args : List Arg) : MDNode :=
  ⟨.string info.infoName :: args.map info.operand⟩

inductive Attribute
  | vecTypeHint
  | workGroupSizeHint (x y z : Nat)
  | reqdWorkGroupSize (x y z : Nat)

def Attribute.node : Attribute → MDNode
  | vecTypeHint => ⟨[.string "vec_type_hint", .other, .constantInt 1]⟩
  | workGroupSizeHint x y z =>
    ⟨[.string "work_group_size_hint", .constantInt x, .constantInt y, .constantInt z]⟩
  | reqdWorkGroupSize x y z =>
    ⟨[.string "reqd_work_group_size", .constantInt x, .constantInt y, .constantInt z]⟩

/-- A kernel with any of the nodes about its arguments and any attributes. -/
structure Kernel where
  name : String
  args : List Arg
  allocas : List (String × Nat)
  carries : ArgInfo → Bool
  attributes : List Attribute

def Kernel.node (k : Kernel) : KernelNode where
  kernel := ⟨k.name, k.args.map Arg.ty, k.allocas⟩
  nodes := (ArgInfo.all.filter k.carries).map (·.node k.args) ++ k.attributes.map Attribute.node

/-! ### What the entries describe -/

open CLKernelInfo (asUnsigned sizeAttribute setBack)

def Attribute.text : Attribute → String
  | vecTypeHint => "__attribute__((vec_type_hint(vectype)))"
  | workGroupSizeHint x y z =>
    sizeAttribute "work_group_size_hint" (asUnsigned x) (asUnsigned y) (asUnsigned z)
  | reqdWorkGroupSize x y z =>
    sizeAttribute "reqd_work_group_size" (asUnsigned x) (asUnsigned y) (asUnsigned z)

def Attribute.sizeHint? : Attribute → Option (List Nat)
  | workGroupSizeHint x y z => some [asUnsigned x, asUnsigned y, asUnsigned z]
  | _ => none

def Attribute.reqdSize? : Attribute → Option (List Nat)
  | reqdWorkGroupSize x y z => some [asUnsigned x, asUnsigned y, asUnsigned z]
  | _ => none

/-- Of several attributes of one kind the last one counts. -/
def Kernel.attrName (k : Kernel) : String := (k.attributes.getLast?.map Attribute.text).getD ""

def Kernel.wkgpSizeHint (k : Kernel) : List Nat :=
  (k.attributes.filterMap Attribute.sizeHint?).getLast?.getD [0, 0, 0]

def Kernel.reqdWkgpSize (k : Kernel) : List Nat :=
  (k.attributes.filterMap Attribute.reqdSize?).getLast?.getD [0, 0, 0]

def Kernel.addrQualifier (k : Kernel) : String :=
  String.join (k.args.map fun a => soclAddrQual.getD a.addressSpace "")

def Kernel.accessQualifier (k : Kernel) : String :=
  String.join (k.args.map fun a => accessQual (.string a.accessQual))

/-- Each vector has one entry for each kernel, the one that describes it. -/
structure Aligned (ks : List Kernel) (info : CLKernelInfo) : Prop where
  kernelNames : info.kernelNames = ks.map Kernel.name
  kernelNumArgs : info.kernelNumArgs = ks.map (·.args.length)
  attrNames : info.attrNames = ks.map Kernel.attrName
  wkgpSizeHints : info.wkgpSizeHints = ks.map Kernel.wkgpSizeHint
  reqdWkgpSizes : info.reqdWkgpSizes = ks.map Kernel.reqdWkgpSize
  addrQualifier : info.addrQualifier = ks.map Kernel.addrQualifier
  accessQualifier : info.accessQualifier = ks.map Kernel.accessQualifier

/-! ### One node -/

namespace CLKernelInfo

/-- What the nodes about the arguments add, once the number of arguments is known. -/
def addArgInfo (args : List Arg) (self : CLKernelInfo) : ArgInfo → CLKernelInfo
  | .addrSpace => self
  | .accessQual => { self with
      accessQualifier := self.accessQualifier ++
        [String.join (args.map fun a => VariOCL.KernelInfo.accessQual (.string a.accessQual))] }
  | .type => { self with argTypeNames := self.argTypeNames ++ args.map Arg.typeName }
  | .typeQual => { self with
      argTypeQual := self.argTypeQual ++
        args.map fun a => VariOCL.KernelInfo.typeQual (.string a.typeQual) }
  | .name => { self with argNames := self.argNames ++ args.map Arg.name }

def addAttribute (self : CLKernelInfo) : Attribute → CLKernelInfo
  | .vecTypeHint => { self with attrNames := setBack self.attrNames Attribute.vecTypeHint.text }
  | .workGroupSizeHint x y z => { self with
      wkgpSizeHints := setBack self.wkgpSizeHints [asUnsigned x, asUnsigned y, asUnsigned z]
      attrNames := setBack self.attrNames (Attribute.workGroupSizeHint x y z).text }
  | .reqdWorkGroupSize x y z => { self with
      reqdWkgpSizes := setBack self.reqdWkgpSizes [asUnsigned x, asUnsigned y, asUnsigned z]
      attrNames := setBack self.attrNames (Attribute.reqdWorkGroupSize x y z).text }

section
variable {self : CLKernelInfo} {nk : Nat} {args : List Arg}

theorem mapM_ok {α β : Type} {f : α → Except Failure β} {g : α → β} {l : List α}
    (h : ∀ a ∈ l, f a = .ok (g a)) : l.mapM f = .ok (l.map g) := by
  induction l with
  | nil => rfl
  | cons a l ih =>
    rw [List.mapM_cons, h a List.mem_cons_self, ih fun b hb => h b (List.mem_cons_of_mem a hb)]
    rfl

theorem readArgs_node {α : Type} (info : ArgInfo) (f : MDValue → Except Failure α) :
    readArgs (info.node args) args.length f = (args.map info.operand).mapM f := by
  have htake : (args.map info.operand).take args.length = args.map info.operand :=
    List.take_of_length_le (by simp)
  rw [readArgs, if_pos (by simp [ArgInfo.node])]
  exact congrArg (List.mapM f) htake

theorem readNode_argInfo {info : ArgInfo} (hinfo : info ≠ .addrSpace)
    (h : self.kernelNumArgs[nk]? = some args.length) :
    self.readNode nk (info.node args) = .ok (addArgInfo args self info) := by
  have hnum : self.numArgsAt nk = .ok args.length := by rw [numArgsAt, h]
  have hread : ∀ {α : Type} (f : MDValue → α),
      readArgs (info.node args) args.length (fun v => pure (f v)) =
        .ok (args.map fun a => f (info.operand a)) := by
    intro α f
    rw [readArgs_node, List.mapM_map]
    exact mapM_ok fun a _ => rfl
  cases info with
  | addrSpace => exact absurd rfl hinfo
  | accessQual =>
    change self.readAccessQual nk _ = _
    rw [readAccessQual, hnum]
    change (readArgs _ _ _).bind _ = _
    rw [hread]
    rfl
  | type =>
    change self.readArgType nk _ = _
    rw [readArgType, hnum]
    change (readArgs _ _ _).bind _ = _
    rw [hread]
    rfl
  | typeQual =>
    change self.readArgTypeQual nk _ = _
    rw [readArgTypeQual, hnum]
    change (readArgs _ _ _).bind _ = _
    rw [hread]
    rfl
  | name =>
    change self.readArgName nk _ = _
    rw [readArgName, hnum]
    change (readArgs _ _ _).bind _ = _
    rw [hread]
    rfl

theorem readNode_attribute (a : Attribute) :
    self.readNode nk a.node = .ok (self.addAttribute a) := by
  cases a <;> rfl

def addAddrSpace (args : List Arg) (self : CLKernelInfo) : CLKernelInfo :=
  { self with
    kernelNumArgs := self.kernelNumArgs ++ [args.length]
    addrQualifier := self.addrQualifier ++
      [String.join (args.map fun a => soclAddrQual.getD a.addressSpace "")] }

theorem addrQual_constantInt (c : Nat) :
    addrQual (.constantInt c) =
      if c < 4 then .ok (soclAddrQual.getD c "") else .error .outOfRange := by
  simp only [addrQual, MDValue.zExtValue, bind, Except.bind]
  cases hq : soclAddrQual[c]? with
  | some q =>
    have hlt : c < 4 := (List.getElem?_eq_some_iff.mp hq).1
    rw [if_pos hlt, List.getD_eq_getElem?_getD, hq]
    rfl
  | none => rw [if_neg (by simpa [soclAddrQual] using List.getElem?_eq_none_iff.mp hq)]

theorem mapM_error {α β : Type} {f : α → Except Failure β} {e : Failure} {l : List α}
    (hf : ∀ a ∈ l, (∃ b, f a = .ok b) ∨ f a = .error e) (h : ∃ a ∈ l, f a = .error e) :
    l.mapM f = .error e := by
  induction l with
  | nil => simp at h
  | cons a l ih =>
    rw [List.mapM_cons]
    rcases hf a List.mem_cons_self with ⟨b, hb⟩ | hb
    · obtain ⟨c, hc, herr⟩ := h
      rcases List.mem_cons.mp hc with rfl | hcl
      · rw [hb] at herr
        cases herr
      · rw [hb, ih (fun d hd => hf d (List.mem_cons_of_mem a hd)) ⟨c, hcl, herr⟩]
        rfl
    · rw [hb]
      rfl

/-- The node with the address spaces of kernel `nk`, when as many numbers of arguments are known. -/
theorem readNode_addrSpace (h : self.kernelNumArgs.length = nk) :
    self.readNode nk (ArgInfo.addrSpace.node args) =
      if ∀ a ∈ args, a.addressSpace < 4 then .ok (self.addAddrSpace args)
      else .error .outOfRange := by
  have hnum : ({ self with kernelNumArgs := self.kernelNumArgs ++ [args.length] } :
      CLKernelInfo).numArgsAt nk = .ok args.length := by
    rw [numArgsAt]
    simp [← h]
  have hlen : (ArgInfo.addrSpace.node args).operands.length - 1 = args.length := by
    simp [ArgInfo.node]
  change self.readAddrSpace nk _ = _
  rw [readAddrSpace, hlen, hnum]
  change (readArgs _ _ _).bind _ = _
  rw [readArgs_node, List.mapM_map]
  split
  · rename_i hall
    rw [mapM_ok (g := fun a => soclAddrQual.getD a.addressSpace "")]
    · rfl
    · exact fun a ha => (addrQual_constantInt _).trans (if_pos (hall a ha))
  · rename_i hnot
    push Not at hnot
    obtain ⟨a, ha, hbad⟩ := hnot
    rw [mapM_error (e := .outOfRange)]
    · rfl
    · intro b _
      by_cases hb : b.addressSpace < 4
      · exact .inl ⟨_, (addrQual_constantInt _).trans (if_pos hb)⟩
      · exact .inr ((addrQual_constantInt _).trans (if_neg hb))
    · exact ⟨a, ha, (addrQual_constantInt _).trans (if_neg (by omega))⟩

/-! ### One kernel -/

theorem foldlM_argInfos {infos : List ArgInfo} (hinfos : .addrSpace ∉ infos)
    (h : self.kernelNumArgs[nk]? = some args.length) :
    (infos.map (·.node args)).foldlM (readNode nk) self =
      .ok (infos.foldl (addArgInfo args) self) := by
  induction infos generalizing self with
  | nil => rfl
  | cons info infos ih =>
    rw [List.mem_cons, not_or] at hinfos
    have hkeep : (addArgInfo args self info).kernelNumArgs = self.kernelNumArgs := by
      cases info <;> rfl
    rw [List.map_cons, List.foldlM_cons, readNode_argInfo (Ne.symm hinfos.1) h]
    exact ih hinfos.2 (hkeep ▸ h)

theorem foldlM_attributes (as : List Attribute) :
    (as.map Attribute.node).foldlM (readNode nk) self = .ok (as.foldl addAttribute self) := by
  induction as generalizing self with
  | nil => rfl
  | cons a as ih =>
    rw [List.map_cons, List.foldlM_cons, readNode_attribute]
    exact ih

/-- The nodes after the one with the address spaces. -/
def laterInfos (k : Kernel) : List ArgInfo :=
  [ArgInfo.accessQual, .type, .typeQual, .name].filter k.carries

/-- What a kernel with known address spaces adds. -/
def addKernel (self : CLKernelInfo) (k : Kernel) : CLKernelInfo :=
  (k.attributes.foldl addAttribute ((laterInfos k).foldl (addArgInfo k.args)
    ((self.beginKernel k.node.kernel).addAddrSpace k.args))).endKernel k.node.kernel

theorem readKernel_eq {k : Kernel} (hk : k.carries .addrSpace = true)
    (h : self.kernelNumArgs.length = nk) :
    self.readKernel nk k.node =
      if ∀ a ∈ k.args, a.addressSpace < 4 then .ok (self.addKernel k) else .error .outOfRange := by
  have hnodes : k.node.nodes = ArgInfo.addrSpace.node k.args ::
      ((laterInfos k).map (·.node k.args) ++ k.attributes.map Attribute.node) := by
    rw [Kernel.node, ArgInfo.all, List.filter_cons_of_pos hk]
    rfl
  have hlen : (self.beginKernel k.node.kernel).kernelNumArgs.length = nk := h
  rw [readKernel, hnodes, List.foldlM_cons, readNode_addrSpace hlen]
  split
  · have hlater : ArgInfo.addrSpace ∉ laterInfos k := fun hmem => by
      have := (List.mem_filter.mp hmem).1
      simp at this
    have hnum : ((self.beginKernel k.node.kernel).addAddrSpace k.args).kernelNumArgs[nk]? =
        some k.args.length := by
      change (self.kernelNumArgs ++ [k.args.length])[nk]? = _
      simp [← h]
    change ((List.foldlM (readNode nk) _ _ : Except Failure CLKernelInfo).bind _) = _
    rw [List.foldlM_append, foldlM_argInfos hlater hnum]
    change (((k.attributes.map Attribute.node).foldlM (readNode nk) _).bind _) = _
    rw [foldlM_attributes]
    rfl
  · rfl

/-! ### The entries of one kernel -/

theorem foldl_addAttribute (as : List Attribute) :
    as.foldl addAttribute self = { self with
      attrNames := as.foldl (fun v a => setBack v a.text) self.attrNames
      wkgpSizeHints := (as.filterMap Attribute.sizeHint?).foldl setBack self.wkgpSizeHints
      reqdWkgpSizes := (as.filterMap Attribute.reqdSize?).foldl setBack self.reqdWkgpSizes } := by
  induction as generalizing self with
  | nil => rfl
  | cons a as ih =>
    rw [List.foldl_cons, ih]
    cases a <;> rfl

theorem foldl_setBack {α : Type} (v ys : List α) (x : α) :
    ys.foldl setBack (v ++ [x]) = v ++ [ys.getLast?.getD x] := by
  induction ys generalizing x with
  | nil => rfl
  | cons y ys ih =>
    have hset : setBack (v ++ [x]) y = v ++ [y] := by simp [setBack]
    rw [List.foldl_cons, hset, ih, List.getLast?_cons]
    rfl

theorem foldl_laterInfos (k : Kernel) :
    (laterInfos k).foldl (addArgInfo k.args) self = { self with
      accessQualifier := self.accessQualifier ++
        if k.carries .accessQual then [k.accessQualifier] else []
      argTypeNames := self.argTypeNames ++
        if k.carries .type then k.args.map Arg.typeName else []
      argTypeQual := self.argTypeQual ++ if k.carries .typeQual then
        k.args.map fun a => VariOCL.KernelInfo.typeQual (.string a.typeQual) else []
      argNames := self.argNames ++ if k.carries .name then k.args.map Arg.name else [] } := by
  have hfilter : laterInfos k = (if k.carries .accessQual then [ArgInfo.accessQual] else []) ++
      (if k.carries .type then [ArgInfo.type] else []) ++
      (if k.carries .typeQual then [ArgInfo.typeQual] else []) ++
      if k.carries .name then [ArgInfo.name] else [] := by
    simp only [laterInfos, List.filter_cons, List.filter_nil]
    split_ifs <;> rfl
  rw [hfilter]
  simp only [List.foldl_append]
  split_ifs <;> simp [addArgInfo, Kernel.accessQualifier]

/-- The entries of the kernels read so far, and those of one more. -/
theorem aligned_addKernel {ks : List Kernel} {k : Kernel} (h : Aligned ks self)
    (hk : k.carries .accessQual = true) : Aligned (ks ++ [k]) (self.addKernel k) := by
  rw [addKernel, foldl_laterInfos, foldl_addAttribute]
  constructor
  · change self.kernelNames ++ [k.name] = _
    rw [h.kernelNames, List.map_append]
    rfl
  · change self.kernelNumArgs ++ [k.args.length] = _
    rw [h.kernelNumArgs, List.map_append]
    rfl
  · change k.attributes.foldl (fun v a => setBack v a.text) (self.attrNames ++ [""]) = _
    have hfold := foldl_setBack self.attrNames (k.attributes.map Attribute.text) ""
    rw [List.foldl_map, List.getLast?_map] at hfold
    rw [hfold, h.attrNames, List.map_append]
    rfl
  · change (k.attributes.filterMap Attribute.sizeHint?).foldl setBack
      (self.wkgpSizeHints ++ [[0, 0, 0]]) = _
    rw [foldl_setBack, h.wkgpSizeHints, List.map_append]
    rfl
  · change (k.attributes.filterMap Attribute.reqdSize?).foldl setBack
      (self.reqdWkgpSizes ++ [[0, 0, 0]]) = _
    rw [foldl_setBack, h.reqdWkgpSizes, List.map_append]
    rfl
  · change self.addrQualifier ++ [k.addrQualifier] = _
    rw [h.addrQualifier, List.map_append]
    rfl
  · change self.accessQualifier ++ (if k.carries .accessQual then [k.accessQualifier] else []) = _
    rw [if_pos hk, h.accessQualifier, List.map_append]
    rfl

/-! ### How many entries -/

/-- A vector of numbers of arguments or of access qualifiers grows by one for each node that has
them. -/
theorem readNode_lengths {self' : CLKernelInfo} {info : ArgInfo}
    (h : self.readNode nk (info.node args) = .ok self') :
    self'.kernelNumArgs.length = self.kernelNumArgs.length + (if info = .addrSpace then 1 else 0) ∧
      self'.accessQualifier.length =
        self.accessQualifier.length + if info = .accessQual then 1 else 0 := by
  cases info with
  | addrSpace =>
    obtain ⟨n, -, h⟩ := Sim.bind_eq_ok.mp (show (self.readAddrSpace nk _) = _ from h)
    obtain ⟨qs, -, h⟩ := Sim.bind_eq_ok.mp h
    cases h
    simp
  | accessQual =>
    obtain ⟨n, -, h⟩ := Sim.bind_eq_ok.mp (show (self.readAccessQual nk _) = _ from h)
    obtain ⟨qs, -, h⟩ := Sim.bind_eq_ok.mp h
    cases h
    simp
  | type =>
    obtain ⟨n, -, h⟩ := Sim.bind_eq_ok.mp (show (self.readArgType nk _) = _ from h)
    obtain ⟨qs, -, h⟩ := Sim.bind_eq_ok.mp h
    cases h
    simp
  | typeQual =>
    obtain ⟨n, -, h⟩ := Sim.bind_eq_ok.mp (show (self.readArgTypeQual nk _) = _ from h)
    obtain ⟨qs, -, h⟩ := Sim.bind_eq_ok.mp h
    cases h
    simp
  | name =>
    obtain ⟨n, -, h⟩ := Sim.bind_eq_ok.mp (show (self.readArgName nk _) = _ from h)
    obtain ⟨qs, -, h⟩ := Sim.bind_eq_ok.mp h
    cases h
    simp

theorem foldlM_lengths {self' : CLKernelInfo} {infos : List ArgInfo}
    (h : (infos.map (·.node args)).foldlM (readNode nk) self = .ok self') :
    self'.kernelNumArgs.length = self.kernelNumArgs.length + infos.count .addrSpace ∧
      self'.accessQualifier.length = self.accessQualifier.length + infos.count .accessQual := by
  induction infos generalizing self with
  | nil =>
    cases h
    simp
  | cons info infos ih =>
    rw [List.map_cons, List.foldlM_cons] at h
    obtain ⟨mid, hmid, h⟩ := Sim.bind_eq_ok.mp h
    obtain ⟨hnum, hqual⟩ := readNode_lengths hmid
    obtain ⟨hnum', hqual'⟩ := ih h
    rw [List.count_cons, List.count_cons, hnum', hqual', hnum, hqual]
    simp only [beq_iff_eq]
    omega

theorem readKernel_lengths {self' : CLKernelInfo} {k : Kernel}
    (h : self.readKernel nk k.node = .ok self') :
    self'.kernelNumArgs.length =
        self.kernelNumArgs.length + (if k.carries .addrSpace then 1 else 0) ∧
      self'.accessQualifier.length =
        self.accessQualifier.length + if k.carries .accessQual then 1 else 0 := by
  obtain ⟨mid, hmid, h⟩ := Sim.bind_eq_ok.mp h
  cases h
  rw [Kernel.node, List.foldlM_append] at hmid
  obtain ⟨mid', hmid', hattr⟩ := Sim.bind_eq_ok.mp hmid
  rw [foldlM_attributes, foldl_addAttribute] at hattr
  cases hattr
  have hcount : ∀ info ∈ ArgInfo.all,
      (ArgInfo.all.filter k.carries).count info = if k.carries info then 1 else 0 := by
    intro info hinfo
    split
    · rw [List.count_filter ‹_›]
      cases info <;> rfl
    · exact List.count_eq_zero.mpr fun hmem => ‹¬ _› (List.mem_filter.mp hmem).2
  obtain ⟨hnum, hqual⟩ := foldlM_lengths hmid'
  rw [hcount _ (by decide)] at hnum hqual
  exact ⟨hnum, hqual⟩

/-! ### All kernels -/

theorem readKernels_lengths {self' : CLKernelInfo} {ks : List Kernel}
    (h : self.readKernels nk (ks.map Kernel.node) = .ok self') :
    self'.kernelNumArgs.length = self.kernelNumArgs.length + ks.countP (·.carries .addrSpace) ∧
      self'.accessQualifier.length =
        self.accessQualifier.length + ks.countP (·.carries .accessQual) := by
  induction ks generalizing self nk with
  | nil =>
    cases h
    simp
  | cons k ks ih =>
    obtain ⟨mid, hmid, h⟩ := Sim.bind_eq_ok.mp h
    obtain ⟨hnum, hqual⟩ := readKernel_lengths hmid
    obtain ⟨hnum', hqual'⟩ := ih h
    rw [List.countP_cons, List.countP_cons, hnum', hqual', hnum, hqual]
    omega

theorem readKernels_aligned {ks ks' : List Kernel} (h : Aligned ks' self)
    (hks : ∀ k ∈ ks, k.carries .addrSpace ∧ k.carries .accessQual ∧
      ∀ a ∈ k.args, a.addressSpace < 4) :
    ∃ self', self.readKernels ks'.length (ks.map Kernel.node) = .ok self' ∧
      self'.clKernelNum = self.clKernelNum ∧ Aligned (ks' ++ ks) self' := by
  induction ks generalizing self ks' with
  | nil => exact ⟨self, rfl, rfl, by rwa [List.append_nil]⟩
  | cons k ks ih =>
    obtain ⟨⟨haddr, hqual, hspaces⟩, hks⟩ := List.forall_mem_cons.mp hks
    have hlen : self.kernelNumArgs.length = ks'.length := by rw [h.kernelNumArgs, List.length_map]
    obtain ⟨self', hread, hnum, halign⟩ := ih (aligned_addKernel h hqual) hks
    refine ⟨self', ?_, hnum.trans ?_, by rwa [List.append_assoc] at halign⟩
    · rw [List.map_cons, readKernels, readKernel_eq haddr hlen, if_pos hspaces]
      rw [List.length_append] at hread
      exact hread
    · rw [addKernel, foldl_laterInfos, foldl_addAttribute]
      rfl

/-- An address space without a qualifier is an access outside the table. -/
theorem addressSpace_lt {self' : CLKernelInfo} {ks : List Kernel}
    (h : self.readKernels nk (ks.map Kernel.node) = .ok self')
    (hlen : self.kernelNumArgs.length = nk) (hks : ∀ k ∈ ks, k.carries .addrSpace) :
    ∀ k ∈ ks, ∀ a ∈ k.args, a.addressSpace < 4 := by
  induction ks generalizing self nk with
  | nil => exact nofun
  | cons k ks ih =>
    obtain ⟨hk, hks⟩ := List.forall_mem_cons.mp hks
    obtain ⟨mid, hmid, h⟩ := Sim.bind_eq_ok.mp h
    have hmid' := readKernel_lengths hmid
    rw [readKernel_eq hk hlen] at hmid
    split at hmid
    · refine List.forall_mem_cons.mpr ⟨‹_›, ih h ?_ hks⟩
      rw [hmid'.1, hlen, if_pos hk]
    · cases hmid

/-- The constructor finishes with aligned vectors if and only if every kernel has a node with
address spaces, all of them known, and one with access qualifiers. -/
theorem ofKernels_aligned_iff (ks : List Kernel) :
    (∃ info, ofKernels (ks.map Kernel.node) = .ok info ∧ info.clKernelNum = ks.length ∧
        Aligned ks info) ↔
      ∀ k ∈ ks, k.carries .addrSpace ∧ k.carries .accessQual ∧
        ∀ a ∈ k.args, a.addressSpace < 4 := by
  constructor
  · rintro ⟨info, hinfo, -, halign⟩
    obtain ⟨hnum, hqual⟩ := readKernels_lengths hinfo
    rw [halign.kernelNumArgs, List.length_map, List.length_nil, Nat.zero_add] at hnum
    rw [halign.accessQualifier, List.length_map, List.length_nil, Nat.zero_add] at hqual
    have haddr := List.countP_eq_length.mp hnum.symm
    have hspaces := addressSpace_lt hinfo rfl haddr
    exact fun k hk => ⟨haddr k hk, List.countP_eq_length.mp hqual.symm k hk, hspaces k hk⟩
  · intro hks
    have hnil : Aligned [] { clKernelNum := (ks.map Kernel.node).length } :=
      ⟨rfl, rfl, rfl, rfl, rfl, rfl, rfl⟩
    obtain ⟨info, hinfo, hnum, halign⟩ := readKernels_aligned hnil hks
    exact ⟨info, hinfo, hnum.trans (List.length_map _), halign⟩

/-- `matrixMul` of mm.b.ll, which has no node but itself. -/
def matrixMul : Kernel where
  name := "matrixMul"
  args :=
    ["C", "A", "B"].map (fun name => ⟨.pointer 0 (.other "i32"), 1, "none", "int*", "", name⟩) ++
      ["wA", "wB"].map fun name => ⟨.other "i32", 0, "none", "int", "", name⟩
  allocas := []
  carries := fun _ => false
  attributes := []

theorem ofKernels_matrixMul :
    ¬ ∀ ks : List Kernel, (∀ k ∈ ks, ∀ a ∈ k.args, a.addressSpace < 4) →
      ∃ info, ofKernels (ks.map Kernel.node) = .ok info ∧ info.clKernelNum = ks.length ∧
        Aligned ks info := by
  intro h
  obtain ⟨info, hinfo, -, halign⟩ := h [matrixMul] (by decide)
  cases hinfo
  exact absurd halign.kernelNumArgs (by decide)

end

end CLKernelInfo

end VariOCL.KernelInfo
