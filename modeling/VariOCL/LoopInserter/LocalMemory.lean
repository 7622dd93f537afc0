import VariOCL.IR.Uses
import Mathlib.Data.List.Infix

/-! Privatising local memory: `CondBarrier::runOnFunction` turns the module's globals it takes for
local variables of the kernel into allocas of the kernel.  An operand that mentions a global inside
a constant expression is no instruction operand of the global and is a constant of its own here. -/

namespace VariOCL.IR

structure Global where
  name : String
  ty : Ty
  deriving DecidableEq

structure Module where
  globals : List Global
  functions : List Function

def Module.freshInst (M : Module) : InstId := (M.functions.map Function.freshInst).foldr max 0

/-- `std::string::find`. -/
def stringFind (s sub : String) : Option Nat :=
  s.toList.tails.findIdx? fun rest => sub.toList.isPrefixOf rest

def Value.replaceGlobal (g : String) (AI : InstId) (v : Value) : Value :=
  if v = .global g then .inst AI else v

/-- `CreateAlloca(GlobalType, 0)`. -/
def allocaInst (AI : InstId) (GlobalType : Ty) : Instruction :=
  ⟨AI, .ptr, .alloca GlobalType (.constInt 32 1)⟩

namespace LoopInserter

def createAllocaAtEntry (F : Function) (AI : InstId) (GlobalType : Ty) : Function :=
  F.updateBlock F.entry (BasicBlock.insertAtFirstNonPHI (allocaInst AI GlobalType))

/-- What becomes of function `G` when the global `GV` becomes the alloca `AI` of the kernel; the
users are those of the whole module. -/
def privatizeIn (FnName : String) (GV : Global) (AI : InstId) (G : Function) : Function :=
  (if G.name = FnName then createAllocaAtEntry G AI GV.ty else G).mapValues
    (Value.replaceGlobal GV.name AI)

def privatizeGlobal (FnName : String) (M : Module) (GV : Global) : Module :=
  if (stringFind GV.name FnName).isSome then
    { M with functions := M.functions.map (privatizeIn FnName GV M.freshInst) }
  else M

def privatizeLocals (FnName : String) (M : Module) : Module :=
  M.globals.foldl (privatizeGlobal FnName) M

def kernels (KernelNames : List String) (M : Module) : List String :=
  (M.functions.map Function.name).filter fun fnm => KernelNames.contains fnm

/-- `IPLooper::runOnModule`, as far as it touches local memory. -/
def privatizeKernels (KernelNames : List String) (M : Module) : Module :=
  (kernels KernelNames M).foldl (fun M FnName => privatizeLocals FnName M) M

/-! ### What a kernel owns -/

def isIdentifier (v : List Char) : Bool := !v.isEmpty && v.all fun c => c.isAlphanum || c == '_'

/-- The global is named `k.v` for a variable `v`. -/
def owns (k g : String) : Bool :=
  k.toList.isPrefixOf g.toList &&
    match g.toList.drop k.toList.length with
    | c :: v => c == '.' && isIdentifier v
    | [] => false

def Mentions (k : String) (GV : Global) : Bool := (stringFind GV.name k).isSome

theorem mentions_iff {k : String} {GV : Global} :
    Mentions k GV = true ↔ k.toList <:+: GV.name.toList := by
  simp only [Mentions, stringFind, List.findIdx?_isSome, List.any_eq_true, List.mem_tails,
    List.isPrefixOf_iff_prefix, List.infix_iff_prefix_suffix]
  exact exists_congr fun s => and_comm

theorem mentions_of_owns {k : String} {GV : Global} (h : owns k GV.name = true) :
    Mentions k GV = true := by
  rw [owns, Bool.and_eq_true] at h
  exact mentions_iff.mpr (List.isPrefixOf_iff_prefix.mp h.1).isInfix

end LoopInserter

/-! ### A function with some globals privatised -/

abbrev Slots := List (Global × InstId)

def Value.privatized (slots : Slots) : Value → Value
  | .global g => ((slots.find? fun s => s.1.name = g).map fun s => .inst s.2).getD (.global g)
  | v => v

/-- Later allocas come first. -/
def Slots.allocas (slots : Slots) : List Instruction :=
  (slots.map fun s => allocaInst s.2 s.1.ty).reverse

def BasicBlock.withAllocas (slots : Slots) (BB : BasicBlock) : BasicBlock :=
  { BB with insts := BB.insts.takeWhile (·.op.isPhi) ++ slots.allocas ++
      BB.insts.dropWhile (·.op.isPhi) }

/-- The body of the kernel that got the allocas. -/
def Function.privatized (F : Function) (slots : Slots) : Function :=
  (F.updateBlock F.entry (BasicBlock.withAllocas slots)).mapValues (Value.privatized slots)

def Function.uses (F : Function) (v : Value) : Bool :=
  F.layout.any fun b => (F.block b).values.contains v

structure Function.SameCode (F G : Function) : Prop where
  name : F.name = G.name
  entry : F.entry = G.entry
  rest : F.rest = G.rest
  block : ∀ b ∈ F.layout, F.block b = G.block b

section
variable {k : String} {slots : Slots} {GV : Global} {AI : InstId} {F G : Function} {v : Value}
  {I : Instruction} {BB : BasicBlock} {f : Value → Value}

theorem Value.privatized_append :
    (v.privatized slots).replaceGlobal GV.name AI = v.privatized (slots ++ [(GV, AI)]) := by
  cases v with
  | global g =>
    simp only [Value.privatized, List.find?_append]
    cases slots.find? fun s => s.1.name = g with
    | some s => simp [Value.replaceGlobal]
    | none =>
      by_cases hg : GV.name = g
      · simp [Value.replaceGlobal, hg]
      · simp [Value.replaceGlobal, hg, Ne.symm hg]
  | _ => simp [Value.privatized, Value.replaceGlobal]

theorem allocaInst_mapValues {ty : Ty} :
    (allocaInst AI ty).mapValues (Value.privatized slots) = allocaInst AI ty := rfl

theorem BasicBlock.insertAtFirstNonPHI_mapValues (h : I.mapValues f = I) :
    (BB.mapValues f).insertAtFirstNonPHI I = (BB.insertAtFirstNonPHI I).mapValues f := by
  have hphi : (fun J : Instruction => J.op.isPhi) ∘ Instruction.mapValues f =
      fun J => J.op.isPhi := by
    funext J
    simp
  simp only [insertAtFirstNonPHI, mapValues, List.takeWhile_map, List.dropWhile_map, hphi,
    List.map_append, List.map_cons, h]

theorem BasicBlock.insts_split {phis rest : List Instruction} (hphis : ∀ J ∈ phis, J.op.isPhi)
    (hrest : ∀ J ∈ rest.head?, J.op.isPhi = false) :
    (phis ++ rest).takeWhile (·.op.isPhi) = phis ∧
      (phis ++ rest).dropWhile (·.op.isPhi) = rest := by
  rw [List.takeWhile_append_of_pos hphis, List.dropWhile_append_of_pos hphis]
  cases rest with
  | nil => simp
  | cons J rest =>
    have hJ := hrest J rfl
    simp [hJ]

theorem Slots.not_isPhi_of_mem (h : I ∈ slots.allocas) : I.op.isPhi = false := by
  obtain ⟨s, -, rfl⟩ := List.mem_map.mp (List.mem_reverse.mp h)
  rfl

theorem BasicBlock.withAllocas_append : (BB.withAllocas slots).insertAtFirstNonPHI
    (allocaInst AI GV.ty) = BB.withAllocas (slots ++ [(GV, AI)]) := by
  have hphis : ∀ J ∈ BB.insts.takeWhile (·.op.isPhi), J.op.isPhi := fun J hJ =>
    List.mem_takeWhile_imp (p := fun J : Instruction => J.op.isPhi) hJ
  have hrest : ∀ J ∈ (slots.allocas ++ BB.insts.dropWhile (·.op.isPhi)).head?,
      J.op.isPhi = false := by
    intro J hJ
    cases hallocas : slots.allocas with
    | nil =>
      rw [hallocas] at hJ
      exact BasicBlock.head?_afterPhis hJ
    | cons I Is =>
      rw [hallocas] at hJ
      obtain rfl := Option.mem_some.mp hJ
      exact Slots.not_isPhi_of_mem (hallocas ▸ List.mem_cons_self)
  obtain ⟨htake, hdrop⟩ := BasicBlock.insts_split hphis hrest
  simp only [insertAtFirstNonPHI, withAllocas, Slots.allocas, List.map_append,
    List.reverse_append, List.append_assoc] at htake hdrop ⊢
  rw [htake, hdrop]
  rfl

/-- Function `G` after some globals became allocas of the kernel `k`. -/
def Function.afterLocals (G : Function) (k : String) (slots : Slots) : Function :=
  if G.name = k then G.privatized slots else G.mapValues (Value.privatized slots)

theorem Function.name_afterLocals : (G.afterLocals k slots).name = G.name := by
  rw [Function.afterLocals]
  split <;> rfl

theorem createAllocaAtEntry_privatized : LoopInserter.createAllocaAtEntry (G.privatized slots) AI
    GV.ty = (G.updateBlock G.entry (BasicBlock.withAllocas (slots ++ [(GV, AI)]))).mapValues
      (Value.privatized slots) := by
  simp only [LoopInserter.createAllocaAtEntry, Function.privatized, Function.mapValues,
    Function.updateBlock, Function.mk.injEq, true_and]
  funext b
  by_cases hb : b = G.entry
  · rw [if_pos hb, if_pos trivial, BasicBlock.insertAtFirstNonPHI_mapValues allocaInst_mapValues,
      BasicBlock.withAllocas_append, if_pos hb]
  · rw [if_neg hb, if_neg hb, if_neg hb]

theorem privatizeIn_afterLocals : LoopInserter.privatizeIn k GV AI (G.afterLocals k slots) =
    G.afterLocals k (slots ++ [(GV, AI)]) := by
  have happend : (fun v : Value => (v.privatized slots).replaceGlobal GV.name AI) =
      Value.privatized (slots ++ [(GV, AI)]) := funext fun v => Value.privatized_append
  rw [LoopInserter.privatizeIn, Function.name_afterLocals, Function.afterLocals,
    Function.afterLocals]
  split
  · rw [createAllocaAtEntry_privatized, Function.mapValues_mapValues, happend]
    rfl
  · rw [Function.mapValues_mapValues, happend]

theorem BasicBlock.instIds_subset_withAllocas :
    BB.instIds ⊆ (BB.withAllocas slots).instIds :=
  instIds_subset_of_perm rfl (perm_takeWhile_insert _ BB.insts slots.allocas)

theorem Function.instIds_subset_afterLocals : G.instIds ⊆ (G.afterLocals k slots).instIds := by
  intro i hi
  rw [Function.afterLocals]
  split
  · rw [Function.privatized, Function.instIds_mapValues]
    obtain ⟨b, hb, hi⟩ := List.mem_flatMap.mp hi
    refine List.mem_flatMap.mpr ⟨b, hb, ?_⟩
    by_cases hentry : b = G.entry
    · subst hentry
      rw [Function.block_updateBlock]
      exact BasicBlock.instIds_subset_withAllocas hi
    · rw [Function.block_updateBlock_ne _ hentry]
      exact hi
  · rw [Function.instIds_mapValues]
    exact hi

theorem Function.slot_mem_instIds (hG : G.name = k) {s : Global × InstId} (hs : s ∈ slots) :
    s.2 ∈ (G.afterLocals k slots).instIds := by
  rw [Function.afterLocals, if_pos hG, Function.privatized, Function.instIds_mapValues]
  refine List.mem_flatMap.mpr ⟨G.entry, G.entry_mem_layout, ?_⟩
  have halloca : allocaInst s.2 s.1.ty ∈ slots.allocas :=
    List.mem_reverse.mpr (List.mem_map_of_mem hs)
  rw [Function.block_updateBlock]
  refine List.mem_append_left _ (List.mem_map.mpr ⟨allocaInst s.2 s.1.ty, ?_, rfl⟩)
  exact List.mem_append_left _ (List.mem_append_right _ halloca)

end

/-! ### All globals of the module -/

def Module.afterLocals (M : Module) (k : String) (slots : Slots) : Module :=
  { M with functions := M.functions.map fun G => G.afterLocals k slots }

/-- The allocas are new instructions, one for each global. -/
structure Slots.Fresh (M : Module) (slots : Slots) : Prop where
  nodup : (slots.map Prod.snd).Nodup
  new : ∀ s ∈ slots, ∀ G ∈ M.functions, s.2 ∉ G.instIds

section
variable {M : Module} {k : String} {slots : Slots} {GV : Global} {F G : Function}

theorem Module.lt_freshInst {i : InstId} (hG : G ∈ M.functions) (hi : i ∈ G.instIds) :
    i < M.freshInst := by
  have hlt := G.lt_freshInst hi
  have hle := lt_foldr_max_succ (List.mem_map_of_mem (f := Function.freshInst) hG)
  exact Nat.lt_of_lt_of_le hlt (Nat.lt_succ_iff.mp hle)

theorem Slots.Fresh.append (hF : F ∈ M.functions) (hk : F.name = k) (h : slots.Fresh M) :
    Slots.Fresh M (slots ++ [(GV, (M.afterLocals k slots).freshInst)]) := by
  have hlt : ∀ G ∈ M.functions, ∀ i ∈ (G.afterLocals k slots).instIds,
      i < (M.afterLocals k slots).freshInst := fun G hG i hi =>
    Module.lt_freshInst (M := M.afterLocals k slots) (List.mem_map_of_mem hG) hi
  constructor
  · rw [List.map_append, List.map_singleton, List.nodup_append]
    refine ⟨h.nodup, List.nodup_singleton _, ?_⟩
    rintro _ hi _ hj rfl
    obtain ⟨s, hs, rfl⟩ := List.mem_map.mp hi
    have := hlt F hF s.2 (Function.slot_mem_instIds hk hs)
    exact Nat.ne_of_lt this (List.mem_singleton.mp hj)
  · intro s hs G hG hi
    rcases List.mem_append.mp hs with hs | hs
    · exact h.new s hs G hG hi
    · obtain rfl := List.mem_singleton.mp hs
      exact Nat.lt_irrefl _ (hlt G hG _ (Function.instIds_subset_afterLocals hi))

theorem privatizeGlobal_afterLocals : LoopInserter.privatizeGlobal k (M.afterLocals k slots) GV =
    if LoopInserter.Mentions k GV then
      M.afterLocals k (slots ++ [(GV, (M.afterLocals k slots).freshInst)])
    else M.afterLocals k slots := by
  rw [LoopInserter.privatizeGlobal, LoopInserter.Mentions]
  split
  · simp only [Module.afterLocals, List.map_map, Module.mk.injEq, true_and]
    exact List.map_congr_left fun G _ => privatizeIn_afterLocals
  · rfl

theorem foldl_privatizeGlobal (hF : F ∈ M.functions) (hk : F.name = k) (gs : List Global)
    (h : slots.Fresh M) : ∃ slots' : Slots, Slots.Fresh M (slots ++ slots') ∧
      slots'.map Prod.fst = gs.filter (LoopInserter.Mentions k) ∧
      gs.foldl (LoopInserter.privatizeGlobal k) (M.afterLocals k slots) =
        M.afterLocals k (slots ++ slots') := by
  induction gs generalizing slots with
  | nil => exact ⟨[], by simpa using h, rfl, by simp⟩
  | cons GV gs ih =>
    rw [List.foldl_cons, privatizeGlobal_afterLocals]
    by_cases hGV : LoopInserter.Mentions k GV = true
    · have hnew : Slots.Fresh M (slots ++ [(GV, (M.afterLocals k slots).freshInst)]) :=
        h.append hF hk
      obtain ⟨slots', hfresh, hfst, heq⟩ := ih hnew
      refine ⟨(GV, (M.afterLocals k slots).freshInst) :: slots', ?_, ?_, ?_⟩
      · rw [List.append_cons]
        exact hfresh
      · rw [List.map_cons, hfst, List.filter_cons_of_pos hGV]
      · rw [if_pos hGV, heq, List.append_assoc, List.singleton_append]
    · obtain ⟨slots', hfresh, hfst, heq⟩ := ih h
      refine ⟨slots', hfresh, ?_, ?_⟩
      · rw [hfst, List.filter_cons_of_neg hGV]
      · rw [if_neg hGV, heq]

theorem Value.privatized_nil : Value.privatized [] = id := by
  funext v
  cases v <;> rfl

theorem Module.afterLocals_nil : M.afterLocals k [] = M := by
  have hvalues : ∀ BB : BasicBlock, BB.mapValues id = BB := by
    intro BB
    have hinst : Instruction.mapValues id = id := by
      funext I
      simp [Instruction.mapValues, Op.mapValues_eq_self]
    simp [BasicBlock.mapValues, hinst, Terminator.mapValues_eq_self]
  have hfun : ∀ G : Function, G.afterLocals k [] = G := by
    intro G
    have hblock : ∀ b, ((G.updateBlock G.entry (BasicBlock.withAllocas [])).block b) =
        G.block b := by
      intro b
      by_cases hb : b = G.entry
      · subst hb
        rw [Function.block_updateBlock]
        simp [BasicBlock.withAllocas, Slots.allocas]
      · rw [Function.block_updateBlock_ne _ hb]
    rw [Function.afterLocals, Function.privatized, Value.privatized_nil]
    split
    · simp [Function.mapValues, hvalues, hblock]
      rfl
    · simp [Function.mapValues, hvalues]
  simp [Module.afterLocals, hfun]

/-- What one kernel's turn does to the module. -/
theorem privatizeLocals_eq (hF : F ∈ M.functions) (hk : F.name = k) :
    ∃ slots : Slots, slots.Fresh M ∧
      slots.map Prod.fst = M.globals.filter (LoopInserter.Mentions k) ∧
      LoopInserter.privatizeLocals k M = M.afterLocals k slots := by
  have hnil : Slots.Fresh M [] := ⟨List.nodup_nil, fun s hs => absurd hs List.not_mem_nil⟩
  obtain ⟨slots, hfresh, hfst, heq⟩ := foldl_privatizeGlobal hF hk M.globals hnil
  rw [Module.afterLocals_nil] at heq
  exact ⟨slots, hfresh, hfst, heq⟩

end

/-! ### Only the locals of the kernels -/

/-- The kernels `ks` got allocas for exactly their own locals, and nothing else changed. -/
structure OwnLocals (M M' : Module) (ks : List String) (slots : String → Slots) : Prop where
  own : ∀ k ∈ ks, (slots k).map Prod.fst =
    M.globals.filter fun GV => LoopInserter.owns k GV.name
  fresh : ∀ k ∈ ks, (slots k).Fresh M
  globals : M'.globals = M.globals
  functions : List.Forall₂ (fun G G' => G'.SameCode
    (if G.name ∈ ks then G.privatized (slots G.name) else G)) M.functions M'.functions

/-- The globals whose names contain `k` are locals of `k`, and no other function uses them. -/
def OwnNamesOnly (M : Module) (k : String) : Prop :=
  ∀ GV ∈ M.globals, LoopInserter.Mentions k GV = true →
    LoopInserter.owns k GV.name = true ∧
      ∀ G ∈ M.functions, G.name ≠ k → G.uses (.global GV.name) = false

instance (M : Module) (k : String) : Decidable (OwnNamesOnly M k) :=
  inferInstanceAs (Decidable (∀ GV ∈ M.globals, _ → _ ∧ ∀ G ∈ M.functions, _ → _))

section
variable {M : Module} {k : String} {slots : Slots} {F G H : Function} {BB : BasicBlock} {g : String}
  {f : Value → Value}

theorem Function.SameCode.refl (G : Function) : G.SameCode G := ⟨rfl, rfl, rfl, fun _ _ => rfl⟩

theorem Function.SameCode.layout (h : F.SameCode G) : F.layout = G.layout := by
  rw [Function.layout, Function.layout, h.entry, h.rest]

theorem Function.SameCode.trans (h : F.SameCode G) (h' : G.SameCode H) : F.SameCode H where
  name := h.name.trans h'.name
  entry := h.entry.trans h'.entry
  rest := h.rest.trans h'.rest
  block b hb := (h.block b hb).trans (h'.block b (h.layout ▸ hb))

theorem Function.SameCode.privatized (h : F.SameCode G) :
    (F.privatized slots).SameCode (G.privatized slots) where
  name := h.name
  entry := h.entry
  rest := h.rest
  block b hb := by
    rw [Function.privatized, Function.privatized, Function.block_mapValues,
      Function.block_mapValues, ← h.entry]
    by_cases hentry : b = F.entry
    · subst hentry
      rw [Function.block_updateBlock, Function.block_updateBlock, h.block _ hb]
    · rw [Function.block_updateBlock_ne _ hentry, Function.block_updateBlock_ne _ hentry,
        h.block b hb]

theorem Value.privatized_eq_self_iff {v : Value} :
    v.privatized slots = v ↔ ∀ s ∈ slots, v ≠ .global s.1.name := by
  cases v with
  | global g =>
    rw [Value.privatized]
    cases hs : slots.find? fun s => s.1.name = g with
    | some s =>
      have hname : s.1.name = g := by simpa using List.find?_some hs
      simp only [Option.map_some, Option.getD_some, reduceCtorEq, false_iff]
      exact fun h => h s (List.mem_of_find?_eq_some hs) (congrArg Value.global hname.symm)
    | none =>
      simp only [Option.map_none, Option.getD_none, true_iff]
      intro s hs' hv
      exact List.find?_eq_none.mp hs s hs' (by simpa using (Value.global.inj hv).symm)
  | _ => simp [Value.privatized]

theorem Function.uses_iff {v : Value} :
    G.uses v = true ↔ ∃ b ∈ G.layout, v ∈ (G.block b).values := by
  simp [Function.uses]

theorem Function.sameCode_mapValues_iff : (G.mapValues (Value.privatized slots)).SameCode G ↔
    ∀ s ∈ slots, G.uses (.global s.1.name) = false := by
  constructor
  · intro h s hs
    rw [Bool.eq_false_iff, ne_eq, Function.uses_iff]
    rintro ⟨b, hb, hv⟩
    have hblock := BasicBlock.mapValues_eq_self_iff.mp (h.block b hb) _ hv
    exact Value.privatized_eq_self_iff.mp hblock s hs rfl
  · intro h
    refine ⟨rfl, rfl, rfl, fun b hb => BasicBlock.mapValues_eq_self_iff.mpr fun v hv => ?_⟩
    refine Value.privatized_eq_self_iff.mpr ?_
    rintro s hs rfl
    have huses : G.uses (.global s.1.name) = true := Function.uses_iff.mpr ⟨b, hb, hv⟩
    exact Bool.false_ne_true ((h s hs).symm.trans huses)

theorem Value.privatized_eq_global_iff {v : Value} :
    v.privatized slots = .global g ↔ v = .global g ∧ ∀ s ∈ slots, s.1.name ≠ g := by
  constructor
  · intro h
    have hv : v = .global g := by
      cases v with
      | global g' =>
        rw [Value.privatized] at h
        cases hs : slots.find? fun s => s.1.name = g' with
        | some s =>
          rw [hs] at h
          cases h
        | none =>
          rw [hs] at h
          exact h
      | _ => cases h
    subst hv
    exact ⟨rfl, fun s hs hg => Value.privatized_eq_self_iff.mp h s hs (congrArg _ hg.symm)⟩
  · rintro ⟨rfl, h⟩
    exact Value.privatized_eq_self_iff.mpr fun s hs hg => h s hs (Value.global.inj hg).symm

theorem BasicBlock.global_mem_values_mapValues :
    .global g ∈ (BB.mapValues (Value.privatized slots)).values ↔
      .global g ∈ BB.values ∧ ∀ s ∈ slots, s.1.name ≠ g := by
  rw [BasicBlock.values_mapValues, List.mem_map]
  constructor
  · rintro ⟨v, hv, heq⟩
    obtain ⟨rfl, hs⟩ := Value.privatized_eq_global_iff.mp heq
    exact ⟨hv, hs⟩
  · rintro ⟨hv, hs⟩
    exact ⟨_, hv, Value.privatized_eq_global_iff.mpr ⟨rfl, hs⟩⟩

/-- The allocas bring no uses of globals. -/
theorem BasicBlock.global_mem_values_withAllocas :
    .global g ∈ (BB.withAllocas slots).values ↔ .global g ∈ BB.values := by
  have hallocas : .global g ∉ slots.allocas.flatMap fun I => I.op.operands := by
    rw [List.mem_flatMap]
    rintro ⟨I, hI, hv⟩
    obtain ⟨s, -, rfl⟩ := List.mem_map.mp (List.mem_reverse.mp hI)
    simp [allocaInst, Op.operands] at hv
  conv => rhs; rw [BasicBlock.values, ← List.takeWhile_append_dropWhile
    (p := fun J : Instruction => J.op.isPhi) (l := BB.insts)]
  simp only [BasicBlock.values, BasicBlock.withAllocas, List.flatMap_append, List.mem_append,
    hallocas, or_false]

theorem Function.uses_afterLocals : (G.afterLocals k slots).uses (.global g) = true ↔
    G.uses (.global g) = true ∧ ∀ s ∈ slots, s.1.name ≠ g := by
  have hblock : ∀ b, .global g ∈ ((G.afterLocals k slots).block b).values ↔
      .global g ∈ (G.block b).values ∧ ∀ s ∈ slots, s.1.name ≠ g := by
    intro b
    rw [Function.afterLocals]
    split
    · rw [Function.privatized, Function.block_mapValues, BasicBlock.global_mem_values_mapValues]
      by_cases hentry : b = G.entry
      · rw [hentry, Function.block_updateBlock, BasicBlock.global_mem_values_withAllocas]
      · rw [Function.block_updateBlock_ne _ hentry]
    · rw [Function.block_mapValues, BasicBlock.global_mem_values_mapValues]
  have hlayout : (G.afterLocals k slots).layout = G.layout := by
    rw [Function.afterLocals]
    split <;> rfl
  simp only [Function.uses_iff, hblock, hlayout]
  constructor
  · rintro ⟨b, hb, hv, hs⟩
    exact ⟨⟨b, hb, hv⟩, hs⟩
  · rintro ⟨⟨b, hb, hv⟩, hs⟩
    exact ⟨b, hb, hv, hs⟩

theorem Function.SameCode.uses (h : F.SameCode G) (v : Value) : F.uses v = G.uses v := by
  have hiff : F.uses v = true ↔ G.uses v = true := by
    simp only [Function.uses_iff, ← h.layout]
    exact exists_congr fun b => and_congr_right fun hb => by rw [h.block b hb]
  exact Bool.eq_iff_iff.mpr hiff

end

section
variable {M M' : Module} {k : String} {slots slots' : Slots} {F G : Function}

theorem Function.length_entry_privatized : ((G.privatized slots).block G.entry).insts.length =
    (G.block G.entry).insts.length + slots.length := by
  have hsplit := congrArg List.length (List.takeWhile_append_dropWhile
    (p := fun J : Instruction => J.op.isPhi) (l := (G.block G.entry).insts))
  rw [List.length_append] at hsplit
  simp only [Function.privatized, Function.block_mapValues, Function.block_updateBlock,
    BasicBlock.insts_mapValues, BasicBlock.withAllocas, Slots.allocas, List.length_map,
    List.length_append, List.length_reverse]
  omega

theorem ownLocals_of_ownNamesOnly (hF : F ∈ M.functions) (hk : F.name = k)
    (h : OwnNamesOnly M k) :
    ∃ slots : Slots, slots.Fresh M ∧
      slots.map Prod.fst = M.globals.filter (fun GV => LoopInserter.owns k GV.name) ∧
      LoopInserter.privatizeLocals k M = M.afterLocals k slots ∧
      ∀ G ∈ M.functions, (G.afterLocals k slots).SameCode
        (if G.name = k then G.privatized slots else G) := by
  obtain ⟨slots, hfresh, hfst, heq⟩ := privatizeLocals_eq hF hk
  have hown : M.globals.filter (LoopInserter.Mentions k) =
      M.globals.filter fun GV => LoopInserter.owns k GV.name :=
    List.filter_congr fun GV hGV => Bool.eq_iff_iff.mpr
      ⟨fun hm => (h GV hGV hm).1, LoopInserter.mentions_of_owns⟩
  refine ⟨slots, hfresh, hfst.trans hown, heq, fun G hG => ?_⟩
  rw [Function.afterLocals]
  split
  · exact .refl _
  · refine Function.sameCode_mapValues_iff.mpr fun s hs => ?_
    have hmem : s.1 ∈ M.globals.filter (LoopInserter.Mentions k) :=
      hfst ▸ List.mem_map_of_mem hs
    obtain ⟨hglobal, hmentions⟩ := List.mem_filter.mp hmem
    exact (h s.1 hglobal hmentions).2 G hG ‹_›

/-! ### All kernels of the module -/

theorem OwnNamesOnly.afterLocals {k' : String} (h : OwnNamesOnly M k') :
    OwnNamesOnly (M.afterLocals k slots) k' := by
  intro GV hGV hmentions
  obtain ⟨howns, hunused⟩ := h GV hGV hmentions
  refine ⟨howns, fun G' hG' hne => ?_⟩
  obtain ⟨G, hG, rfl⟩ := List.mem_map.mp hG'
  rw [Function.name_afterLocals] at hne
  have huses := hunused G hG hne
  rw [Bool.eq_false_iff] at huses ⊢
  exact fun h => huses (Function.uses_afterLocals.mp h).1

theorem Slots.Fresh.of_afterLocals (h : Slots.Fresh (M.afterLocals k slots) slots') :
    slots'.Fresh M :=
  ⟨h.nodup, fun s hs _ hG hi => h.new s hs _ (List.mem_map_of_mem hG)
    (Function.instIds_subset_afterLocals hi)⟩

theorem ownLocals_foldl {ks : List String} (hks : ks.Nodup)
    (hmem : ∀ k ∈ ks, k ∈ M.functions.map Function.name) (h : ∀ k ∈ ks, OwnNamesOnly M k) :
    ∃ slots, OwnLocals M (ks.foldl (fun M k => LoopInserter.privatizeLocals k M) M) ks slots := by
  induction ks generalizing M with
  | nil =>
    refine ⟨fun _ => [], fun k hk => absurd hk List.not_mem_nil,
      fun k hk => absurd hk List.not_mem_nil, rfl, ?_⟩
    exact List.forall₂_same.mpr fun G _ => .refl G
  | cons k ks ih =>
    obtain ⟨hk, hks⟩ := List.nodup_cons.mp hks
    obtain ⟨F, hF, hFk⟩ := List.mem_map.mp (hmem k List.mem_cons_self)
    obtain ⟨slots, hfresh, hown, heq, hsame⟩ :=
      ownLocals_of_ownNamesOnly hF hFk (h k List.mem_cons_self)
    have hnames : (M.afterLocals k slots).functions.map Function.name =
        M.functions.map Function.name := by
      simp [Module.afterLocals, Function.name_afterLocals, Function.comp_def]
    obtain ⟨slots', h'⟩ := ih (M := M.afterLocals k slots) hks
      (fun k' hk' => hnames ▸ hmem k' (List.mem_cons_of_mem k hk'))
      fun k' hk' => (h k' (List.mem_cons_of_mem k hk')).afterLocals
    rw [List.foldl_cons, heq]
    refine ⟨fun k' => if k' = k then slots else slots' k', ?_, ?_, ?_, ?_⟩
    · intro k' hk'
      by_cases hkk : k' = k
      · rw [if_pos hkk, hkk, hown]
      · rw [if_neg hkk]
        exact h'.own k' (List.mem_of_ne_of_mem hkk hk')
    · intro k' hk'
      by_cases hkk : k' = k
      · rw [if_pos hkk]
        exact hfresh
      · rw [if_neg hkk]
        exact (h'.fresh k' (List.mem_of_ne_of_mem hkk hk')).of_afterLocals
    · exact h'.globals
    · have hfunctions := h'.functions
      rw [Module.afterLocals, List.forall₂_map_left_iff] at hfunctions
      refine List.forall₂_iff_get.mpr ⟨hfunctions.length_eq, fun i hi hi' => ?_⟩
      have hG := hfunctions.get hi hi'
      have hstep := hsame _ (List.get_mem M.functions ⟨i, hi⟩)
      rw [Function.name_afterLocals] at hG
      by_cases hkk : (M.functions.get ⟨i, hi⟩).name = k
      · rw [if_neg (hkk ▸ hk)] at hG
        rw [if_pos hkk] at hstep
        rw [if_pos (hkk ▸ List.mem_cons_self), if_pos hkk]
        exact hG.trans hstep
      · rw [if_neg hkk] at hstep
        simp only [List.mem_cons, hkk, false_or, if_false]
        split at hG
        · rw [if_pos ‹_›]
          exact hG.trans hstep.privatized
        · rw [if_neg ‹_›]
          exact hG.trans hstep

/-- How function `G` became `G'` when the kernels `ks` had their turns. -/
structure Privatizes (M : Module) (ks : List String) (G G' : Function) : Prop where
  name : G'.name = G.name
  entry : G'.entry = G.entry
  allocas : (G'.block G.entry).insts.length = (G.block G.entry).insts.length +
    if G.name ∈ ks then (M.globals.filter (LoopInserter.Mentions G.name)).length else 0
  uses : ∀ g, G'.uses (.global g) = true → G.uses (.global g) = true
  unused : ∀ k ∈ ks, ∀ GV ∈ M.globals, LoopInserter.Mentions k GV = true →
    G'.uses (.global GV.name) = false

theorem Privatizes.cons {ks : List String} {G' : Function} (hk : k ∉ ks)
    (hfst : slots.map Prod.fst = M.globals.filter (LoopInserter.Mentions k))
    (h : Privatizes (M.afterLocals k slots) ks (G.afterLocals k slots) G') :
    Privatizes M (k :: ks) G G' := by
  have hentry : (G.afterLocals k slots).entry = G.entry := by
    rw [Function.afterLocals]
    split <;> rfl
  have huses : ∀ g, G'.uses (.global g) = true →
      G.uses (.global g) = true ∧ ∀ s ∈ slots, s.1.name ≠ g := fun g hg =>
    Function.uses_afterLocals.mp (h.uses g hg)
  refine ⟨h.name.trans Function.name_afterLocals, h.entry.trans hentry, ?_,
    fun g hg => (huses g hg).1, ?_⟩
  · have hlength := h.allocas
    rw [hentry, Function.name_afterLocals] at hlength
    by_cases hG : G.name = k
    · rw [if_neg (hG ▸ hk), Function.afterLocals, if_pos hG,
        Function.length_entry_privatized] at hlength
      rw [if_pos (hG ▸ List.mem_cons_self), hlength, hG, ← hfst, List.length_map]
      rfl
    · have hmem : (G.name ∈ k :: ks) = (G.name ∈ ks) := by simp [hG]
      rw [Function.afterLocals, if_neg hG, Function.block_mapValues,
        BasicBlock.insts_mapValues, List.length_map] at hlength
      simp only [hmem]
      exact hlength
  · intro k' hk' GV hGV hmentions
    rcases List.mem_cons.mp hk' with rfl | hk'
    · rw [Bool.eq_false_iff]
      intro hg
      have hmem : GV ∈ slots.map Prod.fst := hfst ▸ List.mem_filter.mpr ⟨hGV, hmentions⟩
      obtain ⟨s, hs, rfl⟩ := List.mem_map.mp hmem
      exact (huses _ hg).2 s hs rfl
    · exact h.unused k' hk' GV hGV hmentions

theorem privatizes_foldl {ks : List String} (hks : ks.Nodup)
    (hmem : ∀ k ∈ ks, k ∈ M.functions.map Function.name) :
    List.Forall₂ (Privatizes M ks) M.functions
      (ks.foldl (fun M k => LoopInserter.privatizeLocals k M) M).functions := by
  induction ks generalizing M with
  | nil => exact List.forall₂_same.mpr fun G _ =>
      ⟨rfl, rfl, rfl, fun _ h => h, fun k hk => absurd hk List.not_mem_nil⟩
  | cons k ks ih =>
    obtain ⟨hk, hks⟩ := List.nodup_cons.mp hks
    obtain ⟨F, hF, hFk⟩ := List.mem_map.mp (hmem k List.mem_cons_self)
    obtain ⟨slots, -, hfst, heq⟩ := privatizeLocals_eq hF hFk
    have hnames : (M.afterLocals k slots).functions.map Function.name =
        M.functions.map Function.name := by
      simp [Module.afterLocals, Function.name_afterLocals, Function.comp_def]
    have hrun := ih (M := M.afterLocals k slots) hks
      fun k' hk' => hnames ▸ hmem k' (List.mem_cons_of_mem k hk')
    rw [Module.afterLocals, List.forall₂_map_left_iff] at hrun
    rw [List.foldl_cons, heq]
    exact hrun.imp fun G G' h => Privatizes.cons hk hfst h

end

/-- A local variable belongs to one kernel. -/
theorem LoopInserter.owns_unique {k k' g : String} (h : LoopInserter.owns k g = true)
    (h' : LoopInserter.owns k' g = true) : k = k' := by
  have hname : ∀ {k : String}, LoopInserter.owns k g = true →
      ∃ v, g.toList = k.toList ++ '.' :: v ∧ '.' ∉ v := by
    intro k hk
    rw [LoopInserter.owns, Bool.and_eq_true, List.isPrefixOf_iff_prefix] at hk
    obtain ⟨⟨rest, hrest⟩, hk⟩ := hk
    rw [← hrest, List.drop_left] at hk
    cases rest with
    | nil => cases hk
    | cons c v =>
      rw [Bool.and_eq_true, beq_iff_eq, LoopInserter.isIdentifier, Bool.and_eq_true] at hk
      obtain ⟨rfl, -, hv⟩ := hk
      refine ⟨v, hrest.symm, fun hdot => ?_⟩
      have := List.all_eq_true.mp hv '.' hdot
      exact absurd this (by decide)
  obtain ⟨v, hv, hdot⟩ := hname h
  obtain ⟨v', hv', hdot'⟩ := hname h'
  rw [hv] at hv'
  apply String.toList_inj.mp
  rcases List.append_eq_append_iff.mp hv' with ⟨ws, hk', hws⟩ | ⟨ws, hk, hws⟩
  · cases ws with
    | nil => simpa using hk'.symm
    | cons c ws =>
      have hmem : '.' ∈ v := by
        rw [(List.cons.inj hws).2]
        simp
      exact absurd hmem hdot
  · cases ws with
    | nil => simpa using hk
    | cons c ws =>
      have hmem : '.' ∈ v' := by
        rw [(List.cons.inj hws).2]
        simp
      exact absurd hmem hdot'

section
variable {M : Module} {ks : List String}

theorem OwnLocals.exists_privatizes {slots : String → Slots} (hks : ks.Nodup)
    (hmem : ∀ k ∈ ks, k ∈ M.functions.map Function.name)
    (h : OwnLocals M (ks.foldl (fun M k => LoopInserter.privatizeLocals k M) M) ks slots)
    {G : Function} (hG : G ∈ M.functions) : ∃ G', Privatizes M ks G G' ∧
      G'.SameCode (if G.name ∈ ks then G.privatized (slots G.name) else G) := by
  obtain ⟨i, rfl⟩ := List.get_of_mem hG
  have hrun := privatizes_foldl hks hmem
  have hi := i.isLt.trans_eq hrun.length_eq
  exact ⟨_, hrun.get i.isLt hi, h.functions.get i.isLt hi⟩

theorem ownNamesOnly_of_ownLocals {slots : String → Slots} (hks : ks.Nodup)
    (hmem : ∀ k ∈ ks, k ∈ M.functions.map Function.name)
    (h : OwnLocals M (ks.foldl (fun M k => LoopInserter.privatizeLocals k M) M) ks slots) :
    ∀ k ∈ ks, OwnNamesOnly M k := by
  intro k hk GV hGV hmentions
  have howned : ∀ k ∈ ks, ∀ s ∈ slots k, LoopInserter.owns k s.1.name = true := by
    intro k hk s hs
    have hmem : s.1 ∈ M.globals.filter fun GV => LoopInserter.owns k GV.name :=
      h.own k hk ▸ List.mem_map_of_mem hs
    rw [List.mem_filter] at hmem
    exact hmem.2
  obtain ⟨F, hF, rfl⟩ := List.mem_map.mp (hmem k hk)
  obtain ⟨F', hrun, hsame⟩ := h.exists_privatizes hks hmem hF
  have howns : LoopInserter.owns F.name GV.name = true := by
    have hlength := hrun.allocas
    rw [if_pos hk] at hsame hlength
    rw [hsame.block F.entry (hrun.entry ▸ F'.entry_mem_layout),
      Function.length_entry_privatized, ← List.length_map (f := Prod.fst), h.own _ hk] at hlength
    have hfilter := (List.monotone_filter_right M.globals fun GV hGV =>
      LoopInserter.mentions_of_owns hGV).eq_of_length (Nat.add_left_cancel hlength)
    have hmem := List.mem_filter.mpr ⟨hGV, hmentions⟩
    rw [← hfilter, List.mem_filter] at hmem
    exact hmem.2
  refine ⟨howns, fun G hG hne => ?_⟩
  obtain ⟨G', hrun', hsame'⟩ := h.exists_privatizes hks hmem hG
  have hunused := hrun'.unused _ hk GV hGV hmentions
  rw [hsame'.uses] at hunused
  split at hunused
  · rw [← Bool.not_eq_true] at hunused ⊢
    intro huses
    have hafter : G.afterLocals G.name (slots G.name) = G.privatized (slots G.name) := if_pos rfl
    rw [← hafter] at hunused
    refine hunused (Function.uses_afterLocals.mpr ⟨huses, fun s hs hname => hne ?_⟩)
    exact LoopInserter.owns_unique (hname ▸ howned _ ‹_› s hs) howns
  · exact hunused

theorem ownLocals_foldl_iff (hks : ks.Nodup)
    (hmem : ∀ k ∈ ks, k ∈ M.functions.map Function.name) :
    (∃ slots, OwnLocals M (ks.foldl (fun M k => LoopInserter.privatizeLocals k M) M) ks slots) ↔
      ∀ k ∈ ks, OwnNamesOnly M k :=
  ⟨fun ⟨_, h⟩ => ownNamesOnly_of_ownLocals hks hmem h, ownLocals_foldl hks hmem⟩

end

/-- Local memory stays with its kernel exactly when every global whose name contains the name of a
kernel is a local of that kernel, used by no other function. -/
theorem privatizeKernels_own_iff (M : Module) (hM : (M.functions.map Function.name).Nodup) :
    (∀ F ∈ M.functions,
      (∃ slots, OwnLocals M (LoopInserter.privatizeLocals F.name M) [F.name] slots) ↔
        OwnNamesOnly M F.name) ∧
    ∀ KernelNames,
      (∃ slots, OwnLocals M (LoopInserter.privatizeKernels KernelNames M)
        (LoopInserter.kernels KernelNames M) slots) ↔
      ∀ k ∈ LoopInserter.kernels KernelNames M, OwnNamesOnly M k := by
  constructor
  · intro F hF
    have hiff := ownLocals_foldl_iff (M := M) (List.nodup_singleton F.name)
      (fun k hk => List.mem_singleton.mp hk ▸ List.mem_map_of_mem hF)
    rw [List.foldl_cons, List.foldl_nil] at hiff
    rw [hiff]
    exact List.forall_mem_singleton
  · intro KernelNames
    exact ownLocals_foldl_iff (hM.filter _) fun k hk => (List.mem_filter.mp hk).1

/-- A kernel that clears one array. -/
def clearKernel (name array : String) : Function where
  name := name
  entry := 0
  rest := []
  block _ := ⟨[⟨0, .void, .store (.constInt 32 0) (.global array)⟩], 1, .ret none⟩

def twoKernels (first second : String) : Module where
  globals := [⟨first ++ ".buf", .other⟩, ⟨second ++ ".buf", .other⟩]
  functions := [clearKernel first (first ++ ".buf"), clearKernel second (second ++ ".buf")]

theorem privatizeKernels_own_twoKernels : ∃ slots, OwnLocals (twoKernels "add" "copy")
    (LoopInserter.privatizeKernels ["add", "copy"] (twoKernels "add" "copy"))
    (LoopInserter.kernels ["add", "copy"] (twoKernels "add" "copy")) slots :=
  ((privatizeKernels_own_iff (twoKernels "add" "copy") (by decide)).2 ["add", "copy"]).mpr
    (by decide)

/-- The name of kernel `b` is found in `c.buf`. -/
theorem privatizeLocals_takes_foreign :
    ¬ ∃ slots, OwnLocals (twoKernels "b" "c")
      (LoopInserter.privatizeLocals "b" (twoKernels "b" "c")) ["b"] slots := by
  rintro ⟨slots, h⟩
  have hown : ∀ k ∈ ["b"], OwnNamesOnly (twoKernels "b" "c") k :=
    ownNamesOnly_of_ownLocals (by decide) (by decide) h
  exact absurd hown (by decide)

end VariOCL.IR
