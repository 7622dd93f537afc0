import VariOCL.IR.Basic

/-! Edits of a function: new identities, instruction insertion and `SplitBlock`. -/

namespace VariOCL.IR

def BasicBlock.instIds (BB : BasicBlock) : List InstId := BB.insts.map Instruction.id ++ [BB.termId]

def Function.instIds (F : Function) : List InstId := F.layout.flatMap fun b => (F.block b).instIds

/-- The address of a newly created instruction. -/
def Function.freshInst (F : Function) : InstId := F.instIds.foldr max 0 + 1

def Function.freshBlock (F : Function) : BlockId := F.layout.foldr max 0 + 1

theorem lt_foldr_max_succ {x : Nat} {xs : List Nat} (h : x ∈ xs) : x < xs.foldr max 0 + 1 := by
  induction xs with
  | nil => cases h
  | cons y ys ih =>
    simp only [List.foldr_cons]
    rcases List.mem_cons.mp h with rfl | h
    · omega
    · have := ih h
      omega

theorem foldr_max_mono {xs ys : List Nat} (h : xs ⊆ ys) : xs.foldr max 0 ≤ ys.foldr max 0 := by
  induction xs with
  | nil => exact Nat.zero_le _
  | cons x xs ih =>
    simp only [List.foldr_cons]
    have hx := lt_foldr_max_succ (h List.mem_cons_self)
    have := ih fun y hy => h (List.mem_cons_of_mem _ hy)
    omega

theorem Function.lt_freshInst {F : Function} {i : InstId} (h : i ∈ F.instIds) :
    i < F.freshInst := lt_foldr_max_succ h

theorem Function.lt_freshBlock {F : Function} {b : BlockId} (h : b ∈ F.layout) :
    b < F.freshBlock := lt_foldr_max_succ h

theorem Function.freshBlock_not_mem {F : Function} : F.freshBlock ∉ F.layout :=
  fun h => Nat.lt_irrefl _ (F.lt_freshBlock h)

theorem Function.instIds_of_mem {F : Function} {b : BlockId} {I : Instruction}
    (hb : b ∈ F.layout) (hI : I ∈ (F.block b).insts) : I.id ∈ F.instIds :=
  List.mem_flatMap.mpr ⟨b, hb, List.mem_append_left _ (List.mem_map_of_mem hI)⟩

def Function.updateBlock (F : Function) (b : BlockId) (f : BasicBlock → BasicBlock) : Function :=
  { F with block := fun x => if x = b then f (F.block b) else F.block x }

@[simp] theorem Function.layout_updateBlock (F : Function) (b : BlockId)
    (f : BasicBlock → BasicBlock) : (F.updateBlock b f).layout = F.layout := rfl

@[simp] theorem Function.entry_updateBlock (F : Function) (b : BlockId)
    (f : BasicBlock → BasicBlock) : (F.updateBlock b f).entry = F.entry := rfl

@[simp] theorem Function.block_updateBlock (F : Function) (b : BlockId)
    (f : BasicBlock → BasicBlock) : (F.updateBlock b f).block b = f (F.block b) := if_pos rfl

theorem Function.block_updateBlock_ne {F : Function} {b x : BlockId} (f : BasicBlock → BasicBlock)
    (h : x ≠ b) : (F.updateBlock b f).block x = F.block x := if_neg h

/-- Elements put in where a test first fails. -/
theorem perm_takeWhile_insert {α : Type*} (p : α → Bool) (xs ys : List α) :
    (xs.takeWhile p ++ ys ++ xs.dropWhile p).Perm (ys ++ xs) := by
  conv => rhs; rw [← List.takeWhile_append_dropWhile (p := p) (l := xs)]
  rw [List.append_assoc]
  exact List.perm_append_comm_assoc ..

theorem filterMap_takeWhile_insert {α β : Type*} {f : α → Option β} (p : α → Bool) (xs : List α)
    {ys : List α} (h : ys.filterMap f = []) :
    (xs.takeWhile p ++ ys ++ xs.dropWhile p).filterMap f = xs.filterMap f := by
  rw [List.filterMap_append, List.filterMap_append, h, List.append_nil, ← List.filterMap_append,
    List.takeWhile_append_dropWhile]

theorem BasicBlock.instIds_subset_of_perm {BB BB' : BasicBlock} {Is : List Instruction}
    (hid : BB'.termId = BB.termId) (h : BB'.insts.Perm (Is ++ BB.insts)) :
    BB.instIds ⊆ BB'.instIds := by
  have hsub : BB.insts ⊆ BB'.insts := fun I hI => h.mem_iff.mpr (List.mem_append_right _ hI)
  intro i hi
  rcases List.mem_append.mp hi with hi | hi
  · exact List.mem_append_left _ (List.map_subset _ hsub hi)
  · rw [instIds, hid]
    exact List.mem_append_right _ hi

/-- `InsertBefore = BB->getFirstNonPHI()`. -/
def BasicBlock.insertAtFirstNonPHI (I : Instruction) (BB : BasicBlock) : BasicBlock :=
  { BB with insts := BB.insts.takeWhile (·.op.isPhi) ++ I :: BB.insts.dropWhile (·.op.isPhi) }

/-- `InsertBefore = BB->getTerminator()`. -/
def BasicBlock.insertBeforeTerminator (I : Instruction) (BB : BasicBlock) : BasicBlock :=
  { BB with insts := BB.insts ++ [I] }

/-- `BarrierInst::createBarrier(ConstantInt::get(IntTy, 0), ..)`. -/
def barrierCall (id : InstId) : Instruction :=
  ⟨id, .void, .call (some "barrier") [.constInt 32 0]⟩

@[simp] theorem isBarrier_barrierCall (id : InstId) : (barrierCall id).isBarrier = true := rfl

def Function.createBarrierAtFirstNonPHI (F : Function) (b : BlockId) : Function :=
  F.updateBlock b (BasicBlock.insertAtFirstNonPHI (barrierCall F.freshInst))

def Function.createBarrierBeforeTerminator (F : Function) (b : BlockId) : Function :=
  F.updateBlock b (BasicBlock.insertBeforeTerminator (barrierCall F.freshInst))

theorem BasicBlock.mem_insertAtFirstNonPHI {I J : Instruction} {BB : BasicBlock} :
    J ∈ (BB.insertAtFirstNonPHI I).insts ↔ J = I ∨ J ∈ BB.insts := by
  have hperm := perm_takeWhile_insert (fun J : Instruction => J.op.isPhi) BB.insts [I]
  rw [List.append_assoc, List.singleton_append] at hperm
  exact hperm.mem_iff.trans List.mem_cons

theorem BasicBlock.mem_insertBeforeTerminator {I J : Instruction} {BB : BasicBlock} :
    J ∈ (BB.insertBeforeTerminator I).insts ↔ J = I ∨ J ∈ BB.insts := by
  simp only [insertBeforeTerminator, List.mem_append, List.mem_singleton]
  tauto

/-- What the insertion of a barrier call keeps of the function. -/
structure Function.BarrierAdded (F G : Function) (b : BlockId) : Prop where
  layout : G.layout = F.layout
  entry : G.entry = F.entry
  term : ∀ x, (G.block x).term = (F.block x).term
  other : ∀ x, x ≠ b → G.block x = F.block x
  insts : ∀ J, J ∈ (G.block b).insts ↔ J = barrierCall F.freshInst ∨ J ∈ (F.block b).insts
  fresh : F.freshInst ≤ G.freshInst

theorem Function.freshInst_updateBlock_le {F : Function} {b : BlockId}
    {f : BasicBlock → BasicBlock} (h : (F.block b).instIds ⊆ (f (F.block b)).instIds) :
    F.freshInst ≤ (F.updateBlock b f).freshInst := by
  refine Nat.succ_le_succ (foldr_max_mono fun i hi => ?_)
  obtain ⟨x, hx, hi⟩ := List.mem_flatMap.mp hi
  refine List.mem_flatMap.mpr ⟨x, hx, ?_⟩
  by_cases hxb : x = b
  · subst hxb
    rw [F.block_updateBlock]
    exact h hi
  · rw [F.block_updateBlock_ne f hxb]
    exact hi

theorem Function.barrierAdded_updateBlock {F : Function} {b : BlockId}
    {f : BasicBlock → BasicBlock} (hterm : (f (F.block b)).term = (F.block b).term)
    (hid : (f (F.block b)).termId = (F.block b).termId)
    (hinsts : ∀ J, J ∈ (f (F.block b)).insts ↔
      J = barrierCall F.freshInst ∨ J ∈ (F.block b).insts) :
    F.BarrierAdded (F.updateBlock b f) b where
  layout := rfl
  entry := rfl
  term x := by
    by_cases hx : x = b
    · subst hx; rw [F.block_updateBlock, hterm]
    · rw [F.block_updateBlock_ne f hx]
  other x hx := F.block_updateBlock_ne f hx
  insts J := by rw [F.block_updateBlock]; exact hinsts J
  fresh := by
    apply F.freshInst_updateBlock_le
    intro i hi
    simp only [BasicBlock.instIds, List.mem_append, List.mem_map, List.mem_singleton] at hi ⊢
    rcases hi with ⟨J, hJ, rfl⟩ | rfl
    · exact .inl ⟨J, (hinsts J).mpr (.inr hJ), rfl⟩
    · exact .inr hid.symm

theorem Function.barrierAdded_firstNonPHI (F : Function) (b : BlockId) :
    F.BarrierAdded (F.createBarrierAtFirstNonPHI b) b :=
  F.barrierAdded_updateBlock rfl rfl fun _ => BasicBlock.mem_insertAtFirstNonPHI

theorem Function.barrierAdded_beforeTerminator (F : Function) (b : BlockId) :
    F.BarrierAdded (F.createBarrierBeforeTerminator b) b :=
  F.barrierAdded_updateBlock rfl rfl fun _ => BasicBlock.mem_insertBeforeTerminator

end VariOCL.IR
