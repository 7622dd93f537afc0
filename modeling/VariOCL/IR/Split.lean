import Mathlib.Data.List.DropRight
import VariOCL.IR.Edit

/-! `SplitBlock`, and what a well-formed function is for it. -/

namespace VariOCL.IR

def Instruction.mapBlocks (g : BlockId → BlockId) (I : Instruction) : Instruction :=
  { I with op := I.op.mapBlocks g }

@[simp] theorem Instruction.id_mapBlocks (g : BlockId → BlockId) (I : Instruction) :
    (I.mapBlocks g).id = I.id := rfl

@[simp] theorem Op.isPhi_mapBlocks (g : BlockId → BlockId) (op : Op) :
    (op.mapBlocks g).isPhi = op.isPhi := by cases op <;> rfl

@[simp] theorem Instruction.isPhi_mapBlocks (g : BlockId → BlockId) (I : Instruction) :
    (I.mapBlocks g).op.isPhi = I.op.isPhi := Op.isPhi_mapBlocks g I.op

@[simp] theorem Instruction.isBarrier_mapBlocks (g : BlockId → BlockId) (I : Instruction) :
    (I.mapBlocks g).isBarrier = I.isBarrier := by
  cases I with
  | mk id ty op => cases op <;> rfl

theorem hasBarrier_map (BB : BasicBlock) (g : BlockId → BlockId) :
    hasBarrier { BB with insts := BB.insts.map (Instruction.mapBlocks g) } = hasBarrier BB := by
  rw [hasBarrier, List.any_map]
  exact congrArg BB.insts.any (funext fun I => I.isBarrier_mapBlocks g)

theorem endsWithBarrier_map (BB : BasicBlock) (g : BlockId → BlockId) :
    endsWithBarrier { BB with insts := BB.insts.map (Instruction.mapBlocks g) } =
      endsWithBarrier BB := by
  simp [endsWithBarrier, BasicBlock.size, Function.comp_def]

theorem Instruction.mapBlocks_of_not_phi {g : BlockId → BlockId} {I : Instruction}
    (h : I.op.isPhi = false) : I.mapBlocks g = I := by
  cases I with
  | mk id ty op => cases op <;> first | rfl | cases h

theorem Instruction.mapBlocks_id (I : Instruction) : I.mapBlocks (fun b => b) = I := by
  cases I with
  | mk id ty op => cases op <;> simp [mapBlocks, Op.mapBlocks]

@[simp] theorem Instruction.map_mapBlocks_id (Is : List Instruction) :
    Is.map (Instruction.mapBlocks fun b => b) = Is :=
  (List.map_congr_left fun I _ => I.mapBlocks_id).trans (List.map_id' Is)

def Op.incomingBlocks : Op → List BlockId
  | .phi incoming => incoming.map Prod.snd
  | _ => []

theorem Op.incomingBlocks_mapBlocks (g : BlockId → BlockId) (op : Op) :
    (op.mapBlocks g).incomingBlocks = op.incomingBlocks.map g := by
  cases op <;> simp [mapBlocks, incomingBlocks]

structure Function.Valid (F : Function) : Prop where
  nodup : F.layout.Nodup
  closed : F.Closed
  entryPreds : ∀ b ∈ F.layout, F.entry ∉ F.succs b
  ids : F.instIds.Nodup
  phisFirst : ∀ b ∈ F.layout, ∀ I ∈ (F.block b).insts.dropWhile (·.op.isPhi), I.op.isPhi = false
  entryPhis : ∀ I ∈ (F.block F.entry).insts, I.op.isPhi = false
  incoming : ∀ b ∈ F.layout, ∀ I ∈ (F.block b).insts, ∀ p ∈ I.op.incomingBlocks, p ∈ F.layout

def BasicBlock.beforeSplit (BB : BasicBlock) (SplitPt : InstId) : List Instruction :=
  BB.insts.takeWhile (·.id ≠ SplitPt) ++
    (BB.insts.dropWhile (·.id ≠ SplitPt)).takeWhile (·.op.isPhi)

def BasicBlock.afterSplit (BB : BasicBlock) (SplitPt : InstId) : List Instruction :=
  (BB.insts.dropWhile (·.id ≠ SplitPt)).dropWhile (·.op.isPhi)

theorem BasicBlock.beforeSplit_append_afterSplit (BB : BasicBlock) (SplitPt : InstId) :
    BB.beforeSplit SplitPt ++ BB.afterSplit SplitPt = BB.insts := by
  simp [beforeSplit, afterSplit]

def rename (Old New : BlockId) (b : BlockId) : BlockId := if b = Old then New else b

def insertAfter (Old New : BlockId) (bs : List BlockId) : List BlockId :=
  bs.flatMap fun b => if b = Old then [b, New] else [b]

/-- `SplitBlock(Old, SplitPt)`: the instructions from the first non-PHI at or after `SplitPt` move
to a new block behind `Old`, and the PHIs of its successors are told. -/
def Function.splitBlock (F : Function) (Old : BlockId) (SplitPt : InstId) : Function :=
  let New := F.freshBlock
  let BB := F.block Old
  { F with
    rest := if F.entry = Old then New :: F.rest else insertAfter Old New F.rest
    block := fun b =>
      if b = New then ⟨BB.afterSplit SplitPt, BB.termId, BB.term⟩
      else
        let B' := if b = Old then ⟨BB.beforeSplit SplitPt, F.freshInst, .br New⟩ else F.block b
        if b ∈ F.succs Old then
          { B' with insts := B'.insts.map (Instruction.mapBlocks (rename Old New)) }
        else B' }

@[simp] theorem Function.entry_splitBlock (F : Function) (Old : BlockId) (SplitPt : InstId) :
    (F.splitBlock Old SplitPt).entry = F.entry := rfl

theorem insertAfter_of_not_mem {Old New : BlockId} {bs : List BlockId} (h : Old ∉ bs) :
    insertAfter Old New bs = bs := by
  induction bs with
  | nil => rfl
  | cons b bs ih =>
    obtain ⟨hb, hbs⟩ := not_or.mp (mt List.mem_cons.mpr h)
    simpa [insertAfter, Ne.symm hb] using ih hbs

theorem perm_insertAfter {Old New : BlockId} {bs : List BlockId} (hn : bs.Nodup) (h : Old ∈ bs) :
    (insertAfter Old New bs).Perm (New :: bs) := by
  induction bs with
  | nil => cases h
  | cons b bs ih =>
    obtain ⟨hb, hn⟩ := List.nodup_cons.mp hn
    by_cases hbo : b = Old
    · subst hbo
      have : insertAfter b New (b :: bs) = b :: New :: insertAfter b New bs := by
        simp [insertAfter]
      rw [this, insertAfter_of_not_mem hb]
      exact .swap ..
    · have : insertAfter Old New (b :: bs) = b :: insertAfter Old New bs := by
        simp [insertAfter, hbo]
      rw [this]
      exact ((ih hn ((List.mem_cons.mp h).resolve_left (Ne.symm hbo))).cons b).trans (.swap ..)

theorem Function.layout_splitBlock {F : Function} (hn : F.layout.Nodup) (Old : BlockId)
    (SplitPt : InstId) :
    (F.splitBlock Old SplitPt).layout = insertAfter Old F.freshBlock F.layout := by
  obtain ⟨he, -⟩ := List.nodup_cons.mp hn
  simp only [layout, splitBlock, insertAfter, List.flatMap_cons]
  by_cases h : F.entry = Old
  · subst h
    have : insertAfter F.entry F.freshBlock F.rest = F.rest := insertAfter_of_not_mem he
    simp only [insertAfter] at this
    simp [this]
  · simp [h]

theorem perm_flatMap_of_eq_off {α β : Type*} [DecidableEq α] {f g : α → List β} {a : α}
    {l : List α} (ys : List β) (hn : l.Nodup) (ha : a ∈ l) (hoff : ∀ x ∈ l, x ≠ a → g x = f x)
    (hat : (g a).Perm (ys ++ f a)) : (l.flatMap g).Perm (ys ++ l.flatMap f) := by
  induction l with
  | nil => cases ha
  | cons x l ih =>
    obtain ⟨hx, hn⟩ := List.nodup_cons.mp hn
    simp only [List.flatMap_cons]
    by_cases h : x = a
    · subst h
      have : l.flatMap g = l.flatMap f := List.flatMap_congr fun y hy =>
        hoff y (List.mem_cons_of_mem _ hy) fun h => hx (h ▸ hy)
      rw [this, ← List.append_assoc]
      exact hat.append_right _
    · rw [hoff x List.mem_cons_self h]
      have := ih hn ((List.mem_cons.mp ha).resolve_left (Ne.symm h))
        fun y hy => hoff y (List.mem_cons_of_mem _ hy)
      exact (this.append_left _).trans (List.perm_append_comm_assoc ..)

section
variable {F : Function} {Old : BlockId} {SplitPt : InstId}

theorem Function.perm_layout_splitBlock (hn : F.layout.Nodup) (ho : Old ∈ F.layout) :
    (F.splitBlock Old SplitPt).layout.Perm (F.freshBlock :: F.layout) := by
  rw [layout_splitBlock hn]
  exact perm_insertAfter hn ho

theorem Function.mem_layout_splitBlock (hn : F.layout.Nodup) (ho : Old ∈ F.layout) {b : BlockId} :
    b ∈ (F.splitBlock Old SplitPt).layout ↔ b = F.freshBlock ∨ b ∈ F.layout := by
  rw [(perm_layout_splitBlock hn ho).mem_iff, List.mem_cons]

theorem Function.ne_freshBlock {b : BlockId} (h : b ∈ F.layout) : b ≠ F.freshBlock :=
  fun he => F.freshBlock_not_mem (he ▸ h)

theorem Function.block_splitBlock_new :
    (F.splitBlock Old SplitPt).block F.freshBlock =
      ⟨(F.block Old).afterSplit SplitPt, (F.block Old).termId, (F.block Old).term⟩ := if_pos rfl

/-- The renaming of the incoming blocks in a block that is not new. -/
def Function.splitRename (F : Function) (Old b : BlockId) : BlockId → BlockId :=
  if b ∈ F.succs Old then rename Old F.freshBlock else fun x => x

theorem Function.block_splitBlock_old (ho : Old ∈ F.layout) :
    (F.splitBlock Old SplitPt).block Old =
      ⟨((F.block Old).beforeSplit SplitPt).map (Instruction.mapBlocks (F.splitRename Old Old)),
        F.freshInst, .br F.freshBlock⟩ := by
  simp only [splitBlock, splitRename, F.ne_freshBlock ho, if_false, if_true]
  split <;> simp

theorem Function.block_splitBlock {b : BlockId} (hb : b ∈ F.layout) (h : b ≠ Old) :
    (F.splitBlock Old SplitPt).block b =
      { F.block b with
        insts := (F.block b).insts.map (Instruction.mapBlocks (F.splitRename Old b)) } := by
  simp only [splitBlock, splitRename, F.ne_freshBlock hb, if_false, h]
  split <;> simp

@[simp] theorem Function.succs_splitBlock_new :
    (F.splitBlock Old SplitPt).succs F.freshBlock = F.succs Old := by
  rw [succs, block_splitBlock_new, succs]

theorem Function.succs_splitBlock_old (ho : Old ∈ F.layout) :
    (F.splitBlock Old SplitPt).succs Old = [F.freshBlock] := by
  rw [succs, block_splitBlock_old ho]
  rfl

theorem Function.succs_splitBlock {b : BlockId} (hb : b ∈ F.layout) (h : b ≠ Old) :
    (F.splitBlock Old SplitPt).succs b = F.succs b := by
  rw [succs, block_splitBlock hb h, succs]

theorem Function.predEdges_splitBlock (hn : F.layout.Nodup) (ho : Old ∈ F.layout) {b : BlockId}
    (hb : b ≠ F.freshBlock) :
    (F.splitBlock Old SplitPt).predEdges b =
      (F.predEdges b).map (rename Old F.freshBlock) := by
  simp only [predEdges]
  rw [layout_splitBlock hn, insertAfter, List.flatMap_assoc, List.map_flatMap]
  refine List.flatMap_congr fun p hp => ?_
  by_cases h : p = Old
  · subst h
    simp only [if_true, List.flatMap_cons, List.flatMap_nil, List.append_nil,
      succs_splitBlock_old ho, succs_splitBlock_new, List.filterMap_cons, List.filterMap_nil,
      Ne.symm hb, if_false, List.nil_append, List.map_filterMap]
    exact List.filterMap_congr fun s _ => by split <;> simp [rename]
  · simp only [h, if_false, List.flatMap_cons, List.flatMap_nil, List.append_nil,
      succs_splitBlock hp h, List.map_filterMap]
    exact List.filterMap_congr fun s _ => by split <;> simp [rename, h]

theorem Function.predEdges_splitBlock_new (hF : F.Valid) (ho : Old ∈ F.layout) :
    (F.splitBlock Old SplitPt).predEdges F.freshBlock = [Old] := by
  have hnone : ∀ p ∈ F.layout, ∀ q : BlockId,
      (F.succs p).filterMap (fun s => if s = F.freshBlock then some q else none) = [] := by
    intro p hp q
    refine List.filterMap_eq_nil_iff.mpr fun s hs => if_neg ?_
    rintro rfl
    exact F.freshBlock_not_mem (hF.closed p hp _ hs)
  simp only [predEdges]
  rw [layout_splitBlock hF.nodup, insertAfter, List.flatMap_assoc]
  have := perm_flatMap_of_eq_off (f := fun _ => []) [Old]
    (g := fun p => (if p = Old then [p, F.freshBlock] else [p]).flatMap fun p =>
      ((F.splitBlock Old SplitPt).succs p).filterMap
        fun s => if s = F.freshBlock then some p else none) hF.nodup ho
    (fun p hp h => by simp [h, succs_splitBlock hp h, hnone p hp])
    (by simp [succs_splitBlock_old ho, hnone Old ho])
  have hnil : (F.layout.flatMap fun _ => ([] : List BlockId)) = [] :=
    List.flatMap_eq_nil_iff.mpr fun _ _ => rfl
  rwa [hnil, List.append_nil, List.perm_singleton] at this

theorem Function.mem_instIds {i : InstId} :
    i ∈ F.instIds ↔ ∃ b ∈ F.layout, i ∈ (F.block b).instIds := by
  simp [instIds, List.mem_flatMap]

@[simp] theorem BasicBlock.ids_map_mapBlocks (g : BlockId → BlockId) (Is : List Instruction) :
    (Is.map (Instruction.mapBlocks g)).map Instruction.id = Is.map Instruction.id := by
  simp [Function.comp_def]

theorem Function.perm_instIds_splitBlock (hn : F.layout.Nodup) (ho : Old ∈ F.layout) :
    (F.splitBlock Old SplitPt).instIds.Perm (F.freshInst :: F.instIds) := by
  simp only [instIds]
  rw [layout_splitBlock hn, insertAfter, List.flatMap_assoc]
  refine perm_flatMap_of_eq_off [F.freshInst] hn ho ?_ ?_
  · intro b hb h
    simp only [h, if_false, List.flatMap_cons, List.flatMap_nil, List.append_nil,
      block_splitBlock hb h, BasicBlock.instIds, BasicBlock.ids_map_mapBlocks]
  · simp only [if_true, List.flatMap_cons, List.flatMap_nil, List.append_nil,
      block_splitBlock_old ho, block_splitBlock_new, BasicBlock.instIds,
      BasicBlock.ids_map_mapBlocks]
    conv => rhs; rw [← BasicBlock.beforeSplit_append_afterSplit _ SplitPt, List.map_append]
    simp only [List.append_assoc, List.singleton_append]
    exact List.perm_middle

theorem BasicBlock.mem_of_mem_beforeSplit {BB : BasicBlock} {I : Instruction}
    (h : I ∈ BB.beforeSplit SplitPt) : I ∈ BB.insts :=
  BB.beforeSplit_append_afterSplit SplitPt ▸ List.mem_append_left _ h

theorem BasicBlock.mem_of_mem_afterSplit {BB : BasicBlock} {I : Instruction}
    (h : I ∈ BB.afterSplit SplitPt) : I ∈ BB.insts :=
  BB.beforeSplit_append_afterSplit SplitPt ▸ List.mem_append_right _ h

theorem BasicBlock.dropWhile_insts (BB : BasicBlock) (SplitPt : InstId) :
    BB.insts.dropWhile (·.op.isPhi) =
      (BB.beforeSplit SplitPt).dropWhile (·.op.isPhi) ++ BB.afterSplit SplitPt := by
  conv => lhs; rw [← BB.beforeSplit_append_afterSplit SplitPt]
  rw [List.dropWhile_append]
  split
  · rename_i h
    rw [List.isEmpty_iff.mp h, List.nil_append, BasicBlock.afterSplit,
      List.dropWhile_idempotent]
  · rfl

theorem Function.Valid.not_phi_afterSplit (hF : F.Valid) (ho : Old ∈ F.layout) {I : Instruction}
    (h : I ∈ (F.block Old).afterSplit SplitPt) : I.op.isPhi = false := by
  refine hF.phisFirst Old ho I ?_
  rw [BasicBlock.dropWhile_insts _ SplitPt]
  exact List.mem_append_right _ h

theorem Function.Valid.mem_insts_splitBlock (hF : F.Valid) (ho : Old ∈ F.layout) {b : BlockId}
    {J : Instruction} (hb : b ∈ (F.splitBlock Old SplitPt).layout)
    (hJ : J ∈ ((F.splitBlock Old SplitPt).block b).insts) :
    ∃ b' ∈ F.layout, ∃ I ∈ (F.block b').insts, ∃ x, J = I.mapBlocks (F.splitRename Old x) := by
  rcases (mem_layout_splitBlock hF.nodup ho).mp hb with rfl | hb
  · rw [block_splitBlock_new] at hJ
    have := Instruction.mapBlocks_of_not_phi (g := F.splitRename Old Old)
      (hF.not_phi_afterSplit ho hJ)
    exact ⟨Old, ho, J, BasicBlock.mem_of_mem_afterSplit hJ, Old, this.symm⟩
  · by_cases h : b = Old
    · subst h
      rw [block_splitBlock_old ho] at hJ
      obtain ⟨I, hI, rfl⟩ := List.mem_map.mp hJ
      exact ⟨b, ho, I, BasicBlock.mem_of_mem_beforeSplit hI, b, rfl⟩
    · rw [block_splitBlock hb h] at hJ
      obtain ⟨I, hI, rfl⟩ := List.mem_map.mp hJ
      exact ⟨b, hb, I, hI, b, rfl⟩

theorem Function.splitRename_mem (hn : F.layout.Nodup) (ho : Old ∈ F.layout) {x p : BlockId}
    (hp : p ∈ F.layout) : F.splitRename Old x p ∈ (F.splitBlock Old SplitPt).layout := by
  rw [mem_layout_splitBlock hn ho, splitRename]
  split
  · rw [rename]
    split
    · exact .inl rfl
    · exact .inr hp
  · exact .inr hp

theorem dropWhile_map_mapBlocks (g : BlockId → BlockId) (Is : List Instruction) :
    (Is.map (Instruction.mapBlocks g)).dropWhile (·.op.isPhi) =
      (Is.dropWhile (·.op.isPhi)).map (Instruction.mapBlocks g) := by
  rw [List.dropWhile_map]
  simp [Function.comp_def]

theorem Function.Valid.splitBlock (hF : F.Valid) (ho : Old ∈ F.layout) (SplitPt : InstId) :
    (F.splitBlock Old SplitPt).Valid where
  nodup := (perm_layout_splitBlock hF.nodup ho).nodup_iff.mpr
    (List.nodup_cons.mpr ⟨F.freshBlock_not_mem, hF.nodup⟩)
  closed b hb s hs := by
    rw [mem_layout_splitBlock hF.nodup ho] at hb ⊢
    rcases hb with rfl | hb
    · rw [succs_splitBlock_new] at hs
      exact .inr (hF.closed Old ho s hs)
    · by_cases h : b = Old
      · subst h
        rw [succs_splitBlock_old ho] at hs
        exact .inl (List.mem_singleton.mp hs)
      · rw [succs_splitBlock hb h] at hs
        exact .inr (hF.closed b hb s hs)
  entryPreds b hb := by
    rw [entry_splitBlock]
    rcases (mem_layout_splitBlock hF.nodup ho).mp hb with rfl | hb
    · rw [succs_splitBlock_new]
      exact hF.entryPreds Old ho
    · by_cases h : b = Old
      · subst h
        rw [succs_splitBlock_old ho, List.mem_singleton]
        exact F.ne_freshBlock F.entry_mem_layout
      · rw [succs_splitBlock hb h]
        exact hF.entryPreds b hb
  ids := (perm_instIds_splitBlock hF.nodup ho).nodup_iff.mpr
    (List.nodup_cons.mpr ⟨fun h => Nat.lt_irrefl _ (F.lt_freshInst h), hF.ids⟩)
  phisFirst b hb J hJ := by
    rcases (mem_layout_splitBlock hF.nodup ho).mp hb with rfl | hb
    · rw [block_splitBlock_new] at hJ
      exact hF.not_phi_afterSplit ho ((List.dropWhile_sublist _).subset hJ)
    · by_cases h : b = Old
      · subst h
        rw [block_splitBlock_old ho, dropWhile_map_mapBlocks] at hJ
        obtain ⟨I, hI, rfl⟩ := List.mem_map.mp hJ
        rw [Instruction.isPhi_mapBlocks]
        refine hF.phisFirst b ho I ?_
        rw [BasicBlock.dropWhile_insts _ SplitPt]
        exact List.mem_append_left _ hI
      · rw [block_splitBlock hb h, dropWhile_map_mapBlocks] at hJ
        obtain ⟨I, hI, rfl⟩ := List.mem_map.mp hJ
        rw [Instruction.isPhi_mapBlocks]
        exact hF.phisFirst b hb I hI
  entryPhis J hJ := by
    have he := F.entry_mem_layout
    rw [entry_splitBlock] at hJ
    by_cases h : F.entry = Old
    · rw [h, block_splitBlock_old ho] at hJ
      obtain ⟨I, hI, rfl⟩ := List.mem_map.mp hJ
      rw [Instruction.isPhi_mapBlocks]
      exact hF.entryPhis I (h ▸ BasicBlock.mem_of_mem_beforeSplit hI)
    · rw [block_splitBlock he h] at hJ
      obtain ⟨I, hI, rfl⟩ := List.mem_map.mp hJ
      rw [Instruction.isPhi_mapBlocks]
      exact hF.entryPhis I hI
  incoming b hb J hJ p hp := by
    obtain ⟨b', hb', I, hI, x, rfl⟩ := hF.mem_insts_splitBlock ho hb hJ
    rw [Instruction.mapBlocks, Op.incomingBlocks_mapBlocks] at hp
    obtain ⟨q, hq, rfl⟩ := List.mem_map.mp hp
    exact splitRename_mem hF.nodup ho (hF.incoming b' hb' I hI q hq)

end

theorem BasicBlock.split_at {BB : BasicBlock} {pre post : List Instruction} {J : Instruction}
    (h : BB.insts = pre ++ J :: post) (hpre : J.id ∉ pre.map Instruction.id)
    (hJ : J.op.isPhi = false) :
    BB.beforeSplit J.id = pre ∧ BB.afterSplit J.id = J :: post := by
  have hne : ∀ I ∈ pre, decide (I.id ≠ J.id) = true := fun I hI =>
    decide_eq_true fun he => hpre (he ▸ List.mem_map_of_mem hI)
  simp only [beforeSplit, afterSplit, h]
  rw [List.takeWhile_append_of_pos hne, List.dropWhile_append_of_pos hne]
  simp [hJ]

theorem BasicBlock.split_at_termId {BB : BasicBlock} (h : BB.instIds.Nodup) :
    BB.beforeSplit BB.termId = BB.insts ∧ BB.afterSplit BB.termId = [] := by
  have hne : ∀ I ∈ BB.insts, decide (I.id ≠ BB.termId) = true := by
    intro I hI
    refine decide_eq_true fun he => ?_
    exact (List.nodup_append.mp h).2.2 _ (List.mem_map_of_mem hI) _ List.mem_cons_self he
  rw [beforeSplit, afterSplit, List.takeWhile_eq_self_iff.mpr hne,
    List.dropWhile_eq_nil_iff.mpr hne]
  simp

theorem Function.Valid.instIds_nodup {F : Function} (hF : F.Valid) {b : BlockId}
    (hb : b ∈ F.layout) : (F.block b).instIds.Nodup :=
  (List.nodup_flatMap.mp hF.ids).1 b hb

/-- An instruction sits in one block only. -/
theorem Function.eq_of_mem_instIds {F : Function} (hn : F.instIds.Nodup) {b b' : BlockId}
    {i : InstId} (hb : b ∈ F.layout) (hb' : b' ∈ F.layout) (h : i ∈ (F.block b).instIds)
    (h' : i ∈ (F.block b').instIds) : b = b' := by
  by_contra hne
  have hsymm : Std.Symm fun x y => List.Disjoint (F.block x).instIds (F.block y).instIds :=
    ⟨fun _ _ h _ hx hy => h hy hx⟩
  exact (List.nodup_flatMap.mp hn).2.forall hb hb' hne h h'

end VariOCL.IR
