import Mathlib.Data.List.Flatten
import VariOCL.LoopInserter.RunOnFunction

/-! Where a function calls `get_local_id` with a constant, and what the steps of
`CondBarrier::runOnFunction` make of these calls. -/

namespace VariOCL.IR.LoopInserter

/-- The width and the value of a constant dimension in a call of the function `name`. -/
def constDim (name : String) (I : Instruction) : Option (Nat × Nat) :=
  match I.op with
  | .call (some callee) (.constInt w d :: _) => if callee = name then some (w, d) else none
  | _ => none

/-- What the loops erase: id calls, with their dimensions, and truncations. -/
def mark (I : Instruction) : Option (InstId × Option (Nat × Nat)) :=
  if I.op.isTrunc then some (I.id, none)
  else (constDim "get_local_id" I).map fun k => (I.id, some k)

def marks (F : Function) : List (BlockId × InstId × Option (Nat × Nat)) :=
  F.layout.flatMap fun b => ((F.block b).insts.filterMap mark).map fun m => (b, m)

/-- `f` keeps constants apart from other values. -/
def KeepsConst (f : Value → Value) : Prop := ∀ v w c, f v = .constInt w c ↔ v = .constInt w c

def DistinctMarks (F : Function) : Prop := ((marks F).map fun m => m.2.1).Nodup

section
variable {F G : Function} {f : Value → Value} {b : BlockId} {i : InstId} {I : Instruction}
  {k : Option (Nat × Nat)} {w d : Nat} {name : String}

theorem constDim_eq_some : constDim name I = some (w, d) ↔
    ∃ args, I.op = .call (some name) (.constInt w d :: args) := by
  obtain ⟨i, t, op⟩ := I
  constructor
  · intro h
    rw [constDim] at h
    split at h
    · rename_i hop
      split at h
      · cases h
        subst name
        exact ⟨_, hop⟩
      · cases h
    · cases h
  · rintro ⟨args, rfl⟩
    exact if_pos rfl

theorem KeepsConst.constDim_mapValues (hf : KeepsConst f) (name : String) (I : Instruction) :
    constDim name (I.mapValues f) = constDim name I := by
  have hiff : ∀ w d, constDim name (I.mapValues f) = some (w, d) ↔
      constDim name I = some (w, d) := by
    intro w d
    rw [constDim_eq_some, constDim_eq_some]
    obtain ⟨i, t, op⟩ := I
    cases op with
    | call callee args =>
      cases args with
      | nil => simp [Instruction.mapValues, Op.mapValues]
      | cons v args => simp [Instruction.mapValues, Op.mapValues, hf v w d]
    | _ => simp [Instruction.mapValues, Op.mapValues]
  exact Option.ext fun k => hiff k.1 k.2

theorem constDim_mapBlocks (g : BlockId → BlockId) (name : String) (I : Instruction) :
    constDim name (I.mapBlocks g) = constDim name I := by
  obtain ⟨i, t, op⟩ := I
  cases op <;> rfl

theorem KeepsConst.mark_mapValues (hf : KeepsConst f) (I : Instruction) :
    mark (I.mapValues f) = mark I := by
  rw [mark, mark, hf.constDim_mapValues, Instruction.op_mapValues, isTrunc_mapValues,
    Instruction.id_mapValues]

theorem mark_mapBlocks (g : BlockId → BlockId) (I : Instruction) :
    mark (I.mapBlocks g) = mark I := by
  rw [mark, mark, constDim_mapBlocks, isTrunc_mapBlocks, Instruction.id_mapBlocks]

theorem mark_eq_some_iff : mark I = some (i, some (w, d)) ↔
    I.id = i ∧ constDim "get_local_id" I = some (w, d) := by
  rw [mark]
  split
  · rename_i htrunc
    have hnone : constDim "get_local_id" I = none := by
      obtain ⟨j, t, op⟩ := I
      cases op <;> first | rfl | cases htrunc
    simp [hnone]
  · simp [Option.map_eq_some_iff, and_comm]

theorem id_of_mark (h : mark I = some (i, k)) : I.id = i := by
  rw [mark] at h
  split at h
  · cases h
    rfl
  · obtain ⟨k', -, heq⟩ := Option.map_eq_some_iff.mp h
    cases heq
    rfl

theorem mem_marks : (b, i, k) ∈ marks F ↔
    b ∈ F.layout ∧ ∃ I ∈ (F.block b).insts, mark I = some (i, k) := by
  simp only [marks, List.mem_flatMap, List.mem_map, List.mem_filterMap]
  constructor
  · rintro ⟨c, hc, m, ⟨I, hI, hm⟩, heq⟩
    cases heq
    exact ⟨hc, I, hI, hm⟩
  · rintro ⟨hb, I, hI, hm⟩
    exact ⟨b, hb, (i, k), ⟨I, hI, hm⟩, rfl⟩

theorem mem_instIds_of_mem_marks (h : (b, i, k) ∈ marks F) : i ∈ F.instIds := by
  obtain ⟨hb, I, hI, hm⟩ := mem_marks.mp h
  rw [← id_of_mark hm]
  exact F.instIds_of_mem hb hI

theorem distinctMarks_of_nodup (h : F.instIds.Nodup) : DistinctMarks F := by
  rw [DistinctMarks, marks, List.map_flatMap]
  refine List.Sublist.nodup (List.Sublist.flatMap_right _ fun b _ => ?_) h
  rw [List.map_map]
  refine List.Sublist.trans ?_ (List.sublist_append_left _ _)
  induction (F.block b).insts with
  | nil => exact .slnil
  | cons I Is ih =>
    cases hI : mark I with
    | none =>
      rw [List.filterMap_cons_none hI]
      exact ih.cons _
    | some m =>
      rw [List.filterMap_cons_some hI, List.map_cons, List.map_cons]
      have hid : m.1 = I.id := (id_of_mark (i := m.1) (k := m.2) hI).symm
      exact hid ▸ ih.cons_cons _

end

/-! ### Edits -/

section
variable {F G : Function} {f : Value → Value} {b New InsertBefore : BlockId}
  {g : BasicBlock → BasicBlock} {BB : BasicBlock} {Is : List Instruction} {i : InstId}

/-- Blocks that are new have no marks. -/
theorem marks_perm {new : List BlockId} (hl : G.layout.Perm (new ++ F.layout))
    (hnew : ∀ b ∈ new, (G.block b).insts.filterMap mark = [])
    (hold : ∀ b ∈ F.layout, ((G.block b).insts.filterMap mark).Perm ((F.block b).insts.filterMap mark)) :
    (marks G).Perm (marks F) := by
  have hnil : new.flatMap (fun b => ((G.block b).insts.filterMap mark).map fun m => (b, m)) = [] :=
    List.flatMap_eq_nil_iff.mpr fun b hb => by rw [hnew b hb, List.map_nil]
  refine (hl.flatMap_right _).trans ?_
  rw [List.flatMap_append, hnil, List.nil_append]
  exact List.Perm.flatMap_left _ fun b hb => (hold b hb).map _

theorem marks_of_block (hl : G.layout = F.layout)
    (hb : ∀ b ∈ F.layout, (G.block b).insts.filterMap mark = (F.block b).insts.filterMap mark) :
    marks G = marks F := by
  rw [marks, hl, marks]
  exact List.flatMap_congr fun b hb' => by rw [hb b hb']

theorem marks_updateBlock (h : (g (F.block b)).insts.filterMap mark = (F.block b).insts.filterMap mark) :
    marks (F.updateBlock b g) = marks F := by
  refine marks_of_block rfl fun x _ => ?_
  by_cases hx : x = b
  · rw [hx, F.block_updateBlock, h]
  · rw [F.block_updateBlock_ne g hx]

/-- Marked instructions that are inserted. -/
theorem marks_updateBlock_perm {ms : List (InstId × Option (Nat × Nat))} (hn : F.layout.Nodup)
    (hb : b ∈ F.layout) (h : ((g (F.block b)).insts.filterMap mark).Perm
      (ms ++ (F.block b).insts.filterMap mark)) :
    (marks (F.updateBlock b g)).Perm (ms.map (fun m => (b, m)) ++ marks F) := by
  obtain ⟨pre, post, hsplit⟩ := List.append_of_mem hb
  have hnb : b ∉ pre ++ post := by
    have hperm : (pre ++ b :: post).Perm (b :: (pre ++ post)) := List.perm_middle
    rw [hsplit] at hn
    exact (List.nodup_cons.mp (hperm.nodup hn)).1
  have hother : ∀ bs : List BlockId, b ∉ bs →
      bs.flatMap (fun x => (((F.updateBlock b g).block x).insts.filterMap mark).map fun m => (x, m)) =
        bs.flatMap fun x => ((F.block x).insts.filterMap mark).map fun m => (x, m) :=
    fun bs hbs => List.flatMap_congr fun x hx => by
      have hne : x ≠ b := fun heq => hbs (heq ▸ hx)
      rw [F.block_updateBlock_ne g hne]
  rw [List.mem_append, not_or] at hnb
  rw [marks, marks, F.layout_updateBlock, hsplit, List.flatMap_append, List.flatMap_append,
    List.flatMap_cons, List.flatMap_cons, hother pre hnb.1, hother post hnb.2, F.block_updateBlock]
  have hmap := h.map fun m => (b, m)
  rw [List.map_append] at hmap
  refine ((hmap.append_right _).append_left _).trans ?_
  rw [List.append_assoc]
  exact List.perm_append_comm_assoc ..

theorem KeepsConst.marks_mapValues (hf : KeepsConst f) : marks (F.mapValues f) = marks F := by
  refine marks_of_block rfl fun b _ => ?_
  rw [Function.block_mapValues, BasicBlock.insts_mapValues, List.filterMap_map]
  exact List.filterMap_congr fun I _ => hf.mark_mapValues I

theorem marks_eraseInsts (is : List InstId) :
    marks (F.eraseInsts is) = (marks F).filter fun m => !is.contains m.2.1 := by
  rw [marks, marks, List.filter_flatMap]
  refine List.flatMap_congr fun b _ => ?_
  change List.map _ (List.filterMap mark ((F.block b).insts.filter _)) = _
  rw [List.filter_map, List.filterMap_filter, List.filter_filterMap]
  congr 1
  refine List.filterMap_congr fun I _ => ?_
  cases hI : mark I with
  | none => simp
  | some m =>
    have hid : m.1 = I.id := (id_of_mark (i := m.1) (k := m.2) hI).symm
    simp [hid, Option.filter]

theorem perm_insertBefore {bs : List BlockId} :
    (insertBefore InsertBefore New bs).Perm (New :: bs) := by
  induction bs with
  | nil => exact .refl _
  | cons b bs ih =>
    rw [insertBefore]
    split
    · exact .refl _
    · exact (ih.cons b).trans (.swap New b bs)

theorem perm_layout_createBlock :
    (F.createBlock New InsertBefore BB).layout.Perm (New :: F.layout) := by
  rw [Function.createBlock, Function.layout]
  split
  · exact .refl _
  · exact (perm_insertBefore.cons _).trans (.swap New _ _)

theorem marks_createBlock (hnew : New ∉ F.layout) (hBB : BB.insts.filterMap mark = []) :
    (marks (F.createBlock New InsertBefore BB)).Perm (marks F) := by
  have hl : (F.createBlock New InsertBefore BB).layout.Perm ([New] ++ F.layout) :=
    perm_layout_createBlock
  refine marks_perm hl ?_ fun b hb => ?_
  · intro b hb
    rw [List.mem_singleton.mp hb, Function.block_createBlock, hBB]
  · have hne : b ≠ New := fun heq => hnew (heq ▸ hb)
    rw [Function.block_createBlock_ne hne]

end

end VariOCL.IR.LoopInserter
