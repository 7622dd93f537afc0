import VariOCL.HiveOff.NormalForm
import VariOCL.WellDefined

/-! split_bb_at_condbr.cpp: conditional branches get blocks of their own. -/

namespace VariOCL.IR

def Terminator.isConditional : Terminator → Bool
  | .condBr _ _ _ => true
  | _ => false

namespace SplitBBAtCondBr

def isConditionalAt (F : Function) (BB : BlockId) : Bool :=
  (F.block BB).term.isConditional && !endsWithBarrier (F.block BB)

/-- The body of the loop over `BBInvolved`. -/
def splitCondBr (F : Function) (BB : BlockId) : Function :=
  if isConditionalAt F BB then F.splitBlock BB (F.block BB).termId else F

def runOnFunction (F : Function) : Function := F.layout.foldl splitCondBr F

/-- A conditional branch stands alone, or behind a barrier. -/
def Isolated (BB : BasicBlock) : Prop :=
  BB.term.isConditional → BB.insts = [] ∨ endsWithBarrier BB

section
variable {F F₀ : Function} {b BB : BlockId} {bs : List BlockId}

theorem isolated_splitBlock (hb : b ∈ F.layout) (h : b = BB ∨ Isolated (F.block b)) :
    Isolated ((F.splitBlock BB (F.block BB).termId).block b) := by
  by_cases hne : b = BB
  · subst hne
    rw [F.block_splitBlock_old hb]
    exact fun hcond => by cases hcond
  · rw [F.block_splitBlock hb hne]
    intro hcond
    refine (h.resolve_left hne hcond).imp (fun hnil => ?_) fun hend => ?_
    · exact List.map_eq_nil_iff.mpr hnil
    · exact (endsWithBarrier_map (F.block b) _).trans hend

theorem insts_splitBlock_new (hF : F.Valid) (hBB : BB ∈ F.layout) :
    ((F.splitBlock BB (F.block BB).termId).block F.freshBlock).insts = [] := by
  rw [F.block_splitBlock_new]
  exact (BasicBlock.split_at_termId (hF.instIds_nodup hBB)).2

/-- What holds of `F` while the blocks `bs` of `F₀` are still to be looked at. -/
structure Splitting (F₀ F : Function) (bs : List BlockId) : Prop where
  keeps : F₀.Keeps F
  wellDefined : F₀.WellDefined → F.WellDefined
  sub : bs ⊆ F.layout
  isolated : ∀ b ∈ F.layout, b ∈ bs ∨ Isolated (F.block b)

theorem isolated_of_not_conditional (h : isConditionalAt F b = false) : Isolated (F.block b) := by
  intro hcond
  rw [isConditionalAt, hcond, Bool.true_and, Bool.not_eq_false_eq_eq_true] at h
  exact .inr h

theorem Splitting.step (h : Splitting F₀ F (BB :: bs)) : Splitting F₀ (splitCondBr F BB) bs := by
  obtain ⟨hBB, hbs⟩ := List.cons_subset.mp h.sub
  have hF := h.keeps.valid
  rw [splitCondBr]
  split
  · refine ⟨h.keeps.trans (hF.keeps_splitBlock hBB _),
      fun hF₀ => (h.wellDefined hF₀).splitBlock hBB _, fun b hb => ?_, fun b hb => ?_⟩
    · exact (F.mem_layout_splitBlock hF.nodup hBB).mpr (.inr (hbs hb))
    · rcases (F.mem_layout_splitBlock hF.nodup hBB).mp hb with rfl | hb
      · exact .inr fun _ => .inl (insts_splitBlock_new hF hBB)
      · rcases h.isolated b hb with hmem | hiso
        · refine (List.mem_cons.mp hmem).symm.imp_right fun heq => ?_
          exact isolated_splitBlock hb (.inl heq)
        · exact .inr (isolated_splitBlock hb (.inr hiso))
  · refine ⟨h.keeps, h.wellDefined, hbs, fun b hb => ?_⟩
    rcases h.isolated b hb with hmem | hiso
    · refine (List.mem_cons.mp hmem).symm.imp_right ?_
      rintro rfl
      exact isolated_of_not_conditional (Bool.eq_false_iff.mpr ‹_›)
    · exact .inr hiso

theorem Splitting.run (h : Splitting F₀ F bs) : Splitting F₀ (bs.foldl splitCondBr F) [] := by
  induction bs generalizing F with
  | nil => exact h
  | cons BB bs ih => exact ih h.step

/-! ### The blocks that are added -/

def conditional (F : Function) : List BlockId := F.layout.filter (isConditionalAt F)

theorem isConditionalAt_splitBlock (hb : b ∈ F.layout) (hne : b ≠ BB) :
    isConditionalAt (F.splitBlock BB (F.block BB).termId) b = isConditionalAt F b := by
  rw [isConditionalAt, F.block_splitBlock hb hne, endsWithBarrier_map (F.block b)]
  rfl

/-- The branch of a split block counts again. -/
theorem length_conditional_splitBlock (hF : F.Valid) (hBB : BB ∈ F.layout)
    (hcond : isConditionalAt F BB) :
    (conditional (F.splitBlock BB (F.block BB).termId)).length = (conditional F).length := by
  have hperm : (F.splitBlock BB (F.block BB).termId).layout.Perm (F.freshBlock :: F.layout) :=
    F.perm_layout_splitBlock hF.nodup hBB
  have herase := List.perm_cons_erase hBB
  have hnew : isConditionalAt (F.splitBlock BB (F.block BB).termId) F.freshBlock := by
    have hterm := (Bool.and_eq_true _ _ ▸ hcond).1
    rw [isConditionalAt, endsWithBarrier, BasicBlock.size, insts_splitBlock_new hF hBB,
      F.block_splitBlock_new, hterm]
    rfl
  have hold : isConditionalAt (F.splitBlock BB (F.block BB).termId) BB = false := by
    rw [isConditionalAt, F.block_splitBlock_old hBB]
    rfl
  have hrest : (F.layout.erase BB).filter
      (isConditionalAt (F.splitBlock BB (F.block BB).termId)) =
        (F.layout.erase BB).filter (isConditionalAt F) := by
    refine List.filter_congr fun b hb => ?_
    obtain ⟨hne, hb⟩ := hF.nodup.mem_erase_iff.mp hb
    exact isConditionalAt_splitBlock hb hne
  calc (conditional (F.splitBlock BB (F.block BB).termId)).length
      = ((F.freshBlock :: BB :: F.layout.erase BB).filter
          (isConditionalAt (F.splitBlock BB (F.block BB).termId))).length :=
        ((hperm.trans (herase.cons _)).filter _).length_eq
    _ = ((BB :: F.layout.erase BB).filter (isConditionalAt F)).length := by
        rw [List.filter_cons_of_pos hnew, List.filter_cons_of_neg (by simp [hold]),
          List.filter_cons_of_pos hcond, hrest, List.length_cons, List.length_cons]
    _ = (conditional F).length := (herase.filter _).length_eq.symm

theorem length_foldl (hF : F.Valid) (hbs : bs ⊆ F.layout) (hn : bs.Nodup) :
    (bs.foldl splitCondBr F).layout.length =
      F.layout.length + (bs.filter (isConditionalAt F)).length ∧
    (conditional (bs.foldl splitCondBr F)).length = (conditional F).length := by
  induction bs generalizing F with
  | nil => exact ⟨rfl, rfl⟩
  | cons BB bs ih =>
    obtain ⟨hBB, hbs⟩ := List.cons_subset.mp hbs
    obtain ⟨hnot, hn⟩ := List.nodup_cons.mp hn
    rw [List.foldl_cons, splitCondBr, List.filter_cons]
    split
    · have hperm : (F.splitBlock BB (F.block BB).termId).layout.Perm (F.freshBlock :: F.layout) :=
        F.perm_layout_splitBlock hF.nodup hBB
      have hsame : ∀ b ∈ bs, isConditionalAt (F.splitBlock BB (F.block BB).termId) b =
          isConditionalAt F b := fun b hb =>
        isConditionalAt_splitBlock (hbs hb) fun h => hnot (h ▸ hb)
      obtain ⟨hlength, hcount⟩ := ih (hF.splitBlock hBB _)
        (fun b hb => hperm.mem_iff.mpr (List.mem_cons_of_mem _ (hbs hb))) hn
      rw [hlength, hcount, hperm.length_eq, List.filter_congr hsame]
      refine ⟨?_, length_conditional_splitBlock hF hBB ‹_›⟩
      rw [List.length_cons, List.length_cons]
      omega
    · exact ih hF hbs hn

theorem splitting_runOnFunction (hF : F.Valid) : Splitting F (runOnFunction F) [] :=
  Splitting.run ⟨.refl hF, fun h => h, List.Subset.refl _, fun _ hb => .inl hb⟩

theorem length_iterate (hF : F.Valid) (n : Nat) :
    (runOnFunction^[n] F).Valid ∧ (conditional (runOnFunction^[n] F)).length =
      (conditional F).length ∧ (runOnFunction^[n] F).layout.length =
        F.layout.length + n * (conditional F).length := by
  induction n with
  | zero => exact ⟨hF, rfl, by rw [Nat.zero_mul]; rfl⟩
  | succ n ih =>
    obtain ⟨hG, hcount, hlength⟩ := ih
    obtain ⟨hadd, hsame⟩ := length_foldl hG (List.Subset.refl _) hG.nodup
    rw [Function.iterate_succ_apply']
    refine ⟨(splitting_runOnFunction hG).keeps.valid, hsame.trans hcount, hadd.trans ?_⟩
    rw [show ((runOnFunction^[n] F).layout.filter _).length = _ from hcount, hlength,
      Nat.succ_mul, Nat.add_assoc]

/-- Each run of the pass puts every conditional branch by itself and keeps what is executed, and adds
as many blocks as the run before. -/
theorem runOnFunction_isolates (F : Function) (hF : F.Valid) (n : Nat) :
    F.Keeps (runOnFunction F) ∧
      (∀ b ∈ (runOnFunction F).layout, Isolated ((runOnFunction F).block b)) ∧
        (runOnFunction^[n] F).layout.length = F.layout.length + n * (conditional F).length :=
  ⟨(splitting_runOnFunction hF).keeps, fun b hb =>
    ((splitting_runOnFunction hF).isolated b hb).resolve_left List.not_mem_nil,
    (length_iterate hF n).2.2⟩

theorem runOnFunction_isolates_twoBarriers :
    HiveOff.twoBarriers.Keeps (runOnFunction HiveOff.twoBarriers) ∧
      (∀ b ∈ (runOnFunction HiveOff.twoBarriers).layout,
        Isolated ((runOnFunction HiveOff.twoBarriers).block b)) ∧
        (runOnFunction^[2] HiveOff.twoBarriers).layout.length = HiveOff.twoBarriers.layout.length +
          2 * (conditional HiveOff.twoBarriers).length :=
  runOnFunction_isolates HiveOff.twoBarriers HiveOff.twoBarriers_valid 2

end

end SplitBBAtCondBr

end VariOCL.IR
