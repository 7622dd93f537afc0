import VariOCL.BreakPhi.Basic

/-! What the `do` loop of `CollectUnbreakablePHIs` and `SplitAndSinkFromTo` finds: the backward slice
of a terminator within its block. -/

namespace VariOCL.IR

/-- Instruction `j` of the block, or its terminator, has `i` for an operand. -/
def BasicBlock.Uses (BB : BasicBlock) (j i : InstId) : Prop :=
  (∃ I ∈ BB.insts, I.id = j ∧ .inst i ∈ I.op.operands) ∨
    BB.termId = j ∧ .inst i ∈ BB.term.operands

/-- The terminator and the instructions of the block that it depends on within the block. -/
inductive BasicBlock.InSlice (BB : BasicBlock) : InstId → Prop
  | term : BB.InSlice BB.termId
  | used {j i : InstId} :
    BB.InSlice j → i ∈ BB.insts.map Instruction.id → BB.Uses j i → BB.InSlice i

namespace BreakPhi

section
variable {users : List (InstId × List Value)} {insts S : List InstId} {Inst TI i : InstId}

def IsUsed (users : List (InstId × List Value)) (S : List InstId) (i : InstId) : Prop :=
  ∃ u ∈ users, u.1 ∈ S ∧ .inst i ∈ u.2

theorem addUsed_cases (users : List (InstId × List Value)) (S : List InstId) (Inst : InstId) :
    (addUsed users S Inst = S ∧ (IsUsed users S Inst → Inst ∈ S)) ∨
      (addUsed users S Inst = Inst :: S ∧ Inst ∉ S ∧ IsUsed users S Inst) := by
  rw [addUsed]
  split
  · next h => exact .inr ⟨rfl, h⟩
  · next h => exact .inl ⟨rfl, fun hused => by_contra fun hS => h ⟨hS, hused⟩⟩

/-- What a round of the loop keeps. -/
structure Grown (TI : InstId) (insts S : List InstId) : Prop where
  nodup : S.Nodup
  subset : S ⊆ TI :: insts

theorem Grown.addUsed (h : Grown TI insts S) (hInst : Inst ∈ insts) :
    Grown TI insts (addUsed users S Inst) := by
  rcases addUsed_cases users S Inst with ⟨heq, -⟩ | ⟨heq, hS, -⟩
  · rwa [heq]
  · rw [heq]
    exact ⟨List.nodup_cons.mpr ⟨hS, h.nodup⟩,
      List.cons_subset.mpr ⟨List.mem_cons_of_mem _ hInst, h.subset⟩⟩

theorem Grown.length_le (h : Grown TI insts S) : S.length ≤ insts.length + 1 :=
  (h.nodup.subperm h.subset).length_le

theorem Grown.foldl_addUsed (h : Grown TI insts S) {round : List InstId} (hround : round ⊆ insts) :
    Grown TI insts (round.foldl (BreakPhi.addUsed users) S) := by
  induction round generalizing S with
  | nil => exact h
  | cons Inst round ih =>
    obtain ⟨hInst, hround⟩ := List.cons_subset.mp hround
    exact ih (h.addUsed hInst) hround

theorem subset_addUsed : S ⊆ addUsed users S Inst := by
  rcases addUsed_cases users S Inst with ⟨heq, -⟩ | ⟨heq, -⟩
  · rw [heq]
    exact List.Subset.refl _
  · rw [heq]
    exact List.subset_cons_self ..

theorem length_le_addUsed : S.length ≤ (addUsed users S Inst).length := by
  rcases addUsed_cases users S Inst with ⟨heq, -⟩ | ⟨heq, -⟩ <;> simp [heq]

theorem length_le_foldl_addUsed {round : List InstId} :
    S.length ≤ (round.foldl (addUsed users) S).length := by
  induction round generalizing S with
  | nil => exact Nat.le_refl _
  | cons Inst round ih => exact Nat.le_trans length_le_addUsed ih

theorem subset_foldl_addUsed {round : List InstId} : S ⊆ round.foldl (addUsed users) S := by
  induction round generalizing S with
  | nil => exact List.Subset.refl _
  | cons Inst round ih => exact List.Subset.trans subset_addUsed ih

/-- A round that finds nothing new leaves nothing to find. -/
theorem closed_of_length_foldl {round : List InstId}
    (h : (round.foldl (addUsed users) S).length = S.length) (hi : i ∈ round)
    (hused : IsUsed users S i) : i ∈ S := by
  induction round with
  | nil => cases hi
  | cons Inst round ih =>
    rw [List.foldl_cons] at h
    rcases addUsed_cases users S Inst with ⟨heq, hS⟩ | ⟨heq, -⟩
    · rw [heq] at h
      rcases List.mem_cons.mp hi with rfl | hi
      · exact hS hused
      · exact ih h hi
    · have hle : (addUsed users S Inst).length ≤ S.length := h ▸ length_le_foldl_addUsed
      rw [heq, List.length_cons] at hle
      exact absurd hle (Nat.not_succ_le_self _)

/-- The loop ends at a set that a further round does not change. -/
theorem findTransitiveUses_closed {n : Nat} (h : Grown TI insts S)
    (hn : insts.length + 1 < n + S.length) (hi : i ∈ insts)
    (hused : IsUsed users (findTransitiveUses users insts n S) i) :
    i ∈ findTransitiveUses users insts n S := by
  induction n generalizing S with
  | zero => exact absurd h.length_le (by omega)
  | succ n ih =>
    rw [findTransitiveUses] at hused ⊢
    split at hused
    · next heq =>
      rw [if_pos heq]
      exact closed_of_length_foldl heq hi hused
    · next hne =>
      rw [if_neg hne]
      have hle : S.length ≤ (insts.foldl (addUsed users) S).length := length_le_foldl_addUsed
      exact ih (h.foldl_addUsed (List.Subset.refl _)) (by omega) hused

theorem subset_findTransitiveUses {n : Nat} : S ⊆ findTransitiveUses users insts n S := by
  induction n generalizing S with
  | zero => exact List.Subset.refl _
  | succ n ih =>
    rw [findTransitiveUses]
    split
    · exact List.Subset.refl _
    · exact List.Subset.trans subset_foldl_addUsed ih

/-- What holds of the users holds of all that is found. -/
theorem findTransitiveUses_sound {P : InstId → Prop}
    (hP : ∀ j i, P j → i ∈ insts → (∃ u ∈ users, u.1 = j ∧ .inst i ∈ u.2) → P i) {n : Nat}
    (hS : ∀ i ∈ S, P i) : ∀ i ∈ findTransitiveUses users insts n S, P i := by
  have hround : ∀ round ⊆ insts, ∀ S : List InstId, (∀ i ∈ S, P i) →
      ∀ i ∈ round.foldl (addUsed users) S, P i := by
    intro round hround S hS
    induction round generalizing S with
    | nil => exact hS
    | cons Inst round ih =>
      obtain ⟨hInst, hround⟩ := List.cons_subset.mp hround
      refine ih hround _ fun i hi => ?_
      rcases addUsed_cases users S Inst with ⟨heq, -⟩ | ⟨heq, -, u, hu, huS, hinst⟩
      · exact hS i (heq ▸ hi)
      · rcases List.mem_cons.mp (heq ▸ hi) with rfl | hi
        · exact hP u.1 i (hS _ huS) hInst ⟨u, hu, rfl, hinst⟩
        · exact hS i hi
  induction n generalizing S with
  | zero => exact hS
  | succ n ih =>
    rw [findTransitiveUses]
    split
    · exact hS
    · exact ih (hround insts (List.Subset.refl _) S hS)

end

theorem uses_iff {BB : BasicBlock} {j i : InstId} :
    BB.Uses j i ↔ ∃ u ∈ usersIn BB.insts BB.termId BB.term, u.1 = j ∧ .inst i ∈ u.2 := by
  simp only [BasicBlock.Uses, usersIn, List.mem_append, List.mem_map, List.mem_singleton]
  constructor
  · rintro (⟨I, hI, rfl, hi⟩ | ⟨rfl, hi⟩)
    · exact ⟨_, .inl ⟨I, hI, rfl⟩, rfl, hi⟩
    · exact ⟨_, .inr rfl, rfl, hi⟩
  · rintro ⟨u, ⟨I, hI, rfl⟩ | rfl, rfl, hi⟩
    · exact .inl ⟨I, hI, rfl, hi⟩
    · exact .inr ⟨rfl, hi⟩

theorem mem_transitiveUsesByTI {BB : BasicBlock} {i : InstId} :
    i ∈ transitiveUsesByTI BB.insts BB.termId BB.term ↔ BB.InSlice i := by
  constructor
  · refine findTransitiveUses_sound (fun j i hj hi hused => ?_) (fun i hi => ?_) i
    · exact .used hj hi (uses_iff.mpr hused)
    · rw [List.mem_singleton.mp hi]
      exact .term
  · intro h
    induction h with
    | term => exact subset_findTransitiveUses (List.mem_singleton.mpr rfl)
    | @used j i _ hi huses ih =>
      obtain ⟨u, hu, rfl, hinst⟩ := uses_iff.mp huses
      have hgrown : Grown BB.termId (BB.insts.map Instruction.id) [BB.termId] :=
        ⟨List.nodup_singleton _, by simp⟩
      refine findTransitiveUses_closed hgrown ?_ hi ⟨u, hu, ih, hinst⟩
      simp

end BreakPhi

end VariOCL.IR
