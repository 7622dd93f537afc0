import VariOCL.LoopInserter.Flood
import VariOCL.HiveOff.NormalForm

/-! `EnsureARealEntryOnTopABarrierEntry` puts a block of code on top of the entry barrier. -/

namespace VariOCL.IR

/-- The entry is a block of code on top of one barrier block. -/
structure Function.RealEntry (F : Function) : Prop where
  code : hasBarrier (F.block F.entry) = false
  top : ∃ b, F.succs F.entry = [b] ∧ hasBarrier (F.block b)

namespace LoopInserter

variable {F G : Function} {b : BlockId}

theorem ensureARealEntry_eq (h : ensureARealEntryOnTopABarrierEntry F = .ok G) :
    containsJustABarrier (F.block F.entry) ∧
      G = F.splitBlock F.entry (F.block F.entry).front := by
  unfold ensureARealEntryOnTopABarrierEntry at h
  split at h
  · cases h
  split at h
  · cases h
  split at h
  · cases h
  · cases h
    exact ⟨by simpa using ‹¬ (!containsJustABarrier (F.block F.entry)) = true›, rfl⟩

theorem splitBlock_front_insts (hF : F.Valid) :
    ((F.splitBlock F.entry (F.block F.entry).front).block F.entry).insts = [] ∧
      ((F.splitBlock F.entry (F.block F.entry).front).block F.freshBlock).insts =
        (F.block F.entry).insts := by
  have hfront := HiveOff.split_at_front hF
  rw [F.block_splitBlock_old F.entry_mem_layout, F.block_splitBlock_new, hfront]
  refine ⟨rfl, ?_⟩
  rw [← BasicBlock.beforeSplit_append_afterSplit (F.block F.entry) (F.block F.entry).front, hfront]
  rfl

theorem ensureARealEntry_hivedOff (hF : F.Valid) (hH : F.HivedOff)
    (h : ensureARealEntryOnTopABarrierEntry F = .ok G) :
    G.Valid ∧ G.HivedOffBelow ∧ G.RealEntry := by
  obtain ⟨hjust, rfl⟩ := ensureARealEntry_eq h
  obtain ⟨hold, hnew⟩ := splitBlock_front_insts hF
  have hentry := F.entry_mem_layout
  have hcode : hasBarrier ((F.splitBlock F.entry (F.block F.entry).front).block F.entry) =
      false := by rw [hasBarrier, hold]; rfl
  have hjnew : containsJustABarrier
      ((F.splitBlock F.entry (F.block F.entry).front).block F.freshBlock) :=
    (HiveOff.containsJustABarrier_congr hnew).trans hjust
  refine ⟨hF.splitBlock hentry _, ⟨fun b hb hbar => ?_, fun b hb hsucc => ?_,
    fun b hb hne hbar => ?_⟩, hcode, F.freshBlock, F.succs_splitBlock_old hentry,
    hasBarrier_of_containsJustABarrier hjnew⟩
  all_goals
    rw [F.mem_layout_splitBlock hF.nodup hentry] at hb
    rcases eq_or_ne b F.freshBlock with rfl | hfresh
  · exact hjnew
  · rcases eq_or_ne b F.entry with rfl | hbe
    · exact absurd (hcode.symm.trans hbar) Bool.false_ne_true
    · have hb := hb.resolve_left hfresh
      rw [HiveOff.containsJustABarrier_splitBlock hb hbe]
      rw [F.block_splitBlock hb hbe, hasBarrier_map] at hbar
      exact hH.alone b hb hbar
  · exact hjnew
  · rcases eq_or_ne b F.entry with rfl | hbe
    · rw [F.succs_splitBlock_old hentry] at hsucc
      cases hsucc
    · have hb := hb.resolve_left hfresh
      rw [F.succs_splitBlock hb hbe] at hsucc
      rw [HiveOff.containsJustABarrier_splitBlock hb hbe]
      exact hH.exits b hb hsucc
  · exact ⟨F.entry, F.predEdges_splitBlock_new hF hentry, by rw [F.block_splitBlock_old hentry]⟩
  · rcases eq_or_ne b F.entry with rfl | hbe
    · exact absurd (hcode.symm.trans hbar) Bool.false_ne_true
    · have hb := hb.resolve_left hfresh
      rw [F.block_splitBlock hb hbe, hasBarrier_map] at hbar
      have halone : HiveOff.Alone F b := ⟨hH.alone b hb hbar, fun he => hH.pred b hb he hbar⟩
      exact (halone.splitBlock hF hentry hb hbe).2 hne

end LoopInserter

end VariOCL.IR
