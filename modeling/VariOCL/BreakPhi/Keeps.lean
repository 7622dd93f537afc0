import VariOCL.BreakPhi.Slice
import VariOCL.BreakPhi.Slots
import VariOCL.IR.ValidEdits

/-! What `SplitAndSink` leaves of the blocks it has not come to: their PHIs, and which of their old
instructions use which. -/

namespace VariOCL.IR

def BasicBlock.phiIds (BB : BasicBlock) : List InstId :=
  (BB.insts.filter (·.op.isPhi)).map Instruction.id

theorem BasicBlock.mem_phiIds {BB : BasicBlock} {i : InstId} :
    i ∈ BB.phiIds ↔ ∃ I ∈ BB.insts, I.op.isPhi ∧ I.id = i := by
  simp [BasicBlock.phiIds, and_assoc]

/-- Old instructions of `BB'` use those of `BB`, and none that is new. -/
structure BasicBlock.Keeps (n : InstId) (BB BB' : BasicBlock) : Prop where
  termId : BB'.termId = BB.termId
  ids : ∀ i < n, i ∈ BB'.insts.map Instruction.id ↔ i ∈ BB.insts.map Instruction.id
  uses : ∀ j < n, ∀ i < n, i ∈ BB.insts.map Instruction.id → (BB'.Uses j i ↔ BB.Uses j i)
  new : ∀ j < n, ∀ i ∈ BB'.insts.map Instruction.id, n ≤ i → ¬ BB'.Uses j i

namespace BasicBlock.Keeps
variable {n q l : InstId} {BB BB' BB'' : BasicBlock} {I : Instruction}

theorem refl (hBB : ∀ i ∈ BB.insts.map Instruction.id, i < n) : Keeps n BB BB :=
  ⟨rfl, fun _ _ => Iff.rfl, fun _ _ _ _ _ => Iff.rfl,
    fun _ _ i hi hle => absurd (hBB i hi) (Nat.not_lt.mpr hle)⟩

theorem step (h : Keeps n BB BB') (htermId : BB''.termId = BB'.termId)
    (hids : ∀ i < n, i ∈ BB''.insts.map Instruction.id ↔ i ∈ BB'.insts.map Instruction.id)
    (huses : ∀ j < n, ∀ i ∈ BB''.insts.map Instruction.id,
      (BB''.Uses j i ↔ i ∈ BB'.insts.map Instruction.id ∧ BB'.Uses j i)) : Keeps n BB BB'' where
  termId := htermId.trans h.termId
  ids i hi := (hids i hi).trans (h.ids i hi)
  uses j hj i hi hmem := by
    have hmem' := (h.ids i hi).mpr hmem
    rw [huses j hj i ((hids i hi).mpr hmem'), ← h.uses j hj i hi hmem]
    exact and_iff_right hmem'
  new j hj i hmem hle huse := by
    obtain ⟨hmem', huse⟩ := (huses j hj i hmem).mp huse
    exact h.new j hj i hmem' hle huse

/-- The slice is the same. -/
theorem inSlice (h : Keeps n BB BB') (hterm : BB.termId < n)
    (hBB : ∀ i ∈ BB.insts.map Instruction.id, i < n) {i : InstId} :
    BB'.InSlice i ↔ BB.InSlice i := by
  constructor
  · intro hi
    suffices i < n ∧ BB.InSlice i from this.2
    induction hi with
    | term =>
      rw [h.termId]
      exact ⟨hterm, .term⟩
    | @used j i _ hmem huse ih =>
      have hi : i < n := Nat.not_le.mp fun hle => h.new j ih.1 i hmem hle huse
      have hmem' := (h.ids i hi).mp hmem
      exact ⟨hi, .used ih.2 hmem' ((h.uses j ih.1 i hi hmem').mp huse)⟩
  · intro hi
    suffices i < n ∧ BB'.InSlice i from this.2
    induction hi with
    | term => exact ⟨hterm, h.termId ▸ .term⟩
    | @used j i _ hmem huse ih =>
      have hi := hBB i hmem
      exact ⟨hi, .used ih.2 ((h.ids i hi).mpr hmem) ((h.uses j ih.1 i hi hmem).mpr huse)⟩

/-- An instruction that is new and not used. -/
theorem insert (h : Keeps n BB BB') (htermId : BB''.termId = BB'.termId)
    (hterm : BB''.term = BB'.term) (hmem : ∀ J, J ∈ BB''.insts ↔ J = I ∨ J ∈ BB'.insts)
    (hn : n ≤ I.id) (hunused : .inst I.id ∉ BB'.values) : Keeps n BB BB'' := by
  have hids : ∀ i, i ∈ BB''.insts.map Instruction.id ↔
      i = I.id ∨ i ∈ BB'.insts.map Instruction.id := by
    intro i
    simp only [List.mem_map, hmem, or_and_right, exists_or, exists_eq_left]
    exact or_congr_left eq_comm
  have huses : ∀ j < n, ∀ i, BB''.Uses j i ↔ BB'.Uses j i := by
    intro j hj i
    rw [BasicBlock.Uses, BasicBlock.Uses, htermId, hterm]
    refine or_congr_left ⟨?_, Exists.imp fun J hJ => ⟨(hmem J).mpr (.inr hJ.1), hJ.2⟩⟩
    rintro ⟨J, hJ, rfl, hi⟩
    rcases (hmem J).mp hJ with rfl | hJ
    · exact absurd hj (Nat.not_lt.mpr hn)
    · exact ⟨J, hJ, rfl, hi⟩
  refine h.step htermId (fun i hi => ?_) fun j hj i hi => ?_
  · rw [hids]
    exact or_iff_right fun heq => Nat.not_lt.mpr hn (heq ▸ hi)
  · rw [huses j hj]
    refine ⟨fun huse => ⟨((hids i).mp hi).resolve_left ?_, huse⟩, And.right⟩
    rintro rfl
    refine hunused (BasicBlock.mem_values.mpr ?_)
    rcases huse with ⟨J, hJ, -, huse⟩ | ⟨-, huse⟩
    · exact .inl ⟨J, hJ, huse⟩
    · exact .inr huse

theorem replace_eq_inst_iff {v : Value} {i : InstId} (hq : i ≠ q) (hl : i ≠ l) :
    Value.replace q (.inst l) v = .inst i ↔ v = .inst i := by
  rw [Value.replace]
  split
  · next heq =>
    rw [heq]
    simp [Ne.symm hq, Ne.symm hl]
  · rfl

/-- The replaced value and the one for it are of other blocks. -/
theorem replace (h : Keeps n BB BB') (hq : q ∉ BB'.insts.map Instruction.id)
    (hl : l ∉ BB'.insts.map Instruction.id) :
    Keeps n BB (BB'.mapValues (Value.replace q (.inst l))) := by
  have hids : (BB'.mapValues (Value.replace q (.inst l))).insts.map Instruction.id =
      BB'.insts.map Instruction.id := by
    simp [Function.comp_def]
  refine h.step rfl (fun i _ => by rw [hids]) fun j _ i hi => ?_
  rw [hids] at hi
  have hinst : ∀ vs : List Value, .inst i ∈ vs.map (Value.replace q (.inst l)) ↔ .inst i ∈ vs := by
    intro vs
    have hv : ∀ v, Value.replace q (.inst l) v = .inst i ↔ v = .inst i := fun v =>
      replace_eq_inst_iff (fun heq => hq (heq ▸ hi)) fun heq => hl (heq ▸ hi)
    simp [hv]
  rw [and_iff_right hi]
  simp only [BasicBlock.Uses, BasicBlock.insts_mapValues, BasicBlock.term_mapValues,
    Terminator.operands_mapValues, List.mem_map, exists_exists_and_eq_and, Instruction.id_mapValues,
    Instruction.op_mapValues, Op.operands_mapValues]
  simp only [← List.mem_map, hinst]
  rfl

/-- Other incoming blocks. -/
theorem mapBlocks (h : Keeps n BB BB') (g : BlockId → BlockId) :
    Keeps n BB { BB' with insts := BB'.insts.map (Instruction.mapBlocks g) } := by
  have hids := BasicBlock.ids_map_mapBlocks g BB'.insts
  refine h.step rfl (fun i _ => by rw [hids]) fun j _ i hi => ?_
  rw [hids] at hi
  rw [and_iff_right hi]
  simp only [BasicBlock.Uses, List.mem_map, exists_exists_and_eq_and, Instruction.id_mapBlocks]
  simp only [Instruction.mapBlocks, Op.operands_mapBlocks]

end BasicBlock.Keeps

end VariOCL.IR
