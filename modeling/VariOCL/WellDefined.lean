import VariOCL.BreakPhi.Step
import VariOCL.IR.Arrives
import VariOCL.IR.Keeps

/-! Splitting a block and adding a barrier keep SSA form. -/

namespace VariOCL.IR

open VariOCL.Graph (Avoiding)
open BreakPhi (SSA)

theorem pair_sublist_append {α : Type*} {x y : α} {as bs : List α} (h : [x, y].Sublist (as ++ bs)) :
    [x, y].Sublist as ∨ x ∈ as ∧ y ∈ bs ∨ [x, y].Sublist bs := by
  obtain ⟨l₁, l₂, heq, h₁, h₂⟩ := List.sublist_append_iff.mp h
  cases l₁ with
  | nil => exact .inr (.inr (heq ▸ h₂))
  | cons z l₁ =>
    cases l₁ with
    | nil =>
      simp only [List.cons_append, List.nil_append, List.cons.injEq] at heq
      obtain ⟨rfl, rfl⟩ := heq
      exact .inr (.inl ⟨h₁.subset List.mem_cons_self, h₂.subset List.mem_cons_self⟩)
    | cons z' l₁ =>
      simp only [List.cons_append, List.cons.injEq] at heq
      obtain ⟨rfl, rfl, hnil⟩ := heq
      obtain ⟨rfl, -⟩ := List.append_eq_nil_iff.mp hnil.symm
      exact .inl h₁

theorem pair_sublist_left {α : Type*} {x y : α} {as bs : List α} (hn : (as ++ bs).Nodup)
    (hy : y ∈ as) (h : [x, y].Sublist (as ++ bs)) : [x, y].Sublist as := by
  have hdisj := (List.nodup_append.mp hn).2.2
  rcases pair_sublist_append h with h | ⟨-, hyb⟩ | h
  · exact h
  · exact absurd rfl (hdisj y hy y hyb)
  · exact absurd rfl (hdisj y hy y (h.subset (List.mem_cons_of_mem x List.mem_cons_self)))

theorem pair_sublist_right {α : Type*} {x y : α} {as bs : List α} (hn : (as ++ bs).Nodup)
    (hy : y ∈ bs) (h : [x, y].Sublist (as ++ bs)) : x ∈ as ∨ [x, y].Sublist bs := by
  have hdisj := (List.nodup_append.mp hn).2.2
  rcases pair_sublist_append h with h | ⟨hx, -⟩ | h
  · exact absurd rfl (hdisj y (h.subset (List.mem_cons_of_mem x List.mem_cons_self)) y hy)
  · exact .inl hx
  · exact .inr h

section
variable {F : Function} {Old b c d d' : BlockId} {SplitPt i j u : InstId}

theorem rename_of_ne {New : BlockId} (h : b ≠ Old) : rename Old New b = b := if_neg h

theorem rename_self {New : BlockId} : rename Old New Old = New := if_pos rfl

/-- A block and what is behind it come of one block. -/
theorem Function.eq_of_split (hb : b ∈ F.layout) (hc : c = b ∨ c = rename Old F.freshBlock b) :
    (if c = F.freshBlock then Old else c) = b := by
  rcases hc with rfl | rfl
  · exact if_neg (F.ne_freshBlock hb)
  · by_cases hbo : b = Old
    · rw [hbo, rename_self, if_pos rfl]
    · rw [rename_of_ne hbo, if_neg (F.ne_freshBlock hb)]

theorem Function.rename_inj (hb : b ∈ F.layout) (hc : c ∈ F.layout)
    (h : rename Old F.freshBlock b = rename Old F.freshBlock c) : b = c :=
  (F.eq_of_split hb (.inr rfl)).symm.trans (F.eq_of_split hc (.inr h))

variable (hF : F.Valid) (ho : Old ∈ F.layout)
include hF ho

/-- The block that is left as `d` was is behind what is behind `d`. -/
theorem Function.dominates_split (hb : b ∈ F.layout) (hne : b ≠ d) (hdom : F.Dominates d b) :
    (F.splitBlock Old SplitPt).Dominates (rename Old F.freshBlock d) b := by
  refine Graph.dominates_iff.mpr fun havoid => Graph.dominates_iff.mp hdom ?_
  have hkey : ∀ x, Relation.ReflTransGen (fun x y => (F.splitBlock Old SplitPt).Edge x y ∧
      y ≠ rename Old F.freshBlock d) F.entry x →
      x = F.freshBlock ∧ Old ≠ d ∧ Avoiding F.Edge d F.entry Old ∨
        x ∈ F.layout ∧ (x = d → d = Old) ∧ (x ≠ d → Avoiding F.Edge d F.entry x) := by
    intro x hx
    induction hx with
    | refl =>
      refine .inr ⟨F.entry_mem_layout, fun hd => ?_, fun hd => .refl hd⟩
      by_contra hne
      exact havoid.1 (hd.trans (rename_of_ne hne).symm)
    | @tail x y _ hxy ih =>
      obtain ⟨hxy, hy⟩ := hxy
      have hlayout : ∀ z ∈ F.layout, y ∈ F.succs z → z ≠ d → Avoiding F.Edge d F.entry z →
          y ∈ F.layout ∧ (y = d → d = Old) ∧ (y ≠ d → Avoiding F.Edge d F.entry y) := by
        intro z hz hzy _ hav
        refine ⟨hF.closed z hz y hzy, fun hyd => ?_, fun hyd => hav.tail hzy hyd⟩
        by_contra hne
        exact hy (hyd.trans (rename_of_ne hne).symm)
      rcases ih with ⟨rfl, hod, hav⟩ | ⟨hx, hxd, hav⟩
      · have hxy : y ∈ F.succs Old := F.succs_splitBlock_new ▸ hxy
        exact .inr (hlayout Old ho hxy hod hav)
      · by_cases hxo : x = Old
        · subst hxo
          have hxy : y ∈ [F.freshBlock] := F.succs_splitBlock_old ho ▸ hxy
          obtain rfl := List.mem_singleton.mp hxy
          have hod : x ≠ d := by
            rintro rfl
            exact hy rename_self.symm
          exact .inl ⟨rfl, hod, hav hod⟩
        · have hxy : y ∈ F.succs x := F.succs_splitBlock hx hxo ▸ hxy
          have hne : x ≠ d := fun h => hxo (h.trans (hxd h))
          exact .inr (hlayout x hx hxy hne (hav hne))
  rcases hkey b havoid.2 with ⟨rfl, -⟩ | ⟨-, -, hav⟩
  · exact absurd hb F.freshBlock_not_mem
  · exact hav hne

omit ho in
theorem Function.dominates_freshBlock :
    (F.splitBlock Old SplitPt).Dominates Old F.freshBlock := by
  refine Graph.dominates_iff.mpr fun havoid => ?_
  have hmem : ∀ x, Relation.ReflTransGen (fun x y => (F.splitBlock Old SplitPt).Edge x y ∧ y ≠ Old)
      F.entry x → x ∈ F.layout ∧ x ≠ Old := by
    intro x hx
    induction hx with
    | refl => exact ⟨F.entry_mem_layout, havoid.1⟩
    | @tail x y _ hxy ih =>
      have hxy' : y ∈ F.succs x := F.succs_splitBlock ih.1 ih.2 ▸ hxy.1
      exact ⟨hF.closed x ih.1 y hxy', hxy.2⟩
  exact F.freshBlock_not_mem (hmem _ havoid.2).1

theorem Function.dominates_rename : (F.splitBlock Old SplitPt).Dominates d
    (rename Old F.freshBlock d) := by
  by_cases hd : d = Old
  · subst hd
    rw [rename_self]
    exact F.dominates_freshBlock hF
  · rw [rename_of_ne hd]
    exact .refl

theorem Function.reachable_split (h : (F.splitBlock Old SplitPt).Reachable c) :
    c = F.freshBlock ∧ F.Reachable Old ∨ c ∈ F.layout ∧ F.Reachable c := by
  induction h with
  | refl => exact .inr ⟨F.entry_mem_layout, .refl⟩
  | @tail x y _ hxy ih =>
    rcases ih with ⟨rfl, hr⟩ | ⟨hx, hr⟩
    · have hxy : y ∈ F.succs Old := F.succs_splitBlock_new ▸ hxy
      exact .inr ⟨hF.closed Old ho y hxy, hr.tail hxy⟩
    · by_cases hxo : x = Old
      · subst hxo
        have hxy : y ∈ [F.freshBlock] := F.succs_splitBlock_old ho ▸ hxy
        exact .inl ⟨List.mem_singleton.mp hxy, hr⟩
      · have hxy : y ∈ F.succs x := F.succs_splitBlock hx hxo ▸ hxy
        exact .inr ⟨hF.closed x hx y hxy, hr.tail hxy⟩

theorem Function.mem_insts_split (SplitPt : InstId) {K : Instruction} (hd : d ∈ F.layout)
    (hK : K ∈ (F.block d).insts) : ∃ d', (d' = d ∨ d' = rename Old F.freshBlock d) ∧
      d' ∈ (F.splitBlock Old SplitPt).layout ∧
      K.id ∈ ((F.splitBlock Old SplitPt).block d').insts.map Instruction.id := by
  have hmem := @F.mem_layout_splitBlock Old SplitPt hF.nodup ho
  by_cases hdo : d = Old
  · subst hdo
    rw [← BasicBlock.beforeSplit_append_afterSplit _ SplitPt] at hK
    rcases List.mem_append.mp hK with hK | hK
    · refine ⟨d, .inl rfl, hmem.mpr (.inr hd), ?_⟩
      rw [F.block_splitBlock_old hd, BasicBlock.ids_map_mapBlocks]
      exact List.mem_map_of_mem hK
    · refine ⟨F.freshBlock, .inr rename_self.symm, hmem.mpr (.inl rfl), ?_⟩
      rw [F.block_splitBlock_new]
      exact List.mem_map_of_mem hK
  · refine ⟨d, .inl rfl, hmem.mpr (.inr hd), ?_⟩
    rw [F.block_splitBlock hd hdo, BasicBlock.ids_map_mapBlocks]
    exact List.mem_map_of_mem hK

/-- What is executed before the end of `d` is so before the end of what `d` became. -/
theorem Function.dominates_of_split (h : d' = d ∨ d' = rename Old F.freshBlock d)
    (hb : b ∈ F.layout) (hc : c = b ∨ c = rename Old F.freshBlock b) (hne : b ≠ d)
    (hdom : F.Dominates d b) : (F.splitBlock Old SplitPt).Dominates d' c := by
  have hd : (F.splitBlock Old SplitPt).Dominates d' (rename Old F.freshBlock d) := by
    rcases h with rfl | rfl
    · exact F.dominates_rename hF ho
    · exact .refl
  have hbc : (F.splitBlock Old SplitPt).Dominates b c := by
    rcases hc with rfl | rfl
    · exact .refl
    · exact F.dominates_rename hF ho
  exact (hd.trans (F.dominates_split hF ho hb hne hdom)).trans hbc

/-- In the block that is split, a definition above its use stays in front or gets behind with it. -/
theorem Function.definedAbove_split_old (h : [j, u].Sublist (F.block Old).instIds)
    (hc : c = Old ∨ c = F.freshBlock) (hu : u ∈ ((F.splitBlock Old SplitPt).block c).instIds) :
    (F.splitBlock Old SplitPt).DefinedAbove c u j := by
  have hn := hF.instIds_nodup ho
  have hids : (F.block Old).instIds = ((F.block Old).beforeSplit SplitPt).map Instruction.id ++
      (((F.block Old).afterSplit SplitPt).map Instruction.id ++ [(F.block Old).termId]) := by
    rw [BasicBlock.instIds, ← List.append_assoc, ← List.map_append,
      BasicBlock.beforeSplit_append_afterSplit]
  have huF := h.subset (List.mem_cons_of_mem j List.mem_cons_self)
  rw [hids] at h hn
  rcases hc with rfl | rfl
  · rw [F.block_splitBlock_old ho, BasicBlock.instIds, BasicBlock.ids_map_mapBlocks] at hu
    have hleft : u ∈ ((F.block c).beforeSplit SplitPt).map Instruction.id := by
      refine (List.mem_append.mp hu).resolve_right fun hu => ?_
      have hfresh : u = F.freshInst := List.mem_singleton.mp hu
      exact absurd (F.lt_freshInst (Function.mem_instIds.mpr ⟨c, ho, hfresh ▸ huF⟩))
        (Nat.lt_irrefl _)
    refine .inl ?_
    rw [F.block_splitBlock_old ho, BasicBlock.instIds, BasicBlock.ids_map_mapBlocks]
    exact (pair_sublist_left hn hleft h).trans (List.sublist_append_left _ _)
  · rw [F.block_splitBlock_new] at hu
    rcases pair_sublist_right hn hu h with hj | h
    · refine .inr ⟨Old, (F.mem_layout_splitBlock hF.nodup ho).mpr (.inr ho), F.ne_freshBlock ho,
        F.dominates_freshBlock hF, ?_⟩
      rw [F.block_splitBlock_old ho, BasicBlock.ids_map_mapBlocks]
      exact hj
    · refine .inl ?_
      rw [F.block_splitBlock_new]
      exact h

theorem Function.definedAbove_split (h : F.DefinedAbove b u j) (hb : b ∈ F.layout)
    (hc : c = b ∨ c = rename Old F.freshBlock b)
    (hu : u ∈ ((F.splitBlock Old SplitPt).block c).instIds) :
    (F.splitBlock Old SplitPt).DefinedAbove c u j := by
  rcases h with hju | ⟨d, hd, hne, hdom, hj⟩
  · by_cases hbo : b = Old
    · subst hbo
      rw [rename_self] at hc
      exact F.definedAbove_split_old hF ho hju hc hu
    · have hcb : c = b := hc.elim id fun h => h.trans (rename_of_ne hbo)
      subst hcb
      refine .inl ?_
      rw [F.block_splitBlock hb hbo, BasicBlock.instIds, BasicBlock.ids_map_mapBlocks]
      exact hju
  · obtain ⟨K, hK, rfl⟩ := List.mem_map.mp hj
    obtain ⟨d', hd', hlayout, hids⟩ := F.mem_insts_split hF ho SplitPt hd hK
    refine .inr ⟨d', hlayout, ?_, F.dominates_of_split hF ho hd' hb hc hne.symm hdom, hids⟩
    rintro rfl
    exact hne ((F.eq_of_split hd hd').symm.trans (F.eq_of_split hb hc))

theorem Function.reachable_of_split (hb : b ∈ F.layout) (hc : c = b ∨ c = rename Old F.freshBlock b)
    (h : (F.splitBlock Old SplitPt).Reachable c) : F.Reachable b := by
  have heq := F.eq_of_split hb hc
  rcases F.reachable_split hF ho h with ⟨rfl, hr⟩ | ⟨hmem, hr⟩
  · rw [if_pos rfl] at heq
    exact heq ▸ hr
  · rw [if_neg (F.ne_freshBlock hmem)] at heq
    exact heq ▸ hr

theorem Function.dominates_ending (h : d' = d ∨ d' = rename Old F.freshBlock d) (hb : b ∈ F.layout)
    (hdom : F.Dominates d b) :
    (F.splitBlock Old SplitPt).Dominates d' (rename Old F.freshBlock b) := by
  by_cases hbd : b = d
  · subst hbd
    rcases h with rfl | rfl
    · exact F.dominates_rename hF ho
    · exact .refl
  · exact F.dominates_of_split hF ho h hb (.inr rfl) hbd hdom

/-- The instructions and the terminator of a block were those of the block it comes of. -/
theorem Function.insts_split (hc : c ∈ (F.splitBlock Old SplitPt).layout) :
    ∃ b ∈ F.layout, (c = b ∨ c = rename Old F.freshBlock b) ∧
      (∀ I ∈ ((F.splitBlock Old SplitPt).block c).insts, ∃ K ∈ (F.block b).insts,
        I = K.mapBlocks (F.splitRename Old b) ∧ (K.op.isPhi → c = b)) ∧
      ∀ v ∈ ((F.splitBlock Old SplitPt).block c).term.operands,
        v ∈ (F.block b).term.operands ∧
          ((F.splitBlock Old SplitPt).block c).termId = (F.block b).termId := by
  rcases (F.mem_layout_splitBlock hF.nodup ho).mp hc with rfl | hmem
  · refine ⟨Old, ho, .inr rename_self.symm, fun I hI => ?_, fun v hv => ?_⟩
    · rw [F.block_splitBlock_new] at hI
      have hphi := hF.not_phi_afterSplit ho hI
      exact ⟨I, BasicBlock.mem_of_mem_afterSplit hI, (Instruction.mapBlocks_of_not_phi hphi).symm,
        fun h => absurd (hphi.symm.trans h) Bool.false_ne_true⟩
    · rw [F.block_splitBlock_new] at hv ⊢
      exact ⟨hv, rfl⟩
  · by_cases hco : c = Old
    · subst hco
      refine ⟨c, hmem, .inl rfl, fun I hI => ?_, fun v hv => ?_⟩
      · rw [F.block_splitBlock_old hmem] at hI
        obtain ⟨K, hK, rfl⟩ := List.mem_map.mp hI
        exact ⟨K, BasicBlock.mem_of_mem_beforeSplit hK, rfl, fun _ => rfl⟩
      · rw [F.block_splitBlock_old hmem] at hv
        cases hv
    · refine ⟨c, hmem, .inl rfl, fun I hI => ?_, fun v hv => ?_⟩
      · rw [F.block_splitBlock hmem hco] at hI
        obtain ⟨K, hK, rfl⟩ := List.mem_map.mp hI
        exact ⟨K, hK, rfl, fun _ => rfl⟩
      · rw [F.block_splitBlock hmem hco] at hv ⊢
        exact ⟨hv, rfl⟩

omit hF ho in
theorem Function.end_rename (hb : b ∈ F.layout) :
    ((F.splitBlock Old SplitPt).block (rename Old F.freshBlock b)).termId = (F.block b).termId ∧
      (F.splitBlock Old SplitPt).succs (rename Old F.freshBlock b) = F.succs b := by
  by_cases hbo : b = Old
  · rw [hbo, rename_self, F.block_splitBlock_new, F.succs_splitBlock_new]
    exact ⟨rfl, rfl⟩
  · rw [rename_of_ne hbo, F.block_splitBlock hb hbo, F.succs_splitBlock hb hbo]
    exact ⟨rfl, rfl⟩

end

theorem Op.incoming_mapBlocks (g : BlockId → BlockId) (op : Op) :
    (op.mapBlocks g).incoming = op.incoming.map fun p => (p.1, g p.2) := by
  cases op <;> rfl

theorem Function.splitRename_of_mem {F : Function} {Old b q : BlockId} (h : b ∈ F.succs q) :
    F.splitRename Old b q = rename Old F.freshBlock q := by
  by_cases hq : q = Old
  · subst hq
    rw [splitRename, if_pos h]
  · rw [rename_of_ne hq, splitRename]
    split
    · exact rename_of_ne hq
    · rfl

/-- SSA form: every value is defined above its uses, and PHIs take values from predecessors. -/
structure Function.WellDefined (F : Function) : Prop where
  ssa : SSA F
  operands : F.OperandsDefined
  above : F.DefinesBeforeUse
  follows : ∀ b ∈ F.layout, ∀ I ∈ (F.block b).insts, ∀ p ∈ I.op.incoming, b ∈ F.succs p.2

section
variable {F : Function} {Old b c : BlockId} {SplitPt : InstId} (h : F.WellDefined)
include h

theorem Function.WellDefined.mem_incoming {I : Instruction} {p : Value × BlockId}
    (hb : b ∈ F.layout) (hI : I ∈ (F.block b).insts) (hp : p ∈ I.op.incoming) : p.2 ∈ F.layout := by
  refine h.ssa.valid.incoming b hb I hI p.2 ?_
  obtain ⟨id, ty, op⟩ := I
  cases op with
  | phi incoming => exact List.mem_map_of_mem hp
  | _ => cases hp

variable (ho : Old ∈ F.layout)
include ho

/-- A PHI takes its values from what its blocks became. -/
theorem Function.WellDefined.incoming_split {I : Instruction} {p : Value × BlockId}
    (hc : c ∈ (F.splitBlock Old SplitPt).layout)
    (hI : I ∈ ((F.splitBlock Old SplitPt).block c).insts) (hp : p ∈ I.op.incoming) :
    c ∈ F.layout ∧ ∃ K ∈ (F.block c).insts, ∃ q ∈ K.op.incoming,
      I = K.mapBlocks (F.splitRename Old c) ∧ p = (q.1, rename Old F.freshBlock q.2) := by
  obtain ⟨b, hb, -, hinsts, -⟩ := F.insts_split h.ssa.valid ho hc
  obtain ⟨K, hK, rfl, hphi⟩ := hinsts I hI
  obtain ⟨q, hq, rfl⟩ := List.mem_map.mp (Op.incoming_mapBlocks _ K.op ▸ hp)
  have hKphi : K.op.isPhi := by
    obtain ⟨id, ty, op⟩ := K
    cases op with
    | phi incoming => rfl
    | _ => cases hq
  obtain rfl := hphi hKphi
  rw [F.splitRename_of_mem (h.follows c hb K hK q hq)]
  exact ⟨hb, K, hK, q, hq, rfl, rfl⟩

theorem Function.WellDefined.splitBlock (SplitPt : InstId) :
    (F.splitBlock Old SplitPt).WellDefined := by
  have hF := h.ssa.valid
  refine ⟨⟨hF.splitBlock ho SplitPt, ?_, ?_⟩, ?_, ⟨?_, ?_, ?_⟩, ?_⟩
  · intro c hc I hI p hp i hi
    obtain ⟨hcF, K, hK, q, hq, -, rfl⟩ := h.incoming_split ho hc hI hp
    obtain ⟨d, hd, hdom, hid⟩ := h.ssa.defined c hcF K hK q hq i hi
    obtain ⟨J, hJ, rfl⟩ := List.mem_map.mp hid
    obtain ⟨d', hd', hmem, hids⟩ := F.mem_insts_split hF ho SplitPt hd hJ
    exact ⟨d', hmem, F.dominates_ending hF ho hd' (h.mem_incoming hcF hK hq) hdom, hids⟩
  · intro c hc I hI p hp p' hp' heq
    obtain ⟨hcF, K, hK, q, hq, hIK, rfl⟩ := h.incoming_split ho hc hI hp
    obtain ⟨-, K', hK', q', hq', hIK', rfl⟩ := h.incoming_split ho hc hI hp'
    have hKK : K = K' := by
      have hids : K.id = K'.id := by simpa using congrArg Instruction.id (hIK.symm.trans hIK')
      exact List.inj_on_of_nodup_map (List.nodup_append.mp (hF.instIds_nodup hcF)).1 hK hK' hids
    subst hKK
    exact h.ssa.unique c hcF K hK q hq q' hq'
      (F.rename_inj (h.mem_incoming hcF hK hq) (h.mem_incoming hcF hK hq') heq)
  · intro c hc i hi
    obtain ⟨b, hb, -, hinsts, hterm⟩ := F.insts_split hF ho hc
    refine (F.perm_instIds_splitBlock hF.nodup ho).mem_iff.mpr (List.mem_cons_of_mem _ ?_)
    refine h.operands b hb i (BasicBlock.mem_values.mpr ?_)
    rcases BasicBlock.mem_values.mp hi with ⟨I, hI, hi⟩ | hi
    · obtain ⟨K, hK, rfl, -⟩ := hinsts I hI
      exact .inl ⟨K, hK, Op.operands_mapBlocks _ K.op ▸ hi⟩
    · exact .inr (hterm _ hi).1
  · intro c hc hr I hI hphi j hj
    obtain ⟨b, hb, hcb, hinsts, -⟩ := F.insts_split hF ho hc
    obtain ⟨K, hK, rfl, -⟩ := hinsts I hI
    refine F.definedAbove_split hF ho (h.above.inst b hb (F.reachable_of_split hF ho hb hcb hr) K hK
      (Instruction.isPhi_mapBlocks _ K ▸ hphi) j (Op.operands_mapBlocks _ K.op ▸ hj)) hb hcb ?_
    exact List.mem_append_left _ (List.mem_map_of_mem hI)
  · intro c hc hr j hj
    obtain ⟨b, hb, hcb, -, hterm⟩ := F.insts_split hF ho hc
    obtain ⟨hv, hid⟩ := hterm _ hj
    have habove := h.above.term b hb (F.reachable_of_split hF ho hb hcb hr) j hv
    rw [← hid] at habove
    exact F.definedAbove_split hF ho habove hb hcb (List.mem_append_right _ List.mem_cons_self)
  · intro c hc hr I hI p hp hrp j hj
    obtain ⟨hcF, K, hK, q, hq, -, rfl⟩ := h.incoming_split ho hc hI hp
    have hmem := h.mem_incoming hcF hK hq
    have habove := h.above.phi c hcF (F.reachable_of_split hF ho hcF (.inl rfl) hr) K hK q hq
      (F.reachable_of_split hF ho hmem (.inr rfl) hrp) j hj
    rw [← (F.end_rename hmem).1] at habove
    exact F.definedAbove_split hF ho habove hmem (.inr rfl)
      (List.mem_append_right _ List.mem_cons_self)
  · intro c hc I hI p hp
    obtain ⟨hcF, K, hK, q, hq, -, rfl⟩ := h.incoming_split ho hc hI hp
    rw [(F.end_rename (h.mem_incoming hcF hK hq)).2]
    exact h.follows c hcF K hK q hq

end

section
variable {F G : Function} {b d x : BlockId} {u j : InstId} {I J : Instruction}

namespace Function.Inserted
variable (h : F.Inserted G b I)
include h

theorem edge : G.Edge = F.Edge := by
  funext x y
  rw [Function.Edge, Function.Edge, h.succs]

theorem reachable (hr : G.Reachable x) : F.Reachable x := by
  rwa [Function.Reachable, h.edge, h.entry] at hr

theorem dominates (hdom : F.Dominates d x) : G.Dominates d x := by
  rw [Function.Dominates, h.edge, h.entry]
  exact hdom

theorem eq_or_mem (hJ : J ∈ (G.block x).insts) : J = I ∨ J ∈ (F.block x).insts := by
  by_cases hx : x = b
  · subst hx
    exact h.mem.mp hJ
  · exact .inr (h.other x hx ▸ hJ)

theorem term_eq (x : BlockId) : (G.block x).term = (F.block x).term := by
  by_cases hx : x = b
  · rw [hx, h.term]
  · rw [h.other x hx]

theorem termId_eq (x : BlockId) : (G.block x).termId = (F.block x).termId := by
  by_cases hx : x = b
  · rw [hx, h.termId]
  · rw [h.other x hx]

theorem ids_subset (x : BlockId) :
    (F.block x).insts.map Instruction.id ⊆ (G.block x).insts.map Instruction.id := by
  by_cases hx : x = b
  · subst hx
    exact List.map_subset _ fun J hJ => h.mem.mpr (.inr hJ)
  · rw [h.other x hx]
    exact List.Subset.refl _

variable (hsub : (F.block b).instIds.Sublist (G.block b).instIds)
include hsub

theorem definedAbove (hj : F.DefinedAbove x u j) : G.DefinedAbove x u j := by
  rcases hj with hj | ⟨d, hd, hne, hdom, hj⟩
  · refine .inl (hj.trans ?_)
    by_cases hx : x = b
    · rwa [hx]
    · rw [h.other x hx]
  · exact .inr ⟨d, h.layout ▸ hd, hne, h.dominates hdom, h.ids_subset d hj⟩

/-- An instruction that uses no value can be put anywhere behind the PHIs. -/
theorem wellDefined (hF : F.WellDefined) (hG : G.Valid) (hb : b ∈ F.layout)
    (hphi : I.op.incoming = []) (hops : ∀ i, .inst i ∉ I.op.operands) : G.WellDefined := by
  have hincoming : ∀ {x J p}, J ∈ (G.block x).insts → p ∈ J.op.incoming →
      J ∈ (F.block x).insts := by
    intro x J p hJ hp
    rcases h.eq_or_mem hJ with rfl | hJ
    · rw [hphi] at hp
      cases hp
    · exact hJ
  have hoperand : ∀ {x J i}, J ∈ (G.block x).insts → .inst i ∈ J.op.operands →
      J ∈ (F.block x).insts := by
    intro x J i hJ hi
    rcases h.eq_or_mem hJ with rfl | hJ
    · exact absurd hi (hops i)
    · exact hJ
  have hlayout : ∀ {x}, x ∈ G.layout → x ∈ F.layout := fun hx => h.layout ▸ hx
  refine ⟨⟨hG, ?_, ?_⟩, ?_, ⟨?_, ?_, ?_⟩, ?_⟩
  · intro x hx J hJ p hp i hi
    obtain ⟨d, hd, hdom, hid⟩ := hF.ssa.defined x (hlayout hx) J (hincoming hJ hp) p hp i hi
    exact ⟨d, h.layout ▸ hd, h.dominates hdom, h.ids_subset d hid⟩
  · intro x hx J hJ p hp
    exact hF.ssa.unique x (hlayout hx) J (hincoming hJ hp) p hp
  · intro x hx i hi
    refine (h.perm_instIds hF.ssa.valid.nodup hb).mem_iff.mpr (List.mem_cons_of_mem _ ?_)
    refine hF.operands x (hlayout hx) i (BasicBlock.mem_values.mpr ?_)
    rcases BasicBlock.mem_values.mp hi with ⟨J, hJ, hi⟩ | hi
    · exact .inl ⟨J, hoperand hJ hi, hi⟩
    · exact .inr (h.term_eq x ▸ hi)
  · intro x hx hr J hJ hnot j hj
    exact h.definedAbove hsub
      (hF.above.inst x (hlayout hx) (h.reachable hr) J (hoperand hJ hj) hnot j hj)
  · intro x hx hr j hj
    rw [h.term_eq x] at hj
    rw [h.termId_eq x]
    exact h.definedAbove hsub (hF.above.term x (hlayout hx) (h.reachable hr) j hj)
  · intro x hx hr J hJ p hp hrp j hj
    rw [h.termId_eq p.2]
    exact h.definedAbove hsub (hF.above.phi x (hlayout hx) (h.reachable hr) J (hincoming hJ hp) p hp
      (h.reachable hrp) j hj)
  · intro x hx J hJ p hp
    rw [h.succs]
    exact hF.follows x (hlayout hx) J (hincoming hJ hp) p hp

end Function.Inserted

theorem Function.inserted_firstNonPHI (F : Function) (b : BlockId) (I : Instruction) :
    F.Inserted (F.updateBlock b (BasicBlock.insertAtFirstNonPHI I)) b I where
  layout := rfl
  entry := rfl
  other x hx := F.block_updateBlock_ne _ hx
  termId := by rw [F.block_updateBlock, BasicBlock.insertAtFirstNonPHI]
  term := by rw [F.block_updateBlock, BasicBlock.insertAtFirstNonPHI]
  insts := by
    rw [F.block_updateBlock]
    have hperm := perm_takeWhile_insert (fun J : Instruction => J.op.isPhi) (F.block b).insts [I]
    rwa [List.append_assoc, List.singleton_append] at hperm

theorem Function.WellDefined.createBarrierAtFirstNonPHI (h : F.WellDefined) (hb : b ∈ F.layout) :
    (F.createBarrierAtFirstNonPHI b).WellDefined := by
  refine (F.inserted_firstNonPHI b _).wellDefined ?_ h
    (h.ssa.valid.keeps_atFirstNonPHI hb).valid hb rfl fun i hi => ?_
  · rw [F.block_updateBlock]
    refine List.Sublist.append_right (List.Sublist.map _ ?_) _
    conv_lhs => rw [← List.takeWhile_append_dropWhile (p := (·.op.isPhi)) (l := (F.block b).insts)]
    exact (List.Sublist.refl _).append (List.sublist_cons_self _ _)
  · cases List.mem_singleton.mp hi

theorem Function.WellDefined.createBarrierBeforeTerminator (h : F.WellDefined) (hb : b ∈ F.layout) :
    (F.createBarrierBeforeTerminator b).WellDefined := by
  refine (F.inserted_beforeTerminator b _).wellDefined ?_ h
    (h.ssa.valid.createBarrierBeforeTerminator hb) hb rfl fun i hi => ?_
  · rw [F.block_updateBlock]
    exact ((List.sublist_append_left _ _).map _).append_right _
  · cases List.mem_singleton.mp hi

end

end VariOCL.IR
