import VariOCL.ContextSpill.Steps

/-! What the instructions of the new function read, and what stands above them. -/

namespace VariOCL.IR

/-- What is read in the blocks, and by PHIs at the ends of the blocks they take it from. -/
structure Function.AllReads (F : Function) (Q : BlockId → InstId → Value → Prop) : Prop where
  inst : ∀ b ∈ F.layout, ∀ I ∈ (F.block b).insts, I.op.isPhi = false → ∀ v ∈ I.op.operands, Q b I.id v
  term : ∀ b ∈ F.layout, ∀ v ∈ (F.block b).term.operands, Q b (F.block b).termId v
  phi : ∀ b ∈ F.layout, ∀ I ∈ (F.block b).insts, ∀ p ∈ I.op.incoming, Q p.2 (F.block p.2).termId p.1

section
variable {F G : Function} {sp : Splice} {b : BlockId} {BB : BasicBlock} {I : Instruction}
  {u x y j : InstId} {Q : BlockId → InstId → Value → Prop}

/-- What the new instructions read, and what those of before do now. -/
theorem Function.AllReads.spliced (hsp : F.Spliced sp G) (hF : F.Valid)
    (htop : ∀ c ∈ F.layout, ∀ K ∈ sp.top c, ∀ v ∈ K.op.operands, Q c K.id v)
    (hbefore : ∀ c ∈ F.layout, ∀ j, (F.block c).IsSpot j → ∀ K ∈ sp.before j, ∀ v ∈ K.op.operands,
      Q c K.id v)
    (hafter : ∀ c ∈ F.layout, ∀ J ∈ (F.block c).insts, J.op.isPhi = false → ∀ K ∈ sp.after J.id,
      ∀ v ∈ K.op.operands, Q c K.id v)
    (hinst : ∀ c ∈ F.layout, ∀ J ∈ (F.block c).insts, J.op.isPhi = false → ∀ v ∈ J.op.operands,
      Q c J.id (sp.use J.id none v))
    (hterm : ∀ c ∈ F.layout, ∀ v ∈ (F.block c).term.operands,
      Q c (F.block c).termId (sp.use (F.block c).termId none v))
    (hphi : ∀ c ∈ F.layout, ∀ J ∈ (F.block c).insts, J.id ∉ sp.gone → ∀ p ∈ J.op.incoming,
      Q p.2 (F.block p.2).termId (sp.use J.id (some p.2) p.1)) : G.AllReads Q where
  inst b hb I hI hIphi v hv := by
    have hb := hsp.layout ▸ hb
    have hrest : ∀ J ∈ (F.block b).insts.dropWhile (·.op.isPhi),
        J ∈ (F.block b).insts ∧ J.op.isPhi = false := fun J hJ =>
      ⟨(List.dropWhile_sublist _).subset hJ, hF.phisFirst b hb J hJ⟩
    rw [hsp.block b hb] at hI
    rcases List.mem_append.mp hI with hI | hI
    · exact absurd (hIphi.symm.trans (Splice.isPhi_phis hI)) Bool.false_ne_true
    rcases List.mem_append.mp hI with hI | hI
    · exact htop b hb I hI v hv
    rcases List.mem_append.mp hI with hI | hI
    · obtain ⟨J, hJ, hI⟩ := List.mem_flatMap.mp hI
      obtain ⟨hJ, hJphi⟩ := hrest J hJ
      rcases List.mem_append.mp hI with hI | hI
      · exact hbefore b hb _ (.inr ⟨J, hJ, hJphi, rfl⟩) I hI v hv
      · rcases List.mem_cons.mp hI with rfl | hI
        · rw [Splice.inst, Op.mapUses_of_not_phi hJphi, Op.operands_mapValues] at hv
          obtain ⟨u, hu, rfl⟩ := List.mem_map.mp hv
          exact hinst b hb J hJ hJphi u hu
        · exact hafter b hb J hJ hJphi I hI v hv
    · exact hbefore b hb _ (.inl rfl) I hI v hv
  term b hb v hv := by
    have hb := hsp.layout ▸ hb
    rw [hsp.block b hb, Splice.block, Terminator.operands_mapValues] at hv
    obtain ⟨u, hu, rfl⟩ := List.mem_map.mp hv
    rw [hsp.termId hb]
    exact hterm b hb u hu
  phi b hb I hI p hp := by
    have hb := hsp.layout ▸ hb
    have hIphi := Op.isPhi_of_mem_incoming hp
    rw [hsp.block b hb] at hI
    rcases Splice.mem_block (hF.phisFirst b hb) hI with hI | ⟨J, hJ, hgone, rfl⟩
    · exact absurd ((hsp.new I hI).1.symm.trans hIphi) Bool.false_ne_true
    · obtain ⟨⟨v, q⟩, hv, rfl⟩ := List.mem_map.mp (Op.incoming_mapUses (f := sp.use J.id) ▸ hp)
      rw [hsp.termId (hF.incoming b hb J hJ q (Op.snd_mem_incomingBlocks hv))]
      exact hphi b hb J hJ (hgone (Splice.isPhi_inst ▸ hIphi)) _ hv

/-- What is above something is an instruction. -/
theorem mem_of_sublist_last (h : [j, u].Sublist BB.instIds) : j ∈ BB.insts.map Instruction.id := by
  obtain ⟨l₁, l₂, heq, hl₁, hl₂⟩ := List.sublist_append_iff.mp h
  cases l₁ with
  | nil =>
    rw [← List.nil_append l₂, ← heq] at hl₂
    exact absurd hl₂.length_le (Nat.not_succ_le_self 1)
  | cons a l₁ =>
    obtain ⟨rfl, -⟩ := List.cons.inj heq
    exact hl₁.subset List.mem_cons_self

/-! ### Places -/

theorem pair_sublist {α : Type} {x y : α} {as bs : List α} (hx : x ∈ as) (hy : y ∈ bs) :
    [x, y].Sublist (as ++ bs) :=
  .append (List.singleton_sublist.mpr hx) (List.singleton_sublist.mpr hy)

theorem Splice.sublist_around (Is : List Instruction) :
    (Is.map Instruction.id).Sublist ((Is.flatMap sp.around).map Instruction.id) := by
  induction Is with
  | nil => exact .refl _
  | cons I Is ih =>
    rw [List.flatMap_cons, List.map_append]
    have hI : [I.id].Sublist ((sp.around I).map Instruction.id) := List.singleton_sublist.mpr
      (List.mem_map.mpr ⟨sp.inst I, List.mem_append_right _ List.mem_cons_self, rfl⟩)
    exact hI.append ih

/-- The PHIs that stay. -/
theorem Splice.map_id_phis : (sp.phis BB).map Instruction.id =
    ((BB.insts.takeWhile (·.op.isPhi)).map Instruction.id).filter (· ∉ sp.gone) := by
  rw [phis, List.map_map, List.filter_map]
  rfl

/-- Around a spot: what stood above it still does, and so does what is put in behind the PHIs. -/
theorem Splice.split_instIds (sp : Splice) (b : BlockId) (hn : BB.instIds.Nodup)
    (hu : BB.IsSpot u) : ∃ A B A' B', BB.instIds = A ++ u :: B ∧
      (sp.block b BB).instIds = A' ++ ((sp.before u).map Instruction.id ++ u :: B') ∧
      (A.filter (· ∉ sp.gone)).Sublist A' ∧ ((sp.top b).map Instruction.id).Sublist A' := by
  have hstay : ∀ Is : List Instruction, (((BB.insts.takeWhile (·.op.isPhi)).map Instruction.id ++
      Is.map Instruction.id).filter (· ∉ sp.gone)).Sublist ((sp.phis BB).map Instruction.id ++
        ((sp.top b).map Instruction.id ++ (Is.flatMap sp.around).map Instruction.id)) := by
    intro Is
    rw [List.filter_append, ← map_id_phis]
    exact List.Sublist.append (.refl _)
      ((List.filter_sublist.trans (sublist_around Is)).trans (List.sublist_append_right _ _))
  have htop : ∀ Is : List Instruction, ((sp.top b).map Instruction.id).Sublist
      ((sp.phis BB).map Instruction.id ++
        ((sp.top b).map Instruction.id ++ (Is.flatMap sp.around).map Instruction.id)) := fun _ =>
    (List.sublist_append_left _ _).trans (List.sublist_append_right _ _)
  have hBB : BB.instIds = (BB.insts.takeWhile (·.op.isPhi)).map Instruction.id ++
      ((BB.insts.dropWhile (·.op.isPhi)).map Instruction.id ++ [BB.termId]) := by
    rw [← List.append_assoc, ← List.map_append, List.takeWhile_append_dropWhile]
    rfl
  have hblock : (sp.block b BB).instIds = (sp.phis BB).map Instruction.id ++
      ((sp.top b).map Instruction.id ++
        (((BB.insts.dropWhile (·.op.isPhi)).flatMap sp.around).map Instruction.id ++
          ((sp.before BB.termId).map Instruction.id ++ [BB.termId]))) := by
    simp only [BasicBlock.instIds, block, rest, List.map_append, List.append_assoc]
  rcases hu with rfl | ⟨J, hJ, hphi, rfl⟩
  · refine ⟨_, [], _, [], ?_, ?_, hstay _, htop (BB.insts.dropWhile (·.op.isPhi))⟩
    · rw [hBB, List.append_assoc]
    · rw [hblock]
      simp only [List.append_assoc]
  · obtain ⟨A, B, hsplit, -⟩ := BasicBlock.split_rest hn hJ hphi
    refine ⟨_, B.map Instruction.id ++ [BB.termId], _, (sp.after J.id).map Instruction.id ++
      ((B.flatMap sp.around).map Instruction.id ++
        ((sp.before BB.termId).map Instruction.id ++ [BB.termId])), ?_, ?_, hstay A, htop A⟩
    · rw [hBB, hsplit]
      simp only [List.map_append, List.map_cons, List.append_assoc, List.cons_append]
    · rw [hblock, hsplit]
      simp only [List.flatMap_append, List.flatMap_cons, around, List.map_append, List.map_cons,
        List.append_assoc, List.cons_append, Splice.id_inst]

section
variable (hn : BB.instIds.Nodup) (hu : BB.IsSpot u)
include hn hu

/-- The code in front of a spot. -/
theorem Splice.before_sublist (sp : Splice) (b : BlockId) :
    ((sp.before u).map Instruction.id ++ [u]).Sublist (sp.block b BB).instIds := by
  obtain ⟨A, B, A', B', -, hblock, -⟩ := sp.split_instIds b hn hu
  rw [hblock]
  exact (List.Sublist.append (.refl _) (List.singleton_sublist.mpr List.mem_cons_self)).trans
    (List.sublist_append_right _ _)

theorem Splice.above_of_top (hx : x ∈ (sp.top b).map Instruction.id)
    (hy : y ∈ (sp.before u).map Instruction.id ++ [u]) : [x, y].Sublist (sp.block b BB).instIds := by
  obtain ⟨A, B, A', B', -, hblock, -, htop⟩ := sp.split_instIds b hn hu
  rw [hblock]
  refine pair_sublist (htop.subset hx) ?_
  exact (List.Sublist.append (.refl _) (List.singleton_sublist.mpr List.mem_cons_self)).subset hy

theorem Splice.above_of_above (hj : [j, u].Sublist BB.instIds) (hgone : j ∉ sp.gone)
    (hy : y ∈ (sp.before u).map Instruction.id ++ [u]) : [j, y].Sublist (sp.block b BB).instIds := by
  obtain ⟨A, B, A', B', hBB, hblock, hA, -⟩ := sp.split_instIds b hn hu
  have hjA : j ∈ A := mem_of_sublist_pair (hBB ▸ hn) (hBB ▸ hj)
  rw [hblock]
  refine pair_sublist (hA.subset (List.mem_filter.mpr ⟨hjA, decide_eq_true hgone⟩)) ?_
  exact (List.Sublist.append (.refl _) (List.singleton_sublist.mpr List.mem_cons_self)).subset hy

end

/-- The code behind an instruction. -/
theorem Splice.after_sublist (sp : Splice) (b : BlockId) (hn : BB.instIds.Nodup)
    (hI : I ∈ BB.insts) (hphi : I.op.isPhi = false) :
    (I.id :: (sp.after I.id).map Instruction.id).Sublist (sp.block b BB).instIds := by
  obtain ⟨A, B, hsplit, -⟩ := BasicBlock.split_rest hn hI hphi
  simp only [BasicBlock.instIds, block, rest, hsplit, List.flatMap_append, List.flatMap_cons, around,
    List.map_append, List.map_cons, List.append_assoc, List.cons_append, Splice.id_inst]
  refine .trans ?_ (List.sublist_append_right _ _)
  refine .trans ?_ (List.sublist_append_right _ _)
  refine .trans ?_ (List.sublist_append_right _ _)
  refine .trans ?_ (List.sublist_append_right _ _)
  exact (List.sublist_append_left _ _).cons_cons _

/-- The code behind the PHIs. -/
theorem Splice.top_sublist (sp : Splice) (b : BlockId) (hI : I ∈ BB.insts) (hphi : I.op.isPhi)
    (hgone : I.id ∉ sp.gone) (hBB : ∀ J ∈ BB.insts.dropWhile (·.op.isPhi), J.op.isPhi = false) :
    (I.id :: (sp.top b).map Instruction.id).Sublist (sp.block b BB).instIds := by
  have hmem : I ∈ BB.insts.takeWhile (·.op.isPhi) := by
    rw [← List.takeWhile_append_dropWhile (p := (·.op.isPhi)) (l := BB.insts)] at hI
    exact (List.mem_append.mp hI).resolve_right fun hI =>
      Bool.false_ne_true ((hBB I hI).symm.trans hphi)
  have hin : I.id ∈ (sp.phis BB).map Instruction.id := by
    rw [map_id_phis]
    exact List.mem_filter.mpr ⟨List.mem_map_of_mem hmem, decide_eq_true hgone⟩
  simp only [BasicBlock.instIds, block, rest, List.map_append, List.append_assoc]
  exact (List.singleton_sublist.mpr hin).append (List.sublist_append_left _ _)

end

namespace ContextSpill

open LoopInserter

/-! ### The code that is put in -/

section
variable {S : Sizes} {Slot I : Instruction} {k n : InstId} {v val : Value}

theorem mem_load : n + 9 ∈ (insert3DLoadFor S n Slot).map Instruction.id :=
  List.mem_map.mpr ⟨_, List.mem_append_right _ List.mem_cons_self, rfl⟩

theorem mem_store : n + 9 ∈ (insert3DStoreFor S n val k).map Instruction.id :=
  List.mem_map.mpr ⟨_, List.mem_append_right _ List.mem_cons_self, rfl⟩

/-- Constants, what is above in the code, the sizes and the slot. -/
theorem reads_insert3DGepFor (hI : I ∈ insert3DGepFor S n k) (hv : v ∈ I.op.operands) :
    (∃ d, v = .constInt 32 d) ∨
      ∃ j, v = .inst j ∧ ([j, I.id].Sublist ((List.range 10).map (n + ·)) ∨
        j = S.Lsz 0 ∨ j = S.Lsz 1 ∨ j = k) := by
  have habove : ∀ d d', [d, d'].Sublist (List.range 10) →
      [n + d, n + d'].Sublist ((List.range 10).map (n + ·)) := fun d d' h => h.map (n + ·)
  have hfirst : [n, n + 7].Sublist ((List.range 10).map (n + ·)) := habove 0 7 (by decide)
  simp only [insert3DGepFor, List.mem_cons, List.not_mem_nil, or_false] at hI
  rcases hI with rfl | rfl | rfl | rfl | rfl | rfl | rfl | rfl | rfl <;>
    simp only [insertCallToGetX, builtinCall, binary, contextGep, Op.operands, List.mem_cons,
      List.not_mem_nil, or_false] at hv
  · exact .inl ⟨0, hv⟩
  · exact .inl ⟨1, hv⟩
  · exact .inl ⟨2, hv⟩
  · rcases hv with rfl | rfl
    · exact .inr ⟨_, rfl, .inl (habove 2 3 (by decide))⟩
    · exact .inr ⟨_, rfl, .inr (.inl rfl)⟩
  · rcases hv with rfl | rfl
    · exact .inr ⟨_, rfl, .inl (habove 3 4 (by decide))⟩
    · exact .inr ⟨_, rfl, .inr (.inr (.inl rfl))⟩
  · rcases hv with rfl | rfl
    · exact .inr ⟨_, rfl, .inl (habove 1 5 (by decide))⟩
    · exact .inr ⟨_, rfl, .inr (.inl rfl)⟩
  · rcases hv with rfl | rfl
    · exact .inr ⟨_, rfl, .inl (habove 4 6 (by decide))⟩
    · exact .inr ⟨_, rfl, .inl (habove 5 6 (by decide))⟩
  · rcases hv with rfl | rfl
    · exact .inr ⟨_, rfl, .inl (habove 6 7 (by decide))⟩
    · exact .inr ⟨_, rfl, .inl hfirst⟩
  · rcases hv with rfl | rfl
    · exact .inr ⟨_, rfl, .inr (.inr (.inr rfl))⟩
    · exact .inr ⟨_, rfl, .inl (habove 7 8 (by decide))⟩

theorem reads_insert3DLoadFor (hI : I ∈ insert3DLoadFor S n Slot) (hv : v ∈ I.op.operands) :
    (∃ d, v = .constInt 32 d) ∨
      ∃ j, v = .inst j ∧ ([j, I.id].Sublist ((List.range 10).map (n + ·)) ∨
        j = S.Lsz 0 ∨ j = S.Lsz 1 ∨ j = Slot.id) := by
  rcases List.mem_append.mp hI with hI | hI
  · exact reads_insert3DGepFor hI hv
  · obtain rfl := List.mem_singleton.mp hI
    have hlast : [8, 9].Sublist (List.range 10) := by decide
    exact .inr ⟨n + 8, List.mem_singleton.mp hv, .inl (hlast.map (n + ·))⟩

theorem reads_insert3DStoreFor (hI : I ∈ insert3DStoreFor S n val k) (hv : v ∈ I.op.operands) :
    (I.id = n + 9 ∧ v = val) ∨ (∃ d, v = .constInt 32 d) ∨
      ∃ j, v = .inst j ∧ ([j, I.id].Sublist ((List.range 10).map (n + ·)) ∨
        j = S.Lsz 0 ∨ j = S.Lsz 1 ∨ j = k) := by
  rcases List.mem_append.mp hI with hI | hI
  · exact .inr (reads_insert3DGepFor hI hv)
  · obtain rfl := List.mem_singleton.mp hI
    have hlast : [8, 9].Sublist (List.range 10) := by decide
    rcases List.mem_pair.mp hv with rfl | rfl
    · exact .inl ⟨rfl, rfl⟩
    · exact .inr (.inr ⟨n + 8, rfl, .inl (hlast.map (n + ·))⟩)

end

/-! ### The steps -/

/-- `Q` is about what is read in `F`, and `Q'` about what is read in `G`, where `sp` puts in the slots
`new` of `i`. -/
structure Carries (n i : InstId) (new : List Instruction) (F : Function) (sp : Splice) (G : Function)
    (Q Q' : BlockId → InstId → Value → Prop) : Prop where
  const : ∀ c u d, Q' c u (.constInt 32 d)
  own : ∀ c u j, [j, u].Sublist (G.block c).instIds → Q' c u (.inst j)
  front : ∀ c ∈ F.layout, ∀ u ∈ (G.block c).instIds, F.freshInst < u → ∀ j,
    j = n ∨ j = n + 1 ∨ j ∈ new.map Instruction.id → Q' c u (.inst j)
  keep : ∀ c ∈ F.layout, ∀ u, (F.block c).IsSpot u → ∀ v, Q c u v → v ≠ .inst i →
    ∀ y ∈ (sp.before u).map Instruction.id ++ [u], Q' c y v

section
variable {F G : Function} {sp : Splice} {Slot I : Instruction} {c : BlockId} {i n r : InstId}
  {slots new : List Instruction} {v : Value} {Q Q' : BlockId → InstId → Value → Prop}

theorem Carries.load (h : Carries n i [Slot] F sp G Q Q') (hc : c ∈ F.layout) (hr : F.freshInst < r)
    (hsub : ((insert3DLoadFor (sizesFrom n) r Slot).map Instruction.id).Sublist (G.block c).instIds) :
    ∀ K ∈ insert3DLoadFor (sizesFrom n) r Slot, ∀ v ∈ K.op.operands, Q' c K.id v := by
  intro K hK v hv
  have hmem := hsub.subset (List.mem_map_of_mem hK)
  have hlt := hr.trans_le (id_insert3DLoadFor hK).1
  rcases reads_insert3DLoadFor hK hv with ⟨d, rfl⟩ | ⟨j, rfl, hj | hj⟩
  · exact h.const c _ d
  · exact h.own c _ j (hj.trans hsub)
  · exact h.front c hc _ hmem hlt j (hj.imp_right (Or.imp_right List.mem_singleton.mpr))

theorem Carries.store (h : Carries n i [Slot] F sp G Q Q') (hc : c ∈ F.layout) (hr : F.freshInst < r)
    (hsub : ((insert3DStoreFor (sizesFrom n) r v Slot.id).map Instruction.id).Sublist
      (G.block c).instIds) (hv : Q' c (r + 9) v) :
    ∀ K ∈ insert3DStoreFor (sizesFrom n) r v Slot.id, ∀ v ∈ K.op.operands, Q' c K.id v := by
  intro K hK u hu
  have hmem := hsub.subset (List.mem_map_of_mem hK)
  have hlt := hr.trans_le (id_insert3DStoreFor hK).1
  rcases reads_insert3DStoreFor hK hu with ⟨hid, rfl⟩ | ⟨d, rfl⟩ | ⟨j, rfl, hj | hj⟩
  · exact hid ▸ hv
  · exact h.const c _ d
  · exact h.own c _ j (hj.trans hsub)
  · exact h.front c hc _ hmem hlt j (hj.imp_right (Or.imp_right List.mem_singleton.mpr))

/-- Everything that is put in is new. -/
theorem Reloads.fresh {b : BlockId} {ns : InstId → List InstId} {l : InstId} {val : Value}
    (h : Reloads (sizesFrom n) (n + 5) (insert3DAllocaFor (sizesFrom n) F.freshInst I) I.id F ns sp)
    (hl : F.freshInst < l) : ∀ K,
    (sp.store b I (insert3DStoreFor (sizesFrom n) l val F.freshInst)).Puts K → F.freshInst ≤ K.id := by
  have hstore : ∀ K ∈ insert3DStoreFor (sizesFrom n) l val F.freshInst, F.freshInst ≤ K.id :=
    fun K hK => hl.le.trans (id_insert3DStoreFor hK).1
  rintro K (⟨c, hK⟩ | ⟨j, hK⟩ | ⟨j, hK⟩)
  · rw [Splice.top_store (h.top c)] at hK
    split at hK
    · exact hstore K hK
    · cases hK
  · rw [Splice.before_store, h.before] at hK
    rcases List.mem_append.mp hK with hK | hK
    · split at hK
      · rw [List.mem_singleton.mp hK]
        exact Nat.le_refl _
      · cases hK
    · obtain ⟨r, hr, hK⟩ := List.mem_flatMap.mp hK
      exact (h.later j r hr).le.trans (id_insert3DLoadFor hK).1
  · rw [Splice.after_store (h.after j)] at hK
    split at hK
    · exact hstore K hK
    · cases hK

theorem Filled.fresh {b : BlockId} {ns : InstId → List (InstId × Value)} {l : InstId}
    (h : Filled F I l ns) : ∀ K, (phiSplice (sizesFrom n) (n + 5)
      (insert3DAllocaFor (sizesFrom n) F.freshInst I) I.id b l ns).Puts K → F.freshInst ≤ K.id := by
  rintro K (⟨c, hK⟩ | ⟨j, hK⟩ | ⟨j, hK⟩)
  · have hK : K ∈ if c = b then insert3DLoadFor (sizesFrom n) l
      (insert3DAllocaFor (sizesFrom n) F.freshInst I) else [] := hK
    split at hK
    · exact h.load.le.trans (id_insert3DLoadFor hK).1
    · cases hK
  · rcases List.mem_append.mp hK with hK | hK
    · split at hK
      · rw [List.mem_singleton.mp hK]
        exact Nat.le_refl _
      · cases hK
    · obtain ⟨p, hp, hK⟩ := List.mem_flatMap.mp hK
      exact (h.later j p hp).1.le.trans (id_insert3DStoreFor hK).1
  · cases hK

/-- The slot reads the size above it. -/
theorem Carries.slot {u : InstId} (h : Carries n i new F sp G Q Q') (hR : Ready n slots F)
    (hsp : F.Spliced sp G) (hgone : n + 4 ∉ sp.gone) (hc : c ∈ F.layout)
    (hu : (F.block c).IsSpot u) (hun : u = n + 5)
    (hmem : insert3DAllocaFor (sizesFrom n) F.freshInst I ∈ sp.before u) :
    ∀ v ∈ (insert3DAllocaFor (sizesFrom n) F.freshInst I).op.operands,
      Q' c (insert3DAllocaFor (sizesFrom n) F.freshInst I).id v := by
  intro v hv
  obtain rfl := List.mem_singleton.mp hv
  obtain rfl := F.eq_of_mem_instIds hR.valid.ids hc F.entry_mem_layout (hun ▸ hu.mem) hR.isSpot.mem
  have hfront : [n + 4, u].Sublist (F.block F.entry).instIds := by
    have hpair : [n + 4, n + 5].Sublist
        ((sizes n ++ slots ++ [allocaPoint n]).map Instruction.id) := by
      rw [List.map_append, List.map_append]
      exact pair_sublist (List.mem_append_left _ (mem_ids_sizes (by decide))) List.mem_cons_self
    rw [hun]
    exact (hpair.trans (hR.headed.insts.sublist.map _)).trans (List.sublist_append_left _ _)
  refine h.own _ _ _ ?_
  rw [hsp.block _ F.entry_mem_layout]
  exact Splice.above_of_above (hR.valid.instIds_nodup F.entry_mem_layout) hu hfront hgone
    (List.mem_append_left _ (List.mem_map_of_mem hmem))

theorem RegStep.allReads (h : RegStep n F i new G) (hR : Ready n slots F) (hF : F.AllReads Q)
    (hcarry : ∀ sp, F.Spliced sp G → sp.gone ⊆ [i] → (∀ K, sp.Puts K → F.freshInst ≤ K.id) →
      Carries n i new F sp G Q Q') : G.AllReads Q' := by
  cases h with
  | @demote b I ns sp l G hb hI hlow hns hl hre hsp =>
    have hgone : (sp.store b I (insert3DStoreFor (sizesFrom n) l (.inst I.id) F.freshInst)).gone = [] :=
      Splice.gone_store.trans hns.gone
    have hcarry := hcarry _ hsp (fun j hj => absurd (hgone ▸ hj) List.not_mem_nil) (hns.fresh hl)
    have hstore : (I.id :: (insert3DStoreFor (sizesFrom n) l (.inst I.id) F.freshInst).map
        Instruction.id).Sublist (G.block b).instIds := by
      rw [hsp.block b hb]
      by_cases hphi : I.op.isPhi
      · have htop := Splice.top_sublist _ b hI hphi (hgone ▸ List.not_mem_nil) (hR.valid.phisFirst b hb)
        rwa [Splice.top_store (hns.top b), if_pos ⟨hphi, rfl⟩] at htop
      · have hphi := Bool.eq_false_iff.mpr hphi
        have hafter := (sp.store b I (insert3DStoreFor (sizesFrom n) l (.inst I.id)
          F.freshInst)).after_sublist b (hR.valid.instIds_nodup hb) hI hphi
        rwa [Splice.after_store (hns.after _), if_pos ⟨hphi, rfl⟩] at hafter
    have hstored := hcarry.store hb hl ((List.sublist_cons_self _ _).trans hstore)
      (hcarry.own b _ I.id (((List.singleton_sublist.mpr mem_store).cons_cons I.id).trans hstore))
    have hload : ∀ c ∈ F.layout, ∀ j, (F.block c).IsSpot j → ∀ r ∈ ns j,
        ((insert3DLoadFor (sizesFrom n) r (insert3DAllocaFor (sizesFrom n) F.freshInst I)).map
          Instruction.id ++ [j]).Sublist (G.block c).instIds := by
      intro c hc j hj r hr
      rw [hsp.block c hc]
      refine List.Sublist.trans (List.Sublist.append ?_ (.refl _))
        (Splice.before_sublist (hR.valid.instIds_nodup hc) hj _ c)
      rw [Splice.before_store, hns.before, List.map_append]
      refine .trans (List.Sublist.map _ ?_) (List.sublist_append_right _ _)
      exact List.sublist_flatten_of_mem (List.mem_map_of_mem hr)
    have hread : ∀ u q, F.ReadsAt u q → ∀ c ∈ F.layout, (F.block c).IsSpot (F.place u q) → ∀ v,
        Q c (F.place u q) v → (v = .inst I.id → sp.use u q v ≠ v) →
          Q' c (F.place u q) ((sp.store b I (insert3DStoreFor (sizesFrom n) l (.inst I.id)
            F.freshInst)).use u q v) := by
      intro u q hq c hc hspot v hv hne
      rw [Splice.use_store]
      rcases hns.use u q v hq with heq | ⟨-, r, hr, heq⟩
      · rw [heq]
        exact hcarry.keep c hc _ hspot v hv (fun hvI => hne hvI heq) _
          (List.mem_append_right _ List.mem_cons_self)
      · rw [heq]
        refine hcarry.own c _ _ (.trans ?_ (hload c hc _ hspot r hr))
        exact pair_sublist mem_load List.mem_cons_self
    refine .spliced hsp hR.valid (fun c hc K hK => ?_) (fun c hc j hj K hK => ?_)
      (fun c hc J hJ _ K hK => ?_) (fun c hc J hJ hphi v hv => ?_) (fun c hc v hv => ?_)
      fun c hc J hJ _ p hp => ?_
    · rw [Splice.top_store (hns.top c)] at hK
      split at hK
      · rename_i hcase
        exact hcase.2 ▸ hstored K hK
      · cases hK
    · have hin := hK
      rw [Splice.before_store, hns.before] at hK
      rcases List.mem_append.mp hK with hK | hK
      · split at hK
        · rename_i hpoint
          obtain rfl := List.mem_singleton.mp hK
          exact hcarry.slot hR hsp (hgone ▸ List.not_mem_nil) hc hj hpoint hin
        · cases hK
      · obtain ⟨r, hr, hK⟩ := List.mem_flatMap.mp hK
        exact hcarry.load hc (hns.later j r hr)
          ((List.sublist_append_left _ _).trans (hload c hc j hj r hr)) K hK
    · rw [Splice.after_store (hns.after _)] at hK
      split at hK
      · rename_i hcase
        obtain rfl := F.eq_of_mem_instIds hR.valid.ids hc hb
          (hcase.2 ▸ List.mem_append_left _ (List.mem_map_of_mem hJ))
          (List.mem_append_left _ (List.mem_map_of_mem hI))
        exact hstored K hK
      · cases hK
    · refine hread J.id none (.inl rfl) c hc (.inr ⟨J, hJ, hphi, rfl⟩) v
        (hF.inst c hc J hJ hphi v hv) ?_
      rintro rfl heq
      refine (hre J.id (F.mem_useList_of_inst hc hJ hv)).inst c hc J hJ rfl ?_
      rw [Splice.inst, Op.mapUses_of_not_phi hphi, Op.operands_mapValues]
      exact List.mem_map.mpr ⟨_, hv, heq⟩
    · refine hread _ none (.inl rfl) c hc (.inl rfl) v (hF.term c hc v hv) ?_
      rintro rfl heq
      refine (hre _ (F.mem_useList_of_term hc hv)).term c hc rfl ?_
      rw [Terminator.operands_mapValues]
      exact List.mem_map.mpr ⟨_, hv, heq⟩
    · have hq := hR.valid.incoming c hc J hJ _ (Op.snd_mem_incomingBlocks hp)
      refine hread J.id (some p.2) (.inr ⟨c, hc, J, hJ, rfl, Op.isPhi_of_mem_incoming hp⟩) p.2 hq
        (.inl rfl) p.1 (hF.phi c hc J hJ p hp) fun hpI heq => ?_
      refine (hre J.id (F.mem_useList_of_inst hc hJ
        (hpI ▸ Op.fst_mem_operands hp))).inst c hc J hJ rfl ?_
      have hin : (sp.use J.id (some p.2) p.1, p.2) ∈ (sp.inst J).op.incoming := by
        rw [Splice.inst, Op.incoming_mapUses]
        exact List.mem_map_of_mem hp
      exact (heq.trans hpI) ▸ Op.fst_mem_operands hin

theorem PhiStep.allReads (h : PhiStep n F i new G) (hR : Ready n slots F) (hF : F.AllReads Q)
    (hcarry : ∀ sp, F.Spliced sp G → sp.gone ⊆ [i] → (∀ K, sp.Puts K → F.freshInst ≤ K.id) →
      Carries n i new F sp G Q Q')
    (hphi : ∀ c ∈ F.layout, ∀ u, Q c u (.inst i) →
      i ∈ (F.block c).insts.map Instruction.id ∨ ∀ y v, Q' c y v) : G.AllReads Q' := by
  cases h with
  | @demote b I ns l G hb hI hIphi hlow hfill hsp =>
    have hcarry := hcarry _ hsp (List.Subset.refl _) hfill.fresh
    have htop : (phiSplice (sizesFrom n) (n + 5) (insert3DAllocaFor (sizesFrom n) F.freshInst I)
      I.id b l ns).top b = insert3DLoadFor (sizesFrom n) l
        (insert3DAllocaFor (sizesFrom n) F.freshInst I) := if_pos rfl
    have hread : ∀ c ∈ F.layout, ∀ u, (F.block c).IsSpot u → ∀ v, Q c u v →
        ∀ y ∈ ((phiSplice (sizesFrom n) (n + 5) (insert3DAllocaFor (sizesFrom n) F.freshInst I)
          I.id b l ns).before u).map Instruction.id ++ [u],
          Q' c y (Value.replace I.id (.inst (l + 9)) v) := by
      intro c hc u hu v hv y hy
      by_cases hvI : v = .inst I.id
      · subst hvI
        rcases hphi c hc u hv with hmem | hall
        · obtain rfl := F.eq_of_mem_instIds hR.valid.ids hc hb (List.mem_append_left _ hmem)
            (List.mem_append_left _ (List.mem_map_of_mem hI))
          rw [Value.replace, if_pos rfl]
          refine hcarry.own c y _ ?_
          rw [hsp.block c hc]
          refine Splice.above_of_top (hR.valid.instIds_nodup hc) hu ?_ hy
          rw [htop]
          exact mem_load
        · exact hall y _
      · rw [Value.replace, if_neg hvI]
        exact hcarry.keep c hc u hu v hv hvI y hy
    refine .spliced hsp hR.valid (fun c hc K hK => ?_) (fun c hc j hj K hK => ?_)
      (fun c hc J hJ _ K hK => absurd hK List.not_mem_nil)
      (fun c hc J hJ hJphi v hv => hread c hc _ (.inr ⟨J, hJ, hJphi, rfl⟩) v
        (hF.inst c hc J hJ hJphi v hv) _ (List.mem_append_right _ List.mem_cons_self))
      (fun c hc v hv => hread c hc _ (.inl rfl) v (hF.term c hc v hv) _
        (List.mem_append_right _ List.mem_cons_self))
      fun c hc J hJ _ p hp => hread _ (hR.valid.incoming c hc J hJ _ (Op.snd_mem_incomingBlocks hp)) _
        (.inl rfl) _ (hF.phi c hc J hJ p hp) _ (List.mem_append_right _ List.mem_cons_self)
    · have hin : K ∈ if c = b then insert3DLoadFor (sizesFrom n) l
        (insert3DAllocaFor (sizesFrom n) F.freshInst I) else [] := hK
      split at hin
      · rename_i hcb
        subst hcb
        refine hcarry.load hc hfill.load ?_ K hin
        rw [hsp.block c hc, ← htop]
        simp only [BasicBlock.instIds, Splice.block, Splice.rest, List.map_append]
        exact ((List.sublist_append_left _ _).trans (List.sublist_append_right _ _)).trans
          (List.sublist_append_left _ _)
      · cases hin
    · have hin := hK
      rcases List.mem_append.mp hK with hK | hK
      · split at hK
        · rename_i hpoint
          obtain rfl := List.mem_singleton.mp hK
          refine hcarry.slot hR hsp (fun hmem => ?_) hc hj hpoint hin
          exact Nat.lt_irrefl n ((Nat.le_add_right n 4).trans_lt (List.mem_singleton.mp hmem ▸ hlow))
        · cases hK
      · obtain ⟨p, hp, hK⟩ := List.mem_flatMap.mp hK
        obtain ⟨q, hq, hid, htaken⟩ := hfill.taken j p hp
        obtain rfl := F.eq_of_mem_instIds hR.valid.ids hc hq hj.mem
          (hid ▸ List.mem_append_right _ List.mem_cons_self)
        have hcode : ((insert3DStoreFor (sizesFrom n) p.1 (Value.replace I.id (.inst (l + 9)) p.2)
            F.freshInst).map Instruction.id).Sublist (((phiSplice (sizesFrom n) (n + 5)
              (insert3DAllocaFor (sizesFrom n) F.freshInst I) I.id b l ns).before j).map
                Instruction.id) := by
          refine List.Sublist.map _ (.trans ?_ (List.sublist_append_right _ _))
          exact List.sublist_flatten_of_mem (List.mem_map_of_mem hp)
        have hblock := Splice.before_sublist (hR.valid.instIds_nodup hc) hj (phiSplice (sizesFrom n)
          (n + 5) (insert3DAllocaFor (sizesFrom n) F.freshInst I) I.id b l ns) c
        refine hcarry.store hc (hfill.later j p hp).1
          (hcode.trans ((List.sublist_append_left _ _).trans (hsp.block c hc ▸ hblock))) ?_ K hK
        refine hread c hc j hj p.2 (hid ▸ hF.phi b hb I hI _ htaken) _ (List.mem_append_left _ ?_)
        exact hcode.subset mem_store
  | @erase b I hb hI hIphi _ hnone =>
    have hsp := (F.spliced_empty hR.valid.ids).erase hR.valid hb hI hIphi
    have hcarry := hcarry _ hsp (List.Subset.refl _) fun K hK => by
      rcases hK with ⟨c, hK⟩ | ⟨j, hK⟩ | ⟨j, hK⟩ <;> cases hK
    have hread : ∀ c ∈ F.layout, ∀ u, (F.block c).IsSpot u → ∀ v, F.Uses I.id ∨ v ≠ .inst I.id →
        Q c u v → Q' c u v := fun c hc u hu v hv hQ =>
      hcarry.keep c hc u hu v hQ (hv.resolve_left hnone) u (List.mem_append_right _ List.mem_cons_self)
    have huses : ∀ c ∈ F.layout, ∀ v ∈ (F.block c).values, F.Uses I.id ∨ v ≠ .inst I.id :=
      fun c hc v hv => or_iff_not_imp_right.mpr fun heq => ⟨c, hc, not_not.mp heq ▸ hv⟩
    refine .spliced hsp hR.valid (fun _ _ _ hK => absurd hK List.not_mem_nil)
      (fun _ _ _ _ _ hK => absurd hK List.not_mem_nil)
      (fun _ _ _ _ _ _ hK => absurd hK List.not_mem_nil)
      (fun c hc J hJ hphi v hv => ?_) (fun c hc v hv => ?_) fun c hc J hJ _ p hp => ?_
    · exact hread c hc _ (.inr ⟨J, hJ, hphi, rfl⟩) v
        (huses c hc v (BasicBlock.mem_values.mpr (.inl ⟨J, hJ, hv⟩))) (hF.inst c hc J hJ hphi v hv)
    · exact hread c hc _ (.inl rfl) v (huses c hc v (BasicBlock.mem_values.mpr (.inr hv)))
        (hF.term c hc v hv)
    · exact hread p.2 (hR.valid.incoming c hc J hJ _ (Op.snd_mem_incomingBlocks hp)) _ (.inl rfl) p.1
        (huses c hc p.1 (BasicBlock.mem_values.mpr (.inl ⟨J, hJ, Op.fst_mem_operands hp⟩)))
        (hF.phi c hc J hJ p hp)

end

/-- What may be used outside its block while the values `is` are still to be demoted. -/
def held (n : InstId) (is : List InstId) (slots : List Instruction) (j : InstId) : Prop :=
  j ∈ is ∨ j = n ∨ j = n + 1 ∨ j ∈ slots.map Instruction.id

section
variable {F : Function} {n i j : InstId} {is : List InstId} {slots new : List Instruction}

theorem held_append (h : j ∈ new.map Instruction.id) : held n is (slots ++ new) j := by
  refine .inr (.inr (.inr ?_))
  rw [List.map_append]
  exact List.mem_append_right _ h

theorem held_mono (h : held n is slots j) : held n is (slots ++ new) j := by
  refine h.imp_right (Or.imp_right (Or.imp_right fun h => ?_))
  rw [List.map_append]
  exact List.mem_append_left _ h

/-- One value less to demote. -/
theorem held_tail (h : held n (i :: is) slots j) (hj : j ≠ i) : held n is slots j :=
  h.imp_left fun h => (List.mem_cons.mp h).resolve_left hj

theorem not_held (h : Headed n slots F) (hi : i < n) : ¬ held n [] slots i := by
  rintro (hmem | rfl | rfl | hmem)
  · cases hmem
  · exact Nat.lt_irrefl _ hi
  · exact Nat.lt_irrefl _ ((Nat.lt_succ_self n).trans hi)
  · refine h.not_mem hi ?_
    rw [List.map_append, List.map_append]
    exact List.mem_append_left _ (List.mem_append_right _ hmem)

end

end ContextSpill

end VariOCL.IR
