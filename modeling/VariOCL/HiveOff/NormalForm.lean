import VariOCL.HiveOff.Basic
import VariOCL.IR.ValidEdits

/-! `HiveOffBarrier` reaches its normal form in every order of the barriers, and adds nothing but
barrier calls and unconditional branches. -/

namespace VariOCL.IR

/-- `G` executes what `F` does once the instructions `F` does not have are erased; these are barriers
alone at the entry or at an exit, and unconditional branches. -/
structure Function.OnlyAdds (F G : Function) : Prop where
  ids : F.instIds ⊆ G.instIds
  traces : G.tracesOn F.instIds = F.traces
  insts : ∀ b ∈ G.layout, ∀ I ∈ (G.block b).insts, I.id ∈ F.instIds ∨
    containsJustABarrier (G.block b) ∧ (b = G.entry ∨ G.succs b = [])
  terms : ∀ b ∈ G.layout, (G.block b).termId ∈ F.instIds ∨ ∃ d, (G.block b).term = .br d

namespace HiveOff

variable {F G : Function} {Old b : BlockId} {SplitPt : InstId}

theorem onlyAdds_refl (hF : F.Valid) : F.OnlyAdds F where
  ids := List.Subset.refl _
  traces := hF.tracesOn_instIds
  insts _ hb _ hI := .inl (F.instIds_of_mem hb hI)
  terms b hb := .inl (Function.mem_instIds.mpr ⟨b, hb, List.mem_append_right _ List.mem_cons_self⟩)

theorem containsJustABarrier_map (BB : BasicBlock) (g : BlockId → BlockId) :
    containsJustABarrier { BB with insts := BB.insts.map (Instruction.mapBlocks g) } =
      containsJustABarrier BB := by
  rw [Bool.eq_iff_iff, containsJustABarrier_iff, containsJustABarrier_iff]
  constructor
  · rintro ⟨I, hI, h⟩
    obtain ⟨J, hJ, rfl⟩ := List.map_eq_singleton_iff.mp hI
    exact ⟨J, hJ, by simpa using h⟩
  · rintro ⟨I, hI, h⟩
    exact ⟨I.mapBlocks g, by simp [hI], by simpa using h⟩

theorem containsJustABarrier_congr {BB BB' : BasicBlock} (h : BB.insts = BB'.insts) :
    containsJustABarrier BB = containsJustABarrier BB' := by
  simp [containsJustABarrier, BasicBlock.size, h]

theorem containsJustABarrier_splitBlock (hb : b ∈ G.layout) (h : b ≠ Old) :
    containsJustABarrier ((G.splitBlock Old SplitPt).block b) =
      containsJustABarrier (G.block b) := by
  rw [G.block_splitBlock hb h]
  exact containsJustABarrier_map (G.block b) _

/-- A block that is hived off already is only split in front of its barrier. -/
def SplitsOff (G : Function) (Old : BlockId) (SplitPt : InstId) : Prop :=
  containsJustABarrier (G.block Old) → Old ≠ G.entry ∧ (G.block Old).beforeSplit SplitPt = []

theorem SplitsOff.afterSplit (h : SplitsOff G Old SplitPt)
    (hj : containsJustABarrier (G.block Old)) :
    (G.block Old).afterSplit SplitPt = (G.block Old).insts := by
  rw [← BasicBlock.beforeSplit_append_afterSplit _ SplitPt, (h hj).2, List.nil_append]

theorem SplitsOff.just_new (h : SplitsOff G Old SplitPt)
    (hj : containsJustABarrier (G.block Old)) :
    containsJustABarrier ((G.splitBlock Old SplitPt).block G.freshBlock) := by
  rw [G.block_splitBlock_new, ← hj]
  exact containsJustABarrier_congr (h.afterSplit hj)

theorem freshInst_not_mem (h : F.OnlyAdds G) : G.freshInst ∉ F.instIds :=
  fun hm => Nat.lt_irrefl _ (G.lt_freshInst (h.ids hm))

theorem onlyAdds_splitBlock (hG : G.Valid) (h : F.OnlyAdds G) (ho : Old ∈ G.layout)
    (hs : SplitsOff G Old SplitPt) : F.OnlyAdds (G.splitBlock Old SplitPt) where
  ids i hi := (G.perm_instIds_splitBlock hG.nodup ho).mem_iff.mpr
    (List.mem_cons_of_mem _ (h.ids hi))
  traces := (hG.tracesOn_splitBlock ho (freshInst_not_mem h)).trans h.traces
  insts b hb I hI := by
    by_cases hj : containsJustABarrier (G.block Old)
    · rcases (G.mem_layout_splitBlock hG.nodup ho).mp hb with rfl | hb
      · rw [G.block_splitBlock_new, hs.afterSplit hj] at hI
        refine (h.insts Old ho I hI).imp_right fun ⟨_, hx⟩ => ⟨hs.just_new hj, ?_⟩
        rw [G.succs_splitBlock_new]
        exact .inr (hx.resolve_left (hs hj).1)
      · by_cases hbo : b = Old
        · subst hbo
          rw [G.block_splitBlock_old ho, (hs hj).2] at hI
          cases hI
        · rw [G.block_splitBlock hb hbo] at hI
          obtain ⟨J, hJ, rfl⟩ := List.mem_map.mp hI
          rw [Instruction.id_mapBlocks, containsJustABarrier_splitBlock hb hbo,
            G.succs_splitBlock hb hbo]
          exact h.insts b hb J hJ
    · have hold : ∀ J ∈ (G.block Old).insts, J.id ∈ F.instIds := fun J hJ =>
        (h.insts Old ho J hJ).resolve_right fun hx => hj hx.1
      rcases (G.mem_layout_splitBlock hG.nodup ho).mp hb with rfl | hb
      · rw [G.block_splitBlock_new] at hI
        exact .inl (hold I (BasicBlock.mem_of_mem_afterSplit hI))
      · by_cases hbo : b = Old
        · subst hbo
          rw [G.block_splitBlock_old ho] at hI
          obtain ⟨J, hJ, rfl⟩ := List.mem_map.mp hI
          exact .inl (hold J (BasicBlock.mem_of_mem_beforeSplit hJ))
        · rw [G.block_splitBlock hb hbo] at hI
          obtain ⟨J, hJ, rfl⟩ := List.mem_map.mp hI
          rw [Instruction.id_mapBlocks, containsJustABarrier_splitBlock hb hbo,
            G.succs_splitBlock hb hbo]
          exact h.insts b hb J hJ
  terms b hb := by
    rcases (G.mem_layout_splitBlock hG.nodup ho).mp hb with rfl | hb
    · rw [G.block_splitBlock_new]
      exact h.terms Old ho
    · by_cases hbo : b = Old
      · subst hbo
        rw [G.block_splitBlock_old ho]
        exact .inr ⟨_, rfl⟩
      · rw [G.block_splitBlock hb hbo]
        exact h.terms b hb

theorem onlyAdds_createBarrierBeforeTerminator (hG : G.Valid) (h : F.OnlyAdds G)
    (hb : b ∈ G.layout) (hnil : (G.block b).insts = []) (hx : b = G.entry ∨ G.succs b = []) :
    F.OnlyAdds (G.createBarrierBeforeTerminator b) where
  ids i hi := ((G.inserted_beforeTerminator b _).perm_instIds hG.nodup hb).mem_iff.mpr
    (List.mem_cons_of_mem _ (h.ids hi))
  traces := (G.tracesOn_createBarrierBeforeTerminator (freshInst_not_mem h) b).trans h.traces
  insts x hxl I hI := by
    by_cases hxb : x = b
    · subst hxb
      refine .inr ⟨?_, ?_⟩
      · rw [Function.createBarrierBeforeTerminator, Function.block_updateBlock,
          BasicBlock.insertBeforeTerminator, hnil]
        rfl
      · rw [Function.succs, (G.barrierAdded_beforeTerminator x).term]
        exact hx
    · rw [(G.barrierAdded_beforeTerminator b).other x hxb] at hI ⊢
      rw [Function.succs, (G.barrierAdded_beforeTerminator b).term]
      exact h.insts x hxl I hI
  terms x hxl := by
    by_cases hxb : x = b
    · subst hxb
      rw [Function.createBarrierBeforeTerminator, Function.block_updateBlock]
      exact h.terms x hxl
    · rw [(G.barrierAdded_beforeTerminator b).other x hxb]
      exact h.terms x hxl

theorem just_createBarrierBeforeTerminator (hnil : (G.block b).insts = []) :
    containsJustABarrier ((G.createBarrierBeforeTerminator b).block b) := by
  rw [Function.createBarrierBeforeTerminator, Function.block_updateBlock,
    BasicBlock.insertBeforeTerminator, hnil]
  rfl

/-! ### The entry and the exits -/

structure Started (F G : Function) : Prop where
  valid : G.Valid
  adds : F.OnlyAdds G
  entry : containsJustABarrier (G.block G.entry)

theorem Started.splitBlock (h : Started F G) (ho : Old ∈ G.layout)
    (hs : SplitsOff G Old SplitPt) : Started F (G.splitBlock Old SplitPt) where
  valid := h.valid.splitBlock ho SplitPt
  adds := onlyAdds_splitBlock h.valid h.adds ho hs
  entry := by
    have hne : G.entry ≠ Old := by
      rintro rfl
      exact (hs h.entry).1 rfl
    rw [G.entry_splitBlock, containsJustABarrier_splitBlock G.entry_mem_layout hne]
    exact h.entry

theorem split_at_front (hF : F.Valid) :
    (F.block F.entry).beforeSplit (F.block F.entry).front = [] := by
  unfold BasicBlock.beforeSplit BasicBlock.front
  cases h : (F.block F.entry).insts with
  | nil => rfl
  | cons I Is =>
    have := hF.entryPhis I (by simp [h])
    simp [this]

theorem started_hiveOffEntry (hF : F.Valid) : Started F (hiveOffEntry F) := by
  unfold hiveOffEntry
  split
  · exact ⟨hF, onlyAdds_refl hF, ‹_›⟩
  · rename_i hj
    have ho := F.entry_mem_layout
    have hs : SplitsOff F F.entry (F.block F.entry).front := fun h => absurd h hj
    have hV := hF.splitBlock ho (F.block F.entry).front
    have hA := onlyAdds_splitBlock hF (onlyAdds_refl hF) ho hs
    have hnil : ((F.splitBlock F.entry (F.block F.entry).front).block F.entry).insts = [] := by
      rw [F.block_splitBlock_old ho, split_at_front hF]
      rfl
    have hmem : F.entry ∈ (F.splitBlock F.entry (F.block F.entry).front).layout :=
      (F.mem_layout_splitBlock hF.nodup ho).mpr (.inr ho)
    exact ⟨hV.createBarrierBeforeTerminator hmem,
      onlyAdds_createBarrierBeforeTerminator hV hA hmem hnil (.inl rfl),
      just_createBarrierBeforeTerminator hnil⟩

/-- Every block without successors is hived off, apart from the blocks still to visit. -/
def ExitsBut (G : Function) (bs : List BlockId) : Prop :=
  ∀ b ∈ G.layout, b ∉ bs → G.succs b = [] → containsJustABarrier (G.block b)

theorem ExitsBut.mono {bs bs' : List BlockId} (h : ExitsBut G bs) (hsub : bs ⊆ bs') :
    ExitsBut G bs' := fun b hb hbs => h b hb fun hm => hbs (hsub hm)

theorem ExitsBut.splitBlock {bs : List BlockId} (h : ExitsBut G (Old :: bs)) (hG : G.Valid)
    (ho : Old ∈ G.layout) (hnew : G.succs Old = [] → G.freshBlock ∉ bs →
      containsJustABarrier ((G.splitBlock Old SplitPt).block G.freshBlock)) :
    ExitsBut (G.splitBlock Old SplitPt) bs := by
  intro b hb hbs hsucc
  rcases (G.mem_layout_splitBlock hG.nodup ho).mp hb with rfl | hb
  · rw [G.succs_splitBlock_new] at hsucc
    exact hnew hsucc hbs
  · by_cases hbo : b = Old
    · subst hbo
      rw [G.succs_splitBlock_old ho] at hsucc
      cases hsucc
    · rw [G.succs_splitBlock hb hbo] at hsucc
      rw [containsJustABarrier_splitBlock hb hbo]
      exact h b hb (by simp [hbo, hbs]) hsucc

theorem ExitsBut.createBarrierBeforeTerminator {bs : List BlockId} (h : ExitsBut G (b :: bs))
    (hnil : (G.block b).insts = []) : ExitsBut (G.createBarrierBeforeTerminator b) bs := by
  intro x hx hxs hsucc
  by_cases hxb : x = b
  · subst hxb
    exact just_createBarrierBeforeTerminator hnil
  · rw [(G.barrierAdded_beforeTerminator b).other x hxb]
    rw [Function.succs, (G.barrierAdded_beforeTerminator b).term] at hsucc
    exact h x hx (by simp [hxb, hxs]) hsucc

theorem endsWithBarrier_iff {BB : BasicBlock} :
    endsWithBarrier BB ↔ ∃ pre I, BB.insts = pre ++ [I] ∧ I.isBarrier := by
  rcases List.eq_nil_or_concat BB.insts with h | ⟨pre, I, h⟩
  · simp [endsWithBarrier, BasicBlock.size, h]
  · rw [List.concat_eq_append] at h
    simp only [endsWithBarrier, BasicBlock.size, h, List.length_append, List.length_singleton,
      List.getLast?_concat, Option.map_some, Option.getD_some, Bool.and_eq_true,
      decide_eq_true_eq]
    constructor
    · exact fun hI => ⟨pre, I, rfl, hI.2⟩
    · rintro ⟨pre', I', he, hI⟩
      obtain ⟨-, he⟩ := List.append_inj' he rfl
      cases he
      exact ⟨by omega, hI⟩

theorem Instruction.not_phi_of_isBarrier {I : Instruction} (h : I.isBarrier) :
    I.op.isPhi = false := by
  cases I with
  | mk id ty op => cases op <;> first | rfl | cases h

/-- Where a barrier ends a block, splitting in front of it moves the barrier alone. -/
theorem split_last (hG : G.Valid) (hb : b ∈ G.layout) {pre : List Instruction} {I : Instruction}
    (h : (G.block b).insts = pre ++ [I]) (hI : I.isBarrier) :
    (G.block b).beforeSplit I.id = pre ∧ (G.block b).afterSplit I.id = [I] := by
  refine BasicBlock.split_at h ?_ (Instruction.not_phi_of_isBarrier hI)
  have hn := hG.instIds_nodup hb
  simp only [BasicBlock.instIds, h, List.map_append, List.map_cons, List.map_nil] at hn
  intro hmem
  exact (List.nodup_append.mp (List.nodup_append.mp hn).1).2.2 _ hmem _ List.mem_cons_self rfl

/-- What one iteration over the blocks leaves. -/
structure ExitVisited (F G G' : Function) (bs created : List BlockId) : Prop where
  started : Started F G'
  exits : ExitsBut G' bs
  layout : ∀ x ∈ G.layout, x ∈ G'.layout
  created : created = [] ∨ ∃ x ∈ G'.layout, created = [x] ∧ containsJustABarrier (G'.block x)

theorem hiveOffExit_of_just (h : containsJustABarrier (G.block b)) :
    hiveOffExit G b = (G, []) := by
  simp [hiveOffExit, h]

theorem exitVisited_hiveOffExit {bs : List BlockId} (h : Started F G) (hx : ExitsBut G (b :: bs))
    (hb : b ∈ G.layout) (hbs : ∀ x ∈ bs, x ∈ G.layout) :
    ExitVisited F G (hiveOffExit G b).1 bs (hiveOffExit G b).2 := by
  have hfresh : G.freshBlock ∉ bs := fun h => G.freshBlock_not_mem (hbs _ h)
  have hlayout : ∀ SplitPt, ∀ x ∈ G.layout, x ∈ (G.splitBlock b SplitPt).layout :=
    fun SplitPt x hx => (G.mem_layout_splitBlock h.valid.nodup hb).mpr (.inr hx)
  have hnew : ∀ SplitPt, G.freshBlock ∈ (G.splitBlock b SplitPt).layout :=
    fun SplitPt => (G.mem_layout_splitBlock h.valid.nodup hb).mpr (.inl rfl)
  unfold hiveOffExit
  split
  · rename_i hc
    obtain ⟨hsucc, hj⟩ : G.succs b = [] ∧ ¬ containsJustABarrier (G.block b) := by
      simpa [List.isEmpty_iff] using hc
    have hs : ∀ SplitPt, SplitsOff G b SplitPt := fun _ h => absurd h hj
    split
    · rename_i he
      obtain ⟨pre, I, hI, hbar⟩ := endsWithBarrier_iff.mp he
      have hpt : (G.block b).prevOfTerminator = I.id := by
        simp [BasicBlock.prevOfTerminator, hI]
      have hjust : containsJustABarrier ((G.splitBlock b I.id).block G.freshBlock) := by
        rw [G.block_splitBlock_new, (split_last h.valid hb hI hbar).2]
        exact containsJustABarrier_iff.mpr ⟨I, rfl, hbar⟩
      rw [hpt]
      exact ⟨h.splitBlock hb (hs _), hx.splitBlock h.valid hb fun _ _ => hjust, hlayout _,
        .inr ⟨_, hnew _, rfl, hjust⟩⟩
    · have hnil : ((G.splitBlock b (G.block b).termId).block G.freshBlock).insts = [] := by
        rw [G.block_splitBlock_new]
        exact (BasicBlock.split_at_termId (h.valid.instIds_nodup hb)).2
      have h' := h.splitBlock hb (hs (G.block b).termId)
      have hne := G.ne_freshBlock G.entry_mem_layout
      have hx' : ExitsBut (G.splitBlock b (G.block b).termId) (G.freshBlock :: bs) :=
        (hx.mono (by grind)).splitBlock h.valid hb fun _ h => absurd List.mem_cons_self h
      have hstart : Started F
          ((G.splitBlock b (G.block b).termId).createBarrierBeforeTerminator G.freshBlock) := by
        refine ⟨h'.valid.createBarrierBeforeTerminator (hnew _),
          onlyAdds_createBarrierBeforeTerminator h'.valid h'.adds (hnew _) hnil (.inr ?_), ?_⟩
        · rw [G.succs_splitBlock_new, hsucc]
        · rw [Function.createBarrierBeforeTerminator, Function.entry_updateBlock,
            G.entry_splitBlock, Function.block_updateBlock_ne _ hne]
          exact h'.entry
      exact ⟨hstart, hx'.createBarrierBeforeTerminator hnil, hlayout (G.block b).termId,
        .inr ⟨_, hnew (G.block b).termId, rfl, just_createBarrierBeforeTerminator hnil⟩⟩
  · rename_i hc
    refine ⟨h, fun x hxl hxs hsucc => ?_, fun _ h => h, .inl rfl⟩
    by_cases hxb : x = b
    · subst hxb
      simpa [hsucc] using hc
    · exact hx x hxl (by simp [hxb, hxs]) hsucc

/-- Each block costs at most two iterations, its own and that of the block split off. -/
theorem started_hiveOffExits {bs : List BlockId} : ∀ {n : Nat} {G : Function}, Started F G →
    ExitsBut G bs → (∀ x ∈ bs, x ∈ G.layout) → 2 * bs.length ≤ n →
    Started F (hiveOffExits n G bs) ∧ ExitsBut (hiveOffExits n G bs) [] := by
  induction bs with
  | nil =>
    intro n G h hx _ _
    cases n <;> exact ⟨h, hx⟩
  | cons b bs ih =>
    intro n G h hx hbs hn
    obtain ⟨n, rfl⟩ : ∃ m, n = m + 2 := ⟨n - 2, by simp at hn; omega⟩
    have hv := exitVisited_hiveOffExit h hx (hbs b List.mem_cons_self)
      fun x hx => hbs x (List.mem_cons_of_mem _ hx)
    have hbs' : ∀ x ∈ bs, x ∈ (hiveOffExit G b).1.layout :=
      fun x hx => hv.layout x (hbs x (List.mem_cons_of_mem _ hx))
    simp only [List.length_cons] at hn
    simp only [hiveOffExits]
    rcases hv.created with hc | ⟨x, hxl, hc, hj⟩
    · rw [hc, List.nil_append]
      exact ih hv.started hv.exits hbs' (by omega)
    · rw [hc, List.singleton_append]
      simp only [hiveOffExits, hiveOffExit_of_just hj, List.nil_append]
      exact ih hv.started hv.exits hbs' (by omega)

theorem started_hiveOffEntryAndExits (hF : F.Valid) :
    Started F (hiveOffEntryAndExits F) ∧ ExitsBut (hiveOffEntryAndExits F) [] :=
  started_hiveOffExits (started_hiveOffEntry hF) (fun _ hb h => absurd hb h) (fun _ h => h) le_rfl

/-! ### The barriers, in any order -/

/-- The block `b` has its final form. -/
def Alone (G : Function) (b : BlockId) : Prop :=
  containsJustABarrier (G.block b) ∧
    (b ≠ G.entry → ∃ p, G.predEdges b = [p] ∧ (G.block p).term = .br b)

theorem Alone.splitBlock (h : Alone G b) (hG : G.Valid) (ho : Old ∈ G.layout) (hb : b ∈ G.layout)
    (hne : b ≠ Old) : Alone (G.splitBlock Old SplitPt) b := by
  refine ⟨by rw [containsJustABarrier_splitBlock hb hne]; exact h.1, fun he => ?_⟩
  obtain ⟨p, hp, hterm⟩ := h.2 he
  have hpl : p ∈ G.layout := (Function.mem_predEdges.mp (hp ▸ List.mem_singleton_self p)).1
  refine ⟨rename Old G.freshBlock p, ?_, ?_⟩
  · rw [G.predEdges_splitBlock hG.nodup ho (G.ne_freshBlock hb), hp]
    rfl
  · rw [rename]
    split
    · rename_i hpo
      rw [G.block_splitBlock_new, ← hpo]
      exact hterm
    · rename_i hpo
      rw [G.block_splitBlock hpl hpo]
      exact hterm

/-- The barriers are those of `S`; those no longer in `todo` have their final form. -/
structure Hiving (F : Function) (S : List InstId) (todo : List InstId) (G : Function) : Prop where
  started : Started F G
  exits : ExitsBut G []
  barriers : ∀ b ∈ G.layout, ∀ J ∈ (G.block b).insts, J.isBarrier ↔ J.id ∈ S
  present : ∀ I ∈ S, ∃ b ∈ G.layout, ∃ J ∈ (G.block b).insts, J.id = I
  done : ∀ b ∈ G.layout, ∀ J ∈ (G.block b).insts, J.id ∈ S → J.id ∉ todo → Alone G b

section
variable {S todo : List InstId} {I : InstId}

theorem Hiving.splitBlock (h : Hiving F S todo G) (ho : Old ∈ G.layout)
    (hs : SplitsOff G Old SplitPt)
    (hold : ∀ J ∈ (G.block Old).insts, J.id ∈ S → J.id ∈ todo) :
    Hiving F S todo (G.splitBlock Old SplitPt) where
  started := h.started.splitBlock ho hs
  exits := (h.exits.mono (List.nil_subset _)).splitBlock h.started.valid ho fun hsucc _ =>
    hs.just_new (h.exits Old ho List.not_mem_nil hsucc)
  barriers b hb J hJ := by
    obtain ⟨b', hb', K, hK, x, rfl⟩ := h.started.valid.mem_insts_splitBlock ho hb hJ
    rw [Instruction.isBarrier_mapBlocks, Instruction.id_mapBlocks]
    exact h.barriers b' hb' K hK
  present I hI := by
    have hn := h.started.valid.nodup
    obtain ⟨b, hb, J, hJ, rfl⟩ := h.present I hI
    by_cases hbo : b = Old
    · subst hbo
      rw [← BasicBlock.beforeSplit_append_afterSplit _ SplitPt] at hJ
      rcases List.mem_append.mp hJ with hJ | hJ
      · refine ⟨b, (G.mem_layout_splitBlock hn ho).mpr (.inr hb),
          J.mapBlocks (G.splitRename b b), ?_, rfl⟩
        rw [G.block_splitBlock_old ho]
        exact List.mem_map_of_mem hJ
      · refine ⟨_, (G.mem_layout_splitBlock hn ho).mpr (.inl rfl), J, ?_, rfl⟩
        rw [G.block_splitBlock_new]
        exact hJ
    · refine ⟨b, (G.mem_layout_splitBlock hn ho).mpr (.inr hb),
        J.mapBlocks (G.splitRename Old b), ?_, rfl⟩
      rw [G.block_splitBlock hb hbo]
      exact List.mem_map_of_mem hJ
  done b hb J hJ hJS hJt := by
    have hG := h.started.valid
    rcases (G.mem_layout_splitBlock hG.nodup ho).mp hb with rfl | hb
    · rw [G.block_splitBlock_new] at hJ
      exact absurd (hold J (BasicBlock.mem_of_mem_afterSplit hJ) hJS) hJt
    · by_cases hbo : b = Old
      · subst hbo
        rw [G.block_splitBlock_old ho] at hJ
        obtain ⟨K, hK, rfl⟩ := List.mem_map.mp hJ
        exact absurd (hold K (BasicBlock.mem_of_mem_beforeSplit hK) hJS) hJt
      · rw [G.block_splitBlock hb hbo] at hJ
        obtain ⟨K, hK, rfl⟩ := List.mem_map.mp hJ
        exact (h.done b hb K hK hJS hJt).splitBlock hG ho hb hbo

theorem Hiving.finish (h : Hiving F S (I :: todo) G)
    (hI : ∀ b ∈ G.layout, ∀ J ∈ (G.block b).insts, J.id = I → Alone G b) :
    Hiving F S todo G where
  started := h.started
  exits := h.exits
  barriers := h.barriers
  present := h.present
  done b hb J hJ hJS hJt := by
    by_cases hJI : J.id = I
    · exact hI b hb J hJ hJI
    · exact h.done b hb J hJ hJS (by simp [hJI, hJt])

/-- Two barriers of one block are both still to do. -/
theorem Hiving.todo_of_mem (h : Hiving F S todo G) (hb : b ∈ G.layout) {K : Instruction}
    (hK : K ∈ (G.block b).insts) (hKt : K.id ∈ todo) :
    ∀ J ∈ (G.block b).insts, J.id ∈ S → J.id ∈ todo := by
  intro J hJ hJS
  by_contra hJt
  obtain ⟨L, hL, -⟩ := containsJustABarrier_iff.mp (h.done b hb J hJ hJS hJt).1
  rw [hL, List.mem_singleton] at hJ hK
  exact hJt (hJ ▸ hK ▸ hKt)

theorem getParent_eq_some {B : BlockId} (h : G.getParent I = some B) :
    B ∈ G.layout ∧ ∃ J ∈ (G.block B).insts, J.id = I := by
  refine ⟨List.mem_of_find?_eq_some h, ?_⟩
  simpa using List.find?_some h

theorem getParent_eq_none (h : G.getParent I = none) :
    ∀ b ∈ G.layout, ∀ J ∈ (G.block b).insts, J.id ≠ I := by
  simpa [Function.getParent] using h

theorem getNextNode_eq {BB : BasicBlock} {pre post : List Instruction} {J : Instruction}
    (h : BB.insts = pre ++ J :: post) (hn : BB.instIds.Nodup) :
    BB.getNextNode J.id = (post.head?.map Instruction.id).getD BB.termId := by
  have hne : ∀ K ∈ pre, decide (K.id ≠ J.id) = true := by
    intro K hK
    refine decide_eq_true fun he => ?_
    simp only [BasicBlock.instIds, h, List.map_append, List.map_cons] at hn
    exact (List.nodup_append.mp (List.nodup_append.mp hn).1).2.2 _ (List.mem_map_of_mem hK) _
      List.mem_cons_self he
  rw [BasicBlock.getNextNode, h, List.dropWhile_append_of_pos hne]
  simp

theorem not_phi_of_mem_post (hG : G.Valid) (hb : b ∈ G.layout) {pre post : List Instruction}
    {J K : Instruction} (h : (G.block b).insts = pre ++ J :: post) (hJ : J.op.isPhi = false)
    (hK : K ∈ post) : K.op.isPhi = false := by
  refine hG.phisFirst b hb K ?_
  rw [h, List.dropWhile_append]
  split
  · simp [hJ, hK]
  · simp [hK]

/-- After the first split the barrier ends its block. -/
theorem Hiving.splitAfter (h : Hiving F S (I :: todo) G) {B : BlockId} (hB : B ∈ G.layout)
    {J : Instruction} (hJ : J ∈ (G.block B).insts) (hJI : J.id = I) (hJS : I ∈ S) :
    Hiving F S (I :: todo) (splitAfter G B I) ∧ B ∈ (splitAfter G B I).layout ∧
      ∃ pre, ((splitAfter G B I).block B).insts = pre ++ [J] := by
  have hV := h.started.valid
  have hphi : J.op.isPhi = false :=
    Instruction.not_phi_of_isBarrier ((h.barriers B hB J hJ).mpr (hJI ▸ hJS))
  have hn := hV.instIds_nodup hB
  obtain ⟨pre, post, hinsts⟩ := List.append_of_mem hJ
  have hnext := getNextNode_eq hinsts hn
  rw [hJI] at hnext
  cases post with
  | nil =>
    have : HiveOff.splitAfter G B I = G := by simp [HiveOff.splitAfter, hnext]
    rw [this]
    exact ⟨h, hB, pre, hinsts⟩
  | cons K post =>
    have hsplit : (G.block B).insts = (pre ++ [J]) ++ K :: post := by simp [hinsts]
    simp only [BasicBlock.instIds, hsplit, List.map_append, List.map_cons] at hn
    have hKterm : K.id ≠ (G.block B).termId := fun he =>
      (List.nodup_append.mp hn).2.2 K.id (by simp) _ List.mem_cons_self he
    have hKpre : K.id ∉ (pre ++ [J]).map Instruction.id := fun hm =>
      (List.nodup_append.mp (List.nodup_append.mp hn).1).2.2 _ (by simpa using hm) K.id
        List.mem_cons_self rfl
    have hKphi := not_phi_of_mem_post hV hB hinsts hphi List.mem_cons_self
    have hsp := BasicBlock.split_at hsplit hKpre hKphi
    have : HiveOff.splitAfter G B I = G.splitBlock B K.id := by
      simp [HiveOff.splitAfter, splitBlockAfterBarrier, hnext, hKterm]
    rw [this]
    have hs : SplitsOff G B K.id := by
      intro hj
      obtain ⟨L, hL, -⟩ := containsJustABarrier_iff.mp hj
      have := congrArg List.length (hinsts.symm.trans hL)
      simp at this
      omega
    refine ⟨h.splitBlock hB hs (h.todo_of_mem hB hJ (hJI ▸ List.mem_cons_self)),
      (G.mem_layout_splitBlock hV.nodup hB).mpr (.inr hB),
      pre.map (Instruction.mapBlocks (G.splitRename B B)), ?_⟩
    rw [G.block_splitBlock_old hB, hsp.1, List.map_append, List.map_singleton,
      Instruction.mapBlocks_of_not_phi hphi]

theorem Hiving.processBarrierInst (h : Hiving F S (I :: todo) G) (hIS : I ∈ S) :
    Hiving F S todo (processBarrierInst G I).1 := by
  unfold HiveOff.processBarrierInst
  split
  · rename_i hnone
    exact h.finish fun b hb J hJ hJI => absurd hJI (getParent_eq_none hnone b hb J hJ)
  · rename_i B hB
    obtain ⟨hB, J, hJ, hJI⟩ := getParent_eq_some hB
    obtain ⟨h', hB', pre, hinsts⟩ := h.splitAfter hB hJ hJI hIS
    generalize HiveOff.splitAfter G B I = G' at h' hB' hinsts ⊢
    have hV := h'.started.valid
    have hJB : J ∈ (G'.block B).insts := by simp [hinsts]
    have hbar : J.isBarrier := (h'.barriers B hB' J hJB).mpr (hJI ▸ hIS)
    have hparent : ∀ b ∈ G'.layout, ∀ K ∈ (G'.block b).insts, K.id = I → b = B := by
      intro b hb K hK hKI
      refine Function.eq_of_mem_instIds hV.ids hb hB' (i := I) ?_ ?_
      · exact List.mem_append_left _ (List.mem_map.mpr ⟨K, hK, hKI⟩)
      · exact List.mem_append_left _ (List.mem_map.mpr ⟨J, hJB, hJI⟩)
    simp only
    split
    · -- the barrier of the function entry
      rename_i hc
      refine h'.finish fun b hb K hK hKI => ?_
      rw [hparent b hb K hK hKI, hc.1]
      exact ⟨h'.started.entry, fun h => absurd rfl h⟩
    · rename_i hc
      have hsp := split_last hV hB' hinsts hbar
      rw [hJI] at hsp
      have hs : SplitsOff G' B I := by
        intro hj
        obtain ⟨L, hL, -⟩ := containsJustABarrier_iff.mp hj
        have hpre : pre = [] := by
          have := congrArg List.length (hinsts.symm.trans hL)
          simpa using this
        refine ⟨fun he => hc ⟨he, ?_⟩, by rw [hsp.1, hpre]⟩
        simp [BasicBlock.getFirstNonPHI, hinsts, hpre, Instruction.not_phi_of_isBarrier hbar, hJI]
      have h'' := h'.splitBlock hB' hs (h'.todo_of_mem hB' hJB (hJI ▸ List.mem_cons_self))
      refine h''.finish fun b hb K hK hKI => ?_
      have hnew : b = G'.freshBlock := by
        refine Function.eq_of_mem_instIds h''.started.valid.ids hb
          ((G'.mem_layout_splitBlock hV.nodup hB').mpr (.inl rfl)) (i := I) ?_ ?_
        · exact List.mem_append_left _ (List.mem_map.mpr ⟨K, hK, hKI⟩)
        · rw [G'.block_splitBlock_new, hsp.2]
          simp [BasicBlock.instIds, hJI]
      subst hnew
      refine ⟨?_, fun _ => ⟨B, G'.predEdges_splitBlock_new hV hB', ?_⟩⟩
      · rw [G'.block_splitBlock_new, hsp.2]
        exact containsJustABarrier_iff.mpr ⟨J, rfl, hbar⟩
      · rw [G'.block_splitBlock_old hB']

theorem Hiving.processBarrier {S todo : List InstId} : ∀ {G : Function} {Changed : Bool},
    Hiving F S todo G → todo ⊆ S →
    Hiving F S [] (todo.foldl (fun (F, Changed) I =>
      ((HiveOff.processBarrierInst F I).1, Changed || (HiveOff.processBarrierInst F I).2))
      (G, Changed)).1 := by
  induction todo with
  | nil => exact fun h _ => h
  | cons I todo ih =>
    intro G Changed h hsub
    exact ih (h.processBarrierInst (hsub List.mem_cons_self))
      fun x hx => hsub (List.mem_cons_of_mem _ hx)

end

theorem Hiving.hivedOff {S : List InstId} (h : Hiving F S [] G) : G.HivedOff where
  alone b hb hbar := by
    obtain ⟨J, hJ, hJb⟩ := List.any_eq_true.mp hbar
    exact (h.done b hb J hJ ((h.barriers b hb J hJ).mp hJb) List.not_mem_nil).1
  entry := h.started.entry
  exits b hb := h.exits b hb List.not_mem_nil
  pred b hb hne hbar := by
    obtain ⟨J, hJ, hJb⟩ := List.any_eq_true.mp hbar
    exact (h.done b hb J hJ ((h.barriers b hb J hJ).mp hJb) List.not_mem_nil).2 hne

theorem mem_collectBarriers_iff (hG : G.Valid) (hb : b ∈ G.layout) {J : Instruction}
    (hJ : J ∈ (G.block b).insts) : J.isBarrier ↔ J.id ∈ collectBarriers G := by
  simp only [collectBarriers, List.mem_flatMap, List.mem_map, List.mem_filter]
  constructor
  · exact fun h => ⟨b, hb, J, ⟨hJ, h⟩, rfl⟩
  · rintro ⟨b', hb', K, ⟨hK, hbar⟩, hid⟩
    have : b' = b := by
      refine Function.eq_of_mem_instIds hG.ids hb' hb (i := J.id) ?_ ?_
      · exact List.mem_append_left _ (List.mem_map.mpr ⟨K, hK, hid⟩)
      · exact List.mem_append_left _ (List.mem_map_of_mem hJ)
    subst this
    have hn := (List.nodup_append.mp (hG.instIds_nodup hb)).1
    rwa [← List.inj_on_of_nodup_map hn hK hJ hid]

theorem hiving_runOnFunction (hF : F.Valid) {order : List InstId → List InstId}
    (ho : ∀ l, (order l).Perm l) :
    Hiving F (collectBarriers (hiveOffEntryAndExits F)) [] (runOnFunction order F).1 := by
  obtain ⟨h, hx⟩ := started_hiveOffEntryAndExits hF
  refine Hiving.processBarrier ⟨h, hx, fun b hb J hJ => mem_collectBarriers_iff h.valid hb hJ,
    fun I hI => ?_, fun b hb J hJ hJS hJt => absurd ((ho _).mem_iff.mpr hJS) hJt⟩ (ho _).subset
  simp only [collectBarriers, List.mem_flatMap, List.mem_map, List.mem_filter] at hI
  obtain ⟨b, hb, J, ⟨hJ, -⟩, hid⟩ := hI
  exact ⟨b, hb, J, hJ, hid⟩

/-- In every order of the barriers the pass ends in the normal form, and only adds barriers at the
entry and the exits and unconditional branches. -/
theorem runOnFunction_hivedOff (hF : F.Valid) {order : List InstId → List InstId}
    (ho : ∀ l, (order l).Perm l) :
    (runOnFunction order F).1.HivedOff ∧ F.OnlyAdds (runOnFunction order F).1 :=
  ⟨(hiving_runOnFunction hF ho).hivedOff, (hiving_runOnFunction hF ho).started.adds⟩

/-- Two barriers in the entry block, and one behind a PHI in a loop. -/
def twoBarriers : Function where
  name := "two_barriers"
  entry := 0
  rest := [1, 2]
  block
    | 0 => ⟨[barrierCall 0, ⟨1, .int 32, .other "add" []⟩, barrierCall 2], 3, .br 1⟩
    | 1 => ⟨[⟨4, .int 32, .phi [(.inst 1, 0), (.inst 6, 1)]⟩, barrierCall 5,
        ⟨6, .int 32, .other "add" [.inst 4]⟩], 7, .condBr (.inst 4) 1 2⟩
    | _ => ⟨[], 8, .ret none⟩

theorem twoBarriers_valid : twoBarriers.Valid where
  nodup := by decide
  closed := by unfold Function.Closed; decide
  entryPreds := by decide
  ids := by decide
  phisFirst := by decide
  entryPhis := by decide
  incoming := by decide

theorem runOnFunction_hivedOff_twoBarriers :
    (runOnFunction List.reverse twoBarriers).1.HivedOff ∧
      twoBarriers.OnlyAdds (runOnFunction List.reverse twoBarriers).1 :=
  runOnFunction_hivedOff twoBarriers_valid List.reverse_perm

/-- The assertion of `verifyAnalysis` holds. -/
theorem verifyAnalysis_runOnFunction (hF : F.Valid) {order : List InstId → List InstId}
    (ho : ∀ l, (order l).Perm l) : verifyAnalysis (runOnFunction order F).1
      (order (collectBarriers (hiveOffEntryAndExits F))) := by
  have h := hiving_runOnFunction hF ho
  refine List.all_eq_true.mpr fun I hI => ?_
  have hI := (ho _).subset hI
  obtain ⟨b, hb, J, hJ, hJI⟩ := h.present I hI
  cases hp : (runOnFunction order F).1.getParent I with
  | none => exact absurd hJI (getParent_eq_none hp b hb J hJ)
  | some B =>
    obtain ⟨hB, K, hK, hKI⟩ := getParent_eq_some hp
    exact (h.done B hB K hK (hKI ▸ hI) List.not_mem_nil).1

end HiveOff

end VariOCL.IR
