import VariOCL.LoopInserter.IdMarks

/-! What the loops, the context code and the last steps of the pass make of the calls to
`get_local_id`. -/

namespace VariOCL.IR.LoopInserter

section
variable {F G : Function} {DT DT' : DominatorTree} {RN : MxPARegion}
  {order : Function → BlockId → List BlockId} {b EntryBB ExitBB TheSucc2Exit : BlockId}
  {i IV : InstId} {d : Nat} {k : Nat × Nat} {BB : BasicBlock} {L : DWLoop}

/-! ### Loops -/

theorem keepsConst_toIV {replaced : List InstId} : KeepsConst (toIV IV replaced) := fun _ _ _ =>
  toIV_eq_constInt

theorem filterMap_mark_mapBlocks (g : BlockId → BlockId) (Is : List Instruction) :
    (Is.map (Instruction.mapBlocks g)).filterMap mark = Is.filterMap mark := by
  rw [List.filterMap_map]
  exact List.filterMap_congr fun I _ => mark_mapBlocks g I

theorem DWLoop.Fresh.marks_create (h : L.Fresh F) (hG : G.layout = F.layout) :
    (marks (L.create G EntryBB ExitBB TheSucc2Exit d)).Perm (marks G) := by
  have hd := h.distinct
  simp only [List.nodup_cons, List.mem_cons, List.not_mem_nil, or_false, not_or] at hd
  obtain ⟨⟨hlp, hlh, hle⟩, ⟨hph, hpe⟩, hhe, -⟩ := hd
  refine (marks_createBlock ?_ rfl).trans ((marks_createBlock ?_ rfl).trans
    ((marks_createBlock ?_ rfl).trans (marks_createBlock ?_ rfl)))
  · simp only [Function.mem_layout_createBlock, hG, not_or]
    exact ⟨Ne.symm hhe, Ne.symm hpe, Ne.symm hle, h.loopEnd⟩
  · simp only [Function.mem_layout_createBlock, hG, not_or]
    exact ⟨Ne.symm hph, Ne.symm hlh, h.header⟩
  · simp only [Function.mem_layout_createBlock, hG, not_or]
    exact ⟨Ne.symm hlp, h.preheader⟩
  · rw [hG]
    exact h.latch

theorem marks_enterAtPreheader (L : DWLoop) (EntryBB : BlockId) (F : Function) (Pred : BlockId) :
    marks (enterAtPreheader L EntryBB F Pred) = marks F := by
  rw [enterAtPreheader, marks_updateBlock (filterMap_mark_mapBlocks _ _), marks_updateBlock rfl]

theorem marks_rewire (order : Function → BlockId → List BlockId) (DT : DominatorTree)
    (EntryBB ExitBB TheSucc2Exit : BlockId) (d : Nat) (hL : L.Fresh F) :
    (marks (rewire order L F DT EntryBB ExitBB TheSucc2Exit d)).Perm (marks F) := by
  have hexit : marks (F.updateBlock ExitBB (BasicBlock.replaceSuccessor TheSucc2Exit L.LatchBB)) =
      marks F := marks_updateBlock rfl
  have hcreate : (marks (L.create (F.updateBlock ExitBB
      (BasicBlock.replaceSuccessor TheSucc2Exit L.LatchBB)) EntryBB ExitBB TheSucc2Exit d)).Perm
      (marks F) := hexit ▸ hL.marks_create rfl
  rw [rewire, marks_updateBlock rfl]
  cases outsidePred order _ DT EntryBB with
  | none => exact hcreate
  | some Pred =>
    rw [Option.toList_some, List.foldl_cons, List.foldl_nil, marks_enterAtPreheader]
    exact hcreate

theorem layout_rewire_mem (hb : b ∈ F.layout) (DT : DominatorTree) :
    b ∈ (rewire order L F DT EntryBB ExitBB TheSucc2Exit d).layout := by
  have hcreate : b ∈ (L.create (F.updateBlock ExitBB
      (BasicBlock.replaceSuccessor TheSucc2Exit L.LatchBB)) EntryBB ExitBB TheSucc2Exit d).layout :=
    DWLoop.mem_layout_create.mpr (.inr hb)
  rw [rewire, Function.layout_updateBlock]
  cases outsidePred order _ DT EntryBB with
  | none => exact hcreate
  | some Pred => exact hcreate

/-- Marks with one id are one mark. -/
theorem DistinctMarks.eq_of_id (h : DistinctMarks F) {m m' : BlockId × InstId × Option (Nat × Nat)}
    (hm : m ∈ marks F) (hm' : m' ∈ marks F) (hid : m.2.1 = m'.2.1) : m = m' :=
  List.inj_on_of_nodup_map h hm hm' hid

theorem mark_of_isLocalIdCall {I : Instruction} :
    isLocalIdCall d I = true ↔ constDim "get_local_id" I = some (32, d) := by
  rw [constDim_eq_some]
  obtain ⟨j, t, op⟩ := I
  cases op with
  | call callee args =>
    cases callee with
    | none => simp [isLocalIdCall]
    | some name => cases args <;> simp [isLocalIdCall]
  | _ => simp [isLocalIdCall]

theorem mem_marks_of_mem_localIdCalls (hRN : ∀ b ∈ RN.BBInvolved, b ∈ F.layout)
    (hi : i ∈ localIdCalls F RN d) : ∃ b ∈ RN.BBInvolved, (b, i, some (32, d)) ∈ marks F := by
  obtain ⟨b, hb, I, hI, hcall, hid⟩ := mem_localIdCalls.mp hi
  exact ⟨b, hb, mem_marks.mpr ⟨hRN b hb, I, hI,
    mark_eq_some_iff.mpr ⟨hid, mark_of_isLocalIdCall.mp hcall⟩⟩⟩

theorem mem_marks_of_mem_truncs {c : InstId} (h : onlyTrunc F c = some i) :
    ∃ b, (b, i, none) ∈ marks F := by
  obtain ⟨b, hb, TI, hTI, htrunc, rfl⟩ := onlyTrunc_eq_some h
  exact ⟨b, mem_marks.mpr ⟨hb, TI, hTI, if_pos htrunc⟩⟩

/-- The calls of the dimension are gone from the blocks involved, and all other calls stay. -/
theorem mem_marks_replaceIdCalls (h : DistinctMarks F) (hRN : ∀ b ∈ RN.BBInvolved, b ∈ F.layout) :
    (b, i, some k) ∈ marks (replaceIdCalls F RN d IV) ↔
      (b, i, some k) ∈ marks F ∧ ¬ (b ∈ RN.BBInvolved ∧ k = (32, d)) := by
  rw [replaceIdCalls, marks_eraseInsts, keepsConst_toIV.marks_mapValues, List.mem_filter]
  refine and_congr_right fun hm => ?_
  simp only [Bool.not_eq_true', List.contains_eq_mem, decide_eq_false_iff_not, List.mem_append,
    List.mem_filterMap, not_or]
  constructor
  · rintro ⟨hcall, -⟩ ⟨hb, rfl⟩
    obtain ⟨-, I, hI, hmark⟩ := mem_marks.mp hm
    obtain ⟨hid, hdim⟩ := mark_eq_some_iff.mp hmark
    exact hcall (mem_localIdCalls.mpr ⟨b, hb, I, hI, mark_of_isLocalIdCall.mpr hdim, hid⟩)
  · intro hnot
    constructor
    · intro hi
      obtain ⟨b', hb', hm'⟩ := mem_marks_of_mem_localIdCalls hRN hi
      have heq := h.eq_of_id hm hm' rfl
      cases heq
      exact hnot ⟨hb', rfl⟩
    · rintro ⟨c, -, hc⟩
      obtain ⟨b', hm'⟩ := mem_marks_of_mem_truncs hc
      cases h.eq_of_id hm hm' rfl

theorem DistinctMarks.replaceIdCalls (h : DistinctMarks F) :
    DistinctMarks (replaceIdCalls F RN d IV) := by
  rw [DistinctMarks, LoopInserter.replaceIdCalls, marks_eraseInsts, keepsConst_toIV.marks_mapValues]
  exact List.Sublist.nodup (List.filter_sublist.map _) h

theorem DistinctMarks.perm (h : DistinctMarks F) (hp : (marks G).Perm (marks F)) : DistinctMarks G :=
  (hp.map _).nodup_iff.mpr h

/-- The loop of dimension `d` clears the blocks involved, and adds blocks to the layout. -/
structure Clears (RN : MxPARegion) (D : Nat → Prop) (F G : Function) : Prop where
  distinct : DistinctMarks G
  layout : ∀ b ∈ F.layout, b ∈ G.layout
  marks : ∀ b i k, (b, i, some k) ∈ marks G ↔
    (b, i, some k) ∈ marks F ∧ ¬ (b ∈ RN.BBInvolved ∧ k.1 = 32 ∧ D k.2)

theorem buildDWLoopOverRegion_clears {r : (Function × DominatorTree) × BlockId × BlockId}
    (hbuild : buildDWLoopOverRegion order RN F DT EntryBB ExitBB d = .ok r) (h : DistinctMarks F)
    (hRN : ∀ b ∈ RN.BBInvolved, b ∈ F.layout) : Clears RN (· = d) F r.1.1 := by
  rw [buildDWLoopOverRegion] at hbuild
  split at hbuild
  · rename_i next _
    cases hbuild
    have hperm := marks_rewire order ((newLoop F).addToTree DT EntryBB) EntryBB ExitBB next d
      (newLoop_fresh F)
    have hlayout : ∀ b ∈ F.layout, b ∈ (rewire order (newLoop F) F
        ((newLoop F).addToTree DT EntryBB) EntryBB ExitBB next d).layout :=
      fun b hb => layout_rewire_mem hb _
    have hdistinct := h.perm hperm
    refine ⟨hdistinct.replaceIdCalls, hlayout, fun b i k => ?_⟩
    rw [mem_marks_replaceIdCalls hdistinct fun b hb => hlayout b (hRN b hb), hperm.mem_iff]
    obtain ⟨w, c⟩ := k
    rw [Prod.mk.injEq]
  · cases hbuild

theorem Clears.trans {D D' : Nat → Prop} {H : Function} (h : Clears RN D F G)
    (h' : Clears RN D' G H) : Clears RN (fun c => D c ∨ D' c) F H := by
  refine ⟨h'.distinct, fun b hb => h'.layout b (h.layout b hb), fun b i k => ?_⟩
  rw [h'.marks, h.marks]
  tauto

/-- The nest of loops around a region clears it of all constant dimensions. -/
theorem insertLoops_clears {r : Function × DominatorTree} (hloops : insertLoops order RN F DT = .ok r)
    (h : DistinctMarks F) (hRN : ∀ b ∈ RN.BBInvolved, b ∈ F.layout) :
    Clears RN (· < 3) F r.1 := by
  rw [insertLoops] at hloops
  split at hloops
  · cases hloops
  · obtain ⟨l0, h0, hloops⟩ := Sim.bind_eq_ok.mp hloops
    obtain ⟨l1, h1, hloops⟩ := Sim.bind_eq_ok.mp hloops
    obtain ⟨l2, h2, hloops⟩ := Sim.bind_eq_ok.mp hloops
    cases hloops
    have hc0 := buildDWLoopOverRegion_clears h0 h hRN
    have hc1 := buildDWLoopOverRegion_clears h1 hc0.distinct fun b hb => hc0.layout b (hRN b hb)
    have hc01 := hc0.trans hc1
    have hc2 := buildDWLoopOverRegion_clears h2 hc01.distinct fun b hb => hc01.layout b (hRN b hb)
    have hdims : (fun c => (c = 0 ∨ c = 1) ∨ c = 2) = fun c => c < 3 := by
      funext c
      exact propext (by omega)
    exact hdims ▸ hc01.trans hc2

/-- The loops of all regions leave the calls of other blocks, widths and dimensions. -/
theorem foldlM_insertLoops_clears {PR : List MxPARegion} {r : Function × DominatorTree}
    (hloops : PR.foldlM (fun s RN => insertLoops order RN s.1 s.2) (F, DT) = .ok r)
    (h : DistinctMarks F) (hPR : ∀ RN ∈ PR, ∀ b ∈ RN.BBInvolved, b ∈ F.layout) :
    ∀ b i k, (b, i, some k) ∈ marks r.1 ↔ (b, i, some k) ∈ marks F ∧
      ¬ ((∃ RN ∈ PR, b ∈ RN.BBInvolved) ∧ k.1 = 32 ∧ k.2 < 3) := by
  induction PR generalizing F DT with
  | nil =>
    cases hloops
    simp
  | cons RN PR ih =>
    obtain ⟨hRN, hPR⟩ := List.forall_mem_cons.mp hPR
    obtain ⟨⟨G, DT'⟩, hRNloops, hloops⟩ := Sim.bind_eq_ok.mp hloops
    have hclears := insertLoops_clears hRNloops h hRN
    intro b i k
    rw [ih hloops hclears.distinct fun R hR b hb => hclears.layout b (hPR R hR b hb),
      hclears.marks, List.exists_mem_cons_iff, and_assoc, ← not_or, ← or_and_right]

end

/-! ### Contexts -/

structure SameMarks (F G : Function) : Prop where
  layout : G.layout = F.layout
  marks : marks G = marks F

section
variable {F G : Function} {PR : IndexedRegions} {users : Function → InstId → List InstId}
  {b : BlockId} {i j : InstId} {BB : BasicBlock} {Is : List Instruction} {I Inst : Instruction}
  {f : Value → Value} {g : BasicBlock → BasicBlock} {s t : Contexts}

theorem SameMarks.refl (F : Function) : SameMarks F F := ⟨rfl, rfl⟩

theorem SameMarks.trans {H : Function} (h : SameMarks F G) (h' : SameMarks G H) : SameMarks F H :=
  ⟨h'.layout.trans h.layout, h'.marks.trans h.marks⟩

theorem sameMarks_updateBlock
    (h : (g (F.block b)).insts.filterMap mark = (F.block b).insts.filterMap mark) :
    SameMarks F (F.updateBlock b g) := ⟨rfl, marks_updateBlock h⟩

theorem keepsConst_replace : KeepsConst (Value.replace i (.inst j)) := by
  intro v w c
  rw [Value.replace]
  split
  · simp [*]
  · rfl

theorem perm_insertAllBefore (Before : InstId) (Is : List Instruction) (BB : BasicBlock) :
    ((BB.insertAllBefore Before Is).insts.filterMap mark).Perm
      (Is.filterMap mark ++ BB.insts.filterMap mark) := by
  rw [← List.filterMap_append]
  exact (BB.perm_insertAllBefore Before Is).filterMap mark

theorem filterMap_insertAllBefore (h : Is.filterMap mark = []) (Before : InstId) :
    (BB.insertAllBefore Before Is).insts.filterMap mark = BB.insts.filterMap mark :=
  filterMap_takeWhile_insert _ _ h

theorem filterMap_insertAllAfter (h : Is.filterMap mark = []) (i : InstId) :
    (BB.insertAllAfter i Is).insts.filterMap mark = BB.insts.filterMap mark := by
  have hsplit : BB.insts = BB.insts.takeWhile (·.id ≠ i) ++
      (BB.insts.dropWhile (·.id ≠ i)).take 1 ++ (BB.insts.dropWhile (·.id ≠ i)).tail := by
    rw [List.append_assoc, ← List.drop_one, List.take_append_drop, List.takeWhile_append_dropWhile]
  conv => rhs; rw [hsplit]
  rw [BasicBlock.insertAllAfter, List.append_assoc, List.append_assoc, ← List.append_assoc
    (List.takeWhile _ (List.tail _)), List.filterMap_append, filterMap_takeWhile_insert _ _ h,
    ← List.filterMap_append]

theorem filterMap_replaceUsesIn (hf : KeepsConst f) (User : InstId) :
    (BB.replaceUsesIn User f).insts.filterMap mark = BB.insts.filterMap mark := by
  rw [BasicBlock.replaceUsesIn, List.filterMap_map]
  refine List.filterMap_congr fun I _ => ?_
  rw [Function.comp_apply]
  split
  · exact hf.mark_mapValues I
  · rfl

theorem sameMarks_getContextReplacementOf (Flat3DSize : InstId) (s : Contexts) (Inst : Instruction) :
    SameMarks s.F (getContextReplacementOf Flat3DSize s Inst).1.F := by
  rw [getContextReplacementOf]
  split
  · exact .refl _
  · refine sameMarks_updateBlock ?_
    rw [BasicBlock.insertBeforeTerminator, List.filterMap_append]
    exact List.append_nil _

theorem sameMarks_doContextStore {Alloca : InstId} {r : Function × Option InstId}
    (h : doContextStore PR F b Inst Alloca = .ok r) : SameMarks F r.1 := by
  rw [doContextStore] at h
  split at h
  · cases h
  · split at h
    · cases h
      exact .refl _
    · cases h
      exact sameMarks_updateBlock (filterMap_insertAllAfter rfl _)

theorem sameMarks_doContextReload {Alloca Before : InstId} {r : Function × InstId}
    (h : doContextReload PR F Inst Alloca Before = .ok r) : SameMarks F r.1 := by
  rw [doContextReload] at h
  split at h
  · cases h
  · split at h
    · cases h
    · dsimp only at h
      split at h
      · cases h
        exact sameMarks_updateBlock (filterMap_insertAllBefore rfl _)
      · cases h
        exact sameMarks_updateBlock (filterMap_insertAllBefore rfl _)

theorem sameMarks_reloadUse {Alloca User : InstId} (h : reloadUse PR Inst Alloca F User = .ok G) :
    SameMarks F G := by
  rw [reloadUse] at h
  split at h
  · cases h
    exact .refl _
  · split at h
    · cases h
      exact .refl _
    · obtain ⟨loc, -, h⟩ := Sim.bind_eq_ok.mp h
      obtain ⟨r, hr, h⟩ := Sim.bind_eq_ok.mp h
      cases h
      exact (sameMarks_doContextReload hr).trans
        (sameMarks_updateBlock (filterMap_replaceUsesIn keepsConst_replace _))

theorem sameMarks_performContextBuffering {Flat3DSize : InstId} {p : BlockId × Instruction}
    (h : performContextBuffering PR users Flat3DSize s p = .ok t) : SameMarks s.F t.F := by
  obtain ⟨r, hr, h⟩ := Sim.bind_eq_ok.mp h
  obtain ⟨F, hF, h⟩ := Sim.bind_eq_ok.mp h
  cases h
  have hstore := (sameMarks_getContextReplacementOf Flat3DSize s p.2).trans
    (sameMarks_doContextStore hr)
  exact Sim.foldlM_inv (P := fun G => SameMarks s.F G) hF hstore fun User _ G H hG hH =>
    hG.trans (sameMarks_reloadUse hH)

theorem sameMarks_deployRegionContext {Flat3DSize : InstId} {R : MxPARegion}
    (h : deployRegionContext PR users Flat3DSize s R = .ok t) : SameMarks s.F t.F :=
  Sim.foldlM_inv (P := fun c => SameMarks s.F c.F) h (.refl _) fun _ _ _ _ hc hd =>
    hc.trans (sameMarks_performContextBuffering hd)

end

/-! ### The index of a region -/

section
variable {F : Function} {L : LocalSizeInfo} {PR : List MxPARegion} {R : MxPARegion}
  {Is : List Instruction} {BB : BasicBlock} {b : BlockId} {i : InstId} {k : Nat × Nat}

theorem perm_insertAllAtFirstNonPHI (Is : List Instruction) (BB : BasicBlock) :
    ((BB.insertAllAtFirstNonPHI Is).insts.filterMap mark).Perm
      (Is.filterMap mark ++ BB.insts.filterMap mark) := by
  rw [← List.filterMap_append]
  exact (perm_takeWhile_insert _ BB.insts Is).filterMap mark

/-- New marks with new ids are distinct from the old ones. -/
theorem DistinctMarks.append {G : Function} (h : DistinctMarks F)
    {ms : List (InstId × Option (Nat × Nat))}
    (hp : (marks G).Perm (ms.map (fun m => (b, m)) ++ marks F)) (hn : (ms.map Prod.fst).Nodup)
    (hnew : ∀ m ∈ ms, F.freshInst ≤ m.1) : DistinctMarks G := by
  refine (hp.map _).nodup_iff.mpr ?_
  rw [List.map_append, List.map_map]
  refine List.nodup_append.mpr ⟨hn, h, ?_⟩
  intro x hx y hy
  obtain ⟨m, hm, rfl⟩ := List.mem_map.mp hx
  obtain ⟨m', hm', rfl⟩ := List.mem_map.mp hy
  have hlt := F.lt_freshInst (mem_instIds_of_mem_marks hm')
  exact Nat.ne_of_gt (Nat.lt_of_lt_of_le hlt (hnew m hm))

/-- The calls of the index are in the entries of the regions. -/
structure Indexed (F G : Function) (PR : List MxPARegion) : Prop where
  layout : G.layout = F.layout
  distinct : DistinctMarks G
  old : ∀ m ∈ marks F, m ∈ marks G
  new : ∀ b i k, (b, i, some k) ∈ marks G →
    (b, i, some k) ∈ marks F ∨ (∃ R ∈ PR, b = R.Entry) ∧ k.1 = 32 ∧ k.2 < 3

theorem insertFlatIdx_indexed (hn : F.layout.Nodup) (h : DistinctMarks F) (hR : R.Entry ∈ F.layout)
    (idx : IndexedRegions) : Indexed F (insertFlatIdx L (F, idx) R).1 [R] := by
  have hp := marks_updateBlock_perm hn hR
    (perm_insertAllAtFirstNonPHI (flatIdxCode L F.freshInst) (F.block R.Entry))
  have hcode : (flatIdxCode L F.freshInst).filterMap mark = [(F.freshInst, some (32, 0)),
      (F.freshInst + 1, some (32, 1)), (F.freshInst + 2, some (32, 2))] := rfl
  rw [hcode] at hp
  refine ⟨rfl, h.append hp (by simp) (by simp), ?_, ?_⟩
  · exact fun m hm => hp.mem_iff.mpr (List.mem_append_right _ hm)
  · intro b i k hm
    rcases List.mem_append.mp (hp.mem_iff.mp hm) with hm | hm
    · refine .inr ⟨⟨R, List.mem_singleton_self R, ?_⟩, ?_⟩
      · simp only [List.map_cons, List.map_nil, List.mem_cons, List.not_mem_nil, or_false,
          Prod.mk.injEq] at hm
        tauto
      · simp only [List.map_cons, List.map_nil, List.mem_cons, List.not_mem_nil, or_false,
          Prod.mk.injEq, Option.some.injEq] at hm
        rcases hm with ⟨-, -, rfl⟩ | ⟨-, -, rfl⟩ | ⟨-, -, rfl⟩ <;> decide
    · exact .inl hm

theorem foldl_insertFlatIdx_indexed (hn : F.layout.Nodup) (h : DistinctMarks F)
    (hPR : ∀ R ∈ PR, R.Entry ∈ F.layout) (idx : IndexedRegions) :
    Indexed F (PR.foldl (insertFlatIdx L) (F, idx)).1 PR := by
  induction PR generalizing F idx with
  | nil => exact ⟨rfl, h, fun _ hm => hm, fun _ _ _ hm => .inl hm⟩
  | cons R PR ih =>
    obtain ⟨hR, hPR⟩ := List.forall_mem_cons.mp hPR
    have hstep := insertFlatIdx_indexed (L := L) hn h hR idx
    have hrest := ih (F := (insertFlatIdx L (F, idx) R).1) hn hstep.distinct hPR
      (insertFlatIdx L (F, idx) R).2
    refine ⟨hrest.layout, hrest.distinct, fun m hm => hrest.old m (hstep.old m hm), ?_⟩
    intro b i k hm
    rcases hrest.new b i k hm with hm | ⟨⟨R', hR', heq⟩, hk⟩
    · rcases hstep.new b i k hm with hm | ⟨⟨R', hR', heq⟩, hk⟩
      · exact .inl hm
      · exact .inr ⟨⟨R, List.mem_cons_self, List.mem_singleton.mp hR' ▸ heq⟩, hk⟩
    · exact .inr ⟨⟨R', List.mem_cons_of_mem _ hR', heq⟩, hk⟩

end

/-! ### The last steps -/

section
variable {F G : Function} {I : Instruction} {Is : List Instruction} {Pos : InstId}
  {p : BlockId × Instruction} {ps : List (BlockId × Instruction)} {name : String} {args : List Value}

theorem mark_call (hop : I.op = .call (some name) args) (h : name ≠ "get_local_id") :
    mark I = none := by
  have hdim : constDim "get_local_id" I = none := by
    refine Option.eq_none_iff_forall_ne_some.mpr fun ⟨w, d⟩ hdim => ?_
    obtain ⟨args', hop'⟩ := constDim_eq_some.mp hdim
    rw [hop] at hop'
    cases hop'
    exact h rfl
  have htrunc : I.op.isTrunc = false := by
    rw [hop]
    rfl
  rw [mark, htrunc, hdim]
  rfl

theorem mark_of_isBarrier (h : I.isBarrier) : mark I = none := by
  obtain ⟨i, t, op⟩ := I
  cases op with
  | call callee args =>
    cases callee with
    | none => rfl
    | some name =>
      have hname : name = "barrier" := by simpa [Instruction.isBarrier, Op.isBarrier] using h
      exact mark_call rfl (hname ▸ by decide)
  | _ => cases h

theorem mark_of_isStaticAlloca (h : isStaticAlloca I) : mark I = none := by
  obtain ⟨i, t, op⟩ := I
  cases op with
  | alloca _ _ => rfl
  | _ => cases h

theorem mark_of_isUniformBIFCall (h : isUniformBIFCall I) : mark I = none := by
  obtain ⟨i, t, op⟩ := I
  cases op with
  | call callee args =>
    cases callee with
    | none => rfl
    | some name =>
      have hname : name ∈ uniformBIFs := by simpa [isUniformBIFCall] using h
      refine mark_call rfl fun heq => ?_
      subst heq
      exact absurd hname (by decide)
  | _ => cases h

theorem sameMarks_removeBarrierCalls (F : Function) : SameMarks F (removeBarrierCalls F) := by
  refine ⟨rfl, marks_of_block rfl fun b _ => ?_⟩
  rw [removeBarrierCalls, List.filterMap_filter]
  refine List.filterMap_congr fun I _ => ?_
  cases hI : I.isBarrier with
  | false => rfl
  | true => exact (mark_of_isBarrier hI).symm

theorem filterMap_erase (h : mark I = none) (Is : List Instruction) :
    (Is.erase I).filterMap mark = Is.filterMap mark := by
  induction Is with
  | nil => rfl
  | cons J Is ih =>
    rw [List.erase_cons]
    split
    · rename_i heq
      rw [List.filterMap_cons_none (eq_of_beq heq ▸ h)]
    · rw [List.filterMap_cons, List.filterMap_cons, ih]

theorem sameMarks_moveToEntry (h : mark p.2 = none) : SameMarks F (moveToEntry Pos F p) := by
  rw [moveToEntry]
  split
  · exact .refl F
  · have hin : [p.2].filterMap mark = [] := by rw [List.filterMap_cons_none h, List.filterMap_nil]
    exact (sameMarks_updateBlock (filterMap_erase h _)).trans
      (sameMarks_updateBlock (filterMap_insertAllBefore hin Pos))

theorem sameMarks_foldl_moveToEntry (h : ∀ p ∈ ps, mark p.2 = none) :
    SameMarks F (ps.foldl (moveToEntry Pos) F) := by
  induction ps generalizing F with
  | nil => exact .refl F
  | cons p ps ih =>
    obtain ⟨hp, hps⟩ := List.forall_mem_cons.mp h
    exact (sameMarks_moveToEntry hp).trans (ih hps)

/-- The instructions of some blocks that a test picks. -/
theorem of_mem_picked {bs : List BlockId} {test : Instruction → Bool}
    (hp : p ∈ bs.flatMap fun b => ((F.block b).insts.filter test).map fun I => (b, I)) :
    test p.2 := by
  obtain ⟨b, -, hp⟩ := List.mem_flatMap.mp hp
  obtain ⟨I, hI, rfl⟩ := List.mem_map.mp hp
  exact (List.mem_filter.mp hI).2

theorem sameMarks_moves (F : Function) :
    SameMarks F (moveUniformBIFCallsToEntry (moveAllocasToEntry F)) :=
  (sameMarks_foldl_moveToEntry fun _ hp => mark_of_isStaticAlloca (of_mem_picked hp)).trans
    (sameMarks_foldl_moveToEntry fun _ hp => mark_of_isUniformBIFCall (of_mem_picked hp))

end

end VariOCL.IR.LoopInserter
