import VariOCL.LoopInserter.Gather
import VariOCL.LoopInserter.Prepare

/-! Which kernels come out of `CondBarrier::runOnFunction` without calls to `barrier` and to
`get_local_id`. -/

namespace VariOCL.IR.LoopInserter

open TripletInvarianceAnalysis (Triplets)

/-! ### The blocks of a region -/

/-- The entry is involved in the loops of the region, and only blocks of the function are. -/
structure MxPARegion.In (R : MxPARegion) (F : Function) : Prop where
  entry : R.Entry ∈ R.BBInvolved
  involved : ∀ b ∈ R.BBInvolved, b ∈ F.layout

section
variable {F : Function} {preds : BlockId → List BlockId} {users : InstId → List InstId}
  {fuel n turns : Nat} {v w : List BlockId} {b : BlockId} {s t : Flooding} {R : MxPARegion}
  {RD PR : List MxPARegion} {getLoopFor : BlockId → Option BlockId}

theorem addPredecessors_subset (hpreds : ∀ b, ∀ p ∈ preds b, p ∈ F.layout)
    (h : addPredecessors F preds n v b = .ok w) (hv : ∀ x ∈ v, x ∈ F.layout) :
    ∀ x ∈ w, x ∈ F.layout := by
  induction n generalizing v w b with
  | zero => cases h
  | succ n ih =>
    rw [addPredecessors] at h
    refine Sim.foldlM_inv (P := fun v => ∀ x ∈ v, x ∈ F.layout) h hv fun i hi v w hv hw => ?_
    split at hw
    · exact ih hw hv
    · cases hw
      exact List.forall_mem_cons.mpr ⟨hpreds b i hi, hv⟩

/-- Flooding stays in the function. -/
structure Flooding.In (s : Flooding) (F : Function) : Prop where
  work : ∀ x ∈ s.BBWorkList, x ∈ F.layout
  set : ∀ x ∈ s.RegionBBSet, x ∈ F.layout

theorem Flooding.In.step (hpreds : ∀ b, ∀ p ∈ preds b, p ∈ F.layout) (hs : s.In F)
    (h : floodStep F preds fuel s = .ok (some t)) : t.In F := by
  obtain ⟨hwork, hset⟩ := hs
  rw [floodStep] at h
  split at h
  · cases h
  rename_i CurrentBB rest hlist
  rw [hlist] at hwork
  obtain ⟨hcur, hrest⟩ := List.forall_mem_cons.mp hwork
  split at h
  · cases h
    exact ⟨hrest, hset⟩
  split at h
  · cases h
    exact ⟨hrest, hset⟩
  · cases hw : addPredecessors F preds fuel rest CurrentBB with
    | error e =>
      rw [hw] at h
      cases h
    | ok w =>
      rw [hw] at h
      cases h
      exact ⟨addPredecessors_subset hpreds hw hrest, List.forall_mem_cons.mpr ⟨hcur, hset⟩⟩

theorem MxPARegion.in_of_subset (hentry : R.Entry ∈ R.BBSet) (hset : ∀ b ∈ R.BBSet, b ∈ F.layout) :
    R.In F := by
  by_cases hexit : R.Exit = some R.Entry
  · have hBB : R.BBInvolved = [R.Entry] := by simp [MxPARegion.BBInvolved, hexit]
    refine ⟨hBB ▸ List.mem_singleton_self _, fun b hb => ?_⟩
    rw [hBB, List.mem_singleton] at hb
    exact hb ▸ hset _ hentry
  · have hBB : R.BBInvolved = R.BBSet := if_pos hexit
    exact ⟨hBB ▸ hentry, hBB ▸ hset⟩

theorem createRegionBeforeBarrier_in (hpreds : ∀ b, ∀ p ∈ preds b, p ∈ F.layout)
    (h : createRegionBeforeBarrier F preds fuel b = .ok (some R)) : R.In F := by
  obtain ⟨w, hw, h⟩ := Sim.bind_eq_ok.mp h
  obtain ⟨s, hs, h⟩ := Sim.bind_eq_ok.mp h
  have hstart : Flooding.In ⟨w, [], none⟩ F :=
    ⟨addPredecessors_subset hpreds hw fun _ hx => absurd hx List.not_mem_nil,
      fun _ hx => absurd hx List.not_mem_nil⟩
  have hstep : ∀ u v : Flooding, u.In F → floodStep F preds fuel u = .ok (some v) → v.In F :=
    fun _ _ hu hv => hu.step hpreds hv
  have hin : s.In F := (Sim.loop_reaches hs).1.inv hstart hstep
  rw [regionOf] at h
  split at h
  · cases h
  split at h
  · cases h
  split at h
  · cases h
  · rename_i Entry hfind
    cases h
    have hmem : Entry ∈ s.RegionBBSet := by simpa using List.find?_some hfind
    exact MxPARegion.in_of_subset hmem hin.set

/-- Every region was created before some barrier. -/
def Gathering.Created (s : Gathering) (F : Function) (preds : BlockId → List BlockId) (fuel : Nat) :
    Prop := ∀ R ∈ s.PRVector, ∃ b, createRegionBeforeBarrier F preds fuel b = .ok (some R)

theorem Gathering.Created.turn {s t : Gathering} (hs : s.Created F preds fuel)
    (h : Turn getLoopFor F preds fuel s t) : t.Created F preds fuel := by
  cases h with
  | pop _ _ => exact hs
  | noRegion _ _ => exact hs
  | region _ hPR =>
    intro R hR
    rcases List.mem_append.mp hR with hR | hR
    · exact hs R hR
    · exact ⟨_, List.mem_singleton.mp hR ▸ hPR⟩

theorem gatherParallelRegions_in (hpreds : ∀ b, ∀ p ∈ preds b, p ∈ F.layout)
    (h : gatherParallelRegions getLoopFor F preds fuel turns = .ok RD) : ∀ R ∈ RD, R.In F := by
  obtain ⟨ExitBlocks, -, h⟩ := Sim.bind_eq_ok.mp h
  obtain ⟨s, hs, h⟩ := Sim.bind_eq_ok.mp h
  cases h
  have hstart : Gathering.Created ⟨[], ExitBlocks, [], none⟩ F preds fuel :=
    fun _ hR => absurd hR List.not_mem_nil
  have hstep : ∀ s t : Gathering, s.Created F preds fuel →
      gatherStep getLoopFor F preds fuel s = .ok (some t) → t.Created F preds fuel :=
    fun _ _ hs ht => hs.turn (turn_of_gatherStep ht)
  have hcreated : s.Created F preds fuel := (Sim.loop_reaches hs).1.inv hstart hstep
  intro R hR
  obtain ⟨b, hb⟩ := hcreated R hR
  exact createRegionBeforeBarrier_in hpreds hb

theorem filterRegions_subset {st st' : Triplets}
    (h : filterRegions F preds users fuel RD st = .ok (PR, st')) : ∀ R ∈ PR, R ∈ RD := by
  have hfold : Sim.Triple (fun _ => True) (filterRegions F preds users fuel RD)
      fun PR _ => True ∧ ∀ R ∈ PR, R ∈ RD := by
    refine .foldlM_value (fun R hR => absurd hR List.not_mem_nil) fun PR hPR RN hRN => ?_
    refine .bind (R := fun _ _ => True) (fun _ _ _ _ _ => trivial) fun u => ?_
    split
    · refine .pure _ fun _ _ => ⟨trivial, fun R hR => ?_⟩
      rcases List.mem_append.mp hR with hR | hR
      · exact hPR R hR
      · exact List.mem_singleton.mp hR ▸ hRN
    · exact .pure _ fun _ _ => ⟨trivial, hPR⟩
  exact (hfold trivial h).2

end

/-! ### The loops -/

section
variable {A : Analyses} {L : LocalSizeInfo} {PR RD : List MxPARegion} {F G : Function} {b : BlockId}
  {i : InstId} {k : Nat × Nat} {M : Module} {globals : List Global} {Original : Function}
  {p : BlockId × Instruction} {ps : List (BlockId × Instruction)} {Pos : InstId}

/-- The calls with a constant dimension that the loops leave. -/
theorem mem_marks_loopRegions (hd : DistinctMarks F) (hn : F.layout.Nodup)
    (hPR : ∀ R ∈ PR, R.In F) (h : loopRegions A L PR F = .ok G) (hk : k.2 < 3) :
    (b, i, some k) ∈ marks G ↔ (b, i, some k) ∈ marks F ∧
      ¬ ((∃ R ∈ PR, b ∈ R.BBInvolved) ∧ k.1 = 32) := by
  obtain ⟨c, hc, h⟩ := Sim.bind_eq_ok.mp h
  obtain ⟨r, hr, h⟩ := Sim.bind_eq_ok.mp h
  cases h
  have hindexed := foldl_insertFlatIdx_indexed (L := L) hn hd
    (fun R hR => (hPR R hR).involved _ (hPR R hR).entry) []
  have hsame : SameMarks (PR.foldl (insertFlatIdx L) (F, [])).1 c.F :=
    Sim.foldlM_inv (P := fun c : Contexts => SameMarks (PR.foldl (insertFlatIdx L) (F, [])).1 c.F) hc
      (.refl _) fun _ _ _ _ hs ht => hs.trans (sameMarks_deployRegionContext ht)
  have hdc : DistinctMarks c.F := by
    rw [DistinctMarks, hsame.marks]
    exact hindexed.distinct
  have hinvolved : ∀ R ∈ PR, ∀ b ∈ R.BBInvolved, b ∈ c.F.layout := fun R hR b hb => by
    rw [hsame.layout, hindexed.layout]
    exact (hPR R hR).involved b hb
  rw [foldlM_insertLoops_clears hr hdc hinvolved, hsame.marks]
  constructor
  · rintro ⟨hm, hleft⟩
    have hout : ¬ ((∃ R ∈ PR, b ∈ R.BBInvolved) ∧ k.1 = 32) := fun hin =>
      hleft ⟨hin.1, hin.2, hk⟩
    refine ⟨(hindexed.new b i k hm).resolve_right ?_, hout⟩
    rintro ⟨⟨R, hR, rfl⟩, h32, -⟩
    exact hout ⟨⟨R, hR, (hPR R hR).entry⟩, h32⟩
  · rintro ⟨hm, hout⟩
    exact ⟨hindexed.old _ hm, fun hin => hout ⟨hin.1, hin.2.1⟩⟩

/-! ### Barriers -/

def NoBarriers (F : Function) : Prop := ∀ b, ∀ I ∈ (F.block b).insts, I.isBarrier = false

theorem noBarriers_removeBarrierCalls (F : Function) : NoBarriers (removeBarrierCalls F) := by
  intro b I hI
  simpa using (List.mem_filter.mp hI).2

theorem NoBarriers.moveToEntry (h : NoBarriers F) (hp : p.2.isBarrier = false) :
    NoBarriers (moveToEntry Pos F p) := by
  rw [LoopInserter.moveToEntry]
  split
  · exact h
  intro b I hI
  have herase : NoBarriers (F.updateBlock p.1 fun BB => { BB with insts := BB.insts.erase p.2 }) := by
    intro x J hJ
    by_cases hx : x = p.1
    · rw [hx, Function.block_updateBlock] at hJ
      exact h _ J (List.mem_of_mem_erase hJ)
    · rw [Function.block_updateBlock_ne _ hx] at hJ
      exact h x J hJ
  by_cases hb : b = F.entry
  · rw [hb, Function.block_updateBlock] at hI
    rcases mem_insertAllBefore.mp hI with hI | hI
    · exact List.mem_singleton.mp hI ▸ hp
    · exact herase _ I hI
  · rw [Function.block_updateBlock_ne _ hb] at hI
    exact herase b I hI

theorem NoBarriers.foldl_moveToEntry (h : NoBarriers F) (hps : ∀ p ∈ ps, p.2.isBarrier = false) :
    NoBarriers (ps.foldl (LoopInserter.moveToEntry Pos) F) := by
  induction ps generalizing F with
  | nil => exact h
  | cons p ps ih =>
    obtain ⟨hp, hps⟩ := List.forall_mem_cons.mp hps
    exact ih (h.moveToEntry hp) hps

theorem isBarrier_of_isStaticAlloca {I : Instruction} (h : isStaticAlloca I) :
    I.isBarrier = false := by
  obtain ⟨i, t, op⟩ := I
  cases op with
  | alloca _ _ => rfl
  | _ => cases h

theorem isBarrier_of_isUniformBIFCall {I : Instruction} (h : isUniformBIFCall I) :
    I.isBarrier = false := by
  refine Bool.eq_false_iff.mpr fun hbar => ?_
  obtain ⟨i, t, op⟩ := I
  cases op with
  | call callee args =>
    cases callee with
    | none => cases h
    | some name =>
      have hname : name = "barrier" := by simpa [Instruction.isBarrier, Op.isBarrier] using hbar
      subst hname
      have huniform : uniformBIFs.contains "barrier" = true := h
      exact absurd huniform (by decide)
  | _ => cases h

theorem NoBarriers.moves (h : NoBarriers F) :
    NoBarriers (moveUniformBIFCallsToEntry (moveAllocasToEntry F)) :=
  (h.foldl_moveToEntry fun _ hp => isBarrier_of_isStaticAlloca (of_mem_picked hp)).foldl_moveToEntry
    fun _ hp => isBarrier_of_isUniformBIFCall (of_mem_picked hp)

end

/-! ### The result -/

/-- No work-item is told from another one, and none waits for another one. -/
def NoPrimitives (F : Function) : Prop :=
  ∀ b ∈ F.layout, ∀ I ∈ (F.block b).insts, I.isBarrier = false ∧
    ∀ w d, constDim "get_local_id" I = some (w, d) → 3 ≤ d

/-- The regions of the kernel that the filter leaves. -/
def loopedRegions (A : Analyses) (M : Module) (F : Function) : Except RunFailure (List MxPARegion) := do
  let p ← liftRun (prepare M F)
  regionsToLoop A M.globals F p.1

/-- Ids of constant dimensions are read only in `PR`, and with the constants of the pass. -/
def ReadsIdsIn (PR : List MxPARegion) (F : Function) : Prop :=
  ∀ b ∈ F.layout, ∀ I ∈ (F.block b).insts, ∀ w d, d < 3 →
    constDim "get_local_id" I = some (w, d) ∨ constDim "get_global_id" I = some (w, d) →
      w = 32 ∧ ∃ R ∈ PR, b ∈ R.BBInvolved

section
variable {A : Analyses} {PR : List MxPARegion} {F G : Function} {M : Module} {globals : List Global}
  {Original : Function} {p : Function × LocalSizeInfo}

theorem liftRun_eq_ok {α : Type} {x : Except Failure α} {a : α} :
    liftRun x = .ok a ↔ x = .ok a := by
  cases x with
  | error e => exact iff_of_false nofun nofun
  | ok b => simp [liftRun, Except.mapError]

theorem noPrimitives_iff : NoPrimitives G ↔ (∀ b ∈ G.layout, hasBarrier (G.block b) = false) ∧
    ∀ b i k, (b, i, some k) ∈ marks G → 3 ≤ k.2 := by
  constructor
  · intro h
    refine ⟨fun b hb => List.any_eq_false.mpr fun I hI => by simp [(h b hb I hI).1], ?_⟩
    intro b i k hm
    obtain ⟨hb, I, hI, hmark⟩ := mem_marks.mp hm
    exact (h b hb I hI).2 k.1 k.2 (mark_eq_some_iff.mp hmark).2
  · rintro ⟨hbar, hm⟩ b hb I hI
    refine ⟨by simpa using List.any_eq_false.mp (hbar b hb) I hI, fun w d hdim => ?_⟩
    exact hm b I.id (w, d) (mem_marks.mpr ⟨hb, I, hI, mark_eq_some_iff.mpr ⟨rfl, hdim⟩⟩)

theorem regionsToLoop_in (hpreds : PredOrder A.preds)
    (h : regionsToLoop A globals Original F = .ok PR) : ∀ R ∈ PR, R.In F := by
  obtain ⟨TIA, -, h⟩ := Sim.bind_eq_ok.mp h
  obtain ⟨RD, hRD, h⟩ := Sim.bind_eq_ok.mp h
  obtain ⟨r, hr, h⟩ := Sim.bind_eq_ok.mp h
  cases h
  have hlayout : ∀ b, ∀ p ∈ A.preds F b, p ∈ F.layout := fun b p hp =>
    (F.mem_predEdges.mp ((hpreds F b p).mp hp)).1
  have hin := gatherParallelRegions_in hlayout (liftRun_eq_ok.mp hRD)
  cases hfilter : filterRegions F (A.preds F) (A.users F) A.fuel RD TIA.2 with
  | error e =>
    rw [hfilter] at hr
    cases hr
  | ok r' =>
    rw [hfilter] at hr
    cases hr
    exact fun R hR => hin R (filterRegions_subset hfilter R hR)

/-- After the loops, what is read of ids is what was read outside of the regions. -/
theorem noPrimitives_of_loops (hd : DistinctMarks F) (hn : F.layout.Nodup) (hPR : ∀ R ∈ PR, R.In F)
    {L : LocalSizeInfo} (h : loopRegions A L PR F = .ok G) :
    NoPrimitives (moveUniformBIFCallsToEntry (moveAllocasToEntry (removeBarrierCalls G))) ↔
      ∀ b i k, (b, i, some k) ∈ marks F → k.2 < 3 →
        k.1 = 32 ∧ ∃ R ∈ PR, b ∈ R.BBInvolved := by
  have hbar := (noBarriers_removeBarrierCalls G).moves
  have hsame := (sameMarks_removeBarrierCalls G).trans (sameMarks_moves _)
  have hnone : ∀ b ∈ (moveUniformBIFCallsToEntry (moveAllocasToEntry (removeBarrierCalls G))).layout,
      hasBarrier ((moveUniformBIFCallsToEntry (moveAllocasToEntry (removeBarrierCalls G))).block b) =
        false := fun b _ => List.any_eq_false.mpr fun I hI => by simp [hbar b I hI]
  rw [noPrimitives_iff, and_iff_right hnone, hsame.marks]
  refine forall_congr' fun b => forall_congr' fun i => forall_congr' fun k => ?_
  constructor
  · intro hleft hm hk
    refine by_contra fun hout => absurd (hleft ?_) (Nat.not_le.mpr hk)
    exact (mem_marks_loopRegions hd hn hPR h hk).mpr ⟨hm, fun hin => hout ⟨hin.2, hin.1⟩⟩
  · intro hcovered hm
    refine Nat.le_of_not_lt fun hk => ?_
    obtain ⟨hm, hout⟩ := (mem_marks_loopRegions hd hn hPR h hk).mp hm
    exact hout ((hcovered hm hk).symm)

theorem readsIdsIn_iff (hF : F.Valid) (hp : prepare M F = .ok p) : ReadsIdsIn PR F ↔
    ∀ b i k, (b, i, some k) ∈ marks p.1 → k.2 < 3 → k.1 = 32 ∧ ∃ R ∈ PR, b ∈ R.BBInvolved := by
  obtain ⟨hkeeps, -⟩ := keeps_prepare hp
  have hreads := fun b k => marks_expandGetGlobalID (b := b) (k := k) hF.ids hF.nodup
  constructor
  · rintro h b i ⟨w, d⟩ hm hd
    obtain ⟨hb, J, hJ, hdim⟩ := (hreads b (w, d)).mp ⟨i, hkeeps.marks.mem_iff.mp hm⟩
    exact h b hb J hJ w d hd hdim
  · intro h b hb J hJ w d hd hdim
    obtain ⟨i, hm⟩ := (hreads b (w, d)).mpr ⟨hb, J, hJ, hdim⟩
    exact h b i (w, d) (hkeeps.marks.mem_iff.mpr hm) hd

/-- The calls are gone from the result if and only if some region gets loops, and ids are read only
in such regions. -/
theorem runOnFunction_noPrimitives_iff (hF : F.Valid) (hpreds : PredOrder A.preds)
    (h : CondBarrier.runOnFunction A M F = .ok G) :
    NoPrimitives G ↔ ∃ PR, loopedRegions A M F = .ok PR ∧ PR ≠ [] ∧ ReadsIdsIn PR F := by
  obtain ⟨p, hp, h⟩ := Sim.bind_eq_ok.mp h
  obtain ⟨PR, hPR, h⟩ := Sim.bind_eq_ok.mp h
  have hlooped : ∀ PR', loopedRegions A M F = .ok PR' ↔ PR' = PR := by
    intro PR'
    rw [loopedRegions, hp]
    change regionsToLoop A M.globals F p.1 = .ok PR' ↔ _
    rw [hPR, Except.ok.injEq, eq_comm]
  have hp := liftRun_eq_ok.mp hp
  obtain ⟨hkeeps, b, hb, hbar⟩ := keeps_prepare hp
  simp only [hlooped, exists_eq_left]
  by_cases hempty : PR.isEmpty
  · rw [if_pos hempty] at h
    cases h
    refine iff_of_false (fun hno => ?_) fun hne => hne.1 (List.isEmpty_iff.mp hempty)
    exact absurd ((noPrimitives_iff.mp hno).1 b hb) (Bool.not_eq_false _ ▸ hbar)
  · rw [if_neg hempty] at h
    obtain ⟨H, hH, h⟩ := Sim.bind_eq_ok.mp h
    cases h
    have hne : PR ≠ [] := fun heq => hempty (List.isEmpty_iff.mpr heq)
    have hnodup : p.1.layout.Nodup :=
      hkeeps.nodup ((layout_expandGetGlobalID hF.ids hF.nodup).symm ▸ hF.nodup)
    have hdistinct : DistinctMarks p.1 :=
      (hkeeps.marks.map _).nodup_iff.mpr (distinctMarks_expandGetGlobalID hF.ids hF.nodup)
    rw [noPrimitives_of_loops hdistinct hnodup (regionsToLoop_in hpreds hPR) (liftRun_eq_ok.mp hH),
      readsIdsIn_iff hF hp, and_iff_right hne]

end

/-! ### A kernel without and one with loops -/

/-- The analyses of a kernel without branches. -/
def straightLine : Analyses where
  preds := Function.predEdges
  users F i := (F.usersOf i).filterMap fun User => User.map Instruction.id
  LI _ := []
  getLoopFor _ _ := none
  fuel := 40

/-- `*p = get_local_id(0) + get_global_id(0)`. -/
def storeIds : Function where
  name := "store_ids"
  entry := 0
  rest := [1, 2]
  block
    | 0 => ⟨[barrierCall 0], 1, .br 1⟩
    | 1 => ⟨[builtinCall 2 "get_local_id" (.constInt 32 0),
        builtinCall 3 "get_global_id" (.constInt 32 0), binary 4 "add" 2 3,
        ⟨5, .void, .store (.inst 4) (.argument 0)⟩], 6, .br 2⟩
    | _ => ⟨[barrierCall 7], 8, .ret none⟩

theorem storeIds_valid : storeIds.Valid where
  nodup := by decide
  closed := by unfold Function.Closed; decide
  entryPreds := by decide
  ids := by decide
  phisFirst := by decide
  entryPhis := by decide
  incoming := by decide

theorem readsIdsIn_storeIds : ReadsIdsIn [⟨[1], 1, some 1⟩] storeIds := by
  have hblock : ∀ b ∈ storeIds.layout, ∀ I ∈ (storeIds.block b).insts,
      ∀ name ∈ ["get_local_id", "get_global_id"], ∀ k, constDim name I = some k →
        k.1 = 32 ∧ b = 1 := by decide
  intro b hb I hI w d _ hdim
  have hone : w = 32 ∧ b = 1 := by
    rcases hdim with hdim | hdim
    · exact hblock b hb I hI _ (by decide) _ hdim
    · exact hblock b hb I hI _ (by decide) _ hdim
  obtain ⟨rfl, rfl⟩ := hone
  exact ⟨rfl, _, List.mem_singleton_self _, by decide⟩

theorem runOnFunction_noPrimitives_storeIds : ∃ G,
    CondBarrier.runOnFunction straightLine ⟨[], [storeIds]⟩ storeIds = .ok G ∧ NoPrimitives G := by
  have hpreds : PredOrder straightLine.preds := fun _ _ _ => Iff.rfl
  have hruns : (CondBarrier.runOnFunction straightLine ⟨[], [storeIds]⟩ storeIds).toOption.any
      (fun _ => true) = true := by decide +kernel
  have hregions : loopedRegions straightLine ⟨[], [storeIds]⟩ storeIds = .ok [⟨[1], 1, some 1⟩] := by
    rfl
  obtain ⟨G, hG, -⟩ := Sim.exists_ok_of_any hruns
  exact ⟨G, hG, (runOnFunction_noPrimitives_iff storeIds_valid hpreds hG).mpr
    ⟨_, hregions, by decide, readsIdsIn_storeIds⟩⟩

/-- `*p = 7`. -/
def storeSeven : Function where
  name := "store_seven"
  entry := 0
  rest := [1, 2]
  block
    | 0 => ⟨[barrierCall 0], 1, .br 1⟩
    | 1 => ⟨[⟨2, .void, .store (.constInt 32 7) (.argument 0)⟩], 3, .br 2⟩
    | _ => ⟨[barrierCall 4], 5, .ret none⟩

theorem storeSeven_valid : storeSeven.Valid where
  nodup := by decide
  closed := by unfold Function.Closed; decide
  entryPreds := by decide
  ids := by decide
  phisFirst := by decide
  entryPhis := by decide
  incoming := by decide

theorem storeSeven_hivedOff : storeSeven.HivedOff :=
  have h := hivedOffBelow_of_single (F := storeSeven) (by decide) (by decide) (by decide)
  ⟨h.alone, by decide, h.exits, h.pred⟩

/-- All work-items store one value, no region gets loops, and the barriers stay. -/
theorem runOnFunction_leaves_barriers : storeSeven.Valid ∧ storeSeven.HivedOff ∧
    PredOrder straightLine.preds ∧ ∃ G,
      CondBarrier.runOnFunction straightLine ⟨[], [storeSeven]⟩ storeSeven = .ok G ∧ ¬ NoPrimitives G := by
  have hruns : (CondBarrier.runOnFunction straightLine ⟨[], [storeSeven]⟩ storeSeven).toOption.any
      (fun G => G.layout.any fun b => hasBarrier (G.block b)) = true := by decide +kernel
  obtain ⟨G, hG, hbar⟩ := Sim.exists_ok_of_any hruns
  refine ⟨storeSeven_valid, storeSeven_hivedOff, fun _ _ _ => Iff.rfl, G, hG, fun h => ?_⟩
  obtain ⟨b, hb, hb'⟩ := List.any_eq_true.mp hbar
  exact absurd hb' ((noPrimitives_iff.mp h).1 b hb ▸ Bool.false_ne_true)

end VariOCL.IR.LoopInserter
