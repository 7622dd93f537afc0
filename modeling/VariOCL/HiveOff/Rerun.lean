import Mathlib.Logic.Function.Iterate
import VariOCL.HiveOff.NormalForm

/-! A further run of `HiveOffBarrier` puts an empty block in front of every barrier but the entry's. -/

namespace VariOCL.IR

namespace HiveOff

/-- The barrier `I` is alone in the block `b`. -/
structure AloneAt (G : Function) (b : BlockId) (I : InstId) : Prop where
  mem : b ∈ G.layout
  insts : ∃ K, (G.block b).insts = [K] ∧ K.id = I ∧ K.isBarrier

section
variable {F G : Function} {b c : BlockId} {bs : List BlockId} {I J e : InstId} {done todo : List InstId}

theorem hiveOffExit_of_hivedOff (h : F.HivedOff) (hb : b ∈ F.layout) :
    hiveOffExit F b = (F, []) := by
  by_cases hj : containsJustABarrier (F.block b)
  · exact hiveOffExit_of_just hj
  · have hsucc : (F.succs b).isEmpty = false := Bool.eq_false_iff.mpr fun hnil =>
      hj (h.exits b hb (List.isEmpty_iff.mp hnil))
    rw [hiveOffExit, hsucc, Bool.false_and]
    rfl

theorem hiveOffExits_of_hivedOff (h : F.HivedOff) {n : Nat} (hbs : ∀ b ∈ bs, b ∈ F.layout) :
    hiveOffExits n F bs = F := by
  induction n generalizing bs with
  | zero => rfl
  | succ n ih =>
    cases bs with
    | nil => rfl
    | cons b bs =>
      obtain ⟨hb, hbs⟩ := List.forall_mem_cons.mp hbs
      rw [hiveOffExits, hiveOffExit_of_hivedOff h hb]
      exact ih hbs

theorem hiveOffEntryAndExits_of_hivedOff (h : F.HivedOff) : hiveOffEntryAndExits F = F := by
  rw [hiveOffEntryAndExits, hiveOffEntry, if_pos h.entry]
  exact hiveOffExits_of_hivedOff h fun _ hb => hb

theorem AloneAt.instIds (h : AloneAt G b I) : I ∈ (G.block b).instIds := by
  obtain ⟨K, hK, rfl, -⟩ := h.insts
  exact List.mem_append_left _ (List.mem_map_of_mem (hK ▸ List.mem_cons_self))

theorem AloneAt.getParent (h : AloneAt G b I) (hG : G.Valid) : G.getParent I = some b := by
  obtain ⟨K, hK, hKI, -⟩ := h.insts
  have hmem : K ∈ (G.block b).insts := hK ▸ List.mem_cons_self
  cases hp : G.getParent I with
  | none => exact absurd hKI (getParent_eq_none hp b h.mem K hmem)
  | some B =>
    obtain ⟨hB, J, hJ, hJI⟩ := getParent_eq_some hp
    have hIB : I ∈ (G.block B).instIds := List.mem_append_left _ (hJI ▸ List.mem_map_of_mem hJ)
    rw [Function.eq_of_mem_instIds hG.ids hB h.mem hIB h.instIds]

/-- Different barriers are in different blocks. -/
theorem AloneAt.ne (h : AloneAt G b I) (h' : AloneAt G c J) (hne : I ≠ J) : b ≠ c := by
  rintro rfl
  obtain ⟨K, hK, hKI, -⟩ := h.insts
  obtain ⟨K', hK', hKJ, -⟩ := h'.insts
  obtain ⟨rfl, -⟩ := List.cons.inj (hK.symm.trans hK')
  exact hne (hKI.symm.trans hKJ)

theorem AloneAt.splitBlock {SplitPt : InstId} (h : AloneAt G c J) (hG : G.Valid)
    (hb : b ∈ G.layout) (hne : c ≠ b) : AloneAt (G.splitBlock b SplitPt) c J where
  mem := (G.mem_layout_splitBlock hG.nodup hb).mpr (.inr h.mem)
  insts := by
    obtain ⟨K, hK, hKJ, hbar⟩ := h.insts
    refine ⟨K, ?_, hKJ, hbar⟩
    rw [G.block_splitBlock h.mem hne, hK, List.map_singleton,
      Instruction.mapBlocks_of_not_phi (Instruction.not_phi_of_isBarrier hbar)]

/-- A barrier that is alone already gets a block in front of it, unless it is that of the entry. -/
theorem AloneAt.processBarrierInst (h : AloneAt G b I) (hG : G.Valid) :
    processBarrierInst G I = if b = G.entry then (G, false) else (G.splitBlock b I, true) := by
  obtain ⟨K, hK, hKI, hbar⟩ := h.insts
  have hnext : (G.block b).getNextNode I = (G.block b).termId := by
    have hnext := @getNextNode_eq (G.block b) [] [] K hK (hG.instIds_nodup h.mem)
    rwa [hKI] at hnext
  have hfirst : (G.block b).getFirstNonPHI = I := by
    rw [BasicBlock.getFirstNonPHI, hK, List.dropWhile_cons_of_neg
      (by simp [Instruction.not_phi_of_isBarrier hbar])]
    exact hKI
  have hafter : splitAfter G b I = G := if_neg (not_not.mpr hnext)
  rw [HiveOff.processBarrierInst, h.getParent hG]
  simp only [hafter, splitBlockBeforeBarrier, hfirst, hnext, and_true, ne_eq, not_true_eq_false,
    decide_false]

/-- An empty block leads to that of the barrier `I`. -/
def Fronted (G : Function) (I : InstId) : Prop :=
  ∃ b p, AloneAt G b I ∧ p ∈ G.layout ∧ (G.block p).insts = [] ∧ (G.block p).term = .br b

theorem AloneAt.fronted (h : AloneAt G b I) (hG : G.Valid) : Fronted (G.splitBlock b I) I := by
  obtain ⟨K, hK, hKI, hbar⟩ := h.insts
  have hsplit := @BasicBlock.split_at (G.block b) [] [] K hK List.not_mem_nil
    (Instruction.not_phi_of_isBarrier hbar)
  rw [hKI] at hsplit
  refine ⟨G.freshBlock, b, ⟨(G.mem_layout_splitBlock hG.nodup h.mem).mpr (.inl rfl), K, ?_, hKI, hbar⟩,
    (G.mem_layout_splitBlock hG.nodup h.mem).mpr (.inr h.mem), ?_, ?_⟩
  · rw [G.block_splitBlock_new]
    exact hsplit.2
  · rw [G.block_splitBlock_old h.mem, hsplit.1, List.map_nil]
  · rw [G.block_splitBlock_old h.mem]

theorem Fronted.splitBlock (h : Fronted G J) (hb : AloneAt G b I) (hG : G.Valid) (hne : J ≠ I) :
    Fronted (G.splitBlock b I) J := by
  obtain ⟨c, p, hc, hp, hnil, hterm⟩ := h
  have hpb : p ≠ b := by
    rintro rfl
    obtain ⟨K, hK, -⟩ := hb.insts
    cases hnil.symm.trans hK
  refine ⟨c, p, hc.splitBlock hG hb.mem (hc.ne hb hne),
    (G.mem_layout_splitBlock hG.nodup hb.mem).mpr (.inr hp), ?_, ?_⟩
  · rw [G.block_splitBlock hp hpb, hnil, List.map_nil]
  · rw [G.block_splitBlock hp hpb, hterm]

/-- The barriers of `todo` and that of the entry are alone, and those of `done` have got their
blocks. -/
structure Hived (G : Function) (e : InstId) (done todo : List InstId) : Prop where
  valid : G.Valid
  entry : AloneAt G G.entry e
  alone : ∀ I ∈ todo, ∃ b, AloneAt G b I
  fronted : ∀ I ∈ done, I ≠ e → Fronted G I

theorem Hived.step (h : Hived G e done (I :: todo)) (hn : (I :: todo).Nodup) (hdone : I ∉ done) :
    Hived (HiveOff.processBarrierInst G I).1 e (I :: done) todo ∧
      (HiveOff.processBarrierInst G I).1.layout.length = G.layout.length + (I != e).toNat ∧
      (HiveOff.processBarrierInst G I).2 = (I != e) := by
  obtain ⟨hI, hn⟩ := List.nodup_cons.mp hn
  obtain ⟨⟨b, hb⟩, halone⟩ := List.forall_mem_cons.mp h.alone
  rw [hb.processBarrierInst h.valid]
  by_cases hIe : I = e
  · subst hIe
    have hbe : b = G.entry :=
      Option.some.inj ((hb.getParent h.valid).symm.trans (h.entry.getParent h.valid))
    rw [if_pos hbe, bne_self_eq_false]
    exact ⟨⟨h.valid, h.entry, halone,
      List.forall_mem_cons.mpr ⟨fun hne => absurd rfl hne, h.fronted⟩⟩, rfl, rfl⟩
  · have hbe : b ≠ G.entry := hb.ne h.entry hIe
    rw [if_neg hbe, bne_iff_ne.mpr hIe]
    refine ⟨⟨h.valid.splitBlock hb.mem I, ?_, fun J hJ => ?_, List.forall_mem_cons.mpr
      ⟨fun _ => hb.fronted h.valid, fun J hJ hJe => ?_⟩⟩, ?_, rfl⟩
    · rw [G.entry_splitBlock]
      exact h.entry.splitBlock h.valid hb.mem (Ne.symm hbe)
    · obtain ⟨c, hc⟩ := halone J hJ
      exact ⟨c, hc.splitBlock h.valid hb.mem (hc.ne hb fun hJI => hI (hJI ▸ hJ))⟩
    · exact (h.fronted J hJ hJe).splitBlock hb h.valid fun hJI => hdone (hJI ▸ hJ)
    · rw [(G.perm_layout_splitBlock h.valid.nodup hb.mem).length_eq]
      rfl

theorem Hived.run {Changed : Bool} {r : Function × Bool} (h : Hived G e done todo)
    (hn : todo.Nodup) (hdone : ∀ I ∈ todo, I ∉ done)
    (hr : todo.foldl (fun (F, Changed) I => ((HiveOff.processBarrierInst F I).1,
      Changed || (HiveOff.processBarrierInst F I).2)) (G, Changed) = r) :
    Hived r.1 e (todo.reverse ++ done) [] ∧
      r.1.layout.length = G.layout.length + (todo.filter (· != e)).length ∧
      r.2 = (Changed || todo.any (· != e)) := by
  induction todo generalizing G Changed done with
  | nil =>
    subst hr
    exact ⟨h, rfl, (Bool.or_false _).symm⟩
  | cons I todo ih =>
    obtain ⟨hI, hdone⟩ := List.forall_mem_cons.mp hdone
    obtain ⟨hnext, hadds, hflag⟩ := h.step hn hI
    obtain ⟨hnot, hn⟩ := List.nodup_cons.mp hn
    have hrest : ∀ J ∈ todo, J ∉ I :: done := fun J hJ hmem =>
      (List.mem_cons.mp hmem).elim (fun hJI => hnot (hJI ▸ hJ)) (hdone J hJ)
    obtain ⟨hend, hlength, hchanged⟩ := ih hnext hn hrest hr
    rw [List.reverse_cons, List.append_assoc]
    refine ⟨hend, ?_, ?_⟩
    · rw [hlength, hadds, List.filter_cons, Nat.add_assoc]
      cases I != e with
      | false => rw [Bool.toNat_false, Nat.zero_add, if_neg Bool.false_ne_true]
      | true => rw [Bool.toNat_true, if_pos rfl, List.length_cons, Nat.add_comm 1]
    · rw [hchanged, hflag, List.any_cons, Bool.or_assoc]

theorem nodup_collectBarriers (hF : F.Valid) : (collectBarriers F).Nodup := by
  refine List.Sublist.nodup ?_ hF.ids
  refine List.Sublist.flatMap_right _ fun b _ => ?_
  exact (List.filter_sublist.map _).trans (List.sublist_append_left _ _)

theorem mem_collectBarriers : I ∈ collectBarriers F ↔
    ∃ b ∈ F.layout, ∃ J ∈ (F.block b).insts, J.isBarrier ∧ J.id = I := by
  simp only [collectBarriers, List.mem_flatMap, List.mem_map, List.mem_filter, and_assoc]

theorem Function.HivedOff.aloneAt (h : F.HivedOff) (hI : I ∈ collectBarriers F) :
    ∃ b, AloneAt F b I := by
  obtain ⟨b, hb, J, hJ, hbar, hid⟩ := mem_collectBarriers.mp hI
  obtain ⟨K, hK, hKbar⟩ :=
    containsJustABarrier_iff.mp (h.alone b hb (List.any_eq_true.mpr ⟨J, hJ, hbar⟩))
  rw [hK, List.mem_singleton] at hJ
  exact ⟨b, hb, K, hK, hJ ▸ hid, hKbar⟩

section
variable (hF : F.Valid) {order : List InstId → List InstId} (ho : ∀ l, (order l).Perm l)
include hF ho

/-- The pass does not take its own output as it is. -/
theorem hived_runOnFunction (h : F.HivedOff) :
    ((runOnFunction order F).1.layout.length + 1 = F.layout.length + (collectBarriers F).length ∧
      ((runOnFunction order F).2 ↔ 1 < (collectBarriers F).length)) ∧
      ∃ e, AloneAt (runOnFunction order F).1 (runOnFunction order F).1.entry e ∧
        ∀ I ∈ collectBarriers F, I ≠ e → Fronted (runOnFunction order F).1 I := by
  obtain ⟨E, hE, hEbar⟩ := containsJustABarrier_iff.mp h.entry
  have hentry : AloneAt F F.entry E.id := ⟨F.entry_mem_layout, E, hE, rfl, hEbar⟩
  have hmem : E.id ∈ collectBarriers F := mem_collectBarriers.mpr
    ⟨F.entry, F.entry_mem_layout, E, hE ▸ List.mem_cons_self, hEbar, rfl⟩
  have hperm := ho (collectBarriers F)
  have hn := hperm.nodup_iff.mpr (nodup_collectBarriers hF)
  have hlength : ((order (collectBarriers F)).filter (· != E.id)).length + 1 =
      (collectBarriers F).length := by
    rw [← hn.erase_eq_filter, ← hperm.length_eq,
      List.length_erase_of_mem (hperm.mem_iff.mpr hmem)]
    exact Nat.sub_add_cancel (List.length_pos_of_mem (hperm.mem_iff.mpr hmem))
  have hived : Hived F E.id [] (order (collectBarriers F)) :=
    ⟨hF, hentry, fun I hI => Function.HivedOff.aloneAt h (hperm.mem_iff.mp hI),
      fun I hI => absurd hI List.not_mem_nil⟩
  have hrun : runOnFunction order F = processBarrier F (order (collectBarriers F)) := by
    rw [runOnFunction, hiveOffEntryAndExits_of_hivedOff h]
  obtain ⟨hend, hadds, hchanged⟩ := hived.run hn (fun _ _ => List.not_mem_nil) hrun.symm
  refine ⟨⟨by omega, ?_⟩, E.id, hend.entry, fun I hI hne => hend.fronted I ?_ hne⟩
  · rw [hchanged, Bool.false_or, List.any_eq_true, ← hlength, Nat.lt_add_left_iff_pos,
      List.length_pos_iff_exists_mem]
    simp only [List.mem_filter]
  · rw [List.append_nil, List.mem_reverse]
    exact hperm.mem_iff.mpr hI

theorem mem_collectBarriers_runOnFunction (h : F.HivedOff) :
    I ∈ collectBarriers (runOnFunction order F).1 ↔ I ∈ collectBarriers F := by
  have hrun := hiving_runOnFunction hF ho
  rw [hiveOffEntryAndExits_of_hivedOff h] at hrun
  constructor
  · intro hI
    obtain ⟨b, hb, J, hJ, hbar, rfl⟩ := mem_collectBarriers.mp hI
    exact (hrun.barriers b hb J hJ).mp hbar
  · intro hI
    obtain ⟨b, hb, J, hJ, rfl⟩ := hrun.present I hI
    exact mem_collectBarriers.mpr ⟨b, hb, J, hJ, (hrun.barriers b hb J hJ).mpr hI, rfl⟩

theorem length_collectBarriers_runOnFunction (h : F.HivedOff) :
    (collectBarriers (runOnFunction order F).1).length = (collectBarriers F).length :=
  ((List.perm_ext_iff_of_nodup (nodup_collectBarriers (hiving_runOnFunction hF ho).started.valid)
    (nodup_collectBarriers hF)).mpr fun _ => mem_collectBarriers_runOnFunction hF ho h).length_eq

/-- What leads to a barrier other than the entry's is an empty block. -/
theorem fronted_runOnFunction (h : F.HivedOff) : ∀ b ∈ (runOnFunction order F).1.layout,
    b ≠ (runOnFunction order F).1.entry → hasBarrier ((runOnFunction order F).1.block b) →
      ∃ p, (runOnFunction order F).1.predEdges b = [p] ∧
        ((runOnFunction order F).1.block p).insts = [] ∧
        ((runOnFunction order F).1.block p).term = .br b := by
  have hrun := hiving_runOnFunction hF ho
  obtain ⟨-, e, hentry, hfronted⟩ := hived_runOnFunction hF ho h
  have hmem := fun I => @mem_collectBarriers_runOnFunction F I hF order ho h
  have hG := hrun.started.valid
  have hhived := hrun.hivedOff
  generalize (runOnFunction order F).1 = G at hG hhived hentry hfronted hmem ⊢
  intro b hb hne hbar
  obtain ⟨K, hK, hKbar⟩ := containsJustABarrier_iff.mp (hhived.alone b hb hbar)
  have halone : AloneAt G b K.id := ⟨hb, K, hK, rfl, hKbar⟩
  have hKe : K.id ≠ e := by
    rintro rfl
    exact hne (Option.some.inj ((halone.getParent hG).symm.trans (hentry.getParent hG)))
  obtain ⟨c, p, hc, hp, hnil, hterm⟩ := hfronted K.id ((hmem K.id).mp (mem_collectBarriers.mpr
    ⟨b, hb, K, hK ▸ List.mem_cons_self, hKbar, rfl⟩)) hKe
  obtain rfl := Option.some.inj ((halone.getParent hG).symm.trans (hc.getParent hG))
  obtain ⟨p', hpred, -⟩ := hhived.pred b hb hne hbar
  have hedge : p ∈ G.predEdges b := by
    refine Function.mem_predEdges.mpr ⟨hp, ?_⟩
    rw [Function.Edge, Function.succs, hterm]
    exact List.mem_cons_self
  rw [hpred, List.mem_singleton] at hedge
  exact ⟨p, hedge ▸ hpred, hnil, hterm⟩

/-- Each run after the first puts an empty block in front of every barrier but the entry's, and so
adds as many blocks as the run before. -/
theorem runOnFunction_keepsAdding (k : Nat) :
    let run := fun G => (runOnFunction order G).1
    (run^[k + 1] F).HivedOff ∧ F.OnlyAdds (run F) ∧
      (run^[k + 1] F).layout.length + k =
        (run F).layout.length + k * (collectBarriers (run F)).length ∧
      ((runOnFunction order (run^[k + 1] F)).2 ↔ 1 < (collectBarriers (run F)).length) ∧
      ∀ b ∈ (run^[k + 2] F).layout, b ≠ (run^[k + 2] F).entry →
        hasBarrier ((run^[k + 2] F).block b) → ∃ p, (run^[k + 2] F).predEdges b = [p] ∧
          ((run^[k + 2] F).block p).insts = [] ∧ ((run^[k + 2] F).block p).term = .br b := by
  intro run
  have hrun : ∀ G : Function, G.Valid → (run G).Valid ∧ (run G).HivedOff := fun G hG =>
    ⟨(hiving_runOnFunction hG ho).started.valid, (hiving_runOnFunction hG ho).hivedOff⟩
  have hkey : (run^[k + 1] F).Valid ∧ (run^[k + 1] F).HivedOff ∧
      (collectBarriers (run^[k + 1] F)).length = (collectBarriers (run F)).length ∧
      (run^[k + 1] F).layout.length + k =
        (run F).layout.length + k * (collectBarriers (run F)).length := by
    induction k with
    | zero => exact ⟨(hrun F hF).1, (hrun F hF).2, rfl, by rw [Nat.zero_mul]; rfl⟩
    | succ k ih =>
      obtain ⟨hG, hhived, hcount, hlength⟩ := ih
      rw [Function.iterate_succ_apply']
      have hadds : (run (run^[k + 1] F)).layout.length + 1 =
          (run^[k + 1] F).layout.length + (collectBarriers (run^[k + 1] F)).length :=
        (hived_runOnFunction hG ho hhived).1.1
      have hsame := length_collectBarriers_runOnFunction hG ho hhived
      refine ⟨(hrun _ hG).1, (hrun _ hG).2, hsame.trans hcount, ?_⟩
      rw [hcount] at hadds
      rw [Nat.succ_mul]
      omega
  obtain ⟨hG, hhived, hcount, hlength⟩ := hkey
  refine ⟨hhived, (hiving_runOnFunction hF ho).started.adds, hlength, ?_, ?_⟩
  · rw [← hcount]
    exact (hived_runOnFunction hG ho hhived).1.2
  · rw [Function.iterate_succ_apply' run (k + 1)]
    exact fronted_runOnFunction hG ho hhived

end

end

theorem runOnFunction_keepsAdding_twoBarriers :
    let run := fun G => (runOnFunction List.reverse G).1
    (run^[2 + 1] twoBarriers).HivedOff ∧ twoBarriers.OnlyAdds (run twoBarriers) ∧
      (run^[2 + 1] twoBarriers).layout.length + 2 = (run twoBarriers).layout.length +
        2 * (collectBarriers (run twoBarriers)).length ∧
      ((runOnFunction List.reverse (run^[2 + 1] twoBarriers)).2 ↔
        1 < (collectBarriers (run twoBarriers)).length) ∧
      ∀ b ∈ (run^[2 + 2] twoBarriers).layout, b ≠ (run^[2 + 2] twoBarriers).entry →
        hasBarrier ((run^[2 + 2] twoBarriers).block b) →
          ∃ p, (run^[2 + 2] twoBarriers).predEdges b = [p] ∧
            ((run^[2 + 2] twoBarriers).block p).insts = [] ∧
            ((run^[2 + 2] twoBarriers).block p).term = .br b :=
  runOnFunction_keepsAdding twoBarriers_valid List.reverse_perm 2

end HiveOff

end VariOCL.IR
