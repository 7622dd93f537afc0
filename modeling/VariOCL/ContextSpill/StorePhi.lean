import VariOCL.ContextSpill.Spills

/-! What `DemotePHIToStack` puts in: the slot, stores where the PHI takes its values from, and the load. -/

namespace VariOCL.IR.ContextSpill

open LoopInserter

/-- A PHI `P` of block `b` in the array `Slot`: `ns j` are the first ids of the stores in front of `j`,
with what they store, and `l` is that of the load. -/
def phiSplice (S : Sizes) (Point : InstId) (Slot : Instruction) (P : InstId) (b : BlockId) (l : InstId)
    (ns : InstId → List (InstId × Value)) : Splice where
  top c := if c = b then insert3DLoadFor S l Slot else []
  before j := (if j = Point then [Slot] else []) ++ (ns j).flatMap fun p =>
    insert3DStoreFor S p.1 (Value.replace P (.inst (l + 9)) p.2) Slot.id
  after _ := []
  use _ _ v := Value.replace P (.inst (l + 9)) v
  gone := [P]

/-- Before the load is there. -/
structure Stores (S : Sizes) (Point : InstId) (Slot : Instruction) (incoming : List (Value × BlockId))
    (F : Function) (ns : InstId → List (InstId × Value)) (sp : Splice) : Prop where
  gone : sp.gone = []
  top : ∀ b, sp.top b = []
  after : ∀ j, sp.after j = []
  before : ∀ j, sp.before j =
    (if j = Point then [Slot] else []) ++ (ns j).flatMap fun p => insert3DStoreFor S p.1 p.2 Slot.id
  use : ∀ u q v, sp.use u q v = v
  later : ∀ j, ∀ p ∈ ns j, Slot.id < p.1
  taken : ∀ j, ∀ p ∈ ns j, ∃ q ∈ F.layout, (F.block q).termId = j ∧ (p.2, q) ∈ incoming

/-- The stores in front of the terminators are those of the entries of `I`, and lie below `l`. -/
structure Filled (F : Function) (I : Instruction) (l : InstId) (ns : InstId → List (InstId × Value)) :
    Prop where
  load : F.freshInst < l
  later : ∀ j, ∀ p ∈ ns j, F.freshInst < p.1 ∧ p.1 + 10 ≤ l
  taken : ∀ j, ∀ p ∈ ns j, ∃ q ∈ F.layout, (F.block q).termId = j ∧ (p.2, q) ∈ I.op.incoming
  stored : ∀ p ∈ I.op.incoming, ∃ r ∈ ns (F.block p.2).termId, r.2 = p.1

section
variable {S : Sizes} {Point : InstId} {Slot I : Instruction} {i j k l n P : InstId} {F G : Function}
  {ns : InstId → List (InstId × Value)} {sp : Splice} {b : BlockId} {w : Value}
  {incoming ps : List (Value × BlockId)} {p : Value × BlockId}

theorem Value.replace_ne (h : j ≠ i) : Value.replace i w (.inst j) = .inst j :=
  if_neg fun heq => h (Value.inst.inj heq)

section
variable (hLsz : ∀ d : Fin 3, S.Lsz d ≠ i) (hk : k ≠ i) (hn : i < n)
include hLsz hk hn

theorem mapValues_insert3DGepFor :
    (insert3DGepFor S n k).map (Instruction.mapValues (Value.replace i w)) = insert3DGepFor S n k := by
  have hnew : ∀ d, Value.replace i w (.inst (n + d)) = .inst (n + d) := fun d =>
    Value.replace_ne (Nat.ne_of_gt (Nat.lt_add_right d hn))
  have hzero : Value.replace i w (.inst n) = .inst n := hnew 0
  have hx : Value.replace i w (.inst (S.Lsz 0)) = .inst (S.Lsz 0) := Value.replace_ne (hLsz 0)
  have hy : Value.replace i w (.inst (S.Lsz 1)) = .inst (S.Lsz 1) := Value.replace_ne (hLsz 1)
  have hslot : Value.replace i w (.inst k) = .inst k := Value.replace_ne hk
  have hconst : ∀ d, Value.replace i w (.constInt 32 d) = .constInt 32 d :=
    fun d => if_neg fun h => by cases h
  simp only [insert3DGepFor, insertCallToGetX, builtinCall, binary, contextGep, List.map_cons,
    List.map_nil, Instruction.mapValues, Op.mapValues, hnew, hzero, hx, hy, hslot, hconst]

theorem mapValues_insert3DStoreFor {v : Value} :
    (insert3DStoreFor S n v k).map (Instruction.mapValues (Value.replace i w)) =
      insert3DStoreFor S n (Value.replace i w v) k := by
  rw [insert3DStoreFor, List.map_append, mapValues_insert3DGepFor hLsz hk hn, List.map_singleton,
    Instruction.mapValues, Op.mapValues, Value.replace_ne (Nat.ne_of_gt (Nat.lt_add_right 8 hn))]
  rfl

end

theorem mapValues_insert3DLoadFor (hLsz : ∀ d : Fin 3, S.Lsz d ≠ i) (hk : Slot.id ≠ i) (hn : i < n) :
    (insert3DLoadFor S n Slot).map (Instruction.mapValues (Value.replace i w)) =
      insert3DLoadFor S n Slot := by
  rw [insert3DLoadFor, List.map_append, mapValues_insert3DGepFor hLsz hk hn, List.map_singleton,
    Instruction.mapValues, Op.mapValues, Value.replace_ne (Nat.ne_of_gt (Nat.lt_add_right 8 hn))]

namespace Stores

/-- One more store at the end of a block. -/
theorem addBefore (h : Stores S Point Slot incoming F ns sp) (hq : p.2 ∈ F.layout) (hp : p ∈ incoming)
    (hlater : Slot.id < n) :
    Stores S Point Slot incoming F
      (fun j => if j = (F.block p.2).termId then ns j ++ [(n, p.1)] else ns j)
      (sp.addBefore (F.block p.2).termId (insert3DStoreFor S n p.1 Slot.id)) where
  gone := h.gone
  top := h.top
  after := h.after
  before j := by
    rw [Splice.addBefore]
    dsimp only
    split
    · rw [h.before, List.flatMap_append, List.append_assoc, List.flatMap_singleton]
    · exact h.before j
  use := h.use
  later j := by
    split
    · exact List.forall_mem_append.mpr ⟨h.later j, fun r hr => List.mem_singleton.mp hr ▸ hlater⟩
    · exact h.later j
  taken j := by
    split
    · rename_i hj
      exact List.forall_mem_append.mpr ⟨h.taken j, fun r hr =>
        List.mem_singleton.mp hr ▸ ⟨p.2, hq, hj.symm, hp⟩⟩
    · exact h.taken j

section
variable (h : Stores S Point Slot incoming F ns sp) (hsp : F.Spliced sp G) (hF : F.Valid)
  (hPoint : (F.block F.entry).IsSpot Point)
include h hsp hPoint

theorem slot_lt : Slot.id < G.freshInst := by
  refine hsp.lt_freshInst F.entry_mem_layout hPoint ?_
  rw [h.before, if_pos rfl]
  exact List.mem_cons_self

include hF

/-- The loop over the operands. -/
theorem foldl_storeIncoming (hps : ∀ p ∈ ps, p ∈ incoming ∧ p.2 ∈ F.layout) : ∃ ns' sp',
    F.Spliced sp' (ps.foldl (storeIncoming S Slot.id) G) ∧ Stores S Point Slot incoming F ns' sp' ∧
      (∀ j, ns j ⊆ ns' j) ∧ ∀ p ∈ ps, ∃ r ∈ ns' (F.block p.2).termId, r.2 = p.1 := by
  induction ps generalizing G sp ns with
  | nil => exact ⟨ns, sp, hsp, h, fun _ => List.Subset.refl _, fun p hp => absurd hp List.not_mem_nil⟩
  | cons p ps ih =>
    obtain ⟨⟨hp, hq⟩, hps⟩ := List.forall_mem_cons.mp hps
    have hstep : F.Spliced (sp.addBefore (F.block p.2).termId
      (insert3DStoreFor S G.freshInst p.1 Slot.id))
        (storeIncoming S Slot.id G p) := by
      rw [storeIncoming, hsp.termId hq]
      exact hsp.insertBefore hF h.gone hq (unused_store (Nat.le_refl _)) (.inl rfl)
    obtain ⟨ns', sp', hsp', h', hsub, hdone⟩ :=
      ih (h.addBefore hq hp (h.slot_lt hsp hPoint)) hstep hps
    refine ⟨ns', sp', hsp', h', fun j r hr => hsub j ?_, List.forall_mem_cons.mpr
      ⟨⟨(G.freshInst, p.1), hsub _ ?_, rfl⟩, hdone⟩⟩
    · split
      · exact List.mem_append_left _ hr
      · exact hr
    · rw [if_pos rfl]
      exact List.mem_append_right _ List.mem_cons_self

end

/-- The load is there, the PHI is read from it, and goes. -/
theorem phiSplice_eq {J : Instruction} (h : Stores S Point (insert3DAllocaFor S k J) incoming F ns sp)
    (hLsz : ∀ d : Fin 3, S.Lsz d ≠ P) (hsize : S.Flat3DSize ≠ P) (hk : P < k) (hl : k < l) :
    { (sp.addTop b (insert3DLoadFor S l (insert3DAllocaFor S k J))).mapValues
        (Value.replace P (.inst (l + 9))) with
      gone := P :: sp.gone } = phiSplice S Point (insert3DAllocaFor S k J) P b l ns := by
  refine (Splice.mk.injEq ..).mpr ⟨funext fun c => ?_, funext fun j => ?_, funext fun j => ?_,
    funext fun u => funext fun q => funext fun v => ?_, ?_⟩
  · change (if c = b then _ else sp.top c).map _ = if c = b then _ else []
    split
    · rw [h.top, List.append_nil]
      exact mapValues_insert3DLoadFor hLsz (Nat.ne_of_gt hk) (hk.trans hl)
    · rw [h.top, List.map_nil]
  · have hslot : Instruction.mapValues (Value.replace P (.inst (l + 9))) (insert3DAllocaFor S k J) =
        insert3DAllocaFor S k J := by
      rw [insert3DAllocaFor, Instruction.mapValues, Op.mapValues, Value.replace_ne hsize]
    change (sp.before j).map _ = (if j = Point then _ else []) ++ _
    rw [h.before, List.map_append, List.map_flatMap]
    refine congrArg₂ _ ?_ (List.flatMap_congr fun p hp => ?_)
    · split
      · rw [List.map_singleton, hslot]
      · rfl
    · exact mapValues_insert3DStoreFor hLsz (Nat.ne_of_gt hk) (hk.trans (h.later j p hp))
  · exact congrArg (List.map _) (h.after j)
  · exact congrArg (Value.replace P (.inst (l + 9))) (h.use u q v)
  · exact congrArg (P :: ·) h.gone

/-- The load behind the PHIs, and the rest. -/
theorem demoted (h : Stores S Point (insert3DAllocaFor S k I) incoming F ns sp) (hsp : F.Spliced sp G)
    (hF : F.Valid) (hPoint : (F.block F.entry).IsSpot Point) (hb : b ∈ F.layout)
    (hI : I ∈ (F.block b).insts) (hphi : I.op.isPhi) (hLsz : ∀ d : Fin 3, S.Lsz d ≠ I.id)
    (hsize : S.Flat3DSize ≠ I.id) (hk : I.id < k) :
    F.Spliced (phiSplice S Point (insert3DAllocaFor S k I) I.id b G.freshInst ns)
      (((G.updateBlock b (BasicBlock.insertAllAfter I.id
            (insert3DLoadFor S G.freshInst (insert3DAllocaFor S k I)))).replaceAllUsesWith
          I.id (.inst (G.freshInst + 9))).updateBlock b (BasicBlock.erase I.id)) := by
  have hload := hsp.insertAfter hF h.gone hb
    (@unused_load S (insert3DAllocaFor S k I) _ G (Nat.le_refl _)) hI
  rw [if_pos hphi] at hload
  have hread := hload.mapValues (k := Value.replace I.id (.inst (G.freshInst + 9)))
  have herase := hread.erase hF hb hI hphi
  have heq := h.phiSplice_eq (b := b) hLsz hsize hk (h.slot_lt hsp hPoint)
  exact (congrArg (F.Spliced · _) heq).mp herase

end Stores

/-- The load is in the block of the PHI. -/
theorem mem_ids_load (hsp : F.Spliced (phiSplice S Point Slot P b l ns) G) (hb : b ∈ F.layout) :
    l + 9 ∈ (G.block b).insts.map Instruction.id := by
  have htop : (phiSplice S Point Slot P b l ns).top b = insert3DLoadFor S l Slot := if_pos rfl
  rw [hsp.block b hb]
  refine List.mem_map.mpr ⟨⟨l + 9, elementType Slot, .load (.inst (l + 8))⟩,
    List.mem_append_right _ (List.mem_append_left _ ?_), rfl⟩
  rw [htop]
  exact List.mem_append_right _ List.mem_cons_self

theorem spliced_demotePHIToStack {users : Function → InstId → List InstId} (hF : F.Valid)
    (hPoint : (F.block F.entry).IsSpot Point) (hb : b ∈ F.layout) (hI : I ∈ (F.block b).insts)
    (hphi : I.op.isPhi) (hne : users F I.id ≠ []) (hLsz : ∀ d : Fin 3, S.Lsz d ≠ I.id)
    (hsize : S.Flat3DSize ≠ I.id) : ∃ ns l,
    F.Spliced (phiSplice S Point (insert3DAllocaFor S F.freshInst I) I.id b l ns)
        (DemotePHIToStack S Point users F I.id) ∧ Filled F I l ns := by
  have hId : I.id ∈ (F.block b).instIds := List.mem_append_left _ (List.mem_map_of_mem hI)
  have hblock := F.blockOf_eq_some hF.ids hb hId
  have hfind := Function.find_of_mem hF.ids hb hI
  have hlt : I.id < F.freshInst := F.lt_freshInst (F.instIds_of_mem hb hI)
  have hunused : F.Unused [insert3DAllocaFor S F.freshInst I] := by
    refine ⟨fun J hJ => ?_, List.nodup_singleton _, fun J hJ => ?_⟩ <;> rw [List.mem_singleton.mp hJ]
    · exact Nat.le_refl _
    · rfl
  have hsp := (F.spliced_empty hF.ids).insertBefore hF rfl F.entry_mem_layout hunused hPoint
  have h : Stores S Point (insert3DAllocaFor S F.freshInst I) I.op.incoming F (fun _ => [])
      (Splice.empty.addBefore Point [insert3DAllocaFor S F.freshInst I]) := by
    constructor
    · rfl
    · exact fun _ => rfl
    · exact fun _ => rfl
    · exact fun j => (List.append_nil _).symm
    · exact fun _ _ _ => rfl
    · exact fun _ p hp => absurd hp List.not_mem_nil
    · exact fun _ p hp => absurd hp List.not_mem_nil
  obtain ⟨ns, sp, hsp', h', -, hdone⟩ := h.foldl_storeIncoming hsp hF hPoint
    fun p (hp : p ∈ I.op.incoming) => ⟨hp, hF.incoming b hb I hI _ (Op.snd_mem_incomingBlocks hp)⟩
  refine ⟨ns, _, ?_, h'.slot_lt hsp' hPoint, fun j p hp => ⟨h'.later j p hp, ?_⟩, h'.taken, hdone⟩
  · rw [DemotePHIToStack, hblock]
    dsimp only
    rw [hfind]
    dsimp only
    rw [if_neg (c := (users F I.id).isEmpty = true) (by simpa using hne)]
    exact h'.demoted hsp' hF hPoint hb hI hphi hLsz hsize hlt
  · obtain ⟨q, hq, rfl, -⟩ := h'.taken j p hp
    have hlast : (⟨p.1 + 9, .void, .store p.2 (.inst (p.1 + 8))⟩ : Instruction) ∈
        sp.before (F.block q).termId := by
      rw [h'.before]
      exact List.mem_append_right _ (List.mem_flatMap.mpr
        ⟨p, hp, List.mem_append_right _ List.mem_cons_self⟩)
    exact hsp'.lt_freshInst hq (.inl rfl) hlast

end

end VariOCL.IR.ContextSpill
