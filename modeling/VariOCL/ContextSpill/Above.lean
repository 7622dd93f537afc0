import VariOCL.ContextSpill.Preserve
import VariOCL.ContextSpill.Reads

/-! After the pass, too, what is used is defined above. -/

namespace VariOCL.IR

section
variable {F G : Function} {sp : Splice} {b c : BlockId} {u j : InstId}

theorem Function.Spliced.reachable (h : F.Spliced sp G) (hF : F.Valid) (hb : G.Reachable b) :
    b ∈ F.layout ∧ F.Reachable b := by
  rw [Function.Reachable, h.entry] at hb
  refine reflTransGen_of_inv (S := (· ∈ F.layout)) F.entry_mem_layout ?_ hb
  intro x y hx hxy
  have hxy : y ∈ F.succs x := h.succs hx ▸ hxy
  exact ⟨hF.closed x hx y hxy, hxy⟩

/-- What is defined above a spot still is. -/
theorem Function.Spliced.definedAbove (h : F.Spliced sp G) (hF : F.Valid) (hgone : j ∉ sp.gone)
    (hc : c ∈ F.layout) (hu : (F.block c).IsSpot u) (hj : F.DefinedAbove c u j) :
    G.DefinedAbove c u j := by
  rcases hj with hj | ⟨d, hd, hne, hdom, hj⟩
  · refine .inl ?_
    rw [h.block c hc]
    exact Splice.above_of_above (hF.instIds_nodup hc) hu hj hgone
      (List.mem_append_right _ List.mem_cons_self)
  · obtain ⟨K, hK, rfl⟩ := List.mem_map.mp hj
    exact .inr ⟨d, h.mem_layout hd, hne, h.dominates hF hdom,
      List.mem_map.mpr ⟨_, h.mem_of_mem hd hK hgone, rfl⟩⟩

end

namespace ContextSpill

open LoopInserter
open BreakPhi (SSA)

/-- `v` is defined above `u` in its block `c`, or in another block as one of `T`. -/
def Above (T : InstId → Prop) (F : Function) (c : BlockId) (u : InstId) (v : Value) : Prop :=
  F.Reachable c → ∀ j, v = .inst j → [j, u].Sublist (F.block c).instIds ∨
    T j ∧ j ∉ (F.block c).insts.map Instruction.id

section
variable {T T' : InstId → Prop} {F G H : Function} {sp : Splice} {b c : BlockId} {u i j n : InstId}
  {I : Instruction} {slots new : List Instruction} {is : List InstId}

theorem held_of_front (hj : j = n ∨ j = n + 1 ∨ j ∈ new.map Instruction.id) :
    held n is (slots ++ new) j := by
  rcases hj with rfl | rfl | hj
  · exact .inr (.inl rfl)
  · exact .inr (.inr (.inl rfl))
  · exact held_append hj

theorem mem_front_of_held (hj : held n [] slots j) : j ∈ (sizes n ++ slots).map Instruction.id := by
  rw [List.map_append]
  rcases hj with hj | rfl | rfl | hj
  · cases hj
  · exact List.mem_append_left _ (@mem_ids_sizes j 0 (by decide))
  · exact List.mem_append_left _ (mem_ids_sizes (by decide))
  · exact List.mem_append_right _ hj

/-- The sizes and the slots are above what is put in. -/
theorem Ready.front_above (hR : Ready n slots F) (hG : Ready n (slots ++ new) G)
    (hnew : ∀ I ∈ new, I.id = F.freshInst) (hu : u ∈ (G.block G.entry).instIds) (hlt : F.freshInst < u)
    (hj : j ∈ (sizes n ++ (slots ++ new)).map Instruction.id) :
    [j, u].Sublist (G.block G.entry).instIds := by
  obtain ⟨rest, hrest⟩ := hG.headed.insts
  have hids : (G.block G.entry).instIds = (sizes n ++ (slots ++ new)).map Instruction.id ++
      ((allocaPoint n).id :: (rest.map Instruction.id ++ [(G.block G.entry).termId])) := by
    rw [BasicBlock.instIds, ← hrest]
    simp only [List.map_append, List.append_assoc, List.map_cons, List.cons_append,
      List.nil_append]
  have hfront : u ∉ (sizes n ++ (slots ++ new)).map Instruction.id := by
    intro hmem
    obtain ⟨I, hI, rfl⟩ := List.mem_map.mp hmem
    rw [← List.append_assoc] at hI
    rcases List.mem_append.mp hI with hI | hI
    · exact Nat.lt_asymm hlt (F.lt_freshInst (hR.headed.mem (List.mem_append_left _ hI)))
    · exact Nat.lt_irrefl _ (hlt.trans_eq (hnew I hI))
  rw [hids] at hu ⊢
  exact pair_sublist hj ((List.mem_append.mp hu).resolve_left hfront)

theorem RegStep.id_new (h : RegStep n F i new G) : ∀ I ∈ new, I.id = F.freshInst := by
  cases h with
  | demote => exact List.forall_mem_singleton.mpr rfl

theorem PhiStep.id_new (h : PhiStep n F i new G) : ∀ I ∈ new, I.id = F.freshInst := by
  cases h with
  | demote => exact List.forall_mem_singleton.mpr rfl
  | erase => exact fun I hI => absurd hI List.not_mem_nil

theorem carries_above (hR : Ready n slots F) (hG : Ready n (slots ++ new) G) (hsp : F.Spliced sp G)
    (hgone : sp.gone ⊆ [i]) (hfresh : ∀ K, sp.Puts K → F.freshInst ≤ K.id)
    (hnew : ∀ I ∈ new, I.id = F.freshInst) (hlow : ∀ j, T j → j < F.freshInst)
    (hT : ∀ j, T j → j ≠ i → T' j)
    (hfront : ∀ j, j = n ∨ j = n + 1 ∨ j ∈ new.map Instruction.id → T' j) :
    Carries n i new F sp G (Above T F) (Above T' G) where
  const _ _ _ _ j hj := by cases hj
  own c u j h _ k hk := .inl (Value.inst.inj hk ▸ h)
  front c hc u hu hlt j hj _ k hk := by
    obtain rfl := Value.inst.inj hk
    refine or_iff_not_imp_right.mpr fun hnot => ?_
    have hmem := not_not.mp (not_and.mp hnot (hfront j hj))
    have hin : j ∈ (sizes n ++ (slots ++ new)).map Instruction.id :=
      mem_front_of_held (held_of_front hj)
    obtain ⟨K, hK, hid⟩ := List.mem_map.mp hin
    have hK := hG.headed.insts.subset (List.mem_append_left [allocaPoint n]
      (show K ∈ sizes n ++ (slots ++ new) from hK))
    obtain rfl := G.eq_of_mem_instIds hG.valid.ids (hsp.mem_layout hc) G.entry_mem_layout
      (List.mem_append_left _ hmem) (hid ▸ List.mem_append_left _ (List.mem_map_of_mem hK))
    exact hR.front_above hG hnew hu hlt hin
  keep c hc u hu v hv hvi y hy hr j hj := by
    have hji : j ≠ i := fun h => hvi (h ▸ hj)
    refine (hv (hsp.reachable hR.valid hr).2 j hj).imp (fun habove => ?_) fun h => ?_
    · rw [hsp.block c hc]
      exact Splice.above_of_above (hR.valid.instIds_nodup hc) hu habove
        (fun hmem => hji (List.mem_singleton.mp (hgone hmem))) hy
    · refine ⟨hT j h.1 hji, fun hmem => h.2 ?_⟩
      obtain ⟨K, hK, rfl⟩ := List.mem_map.mp hmem
      rw [hsp.block c hc] at hK
      rcases Splice.mem_block (hR.valid.phisFirst c hc) hK with hK | ⟨J, hJ, -, rfl⟩
      · exact absurd (hlow _ h.1) (Nat.not_lt.mpr (hfresh K hK))
      · exact List.mem_map.mpr ⟨J, hJ, rfl⟩

/-- What holds while the values `is` are still to be demoted. -/
structure Rises (n : InstId) (is : List InstId) (slots : List Instruction) (H : Function) : Prop where
  ready : Ready n slots H
  reads : H.AllReads (Above (held n is slots) H)
  low : ∀ i ∈ is, i < n

theorem Rises.lt_freshInst (hH : Rises n is slots H) (hj : held n is slots j) : j < H.freshInst := by
  rcases hj with hj | rfl | rfl | hj
  · exact (hH.low j hj).trans_le hH.ready.le_freshInst
  · exact H.lt_freshInst (hH.ready.size_mem 0)
  · exact H.lt_freshInst (hH.ready.size_mem 1)
  · obtain ⟨K, hK, rfl⟩ := List.mem_map.mp hj
    exact H.lt_freshInst (hH.ready.headed.mem (List.mem_append_left _ (List.mem_append_right _ hK)))

theorem Rises.regStep (hH : Rises n (i :: is) slots H) (h : RegStep n H i new G) :
    Rises n is (slots ++ new) G := by
  have hG := h.ready hH.ready
  refine ⟨hG, ?_, fun j hj => hH.low j (List.mem_cons_of_mem _ hj)⟩
  exact h.allReads hH.ready hH.reads fun _ hsp hgone hfresh =>
    carries_above hH.ready hG hsp hgone hfresh h.id_new (fun _ => hH.lt_freshInst)
      (fun _ hj hne => held_mono (held_tail hj hne)) fun _ => held_of_front

theorem Rises.phiStep (hH : Rises n [] slots H) (hi : i < n) (h : PhiStep n H i new G) :
    Rises n [] (slots ++ new) G := by
  have hG := h.ready hH.ready
  obtain ⟨sp, hsp, -⟩ := h.spliced hH.ready.valid
  refine ⟨hG, ?_, fun j hj => absurd hj List.not_mem_nil⟩
  refine h.allReads hH.ready hH.reads (fun _ hsp hgone hfresh =>
    carries_above hH.ready hG hsp hgone hfresh h.id_new (fun _ => hH.lt_freshInst)
      (fun _ hj _ => held_mono hj) fun _ => held_of_front) fun c _ u hu => ?_
  by_cases hr : H.Reachable c
  · refine .inl (mem_of_sublist_last ((hu hr i rfl).resolve_right fun h => ?_))
    exact not_held hH.ready.headed hi h.1
  · exact .inr fun _ _ hr' => absurd (hsp.reachable hH.ready.valid hr').2 hr

end

/-! ### The beginning and the end -/

section
variable {F G : Function} {n : InstId} {slots : List Instruction}

theorem reads_prologue {I : Instruction} {j : InstId} (hI : I ∈ prologue n)
    (hj : .inst j ∈ I.op.operands) : [j, I.id].Sublist ((prologue n).map Instruction.id) := by
  have habove : ∀ d d', [d, d'].Sublist (List.range 6) →
      [n + d, n + d'].Sublist ((List.range 6).map (n + ·)) := fun d d' h => h.map (n + ·)
  have hfirst : [n, n + 4].Sublist ((List.range 6).map (n + ·)) := habove 0 4 (by decide)
  rw [ids_prologue]
  simp only [prologue, List.mem_cons, List.not_mem_nil, or_false] at hI
  rcases hI with rfl | rfl | rfl | rfl | rfl | rfl <;>
    simp only [insertCallToGetX, builtinCall, binary, Op.operands, List.mem_cons, List.not_mem_nil,
      or_false, reduceCtorEq, Value.inst.injEq] at hj
  · rcases hj with rfl | rfl
    · exact habove 2 3 (by decide)
    · exact habove 1 3 (by decide)
  · rcases hj with rfl | rfl
    · exact habove 3 4 (by decide)
    · exact hfirst

theorem definesBeforeUse_withPrologue (hF : SSA F) (hdef : F.DefinesBeforeUse) :
    (withPrologue F).DefinesBeforeUse := by
  have hsp := spliced_withPrologue hF.valid
  have hR := ready_withPrologue hF
  refine ⟨fun b hb hr I hI hphi j hj => ?_, fun b hb hr j hj => ?_,
    fun b hb _ I hI p hp _ j hj => hR.definedAbove hb hI (hj ▸ hp)⟩
  · obtain ⟨hb, hr⟩ := hsp.reachable hF.valid hr
    by_cases hbe : b = F.entry
    · subst hbe
      have hblock : (withPrologue F).block F.entry = _ := F.block_updateBlock _ _
      rw [hblock] at hI
      rcases List.mem_append.mp hI with hI | hI
      · refine .inl ((reads_prologue hI hj).trans ?_)
        rw [hblock, BasicBlock.instIds, List.map_append, List.append_assoc]
        exact List.sublist_append_left _ _
      · exact hsp.definedAbove hF.valid List.not_mem_nil hb (.inr ⟨I, hI, hphi, rfl⟩)
          (hdef.inst _ hb hr I hI hphi j hj)
    · have hblock : (withPrologue F).block b = F.block b := F.block_updateBlock_ne _ hbe
      rw [hblock] at hI
      exact hsp.definedAbove hF.valid List.not_mem_nil hb (.inr ⟨I, hI, hphi, rfl⟩)
        (hdef.inst b hb hr I hI hphi j hj)
  · obtain ⟨hb, hr⟩ := hsp.reachable hF.valid hr
    have hterm : ((withPrologue F).block b).term = (F.block b).term := by
      by_cases hbe : b = F.entry
      · subst hbe
        have hblock : (withPrologue F).block F.entry = _ := F.block_updateBlock _ _
        rw [hblock]
      · exact congrArg BasicBlock.term (F.block_updateBlock_ne _ hbe)
    rw [hsp.termId hb]
    exact hsp.definedAbove hF.valid List.not_mem_nil hb (.inl rfl) (hdef.term b hb hr j (hterm ▸ hj))

/-- At first, the escaped values are used in other blocks. -/
theorem rises_withPrologue (hF : SSA F) (hops : F.OperandsDefined) (hdef : F.DefinesBeforeUse) :
    Rises F.freshInst (escapedInsts (withPrologue F)) [] (withPrologue F) := by
  have hR := ready_withPrologue hF
  have hH := definesBeforeUse_withPrologue hF hdef
  have habove : ∀ c ∈ (withPrologue F).layout, ∀ u j, (withPrologue F).DefinedAbove c u j →
      (∀ d, d ≠ c → isValueEscaped (withPrologue F) d j) →
      [j, u].Sublist ((withPrologue F).block c).instIds ∨
        held F.freshInst (escapedInsts (withPrologue F)) [] j ∧
          j ∉ ((withPrologue F).block c).insts.map Instruction.id := by
    intro c hc u j hj hesc
    refine hj.imp_right ?_
    rintro ⟨d, hd, hne, -, hj⟩
    obtain ⟨K, hK, rfl⟩ := List.mem_map.mp hj
    refine ⟨.inl (mem_escapedInsts.mpr ⟨d, hd, K, hK, hesc d hne, rfl⟩), fun hmem => hne ?_⟩
    exact (withPrologue F).eq_of_mem_instIds hR.valid.ids hd hc
      (List.mem_append_left _ (List.mem_map_of_mem hK)) (List.mem_append_left _ hmem)
  refine ⟨hR, ⟨fun b hb I hI hphi v hv hr j hj => ?_, fun b hb v hv hr j hj => ?_,
    fun b hb I hI p hp hr j hj => ?_⟩, fun i => lt_of_mem_escapedInsts hF.valid hops⟩
  · subst hj
    refine habove b hb _ j (hH.inst b hb hr I hI hphi j hv) fun d hd => ?_
    exact isValueEscaped_iff.mpr ⟨b, hb, .inl ⟨I, hI, hv, .inl (Ne.symm hd)⟩⟩
  · subst hj
    refine habove b hb _ j (hH.term b hb hr j hv) fun d hd => ?_
    exact isValueEscaped_iff.mpr ⟨b, hb, .inr ⟨hv, Ne.symm hd⟩⟩
  · have hq := hR.valid.incoming b hb I hI _ (Op.snd_mem_incomingBlocks hp)
    refine habove p.2 hq _ j (hR.definedAbove hb hI (hj ▸ hp)) fun d _ => ?_
    exact isValueEscaped_iff.mpr ⟨b, hb, .inl ⟨I, hI, hj ▸ Op.fst_mem_operands hp,
      .inr (Op.isPhi_of_mem_incoming hp)⟩⟩

theorem rises_runOnFunction {users : Function → InstId → List InstId} (hF : SSA F)
    (hops : F.OperandsDefined) (hdef : F.DefinesBeforeUse)
    (husers : ∀ H i u, u ∈ users H i ↔ u ∈ H.useList i) (h : runOnFunction users F = .ok G) :
    ∃ slots, Rises F.freshInst [] slots G := by
  obtain ⟨slots₁, slots₂, F₁, hregs, hphis⟩ := steps_of_runOnFunction hF hops husers h
  have hsub := phiInsts_subset (spliced_withPrologue hF.valid) hF.valid
  obtain ⟨hF₁, hphis₁⟩ := hregs.inv
    (C := fun is slots H => Rises F.freshInst is slots H ∧ phiInsts H ⊆ phiInsts F)
    (fun _ _ _ _ _ _ hH hstep => by
      obtain ⟨sp, hsp, -, -⟩ := hstep.spliced
      exact ⟨hH.1.regStep hstep, List.Subset.trans (phiInsts_subset hsp hH.1.ready.valid) hH.2⟩)
    ⟨rises_withPrologue hF hops hdef, hsub⟩
  have hG := hphis.inv
    (C := fun _ slots H => Rises F.freshInst [] slots H ∧ phiInsts H ⊆ phiInsts F)
    (fun _ _ _ _ _ _ hH hstep => by
      obtain ⟨sp, hsp, -⟩ := hstep.spliced hH.1.ready.valid
      obtain ⟨b, hb, I, hI, -, hid⟩ := mem_phiInsts.mp (hH.2 hstep.mem_phiInsts)
      exact ⟨hH.1.phiStep (hid ▸ F.lt_freshInst (F.instIds_of_mem hb hI)) hstep,
        List.Subset.trans (phiInsts_subset hsp hH.1.ready.valid) hH.2⟩)
    ⟨hF₁, hphis₁⟩
  exact ⟨slots₂, hG.1⟩

theorem Rises.definesBeforeUse (hG : Rises n [] slots G) : G.DefinesBeforeUse := by
  have habove : ∀ c u j, G.Reachable c → Above (held n [] slots) G c u (.inst j) →
      G.DefinedAbove c u j := by
    intro c u j hr h
    refine (h hr j rfl).imp_right fun hheld => ?_
    obtain ⟨K, hK, rfl⟩ := List.mem_map.mp (mem_front_of_held hheld.1)
    have hK := List.mem_map_of_mem (f := Instruction.id)
      (hG.ready.headed.insts.subset (List.mem_append_left _ hK))
    exact ⟨G.entry, G.entry_mem_layout, fun heq => hheld.2 (heq ▸ hK), Graph.Dominates.root, hK⟩
  exact ⟨fun b hb hr I hI hphi j hj => habove b _ j hr (hG.reads.inst b hb I hI hphi _ hj),
    fun b hb hr j hj => habove b _ j hr (hG.reads.term b hb _ hj),
    fun b hb _ I hI p hp hr j hj => habove _ _ j hr (hj ▸ hG.reads.phi b hb I hI p hp)⟩

theorem runOnFunction_definesBeforeUse {users : Function → InstId → List InstId} (hF : SSA F)
    (hops : F.OperandsDefined) (hdef : F.DefinesBeforeUse)
    (husers : ∀ H i u, u ∈ users H i ↔ u ∈ H.useList i) (h : runOnFunction users F = .ok G) :
    G.DefinesBeforeUse := by
  obtain ⟨slots, hG⟩ := rises_runOnFunction hF hops hdef husers h
  exact hG.definesBeforeUse

end

theorem swap_definesBeforeUse : swap.DefinesBeforeUse := by
  have hdom : swap.Dominates 1 2 := (Function.dominates_iff swap_ssa.valid.closed).mp (by decide)
  have hinst : ∀ b ∈ swap.layout, ∀ I ∈ (swap.block b).insts, I.op.isPhi = false →
      ∀ v ∈ I.op.operands, v.isConstant = true := by decide
  have hterm : ∀ b ∈ swap.layout, ∀ v ∈ (swap.block b).term.operands,
      b = 1 ∧ v = .inst 1 ∨ b = 2 ∧ v = .inst 2 := by decide
  have hphi : ∀ b ∈ swap.layout, ∀ I ∈ (swap.block b).insts, ∀ p ∈ I.op.incoming,
      p.1.isConstant = true ∨ p.2 = 1 ∧ (p.1 = .inst 1 ∨ p.1 = .inst 2) := by decide
  refine ⟨fun b hb _ I hI hnot j hj => ?_, fun b hb _ j hj => ?_, fun b hb _ I hI p hp _ j hj => ?_⟩
  · cases hinst b hb I hI hnot _ hj
  · rcases hterm b hb _ hj with ⟨rfl, heq⟩ | ⟨rfl, heq⟩
    · cases heq
      exact .inl (by decide)
    · cases heq
      exact .inr ⟨1, by decide, by decide, hdom, by decide⟩
  · rcases hphi b hb I hI p hp with hconst | ⟨hq, hv⟩
    · rw [hj] at hconst
      cases hconst
    · rw [hq]
      rw [hj] at hv
      rcases hv with hv | hv
      · cases hv
        exact .inl (by decide)
      · cases hv
        exact .inl (by decide)

theorem runOnFunction_definesBeforeUse_swap : ∃ G, runOnFunction Function.useList swap = .ok G ∧
    G.DefinesBeforeUse := by
  obtain ⟨G, hG⟩ := swap_ok
  exact ⟨G, hG, runOnFunction_definesBeforeUse swap_ssa swap_operandsDefined swap_definesBeforeUse
    (fun _ _ _ => .rfl) hG⟩

end ContextSpill

end VariOCL.IR
