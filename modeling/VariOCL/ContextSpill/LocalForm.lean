import VariOCL.ContextSpill.Preserve
import VariOCL.ContextSpill.Reads

/-! After the pass only the sizes and the slots are used outside their blocks. -/

namespace VariOCL.IR.ContextSpill

open LoopInserter
open BreakPhi (SSA)

/-- `v` is no value of another block than `b`, but for those of `T`. -/
def Near (T : InstId → Prop) (F : Function) (b : BlockId) (v : Value) : Prop :=
  ∀ j, v = .inst j → T j ∨ j ∈ (F.block b).insts.map Instruction.id

/-- Values are used in their blocks, and by PHIs from there, but for those of `T`. -/
def Local (T : InstId → Prop) (F : Function) : Prop := F.AllReads fun b _ v => Near T F b v

section
variable {T T' : InstId → Prop} {F G : Function} {sp : Splice} {c : BlockId} {v : Value}
  {i n : InstId} {slots new : List Instruction}

theorem Near.keep (h : Near T F c v) (hsp : F.Spliced sp G) (hc : c ∈ F.layout)
    (hv : ∀ j, v = .inst j → j ∉ sp.gone ∧ (T j → T' j)) : Near T' G c v := by
  intro j hj
  obtain ⟨hgone, hT⟩ := hv j hj
  refine (h j hj).imp hT fun hmem => ?_
  obtain ⟨K, hK, rfl⟩ := List.mem_map.mp hmem
  exact List.mem_map.mpr ⟨_, hsp.mem_of_mem hc hK hgone, rfl⟩

theorem carries_near (hsp : F.Spliced sp G) (hgone : sp.gone ⊆ [i]) (hT : ∀ j, T j → j ≠ i → T' j)
    (hx : T' n) (hy : T' (n + 1)) (hnew : ∀ I ∈ new, T' I.id) :
    Carries n i new F sp G (fun b _ v => Near T F b v) fun b _ v => Near T' G b v where
  const _ _ d j hj := by cases hj
  own c u j h k hk := .inr (Value.inst.inj hk ▸ mem_of_sublist_last h)
  front c _ u _ _ j hj k hk := by
    obtain rfl := Value.inst.inj hk
    rcases hj with rfl | rfl | hj
    · exact .inl hx
    · exact .inl hy
    · obtain ⟨I, hI, rfl⟩ := List.mem_map.mp hj
      exact .inl (hnew I hI)
  keep c hc u _ v hv hvi y _ := hv.keep hsp hc fun j hj =>
    have hji : j ≠ i := fun h => hvi (h ▸ hj)
    ⟨fun hmem => hji (List.mem_singleton.mp (hgone hmem)), fun hTj => hT j hTj hji⟩

theorem RegStep.localized (h : RegStep n F i new G) (hR : Ready n slots F) (hF : Local T F)
    (hT : ∀ j, T j → j ≠ i → T' j) (hx : T' n) (hy : T' (n + 1)) (hnew : ∀ I ∈ new, T' I.id) :
    Local T' G :=
  h.allReads hR hF fun _ hsp hgone _ => carries_near hsp hgone hT hx hy hnew

theorem PhiStep.localized (h : PhiStep n F i new G) (hR : Ready n slots F) (hF : Local T F)
    (hT : ∀ j, T j → T' j) (hi : ¬ T i) (hx : T' n) (hy : T' (n + 1)) (hnew : ∀ I ∈ new, T' I.id) :
    Local T' G :=
  h.allReads hR hF (fun _ hsp hgone _ => carries_near hsp hgone (fun j hj _ => hT j hj) hx hy hnew)
    fun _ _ _ hnear => .inl ((hnear i rfl).resolve_left hi)

end

/-! ### The pass -/

/-- The terminators' ids are allowed too, since an operand may name one. -/
def shared (F : Function) (n : InstId) (is : List InstId) (slots : List Instruction) (j : InstId) :
    Prop := held n is slots j ∨ ∃ b ∈ F.layout, (F.block b).termId = j

section
variable {F G H : Function} {n i : InstId} {slots new : List Instruction} {is : List InstId}

theorem operandsDefined_withPrologue (hF : SSA F) (hdef : F.OperandsDefined) :
    (withPrologue F).OperandsDefined := by
  have hR := ready_withPrologue hF
  have hsub := (spliced_withPrologue hF.valid).instIds_subset rfl
  intro b hb i hi
  by_cases hbe : b = F.entry
  · subst hbe
    have hblock : (withPrologue F).block F.entry = _ := F.block_updateBlock _ _
    rw [hblock] at hi
    rcases BasicBlock.mem_values.mp hi with ⟨I, hI, hi⟩ | hi
    · rcases List.mem_append.mp hI with hI | hI
      · obtain ⟨hlow, hhigh⟩ := hR.headed.operands (List.append_nil (sizes F.freshInst) ▸ hI) hi
        obtain ⟨d, hd⟩ := Nat.exists_eq_add_of_le hlow
        obtain ⟨K, hK, hid⟩ := List.mem_map.mp
          (@mem_ids_sizes F.freshInst d (Nat.lt_of_add_lt_add_left (hd ▸ hhigh)))
        exact hd ▸ hid ▸ hR.headed.mem (List.mem_append_left _ (List.mem_append_left _ hK))
      · exact hsub (hdef _ F.entry_mem_layout i (BasicBlock.mem_values.mpr (.inl ⟨I, hI, hi⟩)))
    · exact hsub (hdef _ F.entry_mem_layout i (BasicBlock.mem_values.mpr (.inr hi)))
  · have hblock : (withPrologue F).block b = F.block b := F.block_updateBlock_ne _ hbe
    exact hsub (hdef b hb i (hblock ▸ hi))

/-- At first, these are the escaped values. -/
theorem local_withPrologue (hF : SSA F) (hdef : F.OperandsDefined) :
    Local (shared F F.freshInst (escapedInsts (withPrologue F)) []) (withPrologue F) := by
  have hsp := spliced_withPrologue hF.valid
  have hnear : ∀ b ∈ F.layout, ∀ v ∈ ((withPrologue F).block b).values, ∀ c,
      (∀ j d, v = .inst j → d ≠ c → isValueEscaped (withPrologue F) d j) →
        Near (shared F F.freshInst (escapedInsts (withPrologue F)) []) (withPrologue F) c v := by
    rintro b hb v hv c hesc j rfl
    obtain ⟨d, hd, hj⟩ := Function.mem_instIds.mp (operandsDefined_withPrologue hF hdef b hb j hv)
    rcases List.mem_append.mp hj with hj | hj
    · by_cases hdc : d = c
      · exact .inr (hdc ▸ hj)
      · obtain ⟨K, hK, rfl⟩ := List.mem_map.mp hj
        exact .inl (.inl (.inl (mem_escapedInsts.mpr ⟨d, hd, K, hK, hesc _ d rfl hdc, rfl⟩)))
    · have hterm := (hsp.termId hd).symm.trans (List.mem_singleton.mp hj).symm
      exact .inl (.inr ⟨d, hd, hterm⟩)
  refine ⟨fun b hb I hI hphi v hv => ?_, fun b hb v hv => ?_, fun b hb I hI p hp => ?_⟩
  · refine hnear b hb v (BasicBlock.mem_values.mpr (.inl ⟨I, hI, hv⟩)) b fun j d hj hd => ?_
    exact isValueEscaped_iff.mpr ⟨b, hb, .inl ⟨I, hI, hj ▸ hv, .inl (Ne.symm hd)⟩⟩
  · refine hnear b hb v (BasicBlock.mem_values.mpr (.inr hv)) b fun j d hj hd => ?_
    exact isValueEscaped_iff.mpr ⟨b, hb, .inr ⟨hj ▸ hv, Ne.symm hd⟩⟩
  · have hv := Op.fst_mem_operands hp
    refine hnear b hb p.1 (BasicBlock.mem_values.mpr (.inl ⟨I, hI, hv⟩)) p.2 fun j d hj _ => ?_
    exact isValueEscaped_iff.mpr ⟨b, hb, .inl ⟨I, hI, hj ▸ hv, .inr (Op.isPhi_of_mem_incoming hp)⟩⟩

/-- What holds while the values `is` are still to be demoted. -/
structure Left (F : Function) (is : List InstId) (slots : List Instruction) (H : Function) : Prop where
  ready : Ready F.freshInst slots H
  near : Local (shared F F.freshInst is slots) H
  phis : phiInsts H ⊆ phiInsts F
  layout : H.layout = F.layout
  terms : ∀ b ∈ F.layout, (H.block b).termId = (F.block b).termId

theorem Left.spliced {sp : Splice} {is' : List InstId} (hH : Left F is slots H) (hsp : H.Spliced sp G)
    (hready : Ready F.freshInst (slots ++ new) G)
    (hnear : Local (shared F F.freshInst is' (slots ++ new)) G) :
    Left F is' (slots ++ new) G where
  ready := hready
  near := hnear
  phis := List.Subset.trans (phiInsts_subset hsp hH.ready.valid) hH.phis
  layout := hsp.layout.trans hH.layout
  terms b hb := (hsp.termId (hH.layout ▸ hb)).trans (hH.terms b hb)

theorem Left.regStep (hH : Left F (i :: is) slots H) (h : RegStep F.freshInst H i new G) :
    Left F is (slots ++ new) G := by
  obtain ⟨sp, hsp, -, -⟩ := h.spliced
  refine hH.spliced hsp (h.ready hH.ready) ?_
  exact h.localized hH.ready hH.near
    (fun j hj hne => hj.imp_left fun hj => held_mono (held_tail hj hne)) (.inl (.inr (.inl rfl)))
    (.inl (.inr (.inr (.inl rfl)))) fun I hI => .inl (held_append (List.mem_map_of_mem hI))

theorem Left.phiStep (hF : F.Valid) (hH : Left F [] slots H) (h : PhiStep F.freshInst H i new G) :
    Left F [] (slots ++ new) G := by
  obtain ⟨sp, hsp, -⟩ := h.spliced hH.ready.valid
  obtain ⟨b, hb, I, hI, -, rfl⟩ := mem_phiInsts.mp (hH.phis h.mem_phiInsts)
  have hlow := F.lt_freshInst (F.instIds_of_mem hb hI)
  have hnot : ¬ shared F F.freshInst [] slots I.id := by
    rintro (hheld | ⟨d, hd, heq⟩)
    · exact not_held hH.ready.headed hlow hheld
    · exact F.termId_ne hF hd hb hI heq.symm
  refine hH.spliced hsp (h.ready hH.ready) ?_
  exact h.localized hH.ready hH.near (fun j hj => hj.imp_left held_mono) hnot (.inl (.inr (.inl rfl)))
    (.inl (.inr (.inr (.inl rfl)))) fun I hI => .inl (held_append (List.mem_map_of_mem hI))

/-- A shared instruction is a size or a slot. -/
theorem Left.eq_of_shared {b : BlockId} {I : Instruction} (hH : Left F [] slots H) (hb : b ∈ H.layout)
    (hI : I ∈ (H.block b).insts) (h : shared F F.freshInst [] slots I.id) : b = H.entry ∧
      (I = insertCallToGetX F.freshInst "get_local_size" 0 ∨
        I = insertCallToGetX (F.freshInst + 1) "get_local_size" 1 ∨
        ∃ m J, I = insert3DAllocaFor (sizesFrom F.freshInst) m J) := by
  have hids := hH.ready.valid.ids
  have hentry : ∀ K ∈ sizes F.freshInst ++ slots ++ [allocaPoint F.freshInst], I.id = K.id →
      b = H.entry ∧ I = K := by
    intro K hK hid
    have hK := hH.ready.headed.insts.subset hK
    have hKid : K.id ∈ (H.block H.entry).instIds := List.mem_append_left _ (List.mem_map_of_mem hK)
    exact ⟨H.eq_of_mem_instIds hids hb H.entry_mem_layout
      (List.mem_append_left _ (List.mem_map_of_mem hI)) (hid ▸ hKid),
      H.inst_eq_of_id hids hb H.entry_mem_layout hI hK hid⟩
  rcases h with (h | h | h | h) | ⟨d, hd, h⟩
  · cases h
  · obtain ⟨hbe, heq⟩ := hentry (insertCallToGetX F.freshInst "get_local_size" 0) List.mem_cons_self h
    exact ⟨hbe, .inl heq⟩
  · obtain ⟨hbe, heq⟩ := hentry (insertCallToGetX (F.freshInst + 1) "get_local_size" 1)
      (List.mem_cons_of_mem _ List.mem_cons_self) h
    exact ⟨hbe, .inr (.inl heq)⟩
  · obtain ⟨K, hK, hid⟩ := List.mem_map.mp h
    obtain ⟨m, J, -, hslot⟩ := hH.ready.headed.slots K hK
    obtain ⟨hbe, heq⟩ := hentry K (List.mem_append_left _ (List.mem_append_right _ hK)) hid.symm
    exact ⟨hbe, .inr (.inr ⟨m, J, heq.trans hslot⟩)⟩
  · have hterm := (hH.terms d hd).trans h
    exact absurd hterm.symm (H.termId_ne hH.ready.valid (hH.layout ▸ hd) hb hI)

section
variable {users : Function → InstId → List InstId} (hF : SSA F) (hdef : F.OperandsDefined)
  (husers : ∀ H i u, u ∈ users H i ↔ u ∈ H.useList i) (h : runOnFunction users F = .ok G)
include hF hdef husers h

theorem left_runOnFunction : (∃ slots, Left F [] slots G) ∧
    ∀ b ∈ G.layout, ∀ I ∈ (G.block b).insts, I.op.isPhi = false := by
  obtain ⟨slots₁, slots₂, F₁, hregs, hphis⟩ := steps_of_runOnFunction hF hdef husers h
  have hsp := spliced_withPrologue hF.valid
  have hstart : Left F (escapedInsts (withPrologue F)) [] (withPrologue F) :=
    ⟨ready_withPrologue hF, local_withPrologue hF hdef, phiInsts_subset hsp hF.valid, hsp.layout,
      fun b hb => hsp.termId hb⟩
  have hF₁ := hregs.inv (C := Left F) (fun _ _ _ _ _ _ hH hstep => hH.regStep hstep) hstart
  obtain ⟨hG, hnone⟩ := hphis.inv (C := fun is slots H => Left F [] slots H ∧ phiInsts H ⊆ is)
    (fun i is slots H new H' hH hstep => by
      obtain ⟨sp, hsp, hgone⟩ := hstep.spliced hH.1.ready.valid
      refine ⟨hH.1.phiStep hF.valid hstep, fun j hj => ?_⟩
      have hj' := hH.2 (phiInsts_subset hsp hH.1.ready.valid hj)
      refine (List.mem_cons.mp hj').resolve_left fun hji => ?_
      exact not_mem_phiInsts hsp hH.1.ready.valid (hgone ▸ List.mem_singleton.mpr hji) hj)
    ⟨hF₁, List.Subset.refl _⟩
  exact ⟨⟨slots₂, hG⟩, fun b hb I hI => Bool.eq_false_iff.mpr fun hphi => List.not_mem_nil
    (hnone (mem_phiInsts.mpr ⟨b, hb, I, hI, hphi, rfl⟩))⟩

/-- No PHI is left, and no value but the local sizes and the slots is used outside its block. -/
theorem runOnFunction_local : ∀ b ∈ G.layout, ∀ I ∈ (G.block b).insts,
    I.op.isPhi = false ∧ (isValueEscaped G b I.id → b = G.entry ∧
      (I = insertCallToGetX F.freshInst "get_local_size" 0 ∨
        I = insertCallToGetX (F.freshInst + 1) "get_local_size" 1 ∨
        ∃ m J, I = insert3DAllocaFor (sizesFrom F.freshInst) m J)) := by
  obtain ⟨⟨slots, hG⟩, hphi⟩ := left_runOnFunction hF hdef husers h
  refine fun b hb I hI => ⟨hphi b hb I hI, fun hesc => hG.eq_of_shared hb hI ?_⟩
  obtain ⟨c, hc, huse⟩ := isValueEscaped_iff.mp hesc
  have hfar : c ≠ b → Near (shared F F.freshInst [] slots) G c (.inst I.id) →
      shared F F.freshInst [] slots I.id := fun hcb hnear =>
    (hnear I.id rfl).resolve_right fun hmem => hcb (G.eq_of_mem_instIds hG.ready.valid.ids hc hb
      (List.mem_append_left _ hmem) (List.mem_append_left _ (List.mem_map_of_mem hI)))
  rcases huse with ⟨J, hJ, hread, hcb⟩ | ⟨hread, hcb⟩
  · have hJphi := hphi c hc J hJ
    exact hfar (hcb.resolve_right (Bool.eq_false_iff.mp hJphi)) (hG.near.inst c hc J hJ hJphi _ hread)
  · exact hfar hcb (hG.near.term c hc _ hread)

end

end

theorem runOnFunction_local_swap : ∃ G, runOnFunction Function.useList swap = .ok G ∧
    ∀ b ∈ G.layout, ∀ I ∈ (G.block b).insts, I.op.isPhi = false ∧ (isValueEscaped G b I.id →
      b = G.entry ∧ (I = insertCallToGetX 6 "get_local_size" 0 ∨
        I = insertCallToGetX 7 "get_local_size" 1 ∨
          ∃ m J, I = insert3DAllocaFor (sizesFrom 6) m J)) := by
  obtain ⟨G, hG⟩ := swap_ok
  exact ⟨G, hG, runOnFunction_local swap_ssa swap_operandsDefined (fun _ _ _ => .rfl) hG⟩

end VariOCL.IR.ContextSpill
