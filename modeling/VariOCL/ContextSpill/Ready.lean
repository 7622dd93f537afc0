import VariOCL.BreakPhi.Step
import VariOCL.ContextSpill.Reload

/-! Functions that a value can be demoted in, and how their entries are executed. -/

namespace VariOCL.IR

section
variable {F G : Function} {sp : Splice} {b d : BlockId}

theorem Op.isPhi_of_mem_incoming {op : Op} {p : Value × BlockId} (h : p ∈ op.incoming) : op.isPhi := by
  cases op with
  | phi incoming => rfl
  | _ => cases h

theorem reflTransGen_of_inv {V : Type*} {R R' : V → V → Prop} {S : V → Prop} {a b : V} (ha : S a)
    (hstep : ∀ x y, S x → R x y → S y ∧ R' x y) (h : Relation.ReflTransGen R a b) :
    S b ∧ Relation.ReflTransGen R' a b := by
  induction h with
  | refl => exact ⟨ha, .refl⟩
  | tail _ hxy ih =>
    obtain ⟨hS, hR⟩ := hstep _ _ ih.1 hxy
    exact ⟨hS, ih.2.tail hR⟩

/-- The same blocks dominate. -/
theorem Function.Spliced.dominates (h : F.Spliced sp G) (hF : F.Valid) (hdom : F.Dominates d b) :
    G.Dominates d b := by
  refine Graph.dominates_iff.mpr fun havoid => Graph.dominates_iff.mp hdom ?_
  rw [h.entry] at havoid
  refine ⟨havoid.1, (reflTransGen_of_inv (S := (· ∈ F.layout)) F.entry_mem_layout ?_ havoid.2).2⟩
  rintro x y hx ⟨hxy, hy⟩
  have hxy : y ∈ F.succs x := h.succs hx ▸ hxy
  exact ⟨hF.closed x hx y hxy, hxy, hy⟩

/-- What a PHI takes is defined above, as long as the new values are. -/
theorem BreakPhi.SSA.spliced (h : BreakPhi.SSA F) (hsp : F.Spliced sp G)
    (hdefined : ∀ b ∈ F.layout, ∀ I ∈ (F.block b).insts, I.id ∉ sp.gone → ∀ p ∈ I.op.incoming, ∀ i,
      sp.use I.id (some p.2) p.1 = .inst i →
        ∃ d ∈ F.layout, F.Dominates d p.2 ∧ i ∈ (G.block d).insts.map Instruction.id) :
    BreakPhi.SSA G := by
  have hmem : ∀ b ∈ F.layout, ∀ I ∈ (G.block b).insts, ∀ p ∈ I.op.incoming,
      ∃ J ∈ (F.block b).insts, J.id ∉ sp.gone ∧ I = sp.inst J := by
    intro b hb I hI p hp
    have hphi := Op.isPhi_of_mem_incoming hp
    rw [hsp.block b hb] at hI
    rcases Splice.mem_block (h.valid.phisFirst b hb) hI with hI | ⟨J, hJ, hgone, rfl⟩
    · exact absurd ((hsp.new I hI).1.symm.trans hphi) Bool.false_ne_true
    · exact ⟨J, hJ, hgone (Splice.isPhi_inst ▸ hphi), rfl⟩
  refine ⟨hsp.valid h.valid, fun b hb I hI p hp i hi => ?_, fun b hb I hI p hp p' hp' heq => ?_⟩
  · have hb := hsp.layout ▸ hb
    obtain ⟨J, hJ, hgone, rfl⟩ := hmem b hb I hI p hp
    obtain ⟨⟨v, q⟩, hv, rfl⟩ := List.mem_map.mp (Op.incoming_mapUses (f := sp.use J.id) ▸ hp)
    obtain ⟨d, hd, hdom, hid⟩ := hdefined b hb J hJ hgone _ hv i hi
    exact ⟨d, hsp.mem_layout hd, hsp.dominates h.valid hdom, hid⟩
  · have hb := hsp.layout ▸ hb
    obtain ⟨J, hJ, hgone, rfl⟩ := hmem b hb I hI p hp
    obtain ⟨⟨v, q⟩, hv, rfl⟩ := List.mem_map.mp (Op.incoming_mapUses (f := sp.use J.id) ▸ hp)
    obtain ⟨⟨v', q'⟩, hv', rfl⟩ := List.mem_map.mp (Op.incoming_mapUses (f := sp.use J.id) ▸ hp')
    obtain rfl : q = q' := heq
    exact congrArg (sp.use J.id (some q)) (h.unique b hb J hJ _ hv _ hv' rfl)

end

namespace ContextSpill

open Sim LoopInserter
open BreakPhi (SSA)

/-- A function in SSA form that begins with the sizes and the slots. -/
structure Ready (n : InstId) (slots : List Instruction) (F : Function) : Prop where
  ssa : SSA F
  headed : Headed n slots F

theorem Ready.valid {n : InstId} {slots : List Instruction} {F : Function} (h : Ready n slots F) :
    F.Valid := h.ssa.valid

/-- What a PHI takes has a value where it takes it from. -/
theorem Ready.definedAbove {n : InstId} {slots : List Instruction} {F : Function} {b q : BlockId}
    {I : Instruction} {j : InstId} (h : Ready n slots F) (hb : b ∈ F.layout)
    (hI : I ∈ (F.block b).insts)
    (hp : (.inst j, q) ∈ I.op.incoming) : F.DefinedAbove q (F.block q).termId j := by
  obtain ⟨d, hd, hdom, hj⟩ := h.ssa.defined b hb I hI _ hp j rfl
  by_cases hdq : d = q
  · subst hdq
    exact .inl ((List.singleton_sublist.mpr hj).append (.refl _))
  · exact .inr ⟨d, hd, hdq, hdom, hj⟩

theorem Ready.size_mem {n : InstId} {slots : List Instruction} {F : Function} (h : Ready n slots F)
    (d : Fin 3) : (sizesFrom n).Lsz d ∈ F.instIds := by
  obtain ⟨I, hI, hid⟩ := List.mem_map.mp (@mem_ids_sizes n d (d.isLt.trans (by decide)))
  have hmem := h.headed.mem (List.mem_append_left _ (List.mem_append_left _ hI))
  rwa [hid] at hmem

theorem Ready.size_not_phi {n : InstId} {slots : List Instruction} {F : Function} {b : BlockId}
    (h : Ready n slots F) (d : Fin 3) (hb : b ∈ F.layout) : (sizesFrom n).Lsz d ∉
      ((F.block b).insts.takeWhile (·.op.isPhi)).map Instruction.id := by
  intro hmem
  obtain ⟨J, hJ, hid⟩ := List.mem_map.mp hmem
  obtain ⟨I, hI, hId⟩ := List.mem_map.mp (@mem_ids_sizes n d (d.isLt.trans (by decide)))
  have hI := h.headed.insts.subset (List.mem_append_left _ (List.mem_append_left _ hI))
  obtain rfl := F.inst_eq_of_id h.valid.ids F.entry_mem_layout hb hI
    ((List.takeWhile_sublist _).subset hJ) (hId.trans hid.symm)
  have hphi := List.mem_takeWhile_imp (p := fun I : Instruction => I.op.isPhi) hJ
  exact Bool.false_ne_true ((h.valid.entryPhis I hI).symm.trans hphi)

theorem Ready.le_freshInst {n : InstId} {slots : List Instruction} {F : Function}
    (h : Ready n slots F) :
    n ≤ F.freshInst := (F.lt_freshInst (h.size_mem 0)).le

/-- Where the slots are allocated. -/
theorem Ready.isSpot {n : InstId} {slots : List Instruction} {F : Function} (h : Ready n slots F) :
    (F.block F.entry).IsSpot (n + 5) :=
  .inr ⟨allocaPoint n, h.headed.insts.subset (List.mem_append_right _ List.mem_cons_self), rfl, rfl⟩

/-- The front, with more slots. -/
theorem Headed.spliced {n : InstId} {slots new : List Instruction} {F G : Function} {sp : Splice}
    (h : Headed n slots F) (hF : F.Valid) (hsp : F.Spliced sp G) (htop : sp.top F.entry = [])
    (haround : ∀ I ∈ sizes n ++ slots, sp.around I = [I])
    (hpoint : sp.around (allocaPoint n) = new ++ [allocaPoint n])
    (hnew : ∀ I ∈ new, ∃ m J, n ≤ m ∧ I = insert3DAllocaFor (sizesFrom n) m J) :
    Headed n (slots ++ new) G := by
  refine ⟨?_, List.forall_mem_append.mpr ⟨h.slots, hnew⟩⟩
  obtain ⟨rest, hrest⟩ := h.insts
  have hphis : sp.phis (F.block F.entry) = [] := by rw [Splice.phis, takeWhile_entry hF]; rfl
  have hfront : (sizes n ++ slots ++ [allocaPoint n]).flatMap sp.around =
      sizes n ++ (slots ++ new) ++ [allocaPoint n] := by
    rw [List.flatMap_append, List.flatMap_singleton, hpoint, List.flatMap_congr haround,
      List.flatMap_singleton']
    simp only [List.append_assoc]
  rw [hsp.entry, hsp.block _ F.entry_mem_layout, Splice.block, hphis, Splice.rest, htop,
    dropWhile_rest hF.entryPhis, ← hrest, List.flatMap_append, hfront]
  simp only [List.nil_append, List.append_assoc]
  simp only [← List.append_assoc]
  exact (List.prefix_append _ _).trans (List.prefix_append _ _)

theorem Ready.spliced {n : InstId} {slots new : List Instruction} {F G : Function} {sp : Splice}
    (h : Ready n slots F) (hsp : F.Spliced sp G) (htop : sp.top F.entry = [])
    (haround : ∀ I ∈ sizes n ++ slots, sp.around I = [I])
    (hpoint : sp.around (allocaPoint n) = new ++ [allocaPoint n])
    (hnew : ∀ I ∈ new, ∃ m J, n ≤ m ∧ I = insert3DAllocaFor (sizesFrom n) m J)
    (hdefined : ∀ b ∈ F.layout, ∀ I ∈ (F.block b).insts, I.id ∉ sp.gone → ∀ p ∈ I.op.incoming, ∀ i,
      sp.use I.id (some p.2) p.1 = .inst i →
        ∃ d ∈ F.layout, F.Dominates d p.2 ∧ i ∈ (G.block d).insts.map Instruction.id) :
    Ready n (slots ++ new) G :=
  ⟨h.ssa.spliced hsp hdefined, h.headed.spliced h.valid hsp htop haround hpoint hnew⟩

/-- Nothing has been executed, and the cells of `P` are the same. -/
structure Blank {Val : Type} (P : Val → Prop) (s t : State Val) : Prop where
  env : t.env = s.env
  none : ∀ j, s.env j = none
  mem : s.mem.AgreeOn P t.mem

section
variable {Val : Type} [DecidableEq Val] {M : Machine Val} {w : WorkItem Val} {num : Nat → Val}
  {lid lsz : Dims} {base cell : InstId → Val} {F : Function} {k m n : InstId} {s s₁ t : State Val}
  {I J : Instruction} {slots : List Instruction} {es es₁ : List (Act Val)} {keep : Act Val → Bool}
  {sp : Splice} {e : Cells InstId Val} {P : Val → Prop}

omit [DecidableEq Val] in
theorem Blank.matched {gone : List InstId} (h : Blank P s t) : F.Matched gone P s t := by
  refine ⟨fun j hj => ?_, fun j _ _ => congrFun h.env j, h.mem⟩
  rw [h.none j] at hj
  cases hj

omit [DecidableEq Val] in
theorem Ready.held_phis {b : BlockId} {g : Cells InstId Val} (h : Ready n slots F)
    (hheld : Held (sizesFrom n) num lsz base k t) (hk : F.freshInst ≤ k) (hb : b ∈ F.layout)
    (hother : ∀ j, j ∉ ((F.block b).insts.takeWhile (·.op.isPhi)).map Instruction.id → g j = t.env j) :
    Held (sizesFrom n) num lsz base k ⟨g, t.mem⟩ := by
  refine hheld.frame (fun d => hother _ (h.size_not_phi d hb)) (hother _ fun hmem => ?_)
  obtain ⟨J, hJ, hid⟩ := List.mem_map.mp hmem
  exact Nat.not_lt.mpr hk (hid ▸ F.lt_freshInst
    (F.instIds_of_mem hb ((List.takeWhile_sublist _).subset hJ)))

/-- The entry, with one more slot. -/
theorem Ready.enter (h : Ready n slots F) (hM : Slots M w num lid lsz base cell m) (hm : m ≤ k)
    (hk : F.freshInst ≤ k) (hkeep : ∀ x : Act Val, F.freshInst ≤ x.id → keep x = false)
    (htop : sp.top F.entry = []) (haround : ∀ I ∈ sizes n ++ slots, sp.around I = [I])
    (hpoint : sp.around (allocaPoint n) = [insert3DAllocaFor (sizesFrom n) k J, allocaPoint n])
    (hblank : Blank P s t)
    (hphis : M.execPhis s.env none ((F.block F.entry).insts.takeWhile (·.op.isPhi)) s.env =
      some (e, es))
    (hx : M.execInsts w (head n slots F F.entry) ⟨e, s.mem⟩ = some (s₁, es₁))
    (hok : ∀ x ∈ es₁, ∀ a, x.address = some a → P a) : ∃ f ps t₁ ls,
    M.execPhis t.env none (sp.phis (F.block F.entry)) t.env = some (f, ps) ∧
      M.execInsts w (sp.top F.entry ++ (head n slots F F.entry).flatMap sp.around) ⟨f, t.mem⟩ =
        some (t₁, ls) ∧ Follows keep (OnlyCell (cell k)) (es ++ es₁) (ps ++ ls) ∧
      F.Matched [] P s₁ t₁ ∧ Held (sizesFrom n) num lsz base k t₁ ∧
      ∀ j, j ∉ (sizes n ++ slots ++ [allocaPoint n]).map Instruction.id → s₁.env j = none := by
  have hentry := takeWhile_entry h.valid
  have hspphis : sp.phis (F.block F.entry) = [] := by rw [Splice.phis, hentry]; rfl
  have hhead : head n slots F F.entry = sizes n ++ slots ++ [allocaPoint n] := if_pos rfl
  rw [hentry] at hphis
  cases hphis
  rw [hhead] at hx
  have hstart : F.Matched [] P ⟨s.env, s.mem⟩ ⟨t.env, t.mem⟩ := hblank.matched
  obtain ⟨t₁, ls₁, ls₂, hy, rfl, hrel, hheld⟩ := h.headed.enter (J := J) h.valid hM hm hk hstart hx hok
  refine ⟨t.env, [], t₁, ls₁ ++ .value k (base k) :: ls₂, by rw [hspphis]; rfl, ?_, ?_, hrel, hheld,
    fun j hj => ?_⟩
  · rw [htop, hhead, List.nil_append, List.flatMap_append, List.flatMap_singleton, hpoint,
      List.flatMap_congr haround, List.flatMap_singleton']
    exact hy
  · have hnew : Follows keep (OnlyCell (cell k)) [] [.value k (base k)] := follows_nil fun x hx => by
      rw [List.mem_singleton.mp hx]
      exact ⟨hkeep (.value k (base k)) hk, onlyCell_of_none (x := .value k (base k)) rfl⟩
    exact (Follows.refl ls₁).append (hnew.append (.refl ls₂))
  · exact (Machine.env_execInsts hx hj).trans (hblank.none j)

end

end ContextSpill

end VariOCL.IR
