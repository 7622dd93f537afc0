import VariOCL.LoopInserter.LoopRun

/-! What one of the inserted loops makes of a function, and which reads the loops change. -/

namespace VariOCL.IR.LoopInserter

/-- `order` lists the predecessors of a block in the order of its use list. -/
def PredOrder (order : Function → BlockId → List BlockId) : Prop :=
  ∀ G b p, p ∈ order G b ↔ p ∈ G.predEdges b

/-- The block is the old one without the instructions `gone`, in the same order; `f v` is read for
`v`, PHIs take for `g b x` what they took for `x`, and branches to `x` go to `t b x`. -/
def Rewritten (F G : Function) (f : Value → Value) (gone : List InstId)
    (g t : BlockId → BlockId → BlockId) (b : BlockId) : Prop :=
  G.block b = (((F.mapValues f).eraseInsts gone).block b).relabel (g b) (t b)

/-- What one loop `L` of dimension `d`, around `EntryBB` and `ExitBB`, makes of `F`. -/
structure Level (RN : MxPARegion) (n : InstId) (F G : Function) (DT DT' : DominatorTree)
    (L : DWLoop) (d : Nat) (EntryBB ExitBB next Pred : BlockId) : Prop where
  place : Place G DT' L.LoopPreheader L.LoopEnd next Pred
  stands : L.Stands G d EntryBB next
  fresh : L.Fresh F
  layout : ∀ b, b ∈ G.layout ↔ b ∈ L.blocks ∨ b ∈ F.layout
  calls : CallsBelow G n
  ids : L.ids.Nodup
  ids_new : ∀ i ∈ L.ids, F.freshInst ≤ i
  ids_lt : ∀ i ∈ L.ids, i < G.freshInst
  old : ∀ b ∈ F.layout, ∀ I ∈ (G.block b).insts, ∃ J ∈ (F.block b).insts,
    J.id = I.id ∧ ∀ d', isLocalIdCall d' I = isLocalIdCall d' J
  cleared : ∀ b ∈ RN.BBInvolved, ∀ I ∈ (G.block b).insts, isLocalIdCall d I = false
  succs : ∀ b ∈ F.layout, b ≠ EntryBB → b ≠ ExitBB → b ≠ Pred → G.succs b = F.succs b
  exit : G.succs ExitBB = [L.LatchBB]
  tree : ∀ a b, b ∉ L.blocks → DT'.dominates a b = DT.dominates a b
  reads : ∃ f gone, PutsIV F RN d L.IV f ∧ TakesOut F RN [(d, L.IV)] f gone ∧
    ∀ b ∈ F.layout, Rewritten F G f gone (L.incomingName EntryBB Pred)
      (L.target EntryBB ExitBB next Pred) b
  gone : ∀ c ∈ localIdCalls F RN d, c ≠ L.IV → ∀ b ∈ G.layout, .inst c ∉ (G.block b).values
  kept : ∀ d', ∀ c ∈ localIdCalls F RN d', c ∉ localIdCalls F RN d →
    (∀ a ∈ localIdCalls F RN d, ¬ TruncOf F a c) → c ∈ localIdCalls G RN d'
  frame : ∀ (L' : DWLoop) d' body x, L'.From n → (∀ b ∈ L'.blocks, b ∈ F.layout) →
    Pred ∉ L'.blocks → next ∉ L'.blocks → (EntryBB ∈ L'.blocks → EntryBB = L'.LoopPreheader) →
    (ExitBB ∈ L'.blocks → ExitBB = L'.LoopEnd) →
    [L'.LatchBB, L'.LoopPreheader, L'.LoopHeader, L'.LoopEnd].Nodup → L'.Stands F d' body x →
    L'.Stands G d' body (if L'.LoopEnd = ExitBB then L.LatchBB else x)

theorem DWLoop.from_of_ids {L : DWLoop} {n : InstId} (h : ∀ i ∈ L.ids, n ≤ i) : L.From n := by
  simp only [DWLoop.ids, List.forall_mem_cons] at h
  exact ⟨h.1, h.2.1, h.2.2.1, h.2.2.2.1⟩

section
variable {order : Function → BlockId → List BlockId} {RN : MxPARegion} {n : InstId} {F : Function}
  {DT : DominatorTree} {L : DWLoop} {d : Nat} {EntryBB ExitBB next Pred LoopBody : BlockId}

theorem DWLoop.Stands.ids_lt (h : L.Stands F d LoopBody next) (hL : ∀ b ∈ L.blocks, b ∈ F.layout) :
    ∀ i ∈ L.ids, i < F.freshInst := by
  have hlatch : L.LatchBB ∈ F.layout := hL _ (by simp [DWLoop.blocks])
  have hheader : L.LoopHeader ∈ F.layout := hL _ (by simp [DWLoop.blocks])
  have hmem : ∀ I ∈ (L.latch d).insts, I.id < F.freshInst := fun I hI =>
    F.lt_freshInst (F.instIds_of_mem hlatch (h.latch ▸ hI))
  have hphi : ∀ I ∈ (L.header LoopBody).insts, I.id < F.freshInst := fun I hI =>
    F.lt_freshInst (F.instIds_of_mem hheader (h.header ▸ hI))
  simp only [DWLoop.latch, List.forall_mem_cons] at hmem
  simp only [DWLoop.header, List.forall_mem_cons] at hphi
  simp only [DWLoop.ids, List.forall_mem_cons]
  exact ⟨hphi.1, hmem.1, hmem.2.1, hmem.2.2.1, by simp⟩

theorem nodup_ids_newLoop : (newLoop F).ids.Nodup := by simp [newLoop, DWLoop.ids]

theorem le_of_mem_ids_newLoop {i : InstId} (hi : i ∈ (newLoop F).ids) : F.freshInst ≤ i := by
  have := newLoop_from (F := F) (Nat.le_refl F.freshInst)
  simp only [DWLoop.ids, List.mem_cons, List.not_mem_nil, or_false] at hi
  rcases hi with rfl | rfl | rfl | rfl
  · exact this.IV
  · exact this.GLSCall
  · exact this.IV_inc
  · exact this.CmpResult

theorem Place.level (h : Place F DT EntryBB ExitBB next Pred) (horder : PredOrder order)
    (hcalls : CallsBelow F n) (hRN : ∀ b ∈ RN.BBInvolved, b ∈ F.layout) (hn : n ≤ F.freshInst)
    (hfresh : ∀ a, a ∉ F.layout → DT.dominates a Pred = false) (d : Nat) :
    ∃ (G : Function) (DT' : DominatorTree) (L : DWLoop),
      buildDWLoopOverRegion order RN F DT EntryBB ExitBB d =
        .ok ((G, DT'), L.LoopPreheader, L.LoopEnd) ∧
      Level RN n F G DT DT' L d EntryBB ExitBB next Pred := by
  have hL := newLoop_fresh F
  have hlayout : ∀ b, b ∈ (built order RN F DT EntryBB ExitBB next d).layout ↔
      b ∈ (newLoop F).blocks ∨ b ∈ F.layout := fun b => h.mem_layout_built horder
  have hstands := h.stands_built (d := d) horder hcalls hRN hn
  have hold : ∀ b ∈ F.layout, b ∉ (newLoop F).blocks := fun b hb => hL.not_mem_blocks hb
  refine ⟨_, _, newLoop F, h.build_eq, ?_⟩
  constructor
  · exact h.place_built horder hcalls hRN hn (hfresh _ hL.preheader)
  · exact hstands
  · exact hL
  · exact hlayout
  · exact h.callsBelow_built horder hcalls
  · exact nodup_ids_newLoop
  · exact fun i hi => le_of_mem_ids_newLoop hi
  · exact hstands.ids_lt fun b hb => (hlayout b).mpr (.inl hb)
  · exact fun b hb I hI => h.mem_built horder hb hI
  · exact fun b hb I hI => localIdCalls_replaceIdCalls hb hI
  · intro b hb hentry hexit hpred
    rw [h.succs_built horder (hold b hb), DWLoop.rewiredTerm, if_neg hexit, if_neg hpred,
      if_neg hentry]
    rfl
  · have hsucc : (F.block ExitBB).term.successors = [next] := h.leaves
    have hne : (newLoop F).LatchBB ≠ next := fun heq => hL.latch (heq ▸ h.next_mem)
    rw [h.succs_built horder (hold _ h.exit_mem), DWLoop.rewiredTerm, if_pos rfl,
      if_neg (Ne.symm h.pred_ne_exit)]
    split <;> simp [hsucc, rename, hne]
  · exact fun a b hb => DWLoop.dominates_addToTree hb
  · exact h.reads_built horder hRN
  · exact fun c hc hIV b hb => h.gone_built horder hRN hc hIV hb
  · exact fun d' c hc hd htrunc => h.kept_built horder hRN hc hd htrunc
  · intro L' d' body x hfrom hblocks hpred hnext hentry hexit hdistinct hstands
    exact h.stands_frame horder hcalls hRN hfrom hblocks hpred hnext hentry hexit hdistinct hstands

end

/-! ### The reads -/

/-- `f` puts induction variables in the place of calls of their dimensions. -/
def PutsIVs (F : Function) (RN : MxPARegion) (IVs : List (Nat × InstId)) (f : Value → Value) :
    Prop :=
  ∀ v, f v = v ∨ ∃ p ∈ IVs, (∃ c ∈ localIdCalls F RN p.1, StandsFor F c v) ∧ f v = .inst p.2

/-- `G` after the loops with the variables `IVs` have been put around the region of `F`. -/
structure Replacing (RN : MxPARegion) (F G : Function) (IVs : List (Nat × InstId))
    (g t : BlockId → BlockId → BlockId) : Prop where
  layout : ∀ b ∈ F.layout, b ∈ G.layout
  reads : ∃ f gone, PutsIVs F RN IVs f ∧ TakesOut F RN IVs f gone ∧
    ∀ b ∈ F.layout, Rewritten F G f gone g t b
  gone : ∀ p ∈ IVs, ∀ c ∈ localIdCalls F RN p.1, ∀ b ∈ G.layout, .inst c ∉ (G.block b).values
  kept : ∀ d, (∀ p ∈ IVs, p.1 ≠ d) → ∀ c ∈ localIdCalls F RN d, c ∈ localIdCalls G RN d
  new : ∀ p ∈ IVs, F.freshInst ≤ p.2
  calls : ∀ d, ∀ c ∈ localIdCalls G RN d, c ∈ localIdCalls F RN d
  truncs : ∀ c t, c < F.freshInst → TruncOf G c t → TruncOf F c t

theorem isLocalIdCall_unique {d d' : Nat} {I : Instruction} (h : isLocalIdCall d I)
    (h' : isLocalIdCall d' I) : d = d' := by
  obtain ⟨i, t, op⟩ := I
  cases op with
  | call callee args =>
    cases callee with
    | none => cases h
    | some name =>
      simp only [isLocalIdCall, Bool.and_eq_true, beq_iff_eq] at h h'
      have heq := h.2.symm.trans h'.2
      cases heq
      rfl
  | _ => cases h

section
variable {RN : MxPARegion} {F G G' : Function} {IVs : List (Nat × InstId)} {b : BlockId}
  {DT DT' : DominatorTree} {L : DWLoop} {d : Nat} {EntryBB ExitBB next Pred : BlockId}
  {f f' : Value → Value} {gone gone' : List InstId} {g t g' t' : BlockId → BlockId → BlockId}
  {c n u : InstId}

theorem Rewritten.mem (h : Rewritten F G f gone g t b) {I : Instruction}
    (hI : I ∈ (G.block b).insts) :
    ∃ J ∈ (F.block b).insts, I = (J.mapBlocks (g b)).mapValues f := by
  rw [h] at hI
  obtain ⟨K, hK, rfl⟩ := List.mem_map.mp hI
  obtain ⟨J, hJ, rfl⟩ := List.mem_map.mp (List.mem_filter.mp hK).1
  exact ⟨J, hJ, Instruction.mapBlocks_mapValues⟩

theorem Rewritten.operands_term (h : Rewritten F G f gone g t b) :
    (G.block b).term.operands = (F.block b).term.operands.map f := by
  rw [h, BasicBlock.relabel, Terminator.operands_mapBlocks]
  exact Terminator.operands_mapValues f _

theorem Rewritten.trans (h : Rewritten F G f gone g t b)
    (h' : Rewritten G G' f' gone' g' t' b) :
    Rewritten F G' (fun v => f' (f v)) (gone ++ gone') (fun b x => g' b (g b x))
      (fun b x => t' b (t b x)) b := by
  have hG : ((G.mapValues f').eraseInsts gone').block b =
      (((F.mapValues fun v => f' (f v)).eraseInsts (gone ++ gone')).block b).relabel (g b) (t b) := by
    rw [Function.eraseInsts_mapValues_relabel h]
    simp only [Function.eraseInsts, Function.block_mapValues, BasicBlock.mapValues,
      Terminator.mapValues_mapValues, List.filter_map, List.map_map, List.filter_filter,
      Function.comp_def, Instruction.id_mapValues, Instruction.mapValues_mapValues,
      List.contains_append, Bool.not_or, Bool.and_comm]
  rw [Rewritten, h', hG, BasicBlock.relabel_relabel]

theorem Rewritten.mem_values (h : Rewritten F G f gone g t b) {v : Value}
    (hv : v ∈ (G.block b).values) : ∃ u ∈ (F.block b).values, f u = v := by
  rcases List.mem_append.mp hv with hv | hv
  · obtain ⟨I, hI, hv⟩ := List.mem_flatMap.mp hv
    obtain ⟨J, hJ, rfl⟩ := h.mem hI
    rw [Instruction.op_mapValues, Op.operands_mapValues, Instruction.mapBlocks,
      Op.operands_mapBlocks] at hv
    obtain ⟨u, hu, heq⟩ := List.mem_map.mp hv
    exact ⟨u, List.mem_append_left _ (List.mem_flatMap.mpr ⟨J, hJ, hu⟩), heq⟩
  · rw [h.operands_term] at hv
    obtain ⟨u, hu, heq⟩ := List.mem_map.mp hv
    exact ⟨u, List.mem_append_right _ hu, heq⟩

theorem PutsIV.eq_inst {IV : InstId} (h : PutsIV F RN d IV f) (hc : c ≠ IV) {v : Value}
    (hv : f v = .inst c) : v = .inst c := by
  rcases h v with heq | ⟨-, heq⟩
  · exact heq.symm.trans hv
  · exact absurd (Value.inst.inj (hv.symm.trans heq)) hc

theorem Replacing.nil : Replacing RN F F [] (fun _ x => x) (fun _ x => x) where
  layout _ hb := hb
  reads := by
    refine ⟨fun v => v, [], fun v => .inl rfl, ⟨by simp, by simp, by simp⟩, fun b _ => ?_⟩
    have hF : ((F.mapValues fun v => v).eraseInsts []).block b = F.block b := by
      have hmap : (F.block b).mapValues (fun v => v) = F.block b :=
        BasicBlock.mapValues_eq_self_iff.mpr fun _ _ => rfl
      simp only [Function.eraseInsts, Function.block_mapValues, hmap]
      simp
    rw [Rewritten, hF, BasicBlock.relabel_id]
  gone p hp := absurd hp List.not_mem_nil
  kept _ _ _ hc := hc
  new p hp := absurd hp List.not_mem_nil
  calls _ _ hc := hc
  truncs _ _ _ ht := ht

/-- Different calls have different ids, and no truncation has the id of a call. -/
theorem calls_distinct (hids : F.instIds.Nodup) (hRN : ∀ b ∈ RN.BBInvolved, b ∈ F.layout) {d' : Nat}
    (hne : d ≠ d') (hc : c ∈ localIdCalls F RN d') :
    c ∉ localIdCalls F RN d ∧ ∀ a, ¬ TruncOf F a c := by
  obtain ⟨b, hb, I, hI, hcall, rfl⟩ := mem_localIdCalls.mp hc
  constructor
  · intro hmem
    obtain ⟨b', hb', J, hJ, hcall', hid⟩ := mem_localIdCalls.mp hmem
    obtain rfl := F.inst_eq_of_id hids (hRN b' hb') (hRN b hb) hJ hI hid
    exact hne (isLocalIdCall_unique hcall' hcall)
  · rintro a ⟨b', hb', T, hT, hid, htrunc, -⟩
    obtain rfl := F.inst_eq_of_id hids hb' (hRN b hb) hT hI hid
    obtain ⟨i, t, op⟩ := T
    cases op with
    | trunc v => cases hcall
    | _ => cases htrunc

theorem Level.calls_back (hL : Level RN n F G DT DT' L d EntryBB ExitBB next Pred)
    (hRN : ∀ b ∈ RN.BBInvolved, b ∈ F.layout) {d' : Nat} (hc : c ∈ localIdCalls G RN d') :
    c ∈ localIdCalls F RN d' := by
  obtain ⟨b, hb, I, hI, hcall, rfl⟩ := mem_localIdCalls.mp hc
  obtain ⟨J, hJ, hid, hJcall⟩ := hL.old b (hRN b hb) I hI
  exact mem_localIdCalls.mpr ⟨b, hb, J, hJ, (hJcall d').symm.trans hcall, hid⟩

theorem Level.truncs_back (hL : Level RN n F G DT DT' L d EntryBB ExitBB next Pred)
    (hc : c ≠ L.IV) (hu : TruncOf G c u) : TruncOf F c u := by
  obtain ⟨b, hb, T, hT, hid, htrunc, hmem⟩ := hu
  rcases (hL.layout b).mp hb with hnew | hold
  · exact absurd ((hL.stands.plain hnew hT).1.symm.trans htrunc) Bool.false_ne_true
  · obtain ⟨f, gone, hf, -, hread⟩ := hL.reads
    obtain ⟨J, hJ, rfl⟩ := (hread b hold).mem hT
    rw [Instruction.op_mapValues, isTrunc_mapValues, isTrunc_mapBlocks] at htrunc
    rw [Instruction.op_mapValues, Op.operands_mapValues, Instruction.mapBlocks,
      Op.operands_mapBlocks] at hmem
    obtain ⟨v, hv, heq⟩ := List.mem_map.mp hmem
    obtain rfl := hf.eq_inst hc heq
    exact ⟨b, hold, J, hJ, hid, htrunc, hv⟩

/-- A value that is read nowhere stays so. -/
theorem Level.gone_back (hL : Level RN n F G DT DT' L d EntryBB ExitBB next Pred)
    (hn : n ≤ F.freshInst) (hc : c < n) (hgone : ∀ b ∈ F.layout, .inst c ∉ (F.block b).values)
    (hb : b ∈ G.layout) : .inst c ∉ (G.block b).values := by
  have hids : ∀ i ∈ L.ids, n ≤ i := fun i hi => Nat.le_trans hn (hL.ids_new i hi)
  have hIV : c ≠ L.IV := fun heq => Nat.not_lt.mpr (hids _ List.mem_cons_self) (heq ▸ hc)
  intro hmem
  rcases (hL.layout b).mp hb with hnew | hold
  · have hlt := (hL.stands.from_ids (DWLoop.from_of_ids hids) hnew).2 c hmem
    exact Nat.not_lt.mpr hlt hc
  · obtain ⟨f, gone, hf, -, hread⟩ := hL.reads
    obtain ⟨u, hu, heq⟩ := (hread b hold).mem_values hmem
    exact hgone b hold (hf.eq_inst hIV heq ▸ hu)

/-- A truncation truncates one value. -/
theorem TruncOf.unique {c' : InstId} (h : TruncOf F c u) (h' : TruncOf F c' u)
    (hids : F.instIds.Nodup) : c = c' := by
  obtain ⟨b, hb, T, hT, rfl, htrunc, hc⟩ := h
  obtain ⟨b', hb', T', hT', hid, -, hc'⟩ := h'
  obtain rfl := F.inst_eq_of_id hids hb hb' hT hT' hid.symm
  obtain ⟨i, ty, op⟩ := T
  cases op with
  | trunc v =>
    have hv := List.mem_singleton.mp hc
    have hv' := List.mem_singleton.mp hc'
    exact Value.inst.inj (hv.trans hv'.symm)
  | _ => cases htrunc

/-- A truncation of a call of one dimension stands for no call of another. -/
theorem PutsIVs.eq_of_truncOf (h : PutsIVs F RN IVs f) (hd : ∀ p ∈ IVs, p.1 ≠ d)
    (hids : F.instIds.Nodup) (hRN : ∀ b ∈ RN.BBInvolved, b ∈ F.layout)
    (hc : c ∈ localIdCalls F RN d) (hu : TruncOf F c u) : f (.inst u) = .inst u := by
  refine (h (.inst u)).resolve_right ?_
  rintro ⟨p, hp, ⟨c', hc', hstands⟩, -⟩
  obtain ⟨hother, htrunc⟩ := calls_distinct hids hRN (Ne.symm (hd p hp)) hc'
  rcases hstands with heq | ⟨u', heq, hu'⟩
  · exact htrunc c (Value.inst.inj heq ▸ hu)
  · obtain rfl := Value.inst.inj heq
    exact hother (hu.unique hu' hids ▸ hc)

theorem localIdCall_lt (hRN : ∀ b ∈ RN.BBInvolved, b ∈ F.layout)
    (hc : c ∈ localIdCalls F RN d) : c < F.freshInst := by
  obtain ⟨b, hb, I, hI, -, rfl⟩ := mem_localIdCalls.mp hc
  exact F.lt_freshInst (F.instIds_of_mem (hRN b hb) hI)

theorem Replacing.truncs_of (h : Replacing RN F G IVs g t)
    (hRN : ∀ b ∈ RN.BBInvolved, b ∈ F.layout) (hc : c ∈ localIdCalls F RN d)
    (hu : TruncOf G c u) : TruncOf F c u :=
  h.truncs c u (localIdCall_lt hRN hc) hu

/-- What the next loop replaces in `G` stands for an old call. -/
theorem Replacing.standsFor (h : Replacing RN F G IVs g t)
    (hRN : ∀ b ∈ RN.BBInvolved, b ∈ F.layout) (hc : c ∈ localIdCalls G RN d) {v : Value}
    (hstands : StandsFor G c v) : StandsFor F c v :=
  hstands.imp_right fun ⟨u, hu, htrunc⟩ => ⟨u, hu, h.truncs_of hRN (h.calls d c hc) htrunc⟩

/-- The variables of the loops before stay. -/
theorem Replacing.keeps_IV (h : Replacing RN F G IVs g t)
    (hRN : ∀ b ∈ RN.BBInvolved, b ∈ F.layout) {IV : InstId} (hf' : PutsIV G RN d IV f') :
    ∀ p ∈ IVs, f' (.inst p.2) = .inst p.2 := by
  intro p hp
  refine (hf' (.inst p.2)).resolve_right ?_
  rintro ⟨⟨c, hc, hstands⟩, -⟩
  have hlt : p.2 < F.freshInst := by
    rcases h.standsFor hRN hc hstands with heq | ⟨u, heq, b, hb, T, hT, rfl, -⟩
    · exact Value.inst.inj heq ▸ localIdCall_lt hRN (h.calls d c hc)
    · exact Value.inst.inj heq ▸ F.lt_freshInst (F.instIds_of_mem hb hT)
  exact Nat.not_lt.mpr (h.new p hp) hlt

theorem Replacing.putsIVs (h : Replacing RN F G IVs g t)
    (hRN : ∀ b ∈ RN.BBInvolved, b ∈ F.layout) {IV : InstId} (hf : PutsIVs F RN IVs f)
    (hf' : PutsIV G RN d IV f') : PutsIVs F RN ((d, IV) :: IVs) fun v => f' (f v) := by
  intro v
  dsimp only
  rcases hf v with heq | ⟨p, hp, hc, heq⟩
  · rw [heq]
    refine (hf' v).imp_right ?_
    rintro ⟨⟨c, hc, hstands⟩, hput⟩
    exact ⟨_, List.mem_cons_self, ⟨c, h.calls d c hc, h.standsFor hRN hc hstands⟩, hput⟩
  · rw [heq, h.keeps_IV hRN hf' p hp]
    exact .inr ⟨p, List.mem_cons_of_mem _ hp, hc, rfl⟩

theorem Replacing.takesOut (h : Replacing RN F G IVs g t)
    (hRN : ∀ b ∈ RN.BBInvolved, b ∈ F.layout) (hids : F.instIds.Nodup)
    (hd : ∀ p ∈ IVs, p.1 ≠ d) {IV : InstId} (hf : PutsIVs F RN IVs f)
    (htakes : TakesOut F RN IVs f gone) (hf' : PutsIV G RN d IV f')
    (htakes' : TakesOut G RN [(d, IV)] f' gone') :
    TakesOut F RN ((d, IV) :: IVs) (fun v => f' (f v)) (gone ++ gone') := by
  refine ⟨fun p hp c hc => ?_, fun i hi => ?_, fun v hv => ?_⟩
  · rcases List.mem_cons.mp hp with rfl | hp
    · exact List.mem_append_right _
        (htakes'.calls _ (List.mem_singleton_self _) c (h.kept d hd c hc))
    · exact List.mem_append_left _ (htakes.calls p hp c hc)
  · rcases List.mem_append.mp hi with hi | hi
    · obtain ⟨p, hp, hi⟩ := htakes.others i hi
      refine ⟨p, List.mem_cons_of_mem _ hp, hi.imp_right fun ⟨c, hc, hu, hput⟩ => ⟨c, hc, hu, ?_⟩⟩
      rw [hput, h.keeps_IV hRN hf' p hp]
    · obtain ⟨p, hp, hi⟩ := htakes'.others i hi
      obtain rfl := List.mem_singleton.mp hp
      refine ⟨_, List.mem_cons_self, hi.imp (h.calls d i) fun ⟨c, hc, hu, hput⟩ => ?_⟩
      have hcF := h.calls d c hc
      have huF := h.truncs_of hRN hcF hu
      refine ⟨c, hcF, huF, ?_⟩
      rw [hf.eq_of_truncOf hd hids hRN hcF huF, hput]
  · by_cases heq : f v = v
    · rw [heq] at hv
      obtain ⟨i, hi, rfl⟩ := htakes'.reads v hv
      exact ⟨i, List.mem_append_right _ hi, rfl⟩
    · obtain ⟨i, hi, rfl⟩ := htakes.reads v heq
      exact ⟨i, List.mem_append_left _ hi, rfl⟩

/-- One more loop, of a dimension that the others do not have. -/
theorem Replacing.cons (h : Replacing RN F G IVs g t)
    (hL : Level RN F.freshInst G G' DT DT' L d EntryBB ExitBB next Pred)
    (hd : ∀ p ∈ IVs, p.1 ≠ d) (hids : F.instIds.Nodup) (hRN : ∀ b ∈ RN.BBInvolved, b ∈ F.layout)
    (hle : F.freshInst ≤ G.freshInst) :
    Replacing RN F G' ((d, L.IV) :: IVs) (fun b x => L.incomingName EntryBB Pred b (g b x))
      (fun b x => L.target EntryBB ExitBB next Pred b (t b x)) := by
  have hRN' : ∀ b ∈ RN.BBInvolved, b ∈ G.layout := fun b hb => h.layout b (hRN b hb)
  have hIV : F.freshInst ≤ L.IV := Nat.le_trans hle (hL.ids_new _ List.mem_cons_self)
  have hne : ∀ {c}, c < F.freshInst → c ≠ L.IV := fun hc heq =>
    Nat.not_lt.mpr hIV (heq ▸ hc)
  constructor
  · exact fun b hb => (hL.layout b).mpr (.inr (h.layout b hb))
  · obtain ⟨f, gone, hf, htakes, hread⟩ := h.reads
    obtain ⟨f', gone', hf', htakes', hread'⟩ := hL.reads
    exact ⟨fun v => f' (f v), gone ++ gone', h.putsIVs hRN hf hf',
      h.takesOut hRN hids hd hf htakes hf' htakes',
      fun b hb => (hread b hb).trans (hread' b (h.layout b hb))⟩
  · intro p hp c hc b hb
    rcases List.mem_cons.mp hp with rfl | hp
    · exact hL.gone c (h.kept d hd c hc) (hne (localIdCall_lt hRN hc)) b hb
    · exact hL.gone_back hle (localIdCall_lt hRN hc) (fun b hb => h.gone p hp c hc b hb) hb
  · intro d' hd' c hc
    have hdd : d ≠ d' := hd' _ List.mem_cons_self
    obtain ⟨hother, htrunc⟩ := calls_distinct hids hRN hdd hc
    refine hL.kept d' c (h.kept d' (fun p hp => hd' p (List.mem_cons_of_mem _ hp)) c hc) ?_ ?_
    · exact fun hmem => hother (h.calls d c hmem)
    · exact fun a ha ht => htrunc a (h.truncs_of hRN (h.calls d a ha) ht)
  · intro p hp
    rcases List.mem_cons.mp hp with rfl | hp
    · exact hIV
    · exact h.new p hp
  · exact fun d' c hc => h.calls d' c (hL.calls_back hRN' hc)
  · exact fun c t hc ht => h.truncs c t hc (hL.truncs_back (hne hc) ht)

end

end VariOCL.IR.LoopInserter
