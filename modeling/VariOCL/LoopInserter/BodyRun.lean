import VariOCL.LoopInserter.IdValues
import VariOCL.LoopInserter.TagCalls

/-! The body of the loops does what the region does for the work-item whose id the loops count. -/

namespace VariOCL.IR.LoopInserter

open Sim

local instance neZero_ids : NeZero 3 := Nat.instNeZeroSucc

section
variable {Val : Type} (F : Function) (RN : MxPARegion) (gone : List InstId) (M : Machine Val)
  (w : WorkItem Val) (W : Dims → WorkItem Val) (L : Fin 3 → DWLoop) (i32 : BitVec 32 → Val)

/-- `W lid` answers with `lid` where a call gives its dimension twice, and as `w`, which runs the
loops, where it gives it once.  What is taken for an id is a 32-bit value. -/
structure TellsCalls : Prop where
  valid : F.Valid
  ssa : F.DefinesBeforeUse
  truncs : ∀ b ∈ F.layout, ∀ T ∈ (F.block b).insts, T.op.isTrunc → T.id ∈ gone → T.ty = .int 32
  trunc : ∀ l, M.eval (.int 32) (.trunc .undefValue) [i32 l] = i32 l
  localId : ∀ lid (d : Fin 3),
    W lid "get_local_id" [i32 (BitVec.ofNat 32 d), i32 (BitVec.ofNat 32 d)] = some (i32 (lid d))
  others : ∀ lid name v, W lid name [v] = w name [v]

/-- The calls of the region give one argument, as in every program. -/
structure Answers : Prop extends TellsCalls F gone M w W i32 where
  oneArgument : ∀ b ∈ RN.BBInvolved, ∀ I ∈ (F.block b).insts, ∀ name args,
    I.op = .call (some name) args → name ∈ idBuiltins → args.length = 1

/-- The calls that are replaced are tagged. -/
structure AnswersTags : Prop extends TellsCalls F gone M w W i32 where
  tagged : ∀ b ∈ RN.BBInvolved, ∀ I ∈ (F.block b).insts, ∀ d : Fin 3, isLocalIdCall d I →
    I.op = .call (some "get_local_id") [.constInt 32 d, .constInt 32 d]
  untagged : ∀ b ∈ RN.BBInvolved, ∀ I ∈ (F.block b).insts, (∀ d : Fin 3, ¬ isLocalIdCall d I) →
    ∀ name args, I.op = .call (some name) args → name ∈ idBuiltins → args.length = 1

/-- The induction variables hold the local id `lid`. -/
def HasId (s : State Val) (lid : Dims) : Prop := ∀ d, s.env (L d).IV = some (i32 (lid d))

/-- The states are the same but for `gone` and for what `F` does not have. -/
structure AgreesOff (s s' : State Val) : Prop where
  mem : s'.mem = s.mem
  env : ∀ i < F.freshInst, i ∉ gone → s'.env i = s.env i

end

section
variable {Val : Type} {F G : Function} {RN : MxPARegion} {Exit Barrier Pred : BlockId}
  {L : Fin 3 → DWLoop} {f : Value → Value} {gone : List InstId} {M : Machine Val}
  {w : WorkItem Val} {W : Dims → WorkItem Val} {i32 : BitVec 32 → Val} {lsz lid : Dims}
  {s s' : State Val} {b d : BlockId} {i u c : InstId} {I T : Instruction} {v : Value} {dim : Fin 3}
  {e : Cells InstId Val}

/-! ### The calls and their truncations -/

theorem Answers.tagCalls (hA : Answers F RN gone M w W i32) :
    AnswersTags (tagCalls F RN) RN gone M w W i32 where
  valid := valid_tagCalls hA.valid RN
  ssa := definesBeforeUse_tagCalls hA.ssa RN
  tagged b hb I hI d hcall := by
    obtain ⟨J, hJ, rfl⟩ := mem_insts_tagCalls.mp hI
    rw [if_pos hb, isLocalIdCall_tagCall] at hcall
    rw [if_pos hb]
    rcases tagCall_cases J with ⟨-, hno⟩ | ⟨d', -, hcall', heq⟩
    · exact absurd hcall (hno d d.isLt)
    · rw [heq, isLocalIdCall_unique hcall' hcall]
  untagged b hb I hI hno name args hop hname := by
    obtain ⟨J, hJ, rfl⟩ := mem_insts_tagCalls.mp hI
    rw [if_pos hb] at hop hno
    rcases tagCall_cases J with ⟨heq, -⟩ | ⟨d, hd, hcall, -⟩
    · exact hA.oneArgument b hb J hJ name args (heq ▸ hop) hname
    · exact absurd (isLocalIdCall_tagCall J d ▸ hcall) (hno ⟨d, hd⟩)
  truncs b hb T hT htrunc hgone := by
    obtain ⟨J, hJ, rfl⟩ := mem_insts_tagCalls.mp hT
    split at htrunc
    · rw [if_pos ‹_›, tagCall_of_isTrunc (.inl htrunc)] at hgone ⊢
      exact hA.truncs b hb J hJ (tagCall_of_isTrunc (.inl htrunc) ▸ htrunc) hgone
    · rw [if_neg ‹_›] at hgone ⊢
      exact hA.truncs b hb J hJ htrunc hgone
  trunc := hA.trunc
  localId := hA.localId
  others := hA.others

theorem TruncOf.op (h : TruncOf F c i) :
    ∃ b ∈ F.layout, ∃ T ∈ (F.block b).insts, T.id = i ∧ T.op = .trunc (.inst c) := by
  obtain ⟨b, hb, T, hT, hid, htrunc, hc⟩ := h
  obtain ⟨v, hops, hop⟩ := operands_of_isTrunc htrunc
  rw [hops, List.mem_singleton] at hc
  exact ⟨b, hb, T, hT, hid, hc ▸ hop⟩

theorem Replaces.op_gone (hR : Replaces F G RN Exit Barrier Pred L f gone)
    (h : Loopable F RN Exit Barrier Pred) (hA : AnswersTags F RN gone M w W i32)
    (hI : Erased F gone I) :
    (∃ args, I.op = .call (some "get_local_id") args) ∨ I.op.isTrunc := by
  obtain ⟨⟨b, hb, hI⟩, hid⟩ := hI
  obtain ⟨d, hcall | ⟨c, -, ht, -⟩⟩ := hR.others _ hid
  · obtain ⟨b', hb', J, hJ, hJcall, hJid⟩ := mem_localIdCalls.mp hcall
    have hb'' := h.subset b' (h.involved hb')
    rw [← F.inst_eq_of_id h.ids hb'' hb hJ hI hJid]
    exact .inl ⟨_, hA.tagged _ hb' _ hJ d hJcall⟩
  · obtain ⟨b', hb', T, hT, hTid, hop⟩ := ht.op
    rw [← F.inst_eq_of_id h.ids hb' hb hT hI hTid, hop]
    exact .inr rfl

theorem Replaces.phi_left (hR : Replaces F G RN Exit Barrier Pred L f gone)
    (h : Loopable F RN Exit Barrier Pred) (hA : AnswersTags F RN gone M w W i32) (hb : b ∈ F.layout)
    (hI : I ∈ (F.block b).insts) (hphi : I.op.isPhi) : I.id ∉ gone := by
  intro hgone
  rcases hR.op_gone h hA ⟨⟨b, hb, hI⟩, hgone⟩ with ⟨v, hop⟩ | htrunc
  · rw [hop] at hphi
    cases hphi
  · obtain ⟨v, -, hop⟩ := operands_of_isTrunc htrunc
    rw [hop] at hphi
    cases hphi

theorem Replaces.pure_gone (hR : Replaces F G RN Exit Barrier Pred L f gone)
    (h : Loopable F RN Exit Barrier Pred) (hA : AnswersTags F RN gone M w W i32)
    (hI : Erased F gone I) : M.Pure (W lid) I ∧ I.op.isPhi = false := by
  rcases hR.op_gone h hA hI with ⟨v, hop⟩ | htrunc
  · exact pure_idCall (by decide) hop
  · exact pure_trunc htrunc

theorem AnswersTags.value_call (hA : AnswersTags F RN gone M w W i32) (hM : Counts M i32 lsz)
    (hop : I.op = .call (some "get_local_id") [.constInt 32 dim, .constInt 32 dim])
    (hc : M.Computed (W lid) e I) : e I.id = some (i32 (lid dim)) := by
  obtain ⟨vs, hvs, hid⟩ := computed_idCall (by decide) hop hc
  have hvs : some [M.atom (.constInt 32 dim), M.atom (.constInt 32 dim)] = some vs := hvs
  rw [hM.const] at hvs
  cases hvs
  exact hid.trans (hA.localId lid dim)

theorem AnswersTags.value_trunc (hA : AnswersTags F RN gone M w W i32) {l : BitVec 32}
    (hop : T.op = .trunc (.inst c)) (hty : T.ty = .int 32) (hT : M.Computed (W lid) e T)
    (hl : e c = some (i32 l)) : e T.id = some (i32 l) := by
  obtain ⟨vs, x, hvs, hp, hid⟩ := hT
  have hreads : M.readAll e T.op.operands = some [i32 l] := by
    rw [hop]
    exact Option.bind_eq_some_iff.mpr ⟨i32 l, hl, rfl⟩
  obtain rfl := Option.some.inj (hreads.symm.trans hvs)
  have hperform : M.perform (W lid) T.id (.int 32) (.trunc (.inst c)) [i32 l] =
      some (.ret (M.eval (.int 32) (.trunc .undefValue) [i32 l])) := rfl
  rw [hop, hty, hperform, hA.trunc] at hp
  cases hp
  exact hid

/-- What stands for a call has the id of the work-item where it is read. -/
theorem Replaces.value (hR : Replaces F G RN Exit Barrier Pred L f gone)
    (h : Loopable F RN Exit Barrier Pred) (hA : AnswersTags F RN gone M w W i32)
    (hM : Counts M i32 lsz) (hat : F.SoundAt M (W lid) (Erased F gone) d u s)
    (hd : d ∈ F.layout) (hr : F.Reachable d) (hu : u ∈ (F.block d).instIds)
    (hc : c ∈ localIdCalls F RN dim) (hstands : StandsFor F c (.inst i)) (hi : i ∈ gone)
    (habove : F.DefinedAbove d u i) : s.env i = some (i32 (lid dim)) := by
  have hcall : F.DefinedAbove d u c → s.env c = some (i32 (lid dim)) := by
    intro habove
    have hgone := hR.erased dim c hc
    obtain ⟨x, hx, C, hC, hCcall, rfl⟩ := mem_localIdCalls.mp hc
    have hxF := h.subset x (h.involved hx)
    exact hA.value_call hM (hA.tagged x hx C hC dim hCcall)
      (hat x hxF C hC ⟨⟨x, hxF, hC⟩, hgone⟩ habove)
  rcases hstands with heq | ⟨t, heq, ht⟩
  · obtain rfl := Value.inst.inj heq
    exact hcall habove
  · obtain rfl := Value.inst.inj heq
    obtain ⟨z, hz, T, hT, rfl, hop⟩ := ht.op
    have hty := hA.truncs z hz T hT (by rw [hop]; rfl) hi
    have hreach := habove.reachable hA.valid hd hr hz hT
    have hread := hA.ssa.inst z hz hreach T hT (by rw [hop]; rfl) c
      (by rw [hop]; exact List.mem_cons_self)
    exact hA.value_trunc hop hty (hat z hz T hT ⟨⟨z, hz, hT⟩, hi⟩ habove)
      (hcall (hread.trans habove hA.valid hd hr hu hz hT))

/-! ### What is read -/

theorem Replaces.block (hR : Replaces F G RN Exit Barrier Pred L f gone) (hb : b ∈ F.layout) :
    ∃ g t, G.block b = (((F.mapValues f).eraseInsts gone).block b).relabel g t := by
  by_cases hin : b ∈ RN.BBSet
  · exact ⟨_, _, hR.inside b hin⟩
  · exact ⟨_, _, hR.outside b hb hin⟩

theorem Replaces.mem_values_inst (hR : Replaces F G RN Exit Barrier Pred L f gone)
    (hb : b ∈ F.layout) (hI : I ∈ (F.block b).insts) (hleft : I.id ∉ gone)
    (hv : v ∈ I.op.operands) : f v ∈ (G.block b).values := by
  obtain ⟨g, t, hblock⟩ := hR.block hb
  have hmem : (I.mapValues f).mapBlocks g ∈ (G.block b).insts := by
    rw [hblock]
    refine List.mem_map_of_mem (List.mem_filter.mpr ⟨List.mem_map_of_mem hI, ?_⟩)
    simpa using hleft
  refine List.mem_append_left _ (List.mem_flatMap.mpr ⟨_, hmem, ?_⟩)
  rw [Instruction.mapBlocks, Op.operands_mapBlocks, Instruction.op_mapValues, Op.operands_mapValues]
  exact List.mem_map_of_mem hv

theorem Replaces.mem_values (hR : Replaces F G RN Exit Barrier Pred L f gone) (hF : F.Closed)
    (hphi : ∀ b ∈ F.layout, ∀ I ∈ (F.block b).insts, I.op.isPhi → I.id ∉ gone)
    (hd : d ∈ F.layout) (hleft : u ∉ gone) (hv : v ∈ F.usesAt d u) :
    ∃ b ∈ F.layout, f v ∈ (G.block b).values := by
  rcases List.mem_append.mp hv with hv | hv
  · obtain ⟨I, hI, hv⟩ := List.mem_flatMap.mp hv
    obtain ⟨hI, hid⟩ := List.mem_filter.mp hI
    exact ⟨d, hd, hR.mem_values_inst hd hI ((of_decide_eq_true hid).1 ▸ hleft) hv⟩
  · split at hv
    · rcases List.mem_append.mp hv with hv | hv
      · obtain ⟨g, t, hblock⟩ := hR.block hd
        refine ⟨d, hd, List.mem_append_right _ ?_⟩
        rw [hblock, BasicBlock.relabel, Terminator.operands_mapBlocks]
        exact (Terminator.operands_mapValues f _).symm ▸ List.mem_map_of_mem hv
      · obtain ⟨x, hx, hv⟩ := List.mem_flatMap.mp hv
        obtain ⟨I, hI, hv⟩ := List.mem_flatMap.mp hv
        obtain ⟨p, hp, rfl⟩ := List.mem_map.mp hv
        have hx := hF d hd x hx
        have hp := (List.mem_filter.mp hp).1
        have hop : I.op.isPhi ∧ p.1 ∈ I.op.operands := by
          obtain ⟨i, ty, op⟩ := I
          cases op with
          | phi incoming => exact ⟨rfl, List.mem_map_of_mem hp⟩
          | _ => cases hp
        exact ⟨x, hx, hR.mem_values_inst hx hI (hphi x hx I hI hop.1) hop.2⟩
    · cases hv

theorem lt_freshInst_of_definedAbove (h : F.DefinedAbove b u i) (hb : b ∈ F.layout) :
    i < F.freshInst := by
  rcases h with h | ⟨d, hd, -, -, hi⟩
  · exact F.lt_freshInst (List.mem_flatMap.mpr ⟨b, hb, h.subset List.mem_cons_self⟩)
  · exact F.lt_freshInst (List.mem_flatMap.mpr ⟨d, hd, List.mem_append_left _ hi⟩)

/-- What an instruction that is left reads in the body is what it read in the region. -/
theorem Replaces.read (hR : Replaces F G RN Exit Barrier Pred L f gone)
    (h : Loopable F RN Exit Barrier Pred) (hL : ThreeLoops F G RN Exit Barrier L)
    (hA : AnswersTags F RN gone M w W i32) (hM : Counts M i32 lsz)
    (hat : F.SoundAt M (W lid) (Erased F gone) d u s) (hs : AgreesOff F gone s s')
    (hid : HasId L i32 s' lid) (hd : d ∈ F.layout) (hr : F.Reachable d)
    (hu : u ∈ (F.block d).instIds) (hleft : u ∉ gone) (hv : v ∈ F.usesAt d u) :
    M.read s'.env (f v) = M.read s.env v := by
  have hnew : ∀ dim, F.freshInst ≤ (L dim).IV := fun dim => hL.ids_new dim _ List.mem_cons_self
  rcases hR.reads v with heq | ⟨⟨i, hi, rfl⟩, dim, ⟨c, hc, hstands⟩, hf⟩
  · cases v with
    | inst i =>
      have hlt := lt_freshInst_of_definedAbove
        (F.definedAbove_of_usesAt hA.valid hA.ssa hd hr hv) hd
      rw [heq]
      refine hs.env i hlt fun hgone => ?_
      obtain ⟨b, hb, hmem⟩ := hR.mem_values hA.valid.closed
        (fun b hb I hI => hR.phi_left h hA hb hI) hd hleft hv
      obtain ⟨dim, hcall | ⟨c, -, -, hf⟩⟩ := hR.others i hgone
      · exact hR.unread dim i hcall b ((hL.layout b).mpr (.inl hb)) (heq ▸ hmem)
      · exact Nat.not_lt.mpr (hnew dim) (Value.inst.inj (heq.symm.trans hf) ▸ hlt)
    | _ =>
      rw [heq]
      rfl
  · have habove := F.definedAbove_of_usesAt hA.valid hA.ssa hd hr hv
    rw [hf]
    exact (hid dim).trans (hR.value h hA hM hat hd hr hu hc hstands hi habove).symm

/-! ### One block -/

/-- What is left of an instruction. -/
def leftWith (f : Value → Value) (gone : List InstId) (I : Instruction) : List Instruction :=
  if I.id ∈ gone then [] else [I.mapValues f]

theorem translated_left (hphi : ∀ b ∈ F.layout, ∀ I ∈ (F.block b).insts, I.op.isPhi → I.id ∉ gone) :
    F.Translated ((F.mapValues f).eraseInsts gone) f (leftWith f gone) where
  entry := rfl
  layout := rfl
  insts b _ := by
    simp only [Function.eraseInsts, Function.block_mapValues, BasicBlock.insts_mapValues]
    exact filter_map_eq_flatMap fun _ => rfl
  termId _ _ := rfl
  term _ _ := rfl
  phi b hb I hI h := if_neg (hphi b hb I hI h)
  other b _ I _ hI J hJ := by
    rw [leftWith] at hJ
    split at hJ
    · cases hJ
    · rw [List.mem_singleton.mp hJ, Instruction.op_mapValues, Op.isPhi_mapValues, hI]

variable [DecidableEq Val] (hR : Replaces F G RN Exit Barrier Pred L f gone)
  (h : Loopable F RN Exit Barrier Pred) (hL : ThreeLoops F G RN Exit Barrier L)
  (hA : AnswersTags F RN gone M w W i32) (hM : Counts M i32 lsz)

include hR h hL hA hM in
/-- The region with other values read is run as the region is. -/
theorem Replaces.simulated : F.Simulated M (W lid) (Erased F gone) f (leftWith f gone)
    (fun _ => True) (fun _ => false) (fun s s' => AgreesOff F gone s s' ∧ HasId L i32 s' lid) where
  pure I hI := hR.pure_gone h hA hI
  mem s s' hs := hs.1.mem
  read b hb hr s s' hs hat v hv := by
    refine hR.read h hL hA hM hat hs.1 hs.2 hb hr
      (List.mem_append_right _ List.mem_cons_self) (fun hgone => ?_) hv
    obtain ⟨dim, hcall | ⟨c, -, ht, -⟩⟩ := hR.others _ hgone
    · obtain ⟨x, hx, J, hJ, -, hid⟩ := mem_localIdCalls.mp hcall
      exact F.termId_ne hA.valid hb (h.subset x (h.involved hx)) hJ hid
    · obtain ⟨x, hx, T, hT, hid, -⟩ := ht.op
      exact F.termId_ne hA.valid hb hx hT hid
  phi b hb I hI hphi s s' v hs _ := by
    have hlt := F.lt_freshInst (F.instIds_of_mem hb hI)
    refine ⟨⟨hs.1.mem, fun i hi hleft => ?_⟩, fun dim => ?_⟩
    · by_cases hii : i = I.id
      · rw [hii, State.define_self, State.define_self]
      · rw [State.define_ne _ hii, State.define_ne _ hii, hs.1.env i hi hleft]
    · have hne : (L dim).IV ≠ I.id := fun heq =>
        Nat.not_lt.mpr (hL.ids_new dim _ List.mem_cons_self) (heq ▸ hlt)
      exact (State.define_ne v hne).trans (hs.2 dim)
  inst b hb hr I hI hphi s s' t es hs hat hx _ := by
    have hlt := F.lt_freshInst (F.instIds_of_mem hb hI)
    have hne : ∀ dim, (L dim).IV ≠ I.id := fun dim heq =>
      Nat.not_lt.mpr (hL.ids_new dim _ List.mem_cons_self) (heq ▸ hlt)
    by_cases hgone : I.id ∈ gone
    · have hpure : M.Pure (W lid) I := (hR.pure_gone h hA ⟨⟨b, hb, hI⟩, hgone⟩).1
      obtain ⟨vs, v, -, -, rfl⟩ := hpure.execInst hx
      refine ⟨s', [], by rw [leftWith, if_pos hgone]; rfl, by simp, ⟨hs.1.mem, ?_⟩, hs.2⟩
      intro i hi hleft
      have hii : i ≠ I.id := fun heq => hleft (heq ▸ hgone)
      rw [State.define_ne _ hii, hs.1.env i hi hleft]
    · have hread : ∀ v ∈ I.op.operands, M.read s'.env (f v) = M.read s.env v := fun v hv =>
        hR.read h hL hA hM hat hs.1 hs.2 hb hr (List.mem_append_left _ (List.mem_map_of_mem hI))
          hgone (F.mem_usesAt hI hphi hv)
      obtain ⟨v, ht, hx'⟩ := Machine.execInst_mapValues hread hs.1.mem hx
      refine ⟨⟨s'.env.set I.id v, t.mem⟩, es, ?_, by simp, ⟨rfl, fun i hi hleft => ?_⟩, ?_⟩
      · simp only [leftWith, if_neg hgone, Machine.execInsts, hx', Option.bind_some,
          Option.map_some, List.append_nil]
      · rw [ht]
        change s'.env.set I.id v i = s.env.set I.id v i
        by_cases hii : i = I.id
        · rw [hii, Cells.set_self, Cells.set_self]
        · rw [Cells.set_ne _ _ hii, Cells.set_ne _ _ hii, hs.1.env i hi hleft]
      · exact fun dim => (Cells.set_ne _ _ (hne dim)).trans (hs.2 dim)

/-! ### The region -/

omit [DecidableEq Val] in
/-- Nothing of the region is defined before it is entered. -/
theorem Loopable.not_above_pred {x : BlockId} (h : Loopable F RN Exit Barrier Pred)
    (hx : x ∈ RN.BBSet) (hi : i ∈ (F.block x).instIds) : ¬ F.DefinedAbove Pred u i := by
  have hxF := h.subset x hx
  have hpred := h.closed.reachable_mem h.pred
  rintro (habove | ⟨y, hy, -, hdom, hiy⟩)
  · obtain rfl := F.eq_of_mem_instIds h.ids hxF hpred hi (habove.subset List.mem_cons_self)
    exact h.outside hx
  · obtain rfl := F.eq_of_mem_instIds h.ids hxF hy hi (List.mem_append_left _ hiy)
    exact h.not_dominates_pred hx hdom

omit [DecidableEq Val] in
include hR h hA in
theorem Replaces.sound_entry :
    F.Sound M (W lid) (Erased F gone) (.inside (some Pred) RN.Entry s) := by
  have hpred := h.closed.reachable_mem h.pred
  have hterm : (F.block Pred).termId ∈ (F.block Pred).instIds :=
    List.mem_append_right _ List.mem_cons_self
  have hcall : ∀ {dim : Fin 3} {c}, c ∈ localIdCalls F RN dim →
      ¬ F.DefinedAbove Pred (F.block Pred).termId c := by
    intro dim c hc
    obtain ⟨x, hx, C, hC, -, rfl⟩ := mem_localIdCalls.mp hc
    exact h.not_above_pred (h.involved hx) (List.mem_append_left _ (List.mem_map_of_mem hC))
  refine ⟨⟨hpred, h.pred, h.enters⟩, fun p hp => ?_⟩
  cases hp
  intro d hd I hI hgone habove
  obtain ⟨dim, hc | ⟨c, hc, ht, -⟩⟩ := hR.others _ hgone.2
  · exact absurd habove (hcall hc)
  · obtain ⟨z, hz, T, hT, hid, hop⟩ := ht.op
    rw [← hid] at habove
    have hreach := habove.reachable hA.valid hpred h.pred hz hT
    have hread := hA.ssa.inst z hz hreach T hT (by rw [hop]; rfl) c
      (by rw [hop]; exact List.mem_cons_self)
    exact absurd (hread.trans habove hA.valid hpred h.pred hterm hz hT) (hcall hc)

omit [DecidableEq Val] in
theorem Loopable.entry_involved (h : Loopable F RN Exit Barrier Pred) :
    RN.Entry ∈ RN.BBInvolved := by
  rw [MxPARegion.BBInvolved]
  split
  · exact h.entry_mem
  · rename_i hexit
    rw [not_not.mp hexit]
    exact List.mem_cons_self

omit [DecidableEq Val] in
theorem Loopable.involved_succ (h : Loopable F RN Exit Barrier Pred) (hb : b ∈ RN.BBInvolved)
    (hd : d ∈ F.succs b) (hdS : d ∈ RN.BBSet) : d ∈ RN.BBInvolved := by
  rw [MxPARegion.BBInvolved] at hb ⊢
  split at hb
  · rwa [if_pos ‹_›]
  · rw [h.exit, Option.toList_some, List.mem_singleton] at hb
    subst hb
    rw [h.exit_succs, List.mem_singleton] at hd
    exact absurd (hd ▸ hdS) h.barrier

omit [DecidableEq Val] in
/-- What is left asks for nothing that the work-items answer differently. -/
theorem AnswersTags.perform (hA : AnswersTags F RN gone M w W i32) (hb : b ∈ RN.BBInvolved)
    (hI : I ∈ (F.block b).insts) (hleft : ∀ dim : Fin 3, ¬ isLocalIdCall dim I) {vs : List Val}
    (hvs : vs.length = I.op.operands.length) :
    M.perform (W lid) I.id I.ty I.op vs = M.perform w I.id I.ty I.op vs := by
  have hargs := hA.untagged b hb I hI hleft
  obtain ⟨i, ty, op⟩ := I
  cases op with
  | call callee args =>
    cases callee with
    | none => rfl
    | some name =>
      by_cases hname : name ∈ idBuiltins
      · obtain ⟨v, rfl⟩ := List.length_eq_one_iff.mp (hvs.trans (hargs name args rfl hname))
        simp only [Machine.perform, hA.others]
      · simp only [Machine.perform, if_neg hname]
  | _ => rfl

/-- The name that a block of the region has in the loops for its predecessor. -/
def nameIn (RN : MxPARegion) (Pred : BlockId) (L : Fin 3 → DWLoop) (b : BlockId) :
    BlockId → BlockId :=
  if b = RN.Entry then rename Pred (L 0).LoopHeader else fun x => x

omit [DecidableEq Val] in
theorem ThreeLoops.nameIn_inj {x y : BlockId} (hL : ThreeLoops F G RN Exit Barrier L)
    (hx : x ∈ F.layout) (hy : y ∈ F.layout)
    (heq : nameIn RN Pred L b x = nameIn RN Pred L b y) : x = y := by
  have hnew : (L 0).LoopHeader ∉ F.layout := hL.blocks_new 0 _ (by simp [DWLoop.blocks])
  have hne : ∀ {z}, z ∈ F.layout → z ≠ (L 0).LoopHeader := fun hz h => hnew (h ▸ hz)
  rw [nameIn] at heq
  split at heq
  · simp only [rename] at heq
    split at heq <;> split at heq
    · exact ‹x = Pred›.trans ‹y = Pred›.symm
    · exact absurd heq.symm (hne hy)
    · exact absurd heq (hne hx)
    · exact heq
  · exact heq

omit [DecidableEq Val] in
/-- What is left of a block is its code that is not taken out. -/
theorem mem_left (hI : I ∈ (((F.mapValues f).eraseInsts gone).block b).insts) :
    ∃ J ∈ (F.block b).insts, J.id ∉ gone ∧ I = J.mapValues f := by
  obtain ⟨hI, hleft⟩ := List.mem_filter.mp hI
  obtain ⟨J, hJ, rfl⟩ := List.mem_map.mp hI
  exact ⟨J, hJ, by simpa using hleft, rfl⟩

omit [DecidableEq Val] in
include hR hA in
theorem Replaces.perform_left (hb : b ∈ RN.BBInvolved)
    (hI : I ∈ (((F.mapValues f).eraseInsts gone).block b).insts) {vs : List Val}
    (hvs : vs.length = I.op.operands.length) :
    M.perform (W lid) I.id I.ty I.op vs = M.perform w I.id I.ty I.op vs := by
  obtain ⟨J, hJ, hleft, rfl⟩ := mem_left hI
  rw [Instruction.op_mapValues, Machine.perform_mapValues, Machine.perform_mapValues]
  refine hA.perform hb hJ (fun dim hcall => ?_) (by simpa using hvs)
  exact hleft (hR.erased dim _ (mem_localIdCalls.mpr ⟨b, hb, J, hJ, hcall, rfl⟩))

omit [DecidableEq Val] in
include hL hA in
/-- The renaming keeps apart the blocks that a PHI tells apart. -/
theorem ThreeLoops.names_left {p : Option BlockId} (hb : b ∈ F.layout)
    (hp : ∀ x ∈ p, x ∈ F.layout)
    (hI : I ∈ (((F.mapValues f).eraseInsts gone).block b).insts) {x : BlockId}
    (hx : x ∈ I.op.incomingBlocks) :
    some (nameIn RN Pred L b x) = p.map (nameIn RN Pred L b) ↔ some x = p := by
  obtain ⟨J, hJ, -, rfl⟩ := mem_left hI
  rw [Instruction.op_mapValues, Op.incomingBlocks_mapValues] at hx
  have hxF := hA.valid.incoming b hb J hJ x hx
  cases p with
  | none => simp
  | some p =>
    rw [Option.map_some, Option.some.injEq, Option.some.injEq]
    exact ⟨hL.nameIn_inj hxF (hp p rfl), fun heq => heq ▸ rfl⟩

include hR h hL hA hM in
/-- A block of the body does what the block of the region does. -/
theorem Replaces.step {p : Option BlockId} {t : State Val} {es : List (Act Val)}
    (hb : b ∈ RN.BBInvolved) (hsound : F.Sound M (W lid) (Erased F gone) (.inside p b s))
    (hs : AgreesOff F gone s s') (hid : HasId L i32 s' lid)
    (hx : F.Exec M (W lid) (.inside p b s) es (.inside (some b) d t)) :
    ∃ es' t', G.Exec M w (.inside (p.map (nameIn RN Pred L b)) b s') es' (.inside (some b)
        (if b = RN.Entry ∨ b = Exit then rename Barrier (L 0).LatchBB d else d) t') ∧
      AgreesOff F gone t t' ∧ HasId L i32 t' lid := by
  have hbF := h.subset b (h.involved hb)
  have hpF : ∀ x ∈ p, x ∈ F.layout := by
    rintro x rfl
    exact hsound.1.1
  have htr : F.Translated ((F.mapValues f).eraseInsts gone) f (leftWith f gone) :=
    translated_left fun b hb I hI => hR.phi_left h hA hb hI
  obtain ⟨es', c', hx', -, hend⟩ := (hR.simulated h hL hA hM).step htr hA.valid hA.ssa hsound
    (.inside ⟨hs, hid⟩) hx fun _ _ => trivial
  cases hend with
  | @inside _ _ _ t' ht =>
    refine ⟨es', t', ?_, ht.1, ht.2⟩
    cases hx' with
    | @branch _ _ _ k _ _ _ hblock hsucc =>
      have hphis : ∀ I ∈ (((F.mapValues f).eraseInsts gone).block b).insts.dropWhile (·.op.isPhi),
          I.op.isPhi = false := by
        intro I hI
        rw [(htr.phis hA.valid hbF).2] at hI
        obtain ⟨J, hJ, hI⟩ := List.mem_flatMap.mp hI
        exact htr.other b hbF J ((List.dropWhile_sublist _).subset hJ)
          (hA.valid.phisFirst b hbF J hJ) I hI
      have hnames : ∀ I ∈ (((F.mapValues f).eraseInsts gone).block b).insts,
          ∀ x ∈ I.op.incomingBlocks,
            some (nameIn RN Pred L b x) = p.map (nameIn RN Pred L b) ↔ some x = p :=
        fun I hI x hx => hL.names_left hA hbF hpF hI hx
      rw [execBlock_congr fun I hI vs => hR.perform_left hA hb hI,
        ← Machine.execBlock_relabel hphis hnames] at hblock
      have hbody := hR.inside b (h.involved hb)
      refine .branch (i := k) (hbody ▸ hblock) ?_
      rw [Function.succs, hbody, BasicBlock.relabel, Terminator.successors_mapBlocks,
        List.getElem?_map, ← Function.succs, hsucc]
      split <;> rfl

include hR h hL hA hM in
/-- The body does in the innermost loop what the region does for the work-item that is counted. -/
theorem Replaces.runs {p q : Option BlockId} {e : BlockId} {t : State Val} {es : List (Act Val)}
    (hrun : RunsRegion F M (W lid) RN.BBSet p b s es q e t) (hq : q = some Exit) (he : e = Barrier)
    (hb : b ∈ RN.BBInvolved) (hsound : F.Sound M (W lid) (Erased F gone) (.inside p b s))
    (hs : AgreesOff F gone s s') (hid : HasId L i32 s' lid) :
    ∃ es' t', RunsRegion G M w RN.BBSet (p.map (nameIn RN Pred L b)) b s' es' (some Exit)
        (L 0).LatchBB t' ∧ AgreesOff F gone t t' ∧ HasId L i32 t' lid := by
  induction hrun generalizing s' with
  | leave s hn => exact absurd (h.involved hb) hn
  | @step p q b d e s s₁ t es es' hmem hx hrest ih =>
    obtain ⟨es₁, s₁', hx', hs₁, hid₁⟩ := hR.step h hL hA hM hb hsound hs hid hx
    have hsound₁ := hsound.step hA.valid hA.ssa (fun I hI => hR.pure_gone h hA hI) hx
    have hedge : d ∈ F.succs b := by
      cases hx with
      | branch _ hd => exact List.mem_of_getElem? hd
    by_cases hd : d ∈ RN.BBSet
    · obtain ⟨es₂, t', hrun', ht, hidt⟩ :=
        ih hq he (h.involved_succ hb hedge hd) hsound₁ hs₁ hid₁
      have hbarrier : d ≠ Barrier := fun heq => h.barrier (heq ▸ hd)
      have htarget : (if b = RN.Entry ∨ b = Exit then rename Barrier (L 0).LatchBB d else d) = d := by
        rw [rename, if_neg hbarrier, ite_self]
      have hname : (some b).map (nameIn RN Pred L d) = some b := by
        have hpred : b ≠ Pred := fun heq => h.outside (heq ▸ hmem)
        rw [Option.map_some, nameIn]
        split
        · rw [rename, if_neg hpred]
        · rfl
      rw [htarget] at hx'
      rw [hname] at hrun'
      exact ⟨_, t', .step hmem hx' hrun', ht, hidt⟩
    · cases hrest with
      | step hd' _ _ => exact absurd hd' hd
      | leave _ _ =>
        obtain rfl := Option.some.inj hq
        subst he
        have hlatch : (L 0).LatchBB ∉ RN.BBSet := fun hmem =>
          hL.blocks_new 0 _ (by simp [DWLoop.blocks]) (h.subset _ hmem)
        rw [if_pos (.inr rfl), rename, if_pos rfl] at hx'
        exact ⟨_, s₁', .single hmem hx' hlatch, hs₁, hid₁⟩

end

end VariOCL.IR.LoopInserter
