import VariOCL.LoopInserter.Rewritten

/-! `CondBarrier::performContextBuffering` reloads a value before each of its users.  A PHI is met
once for each entry that takes the value, and only the first time does it still take it. -/

namespace VariOCL.IR

namespace LoopInserter

/-- What `doContextReload` puts in, the first with the id `n`. -/
def reloadInsts (Inst : Instruction) (Alloca Idx n : InstId) : List Instruction :=
  if Inst.op.isAlloca then [contextGep n Alloca Idx]
  else [contextGep n Alloca Idx, ⟨n + 1, elementType Inst, .load (.inst n)⟩]

/-- The value that stands for `Inst` behind `reloadInsts`. -/
def reloaded (Inst : Instruction) (n : InstId) : InstId := if Inst.op.isAlloca then n else n + 1

/-- The context of `Inst` is loaded above `u`. -/
def LoadedAbove (Inst : Instruction) (Alloca Idx : InstId) (BB : BasicBlock) (u n : InstId) :
    Prop :=
  (reloadInsts Inst Alloca Idx n).Sublist BB.insts ∧ [reloaded Inst n, u].Sublist BB.instIds

section
variable (PR : IndexedRegions) (Inst : Instruction) (Alloca : InstId) (F G : Function)

/-- `b` lies in a region, and there the context of `Inst` is loaded above `u`. -/
def ReloadedAbove (b : BlockId) (u n : InstId) : Prop :=
  ∃ R, findIndexed F PR b = some R ∧ LoadedAbove Inst Alloca R.2 (G.block b) u n

/-- An entry of a PHI before and after: its block is left through the reload. -/
def EntryReloaded (p p' : Value × BlockId) : Prop :=
  p'.2 = p.2 ∧
    if p.1 = .inst Inst.id then
      ∃ q n, F.Dominates q p.2 ∧ p'.1 = .inst (reloaded Inst n) ∧
        ReloadedAbove PR Inst Alloca F G q (F.block q).termId n
    else p'.1 = p.1

/-- Every user of `Inst` in a region reads a reload that is executed before. -/
structure ContextReloaded : Prop where
  ids : G.instIds.Nodup
  user : ∀ b ∈ F.layout, (findIndexed F PR b).isSome → ∀ J ∈ (F.block b).insts,
    J.op.isPhi = false → .inst Inst.id ∈ J.op.operands → ∃ n,
      ReloadedAbove PR Inst Alloca F G b J.id n ∧
        J.mapValues (Value.replace Inst.id (.inst (reloaded Inst n))) ∈ (G.block b).insts
  terminator : ∀ b ∈ F.layout, (findIndexed F PR b).isSome →
    .inst Inst.id ∈ (F.block b).term.operands → ∃ n,
      ReloadedAbove PR Inst Alloca F G b (F.block b).termId n ∧ (G.block b).term =
        (F.block b).term.mapValues (Value.replace Inst.id (.inst (reloaded Inst n)))
  phi : ∀ b ∈ F.layout, (findIndexed F PR b).isSome → ∀ J ∈ (F.block b).insts,
    ∀ incoming, J.op = .phi incoming → .inst Inst.id ∈ J.op.operands → ∃ incoming',
      ⟨J.id, J.ty, .phi incoming'⟩ ∈ (G.block b).insts ∧
        List.Forall₂ (EntryReloaded PR Inst Alloca F G) incoming incoming'

/-- The PHIs of the regions take `i` from one block only, and it lies in a region. -/
def TakenOnce (i : InstId) : Prop :=
  ∀ b ∈ F.layout, ∀ R, findIndexed F PR b = some R → ∀ J ∈ (F.block b).insts,
    ∀ incoming, J.op = .phi incoming → .inst i ∈ J.op.operands →
      R.1.getEnteringBlock F ≠ some b ∧
        ∃ p, incoming.filter (·.1 = .inst i) = [p] ∧ (findIndexed F PR p.2).isSome

end

section
variable {PR : IndexedRegions} {Inst I J : Instruction} {Alloca Idx i u n : InstId}
  {F G : Function} {f : InstId → Value → Value} {BB BB' : BasicBlock} {b q : BlockId}
  {Is : List Instruction}

/-! ### What depends on the blocks only -/

theorem dominates_rewritten (h : F.Rewritten f G) : G.dominates = F.dominates := by
  funext d x
  rw [Function.dominates, Function.dominates, h.entry, h.layout, h.succs]

theorem contains_rewritten (h : F.Rewritten f G) (R : MxPARegion) :
    R.contains G = R.contains F := by
  funext x
  rw [MxPARegion.contains, MxPARegion.contains, dominates_rewritten h]

theorem findIndexed_rewritten (h : F.Rewritten f G) : findIndexed G PR = findIndexed F PR := by
  funext x
  rw [findIndexed, findIndexed]
  congr 1
  funext R
  rw [MxPARegion.claims, MxPARegion.claims, contains_rewritten h]

theorem getEnteringBlock_rewritten (h : F.Rewritten f G) (R : MxPARegion) :
    R.getEnteringBlock G = R.getEnteringBlock F := by
  rw [MxPARegion.getEnteringBlock, MxPARegion.getEnteringBlock, contains_rewritten h,
    Function.predEdges, Function.predEdges, h.entry, h.layout, h.succs]

/-! ### One reload -/

theorem mem_reloadInsts (hI : I ∈ reloadInsts Inst Alloca Idx n) : n ≤ I.id := by
  rw [reloadInsts] at hI
  split at hI
  · rw [List.mem_singleton] at hI
    exact (congrArg Instruction.id hI).ge
  · rcases List.mem_cons.mp hI with rfl | hI
    · exact Nat.le_refl _
    · rw [List.mem_singleton] at hI
      exact hI ▸ Nat.le_succ n

theorem nodup_reloadInsts : ((reloadInsts Inst Alloca Idx n).map Instruction.id).Nodup := by
  rw [reloadInsts]
  split
  · exact List.nodup_singleton _
  · simp [contextGep]

theorem reloaded_mem (Inst : Instruction) (Alloca Idx n : InstId) :
    ∃ I ∈ reloadInsts Inst Alloca Idx n, I.id = reloaded Inst n := by
  rw [reloadInsts, reloaded]
  split
  · exact ⟨_, List.mem_singleton_self _, rfl⟩
  · exact ⟨_, List.mem_cons_of_mem _ (List.mem_singleton_self _), rfl⟩

theorem le_reloaded : n ≤ reloaded Inst n := by
  rw [reloaded]
  split
  · exact Nat.le_refl n
  · exact Nat.le_succ n

theorem doContextReload_eq (Inst : Instruction) (Alloca : InstId) {Before : InstId}
    (hq : G.blockOf Before = some q)
    {R : MxPARegion × InstId} (hR : findIndexed G PR q = some R) :
    doContextReload PR G Inst Alloca Before = .ok (G.updateBlock q
      (BasicBlock.insertAllBefore Before (reloadInsts Inst Alloca R.2 G.freshInst)),
        reloaded Inst G.freshInst) := by
  simp only [doContextReload, hq, hR, reloadInsts, reloaded]
  split <;> rfl

theorem LoadedAbove.insert (h : LoadedAbove Inst Alloca Idx BB u n) (hBB : BB.Inserts Is BB') :
    LoadedAbove Inst Alloca Idx BB' u n := ⟨h.1.trans hBB.insts, h.2.trans hBB.instIds_sublist⟩

theorem LoadedAbove.of_insertAllBefore (hu : u ∈ BB.instIds) : LoadedAbove Inst Alloca Idx
    (BB.insertAllBefore u (reloadInsts Inst Alloca Idx n)) u n := by
  obtain ⟨I, hI, hid⟩ := reloaded_mem Inst Alloca Idx n
  refine ⟨?_, hid ▸ BasicBlock.sublist_insertAllBefore hI hu⟩
  exact (List.sublist_append_right ..).trans (List.sublist_append_left ..)

theorem LoadedAbove.replace (h : LoadedAbove Inst Alloca Idx BB u n) {w : InstId} (hw : w < n)
    (k : Value → Value) : LoadedAbove Inst Alloca Idx (BB.replaceUsesIn w k) u n := by
  obtain ⟨hinsts, hids⟩ := h
  constructor
  · have hkeep : (reloadInsts Inst Alloca Idx n).map
        (fun I => if I.id = w then I.mapValues k else I) = reloadInsts Inst Alloca Idx n := by
      conv => rhs; rw [← List.map_id' (reloadInsts Inst Alloca Idx n)]
      refine List.map_congr_left fun I hI => if_neg ?_
      exact (Nat.lt_of_lt_of_le hw (mem_reloadInsts hI)).ne'
    rw [← hkeep]
    exact hinsts.map _
  · rwa [BasicBlock.instIds_replaceUsesIn]

/-! ### The users so far -/

/-- The values of the user `u`, when it reads the reload `σ u`. -/
def readsReload (Inst : Instruction) (σ : InstId → Option InstId) (u : InstId) (v : Value) :
    Value :=
  match σ u with
  | none => v
  | some n => Value.replace Inst.id (.inst (reloaded Inst n)) v

/-- The block in which a user in `b` needs the value, and the instruction before which it does. -/
def reloadPoint (F : Function) (b : BlockId) (i u : InstId) : Option (BlockId × InstId) :=
  match (F.block b).find u with
  | some ⟨_, _, .phi incoming⟩ =>
    (incoming.filter (·.1 = .inst i)).getLast?.map fun p => (p.2, (F.block p.2).termId)
  | _ => some (b, u)

/-- `G` is `F` with a reload for the users of `σ`. -/
structure Buffered (PR : IndexedRegions) (Inst : Instruction) (Alloca : InstId) (F G : Function)
    (σ : InstId → Option InstId) : Prop where
  rewritten : F.Rewritten (readsReload Inst σ) G
  reload : ∀ b ∈ F.layout, ∀ u ∈ (F.block b).instIds, ∀ n, σ u = some n → F.freshInst ≤ n ∧
    ∃ p, reloadPoint F b Inst.id u = some p ∧ ReloadedAbove PR Inst Alloca F G p.1 p.2 n

/-- The context is loaded at `p` for the user `u` in `b`. -/
def reloadAt (Inst : Instruction) (Alloca Idx : InstId) (G : Function) (b : BlockId) (u : InstId)
    (p : BlockId × InstId) : Function :=
  (G.updateBlock p.1 (BasicBlock.insertAllBefore p.2
    (reloadInsts Inst Alloca Idx G.freshInst))).updateBlock b
      (BasicBlock.replaceUsesIn u (Value.replace Inst.id (.inst (reloaded Inst G.freshInst))))

/-- What `reloadUse` asks of a PHI of a region: it still takes the value. -/
def Accepts (PR : IndexedRegions) (F : Function) (i : InstId) (σ : InstId → Option InstId)
    (u : InstId) : Prop :=
  ∀ b ∈ F.layout, ∀ R, findIndexed F PR b = some R → ∀ J ∈ (F.block b).insts, J.id = u →
    ∀ incoming, J.op = .phi incoming → σ u = none ∧ R.1.getEnteringBlock F ≠ some b ∧
      ∃ p, (incoming.filter (·.1 = .inst i)).getLast? = some p ∧ (findIndexed F PR p.2).isSome

section
variable {σ : InstId → Option InstId} {R : MxPARegion × InstId} {p : BlockId × InstId}

theorem ReloadedAbove.insert (h : ReloadedAbove PR Inst Alloca F G q u n)
    {k : BasicBlock → BasicBlock} (hk : (G.block b).Inserts Is (k (G.block b))) :
    ReloadedAbove PR Inst Alloca F (G.updateBlock b k) q u n := by
  obtain ⟨R, hR, h⟩ := h
  refine ⟨R, hR, ?_⟩
  by_cases hq : q = b
  · subst hq
    rw [Function.block_updateBlock]
    exact h.insert hk
  · rwa [Function.block_updateBlock_ne _ hq]

theorem ReloadedAbove.replace (h : ReloadedAbove PR Inst Alloca F G q u n) {w : InstId}
    (hw : w < n) (k : Value → Value) :
    ReloadedAbove PR Inst Alloca F (G.updateBlock b (BasicBlock.replaceUsesIn w k)) q u n := by
  obtain ⟨R, hR, h⟩ := h
  refine ⟨R, hR, ?_⟩
  by_cases hq : q = b
  · subst hq
    rw [Function.block_updateBlock]
    exact h.replace hw k
  · rwa [Function.block_updateBlock_ne _ hq]

theorem Buffered.start (hn : F.instIds.Nodup) : Buffered PR Inst Alloca F F fun _ => none where
  rewritten := .refl hn
  reload _ _ _ _ _ h := by cases h

theorem Buffered.step (h : Buffered PR Inst Alloca F G σ) (hF : F.Distinct)
    (hi : Inst.id ∈ F.instIds) (hb : b ∈ F.layout) (hu : u ∈ (F.block b).instIds)
    (hp : reloadPoint F b Inst.id u = some p) (hq : p.1 ∈ F.layout)
    (hbefore : p.2 ∈ (F.block p.1).instIds) (hR : findIndexed F PR p.1 = some R) :
    Buffered PR Inst Alloca F (reloadAt Inst Alloca R.2 G b u p)
      (fun w => if w = u then some ((σ u).getD G.freshInst) else σ w) := by
  have hins : (G.block p.1).Inserts (reloadInsts Inst Alloca R.2 G.freshInst)
      ((G.block p.1).insertAllBefore p.2 (reloadInsts Inst Alloca R.2 G.freshInst)) :=
    BasicBlock.inserts_insertAllBefore ..
  have hfresh := h.rewritten.freshInst_le
  have hlt : ∀ {x w}, x ∈ F.layout → w ∈ (F.block x).instIds → w < F.freshInst := fun hx hw =>
    F.lt_freshInst (Function.mem_instIds.mpr ⟨_, hx, hw⟩)
  constructor
  · have hrw := (h.rewritten.insert hF.nodup hq hins (fun I hI => mem_reloadInsts hI)
      nodup_reloadInsts).replace hF.ids hb hu
        (Value.replace Inst.id (.inst (reloaded Inst G.freshInst)))
    refine cast (congrArg (fun f => Function.Rewritten f F _) (funext fun w => ?_)) hrw
    funext v
    by_cases hw : w = u
    · subst hw
      rw [if_pos rfl, readsReload, readsReload, if_pos rfl]
      cases hσ : σ w with
      | none => rfl
      | some n =>
        -- the value is replaced already, and by another one than `Inst`
        have hlt : Inst.id < reloaded Inst n :=
          (F.lt_freshInst hi).trans_le ((h.reload b hb w hu n hσ).1.trans le_reloaded)
        exact Value.replace_replace hlt.ne'
    · rw [if_neg hw, readsReload, readsReload, if_neg hw]
  · intro x hx w hw n hn
    have hold : ∀ n, σ w = some n → F.freshInst ≤ n ∧ ∃ p', reloadPoint F x Inst.id w = some p' ∧
        ReloadedAbove PR Inst Alloca F (reloadAt Inst Alloca R.2 G b u p) p'.1 p'.2 n := by
      intro n hn
      obtain ⟨hle, p', hp', hab⟩ := h.reload x hx w hw n hn
      exact ⟨hle, p', hp', (hab.insert hins).replace ((hlt hb hu).trans_le hle) _⟩
    by_cases hwu : w = u
    · subst hwu
      rw [if_pos rfl] at hn
      cases hσ : σ w with
      | some m =>
        rw [hσ] at hn
        cases hn
        exact hold _ hσ
      | none =>
        rw [hσ] at hn
        cases hn
        obtain rfl := F.eq_of_mem_instIds hF.ids hx hb hw hu
        refine ⟨hfresh, p, hp, ReloadedAbove.replace ⟨R, hR, ?_⟩ ((hlt hb hu).trans_le hfresh) _⟩
        rw [Function.block_updateBlock]
        exact .of_insertAllBefore ((h.rewritten.instIds_sublist hq).subset hbefore)
    · rw [if_neg hwu] at hn
      exact hold n hn

theorem Buffered.reloadUse_ok (h : Buffered PR Inst Alloca F G σ) (hF : F.Distinct)
    (hb : b ∈ F.layout) (hu : u ∈ (F.block b).instIds) (hR : findIndexed F PR b = some R)
    (hacc : Accepts PR F Inst.id σ u) :
    ∃ p R', reloadPoint F b Inst.id u = some p ∧ p.1 ∈ F.layout ∧ p.2 ∈ (F.block p.1).instIds ∧
      findIndexed F PR p.1 = some R' ∧
      reloadUse PR Inst Alloca G u = .ok (reloadAt Inst Alloca R'.2 G b u p) := by
  have hrun : ∀ {p R'}, p.1 ∈ F.layout → p.2 ∈ (F.block p.1).instIds →
      findIndexed F PR p.1 = some R' → reloadLocation G R.1 b Inst.id u = .ok p.2 →
      reloadUse PR Inst Alloca G u = .ok (reloadAt Inst Alloca R'.2 G b u p) := by
    intro p R' hq hp hR' hloc
    have hreload := doContextReload_eq Inst Alloca
      (h.rewritten.blockOf hq hp) ((findIndexed_rewritten h.rewritten).symm ▸ hR')
    simp only [reloadUse, h.rewritten.blockOf hb hu, findIndexed_rewritten h.rewritten, hR, hloc]
    simp only [bind, Except.bind, hreload]
    rfl
  have hfind := h.rewritten.find hF.ids hb hu
  cases hJ : (F.block b).find u with
  | none =>
    refine ⟨(b, u), R, by rw [reloadPoint, hJ], hb, hu, hR, hrun hb hu hR ?_⟩
    rw [reloadLocation, hfind, hJ, Option.map_none]
  | some J =>
    have hmem : J ∈ (F.block b).insts := List.mem_of_find?_eq_some hJ
    have hid : J.id = u := by simpa using List.find?_some hJ
    obtain ⟨j, ty, op⟩ := J
    cases hop : op with
    | phi incoming =>
      subst hop
      obtain ⟨hnone, hentering, p, hp, hR'⟩ := hacc b hb R hR _ hmem hid incoming rfl
      obtain ⟨R', hR'⟩ := Option.isSome_iff_exists.mp hR'
      have hpmem : p ∈ incoming := (List.mem_filter.mp (List.mem_of_getLast? hp)).1
      have hq : p.2 ∈ F.layout := hF.incoming b hb _ hmem p.2 (List.mem_map_of_mem hpmem)
      have hterm : (F.block p.2).termId ∈ (F.block p.2).instIds :=
        List.mem_append_right _ List.mem_cons_self
      refine ⟨(p.2, (F.block p.2).termId), R', ?_, hq, hterm, hR', hrun hq hterm hR' ?_⟩
      · simp only [reloadPoint, hJ, hp, Option.map_some]
      · have hreads : readsReload Inst σ u = fun v => v := by
          funext v
          rw [readsReload, hnone]
        rw [reloadLocation, hfind, hJ, Option.map_some, hreads, Instruction.mapValues_id]
        simp only [getEnteringBlock_rewritten h.rewritten, if_neg hentering, hp]
        rw [h.rewritten.termId p.2 hq]
    | _ =>
      subst hop
      refine ⟨(b, u), R, by rw [reloadPoint, hJ], hb, hu, hR, hrun hb hu hR ?_⟩
      rw [reloadLocation, hfind, hJ]
      rfl

theorem Buffered.reloadUse_error (h : Buffered PR Inst Alloca F G σ) (hF : F.Distinct)
    (hi : Inst.id ∈ F.instIds) (hacc : ¬ Accepts PR F Inst.id σ u) :
    ∃ e, reloadUse PR Inst Alloca G u = .error e := by
  simp only [Accepts, not_forall] at hacc
  obtain ⟨b, hb, R, hR, J, hJ, rfl, incoming, hop, hacc⟩ := hacc
  have hu : J.id ∈ (F.block b).instIds := List.mem_append_left _ (List.mem_map_of_mem hJ)
  have hfind : (G.block b).find J.id =
      some ⟨J.id, J.ty, .phi (incoming.map fun p => (readsReload Inst σ J.id p.1, p.2))⟩ := by
    rw [h.rewritten.find hF.ids hb hu, Function.find_of_mem hF.ids hb hJ, Option.map_some,
      Instruction.mapValues, hop]
    rfl
  have hstop : ∀ {e}, reloadLocation G R.1 b Inst.id J.id = .error e →
      ∃ e, reloadUse PR Inst Alloca G J.id = .error e := by
    intro e he
    refine ⟨e, ?_⟩
    simp only [reloadUse, h.rewritten.blockOf hb hu, findIndexed_rewritten h.rewritten, hR, he]
    rfl
  by_cases hentering : R.1.getEnteringBlock F = some b
  · refine hstop (e := .assertion "Cannot add context reload for a PHI at the region entry!") ?_
    simp only [reloadLocation, hfind, getEnteringBlock_rewritten h.rewritten, if_pos hentering]
  have hmissing : ((incoming.map fun p => (readsReload Inst σ J.id p.1, p.2)).filter
      (·.1 = .inst Inst.id)).getLast? = none →
        ∃ e, reloadUse PR Inst Alloca G J.id = .error e := by
    refine fun hlast => hstop (e := .assertion "IncomingBB != NULL") ?_
    simp only [reloadLocation, hfind, getEnteringBlock_rewritten h.rewritten, if_neg hentering,
      hlast]
  cases hσ : σ J.id with
  | some n =>
    -- no entry takes the value any more
    have hlt : Inst.id < reloaded Inst n :=
      (F.lt_freshInst hi).trans_le ((h.reload b hb _ hu n hσ).1.trans le_reloaded)
    have hnil : (incoming.map fun p => (readsReload Inst σ J.id p.1, p.2)).filter
        (·.1 = .inst Inst.id) = [] := by
      refine List.filter_eq_nil_iff.mpr fun p' hp' heq => ?_
      obtain ⟨p, -, rfl⟩ := List.mem_map.mp hp'
      simp only [readsReload, hσ, Value.replace, decide_eq_true_eq] at heq
      split at heq
      · exact hlt.ne' (Value.inst.inj heq)
      · exact ‹¬ _› heq
    exact hmissing (hnil ▸ List.getLast?_nil)
  | none =>
    have hid : (incoming.map fun p => (readsReload Inst σ J.id p.1, p.2)) = incoming := by
      conv => rhs; rw [← List.map_id' incoming]
      refine List.map_congr_left fun p _ => ?_
      rw [readsReload, hσ]
    rw [hid] at hmissing hfind
    cases hlast : (incoming.filter (·.1 = .inst Inst.id)).getLast? with
    | none => exact hmissing hlast
    | some p =>
      have hpmem : p ∈ incoming := (List.mem_filter.mp (List.mem_of_getLast? hlast)).1
      have hq : p.2 ∈ F.layout := by
        refine hF.incoming b hb J hJ p.2 ?_
        rw [hop]
        exact List.mem_map_of_mem hpmem
      cases hR' : findIndexed F PR p.2 with
      | some R' => exact absurd ⟨hσ, hentering, p, hlast, by rw [hR']; rfl⟩ hacc
      | none =>
        have hterm : (F.block p.2).termId ∈ (F.block p.2).instIds :=
          List.mem_append_right _ List.mem_cons_self
        have hloc : reloadLocation G R.1 b Inst.id J.id = .ok (F.block p.2).termId := by
          simp only [reloadLocation, hfind, getEnteringBlock_rewritten h.rewritten,
            if_neg hentering, hlast]
          rw [h.rewritten.termId p.2 hq]
        refine ⟨.assertion "Context reload cannot be performed on an empty region", ?_⟩
        simp only [reloadUse, h.rewritten.blockOf hb hu, findIndexed_rewritten h.rewritten, hR,
          hloc]
        simp only [bind, Except.bind, doContextReload, h.rewritten.blockOf hq hterm,
          findIndexed_rewritten h.rewritten, hR']

end

/-! ### All users -/

/-- `u` is a PHI of a region. -/
def RegionPhi (PR : IndexedRegions) (F : Function) (u : InstId) : Prop :=
  ∃ b ∈ F.layout, (findIndexed F PR b).isSome ∧ ∃ J ∈ (F.block b).insts, J.id = u ∧ J.op.isPhi

/-- `u` lies in a region. -/
def Claimed (PR : IndexedRegions) (F : Function) (u : InstId) : Prop :=
  ∃ b ∈ F.layout, u ∈ (F.block b).instIds ∧ (findIndexed F PR b).isSome

section
variable {σ : InstId → Option InstId} {Uses : List InstId}

theorem accepts_of_not_regionPhi (h : ¬ RegionPhi PR F u) : Accepts PR F i σ u :=
  fun b hb R hR J hJ hid incoming hop =>
    absurd ⟨b, hb, by rw [hR]; rfl, J, hJ, hid, by rw [hop]; rfl⟩ h

theorem Accepts.congr {τ : InstId → Option InstId} (h : Accepts PR F i σ u) (hu : τ u = σ u) :
    Accepts PR F i τ u := fun b hb R hR J hJ hid incoming hop =>
  hu ▸ h b hb R hR J hJ hid incoming hop

theorem Buffered.reloadUse_cases (h : Buffered PR Inst Alloca F G σ) (hF : F.Distinct)
    (hi : Inst.id ∈ F.instIds) (hu : u ∈ F.instIds) (hacc : Accepts PR F Inst.id σ u) :
    ∃ G' τ, reloadUse PR Inst Alloca G u = .ok G' ∧ Buffered PR Inst Alloca F G' τ ∧
      (∀ w ≠ u, τ w = σ w) ∧ (σ u ≠ none → τ u ≠ none) ∧ (Claimed PR F u → τ u ≠ none) := by
  obtain ⟨b, hb, hu⟩ := Function.mem_instIds.mp hu
  cases hR : findIndexed F PR b with
  | none =>
    refine ⟨G, σ, ?_, h, fun _ _ => rfl, id, fun ⟨c, hc, huc, hRc⟩ => ?_⟩
    · simp only [reloadUse, h.rewritten.blockOf hb hu, findIndexed_rewritten h.rewritten, hR]
    · obtain rfl := F.eq_of_mem_instIds hF.ids hb hc hu huc
      rw [hR] at hRc
      cases hRc
  | some R =>
    obtain ⟨p, R', hp, hq, hbefore, hR', hrun⟩ := h.reloadUse_ok hF hb hu hR hacc
    refine ⟨_, _, hrun, h.step hF hi hb hu hp hq hbefore hR', fun w hw => if_neg hw, ?_, ?_⟩
    · exact fun _ => by simp
    · exact fun _ => by simp

theorem Buffered.foldlM (h : Buffered PR Inst Alloca F G σ) (hF : F.Distinct)
    (hi : Inst.id ∈ F.instIds) (hU : ∀ u ∈ Uses, u ∈ F.instIds)
    (hacc : ∀ u ∈ Uses, Accepts PR F Inst.id σ u ∧ (RegionPhi PR F u → Uses.count u = 1)) :
    ∃ G' τ, Uses.foldlM (reloadUse PR Inst Alloca) G = .ok G' ∧ Buffered PR Inst Alloca F G' τ ∧
      (∀ u, σ u ≠ none → τ u ≠ none) ∧ ∀ u ∈ Uses, Claimed PR F u → τ u ≠ none := by
  induction Uses generalizing G σ with
  | nil => exact ⟨G, σ, rfl, h, fun _ => id, fun _ hu => absurd hu List.not_mem_nil⟩
  | cons u Uses ih =>
    obtain ⟨hu, hU⟩ := List.forall_mem_cons.mp hU
    obtain ⟨G₁, σ₁, hrun, h₁, hother, hkeep, hdone⟩ :=
      h.reloadUse_cases hF hi hu (hacc u List.mem_cons_self).1
    have hmono : ∀ w, σ w ≠ none → σ₁ w ≠ none := fun w hw => by
      by_cases hwu : w = u
      · exact hwu ▸ hkeep (hwu ▸ hw)
      · exact (hother w hwu).symm ▸ hw
    have hacc₁ : ∀ w ∈ Uses, Accepts PR F Inst.id σ₁ w ∧ (RegionPhi PR F w → Uses.count w = 1) := by
      intro w hw
      obtain ⟨haccw, hcount⟩ := hacc w (List.mem_cons_of_mem u hw)
      by_cases hphi : RegionPhi PR F w
      · -- met a second time it would occur twice
        have hwu : w ≠ u := by
          rintro rfl
          have hpos := List.count_pos_iff.mpr hw
          have := hcount hphi
          rw [List.count_cons_self] at this
          omega
        refine ⟨haccw.congr (hother w hwu), fun _ => ?_⟩
        rw [← hcount hphi, List.count_cons_of_ne hwu.symm]
      · exact ⟨accepts_of_not_regionPhi hphi, fun hw => absurd hw hphi⟩
    obtain ⟨G', τ, hfold, h', hmono', hdone'⟩ := ih h₁ hU hacc₁
    refine ⟨G', τ, ?_, h', fun w hw => hmono' w (hmono w hw), fun w hw hclaim => ?_⟩
    · rw [List.foldlM_cons, hrun]
      exact hfold
    · rcases List.mem_cons.mp hw with rfl | hw
      · exact hmono' w (hdone hclaim)
      · exact hdone' w hw hclaim

theorem Buffered.accepts_of_foldlM (h : Buffered PR Inst Alloca F G σ) (hF : F.Distinct)
    (hi : Inst.id ∈ F.instIds) (hU : ∀ u ∈ Uses, u ∈ F.instIds) {G' : Function}
    (hrun : Uses.foldlM (reloadUse PR Inst Alloca) G = .ok G') :
    ∀ u ∈ Uses, Accepts PR F Inst.id σ u ∧ (RegionPhi PR F u → Uses.count u = 1) := by
  induction Uses generalizing G σ with
  | nil => exact fun _ hu => absurd hu List.not_mem_nil
  | cons u Uses ih =>
    obtain ⟨hu, hU⟩ := List.forall_mem_cons.mp hU
    obtain ⟨G₁, hstep, hrun⟩ := Sim.bind_eq_ok.mp hrun
    have hacc : Accepts PR F Inst.id σ u := by
      by_contra hacc
      obtain ⟨e, he⟩ := h.reloadUse_error hF hi hacc
      rw [he] at hstep
      cases hstep
    obtain ⟨G₁', σ₁, hstep', h₁, hother, -, hdone⟩ := h.reloadUse_cases hF hi hu hacc
    obtain rfl := Except.ok.inj (hstep'.symm.trans hstep)
    have htail := ih h₁ hU hrun
    -- a PHI that has its reload is not accepted again
    have hnot : RegionPhi PR F u → u ∉ Uses := fun hphi hmem => by
      obtain ⟨b, hb, hR, J, hJ, hid, hop⟩ := hphi
      obtain ⟨R, hR⟩ := Option.isSome_iff_exists.mp hR
      obtain ⟨j, ty, op⟩ := J
      cases op with
      | phi incoming =>
        have hnone := ((htail u hmem).1 b hb R hR _ hJ hid incoming rfl).1
        exact hdone ⟨b, hb, hid ▸ List.mem_append_left _ (List.mem_map_of_mem hJ), hR ▸ rfl⟩ hnone
      | _ => cases hop
    intro w hw
    by_cases hwu : w = u
    · subst hwu
      refine ⟨hacc, fun hphi => ?_⟩
      rw [List.count_cons_self, List.count_eq_zero.mpr (hnot hphi)]
    · obtain ⟨haccw, hcount⟩ := htail w ((List.mem_cons.mp hw).resolve_left hwu)
      refine ⟨haccw.congr (hother w hwu).symm, fun hphi => ?_⟩
      rw [List.count_cons_of_ne (Ne.symm hwu)]
      exact hcount hphi

end

/-! ### The whole of `performContextBuffering` -/

section
variable {σ : InstId → Option InstId} {s t : Contexts} {users : Function → InstId → List InstId}
  {Flat3DSize : InstId} {Uses us : List InstId} {Store : Option InstId}

theorem extended_getContextReplacementOf (Flat3DSize : InstId) (Inst : Instruction)
    (hF : s.F.Distinct) :
    s.F.Extended (getContextReplacementOf Flat3DSize s Inst).1.F := by
  rw [getContextReplacementOf]
  split
  · exact .refl hF.ids
  · refine (Function.Extended.refl hF.ids).insert hF.nodup s.F.entry_mem_layout
      (BasicBlock.inserts_insertBeforeTerminator _ _) (fun I hI => ?_) (List.nodup_singleton _)
      fun I hI => ?_
    · rw [List.mem_singleton.mp hI]
    · rw [List.mem_singleton.mp hI]
      rfl

theorem doContextStore_eq (Inst : Instruction) (Alloca : InstId) (h : F.Extended G)
    (hF : F.Distinct) (hb : b ∈ F.layout) (hR : (findIndexed F PR b).isSome) :
    ∃ r, doContextStore PR G b Inst Alloca = .ok r ∧ F.Extended r.1 ∧
      ∀ Store, r.2 = some Store → Store ∉ F.instIds := by
  obtain ⟨R, hR⟩ := Option.isSome_iff_exists.mp hR
  rw [doContextStore, findIndexed_rewritten h.rewritten, hR]
  dsimp only
  split
  · exact ⟨_, rfl, h, fun _ hStore => by cases hStore⟩
  · refine ⟨_, rfl, h.insert hF.nodup hb (BasicBlock.inserts_insertAllAfter ..) ?_ ?_ ?_, ?_⟩
    · simp [contextGep]
    · simp [contextGep]
    · simp [contextGep, Op.isPhi]
    · rintro Store ⟨⟩ hmem
      have hlt := (F.lt_freshInst hmem).trans_le h.rewritten.freshInst_le
      exact absurd (Nat.lt_succ_of_lt hlt) (Nat.lt_irrefl _)

theorem count_uses (h : F.Extended G) (hF : F.Distinct) (hperm : us.Perm (G.useList i))
    (hStore : ∀ st, Store = some st → st ∉ F.instIds) (hb : b ∈ F.layout)
    (hJ : J ∈ (F.block b).insts) : (us.filter fun User => some User ≠ Store).count J.id =
      (J.op.operands.filter (· = .inst i)).length := by
  have hne : decide (some J.id ≠ Store) = true :=
    decide_eq_true fun heq => hStore J.id heq.symm (F.instIds_of_mem hb hJ)
  rw [List.count_filter (p := fun User => decide (some User ≠ Store)) hne, hperm.count_eq,
    Function.count_useList (h.distinct hF) (h.rewritten.layout ▸ hb) (h.mem hb hJ)]

theorem length_filter_incoming (incoming : List (Value × BlockId)) :
    ((Op.phi incoming).operands.filter (· = .inst i)).length =
      (incoming.filter (·.1 = .inst i)).length := by
  rw [Op.operands, List.filter_map, List.length_map]
  rfl

theorem accepts_iff_takenOnce (PR : IndexedRegions) (h : F.Extended G) (hF : F.Distinct)
    (hperm : us.Perm (G.useList i)) (hStore : ∀ st, Store = some st → st ∉ F.instIds)
    (hUses : Uses = us.filter fun User => some User ≠ Store) :
    (∀ u ∈ Uses, Accepts PR G i (fun _ => none) u ∧ (RegionPhi PR G u → Uses.count u = 1)) ↔
      TakenOnce PR F i := by
  have hcount : ∀ b ∈ F.layout, ∀ J ∈ (F.block b).insts, ∀ incoming, J.op = .phi incoming →
      Uses.count J.id = (incoming.filter (·.1 = .inst i)).length := by
    intro b hb J hJ incoming hop
    rw [hUses, count_uses h hF hperm hStore hb hJ, hop, length_filter_incoming]
  have hlayout := h.rewritten.layout
  have hindexed : findIndexed G PR = findIndexed F PR := findIndexed_rewritten h.rewritten
  constructor
  · intro hacc b hb R hR J hJ incoming hop hi
    have hpos : 0 < Uses.count J.id := by
      rw [hcount b hb J hJ incoming hop, ← length_filter_incoming, ← hop]
      exact List.length_pos_of_mem (List.mem_filter.mpr ⟨hi, decide_eq_true rfl⟩)
    obtain ⟨haccJ, hone⟩ := hacc J.id (List.count_pos_iff.mp hpos)
    obtain ⟨-, hentering, p, hp, hRp⟩ := haccJ b (hlayout ▸ hb) R (hindexed ▸ hR) J (h.mem hb hJ)
      rfl incoming hop
    rw [getEnteringBlock_rewritten h.rewritten] at hentering
    have hphi : RegionPhi PR G J.id :=
      ⟨b, hlayout ▸ hb, by rw [hindexed, hR]; rfl, J, h.mem hb hJ, rfl, by rw [hop]; rfl⟩
    have hlen := (hcount b hb J hJ incoming hop).symm.trans (hone hphi)
    obtain ⟨p', hp'⟩ := List.length_eq_one_iff.mp hlen
    rw [hp', List.getLast?_singleton] at hp
    obtain rfl := Option.some.inj hp
    exact ⟨hentering, p', hp', hindexed ▸ hRp⟩
  · intro htaken u hu
    have htake : ∀ b ∈ G.layout, ∀ R, findIndexed G PR b = some R → ∀ J ∈ (G.block b).insts,
        J.id = u → ∀ incoming, J.op = .phi incoming → Uses.count u = 1 ∧
          R.1.getEnteringBlock F ≠ some b ∧ ∃ p, incoming.filter (·.1 = .inst i) = [p] ∧
            (findIndexed F PR p.2).isSome := by
      rintro b hb R hR J hJ rfl incoming hop
      rw [hlayout] at hb
      have hJ : J ∈ (F.block b).insts := (h.old b hb J hJ).resolve_right (by simp [hop, Op.isPhi])
      have hJcount := hcount b hb J hJ incoming hop
      have hi : .inst i ∈ J.op.operands := by
        rw [hop, Op.operands]
        have hpos := List.count_pos_iff.mpr hu
        rw [hJcount] at hpos
        obtain ⟨p, hp⟩ := List.exists_mem_of_length_pos hpos
        obtain ⟨hp, heq⟩ := List.mem_filter.mp hp
        exact List.mem_map.mpr ⟨p, hp, of_decide_eq_true heq⟩
      obtain ⟨hentering, p, hp, hRp⟩ := htaken b hb R (hindexed ▸ hR) J hJ incoming hop hi
      exact ⟨by rw [hJcount, hp]; rfl, hentering, p, hp, hRp⟩
    constructor
    · intro b hb R hR J hJ hid incoming hop
      obtain ⟨-, hentering, p, hp, hRp⟩ := htake b hb R hR J hJ hid incoming hop
      refine ⟨rfl, ?_, p, by rw [hp]; rfl, hindexed ▸ hRp⟩
      rwa [getEnteringBlock_rewritten h.rewritten]
    · rintro ⟨b, hb, hR, J, hJ, hid, hop⟩
      obtain ⟨R, hR⟩ := Option.isSome_iff_exists.mp hR
      obtain ⟨j, ty, op⟩ := J
      cases op with
      | phi incoming => exact (htake b hb R hR _ hJ hid incoming rfl).1
      | _ => cases hop

theorem Buffered.contextReloaded {G' : Function} (h : F.Extended G) (hF : F.Distinct)
    (hB : Buffered PR Inst Alloca G G' σ) (htaken : TakenOnce PR F Inst.id)
    (hdone : ∀ b ∈ F.layout, (findIndexed F PR b).isSome → ∀ u ∈ (F.block b).instIds,
      u ∈ G.useList Inst.id → σ u ≠ none) : ContextReloaded PR Inst Alloca F G' := by
  have hlayout := h.rewritten.layout
  have hG := h.distinct hF
  have hread : ∀ b ∈ F.layout, (findIndexed F PR b).isSome → ∀ u ∈ (F.block b).instIds,
      u ∈ G.useList Inst.id → ∃ n, readsReload Inst σ u =
        Value.replace Inst.id (.inst (reloaded Inst n)) ∧ ∃ p,
          reloadPoint G b Inst.id u = some p ∧ ReloadedAbove PR Inst Alloca F G' p.1 p.2 n := by
    intro b hb hR u hu huse
    obtain ⟨n, hn⟩ := Option.ne_none_iff_exists'.mp (hdone b hb hR u hu huse)
    obtain ⟨-, p, hp, R, hR, habove⟩ :=
      hB.reload b (hlayout ▸ hb) u ((h.rewritten.instIds_sublist hb).subset hu) n hn
    refine ⟨n, ?_, p, hp, R, findIndexed_rewritten h.rewritten ▸ hR, habove⟩
    funext v
    rw [readsReload, hn]
  have hid : ∀ {b J}, J ∈ (F.block b).insts → J.id ∈ (F.block b).instIds := fun hJ =>
    List.mem_append_left _ (List.mem_map_of_mem hJ)
  refine ⟨hB.rewritten.ids, ?_, ?_, ?_⟩
  · intro b hb hR J hJ hphi hi
    obtain ⟨n, hreads, p, hp, habove⟩ := hread b hb hR J.id (hid hJ)
      (Function.mem_useList (hlayout ▸ hb) (h.mem hb hJ) hi)
    have hpoint : reloadPoint G b Inst.id J.id = some (b, J.id) := by
      rw [reloadPoint, Function.find_of_mem hG.ids (hlayout ▸ hb) (h.mem hb hJ)]
      obtain ⟨j, ty, op⟩ := J
      cases op with
      | phi incoming => cases hphi
      | _ => rfl
    obtain rfl := Option.some.inj (hp.symm.trans hpoint)
    exact ⟨n, habove, hreads ▸ hB.rewritten.mem (hlayout ▸ hb) (h.mem hb hJ)⟩
  · intro b hb hR hi
    have hterm : (F.block b).termId ∈ (F.block b).instIds :=
      List.mem_append_right _ List.mem_cons_self
    have huse : (F.block b).termId ∈ G.useList Inst.id := by
      rw [← h.rewritten.termId b hb]
      exact Function.termId_mem_useList (hlayout ▸ hb) (h.term hb ▸ hi)
    obtain ⟨n, hreads, p, hp, habove⟩ := hread b hb hR _ hterm huse
    have hpoint : reloadPoint G b Inst.id (F.block b).termId = some (b, (F.block b).termId) := by
      have hnone : (G.block b).find (F.block b).termId = none := by
        rw [h.rewritten.find hF.ids hb hterm, Option.map_eq_none_iff]
        have hnodup : (F.block b).instIds.Nodup := (List.nodup_flatMap.mp hF.ids).1 b hb
        exact List.find?_eq_none.mpr fun I hI heq => (List.nodup_append.mp hnodup).2.2 _
          (List.mem_map_of_mem hI) _ List.mem_cons_self (of_decide_eq_true heq)
      rw [reloadPoint, hnone]
    obtain rfl := Option.some.inj (hp.symm.trans hpoint)
    refine ⟨n, habove, ?_⟩
    rw [hB.rewritten.term b (hlayout ▸ hb), h.term hb, h.rewritten.termId b hb, hreads]
  · intro b hb hR J hJ incoming hop hi
    obtain ⟨n, hreads, p, hp, habove⟩ := hread b hb hR J.id (hid hJ)
      (Function.mem_useList (hlayout ▸ hb) (h.mem hb hJ) hi)
    obtain ⟨R, hR⟩ := Option.isSome_iff_exists.mp hR
    obtain ⟨-, p', hp', -⟩ := htaken b hb R hR J hJ incoming hop hi
    have hmem' : ∀ e ∈ incoming, e.1 = .inst Inst.id → e = p' := fun e he heq => by
      have : e ∈ incoming.filter (·.1 = .inst Inst.id) :=
        List.mem_filter.mpr ⟨he, decide_eq_true heq⟩
      rwa [hp', List.mem_singleton] at this
    have hp'mem : p'.2 ∈ F.layout := by
      have : p' ∈ incoming.filter (·.1 = .inst Inst.id) := hp' ▸ List.mem_cons_self
      refine hF.incoming b hb J hJ p'.2 ?_
      rw [hop]
      exact List.mem_map_of_mem (List.mem_filter.mp this).1
    have hpoint : reloadPoint G b Inst.id J.id = some (p'.2, (F.block p'.2).termId) := by
      rw [reloadPoint, Function.find_of_mem hG.ids (hlayout ▸ hb) (h.mem hb hJ)]
      obtain ⟨j, ty, op⟩ := J
      subst hop
      simp only [hp', List.getLast?_singleton, Option.map_some]
      rw [h.rewritten.termId _ hp'mem]
    obtain rfl := Option.some.inj (hp.symm.trans hpoint)
    refine ⟨incoming.map fun e => (Value.replace Inst.id (.inst (reloaded Inst n)) e.1, e.2),
      ?_, ?_⟩
    · have hJ' := hB.rewritten.mem (hlayout ▸ hb) (h.mem hb hJ)
      rwa [hreads, Instruction.mapValues, hop] at hJ'
    · rw [List.forall₂_map_right_iff, List.forall₂_same]
      intro e he
      refine ⟨rfl, ?_⟩
      split
      · rename_i heq
        obtain rfl := hmem' e he heq
        exact ⟨e.2, n, .refl, if_pos heq, habove⟩
      · exact if_neg ‹_›

/-- The reloads are where their users read them if and only if no PHI of a region takes the value
from two blocks. -/
theorem performContextBuffering_reloads {BB : BlockId}
    (hperm : ∀ G i, (users G i).Perm (G.useList i)) (hF : s.F.Valid) (hBB : BB ∈ s.F.layout)
    (hInst : Inst ∈ (s.F.block BB).insts) (hR : (findIndexed s.F PR BB).isSome) :
    (∃ t, performContextBuffering PR users Flat3DSize s (BB, Inst) = .ok t ∧
      ContextReloaded PR Inst (getContextReplacementOf Flat3DSize s Inst).2 s.F t.F) ↔
    TakenOnce PR s.F Inst.id := by
  have hF := hF.distinct
  have hi : Inst.id ∈ s.F.instIds := s.F.instIds_of_mem hBB hInst
  obtain ⟨r, hr, hext, hStore⟩ :=
    doContextStore_eq Inst (getContextReplacementOf Flat3DSize s Inst).2
      (extended_getContextReplacementOf Flat3DSize Inst hF) hF hBB hR
  have hacc := accepts_iff_takenOnce PR hext hF (hperm r.1 Inst.id) hStore rfl
  have hU : ∀ u ∈ (users r.1 Inst.id).filter (fun User => some User ≠ r.2), u ∈ r.1.instIds :=
    fun u hu => Function.mem_instIds_of_useList
      ((hperm r.1 Inst.id).subset (List.mem_filter.mp hu).1)
  have hstart : Buffered PR Inst (getContextReplacementOf Flat3DSize s Inst).2 r.1 r.1
      fun _ => none := .start hext.rewritten.ids
  have hi' := hext.rewritten.instIds_subset hi
  constructor
  · rintro ⟨t, ht, -⟩
    obtain ⟨r', hr', ht⟩ := Sim.bind_eq_ok.mp ht
    obtain rfl := Except.ok.inj (hr.symm.trans hr')
    obtain ⟨G, hG, -⟩ := Sim.bind_eq_ok.mp ht
    exact hacc.mp (hstart.accepts_of_foldlM (hext.distinct hF) hi' hU hG)
  · intro htaken
    obtain ⟨G, τ, hG, hB, -, hdone⟩ :=
      hstart.foldlM (hext.distinct hF) hi' hU (hacc.mpr htaken)
    refine ⟨⟨G, (getContextReplacementOf Flat3DSize s Inst).1.NamedContexts⟩, ?_,
      hB.contextReloaded hext hF htaken fun b hb hRb u hu huse => ?_⟩
    · exact Sim.bind_eq_ok.mpr ⟨r, hr, Sim.bind_eq_ok.mpr ⟨G, hG, rfl⟩⟩
    · have hmem : u ∈ (users r.1 Inst.id).filter (fun User => some User ≠ r.2) := by
        refine List.mem_filter.mpr ⟨(hperm r.1 Inst.id).symm.subset huse, decide_eq_true ?_⟩
        exact fun heq => hStore u heq.symm (Function.mem_instIds.mpr ⟨b, hb, hu⟩)
      refine hdone u hmem ⟨b, hext.rewritten.layout ▸ hb, ?_, ?_⟩
      · exact (hext.rewritten.instIds_sublist hb).subset hu
      · rwa [findIndexed_rewritten hext.rewritten]

end

end

/-- Two values from above a barrier, and behind it below a branch a PHI that takes the first from
one side and a PHI that takes the second from both. -/
def chosenBehindBarrier : Function where
  name := "chosen_behind_barrier"
  entry := 0
  rest := [1, 2, 3, 4, 5, 6, 7]
  block
    | 0 => ⟨[⟨1, .int 32, .call (some "get_local_size") [.constInt 32 0]⟩], 2, .br 1⟩
    | 1 => ⟨[⟨11, .int 32, .load (.argument 0)⟩, ⟨12, .int 32, .load (.argument 1)⟩,
        ⟨13, .int 32, .load (.argument 2)⟩], 14, .br 2⟩
    | 2 => ⟨[barrierCall 20], 21, .br 3⟩
    | 3 => ⟨[⟨31, .int 32, .load (.argument 2)⟩], 32, .condBr (.argument 3) 4 5⟩
    | 4 => ⟨[], 41, .br 6⟩
    | 5 => ⟨[], 51, .br 6⟩
    | 6 => ⟨[⟨61, .int 32, .phi [(.inst 11, 4), (.constInt 32 0, 5)]⟩,
        ⟨62, .int 32, .phi [(.inst 12, 4), (.inst 12, 5)]⟩,
        ⟨63, .void, .store (.inst 61) (.argument 0)⟩,
        ⟨64, .void, .store (.inst 62) (.argument 1)⟩], 65, .br 7⟩
    | _ => ⟨[barrierCall 70], 71, .ret none⟩

/-- The regions above and below the barrier of `chosenBehindBarrier`, with their flat indices. -/
def aroundBarrier : IndexedRegions := [(⟨[1], 1, some 1⟩, 13), (⟨[6, 5, 4, 3], 3, some 6⟩, 31)]

theorem chosenBehindBarrier_valid : chosenBehindBarrier.Valid where
  nodup := by decide
  closed := by
    unfold Function.Closed
    decide
  entryPreds := by decide
  ids := by decide
  phisFirst := by decide
  entryPhis := by decide
  incoming := by decide

theorem performContextBuffering_reloads_chosenOnce :
    (∃ t, performContextBuffering aroundBarrier Function.useList 1 ⟨chosenBehindBarrier, []⟩
        (1, ⟨11, .int 32, .load (.argument 0)⟩) = .ok t ∧
      ContextReloaded aroundBarrier ⟨11, .int 32, .load (.argument 0)⟩
        (getContextReplacementOf 1 ⟨chosenBehindBarrier, []⟩ ⟨11, .int 32, .load (.argument 0)⟩).2
        chosenBehindBarrier t.F) ↔
    TakenOnce aroundBarrier chosenBehindBarrier 11 :=
  performContextBuffering_reloads (fun _ _ => .refl _) chosenBehindBarrier_valid (by decide)
    (by decide) (by decide)

/-- Of a value that comes from both sides of the branch the second entry is not found any more. -/
theorem performContextBuffering_chosenTwice :
    chosenBehindBarrier.Valid ∧ (findIndexed chosenBehindBarrier aroundBarrier 1).isSome ∧
    ¬ ∃ t, performContextBuffering aroundBarrier Function.useList 1 ⟨chosenBehindBarrier, []⟩
        (1, ⟨12, .int 32, .load (.argument 1)⟩) = .ok t ∧
      ContextReloaded aroundBarrier ⟨12, .int 32, .load (.argument 1)⟩
        (getContextReplacementOf 1 ⟨chosenBehindBarrier, []⟩ ⟨12, .int 32, .load (.argument 1)⟩).2
        chosenBehindBarrier t.F := by
  refine ⟨chosenBehindBarrier_valid, by decide, ?_⟩
  rintro ⟨t, ht, -⟩
  have hrun : (performContextBuffering aroundBarrier Function.useList 1 ⟨chosenBehindBarrier, []⟩
      (1, ⟨12, .int 32, .load (.argument 1)⟩)).toOption.isNone = true := by decide +kernel
  rw [ht] at hrun
  cases hrun

end LoopInserter

end VariOCL.IR
