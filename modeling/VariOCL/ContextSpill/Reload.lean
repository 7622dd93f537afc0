import VariOCL.ContextSpill.Linked

/-! What `DemoteRegToStack` puts in: the slot, loads where the value is used, and the store. -/

namespace VariOCL.IR

/-- An instruction or terminator that code can be put in front of. -/
def BasicBlock.IsSpot (BB : BasicBlock) (j : InstId) : Prop :=
  j = BB.termId ∨ ∃ J ∈ BB.insts, J.op.isPhi = false ∧ J.id = j

/-- Code behind an instruction, and behind the PHIs that follow it. -/
def Splice.store (sp : Splice) (b : BlockId) (I : Instruction) (Is : List Instruction) : Splice :=
  if I.op.isPhi then sp.addTop b Is else sp.addAfter I.id Is

/-- Whoever executes `j` reads `i` there, or hands it to a PHI. -/
inductive Function.Needs (F : Function) (i : InstId) : InstId → Prop
  | inst {b : BlockId} {J : Instruction} : b ∈ F.layout → J ∈ (F.block b).insts →
      J.op.isPhi = false → .inst i ∈ J.op.operands → F.Needs i J.id
  | term {b : BlockId} : b ∈ F.layout → .inst i ∈ (F.block b).term.operands →
      F.Needs i (F.block b).termId
  | phi {b q : BlockId} {J : Instruction} : b ∈ F.layout → J ∈ (F.block b).insts →
      (.inst i, q) ∈ J.op.incoming → F.Needs i (F.block q).termId

/-- A PHI reads where the block it takes its value from ends. -/
def Function.place (F : Function) (u : InstId) : Option BlockId → InstId
  | none => u
  | some q => (F.block q).termId

/-- Only a PHI reads at the end of another block. -/
def Function.ReadsAt (F : Function) (u : InstId) (q : Option BlockId) : Prop :=
  q = none ∨ ∃ b ∈ F.layout, ∃ J ∈ (F.block b).insts, J.id = u ∧ J.op.isPhi

/-- The user `u` does not read `i` any more. -/
structure Function.Reloaded (F : Function) (i u : InstId) (sp : Splice) : Prop where
  inst : ∀ b ∈ F.layout, ∀ I ∈ (F.block b).insts, I.id = u → .inst i ∉ (sp.inst I).op.operands
  term : ∀ b ∈ F.layout, (F.block b).termId = u →
    .inst i ∉ ((F.block b).term.mapValues (sp.use u none)).operands

section
variable {F G : Function} {sp : Splice} {b : BlockId} {BB : BasicBlock} {I : Instruction} {i j : InstId}

theorem BasicBlock.IsSpot.mem (h : BB.IsSpot j) : j ∈ BB.instIds := by
  rcases h with rfl | ⟨J, hJ, -, rfl⟩
  · exact List.mem_append_right _ List.mem_cons_self
  · exact List.mem_append_left _ (List.mem_map_of_mem hJ)

theorem BasicBlock.IsSpot.not_phi {c : BlockId} (h : (F.block b).IsSpot j) (hF : F.Valid)
    (hb : b ∈ F.layout) (hc : c ∈ F.layout) (hI : I ∈ (F.block c).insts) (hid : I.id = j) :
    I.op.isPhi = false := by
  rcases h with rfl | ⟨J, hJ, hphi, rfl⟩
  · exact absurd hid (F.termId_ne hF hb hc hI)
  · rwa [F.inst_eq_of_id hF.ids hc hb hI hJ hid]

theorem Function.eq_of_termId {c : BlockId} (hF : F.Valid) (hb : b ∈ F.layout) (hc : c ∈ F.layout)
    (h : (F.block b).termId = (F.block c).termId) : b = c :=
  F.eq_of_mem_instIds hF.ids hb hc (List.mem_append_right _ List.mem_cons_self)
    (h ▸ List.mem_append_right _ List.mem_cons_self)

theorem Op.snd_mem_incomingBlocks {op : Op} {p : Value × BlockId} (h : p ∈ op.incoming) :
    p.2 ∈ op.incomingBlocks := by
  cases op with
  | phi incoming => exact List.mem_map_of_mem h
  | _ => cases h

theorem Function.Needs.operand (h : F.Needs i I.id) (hF : F.Valid) (hb : b ∈ F.layout)
    (hI : I ∈ (F.block b).insts) : .inst i ∈ I.op.operands := by
  generalize hu : I.id = u at h
  cases h with
  | inst hc hJ _ hread => rwa [F.inst_eq_of_id hF.ids hb hc hI hJ hu]
  | term hc => exact absurd hu (F.termId_ne hF hc hb hI)
  | phi hc hJ hp => exact absurd hu (F.termId_ne hF
      (hF.incoming _ hc _ hJ _ (Op.snd_mem_incomingBlocks hp)) hb hI)

theorem BasicBlock.mem_rest (hI : I ∈ BB.insts) (hphi : I.op.isPhi = false) :
    I ∈ BB.insts.dropWhile (·.op.isPhi) := by
  rw [← List.takeWhile_append_dropWhile (p := (·.op.isPhi)) (l := BB.insts)] at hI
  refine (List.mem_append.mp hI).resolve_left fun hI => ?_
  have := List.mem_takeWhile_imp (p := fun I : Instruction => I.op.isPhi) hI
  exact Bool.false_ne_true (hphi.symm.trans this)

theorem Splice.mem_block_of_before (hj : BB.IsSpot j) (hI : I ∈ sp.before j) :
    I ∈ (sp.block b BB).insts := by
  refine List.mem_append_right _ (List.mem_append_right _ ?_)
  rcases hj with rfl | ⟨J, hJ, hphi, rfl⟩
  · exact List.mem_append_right _ hI
  · exact List.mem_append_left _ (List.mem_flatMap.mpr
      ⟨J, BasicBlock.mem_rest hJ hphi, List.mem_append_left _ hI⟩)

theorem Splice.use_mapUse {f : Option BlockId → Value → Value} {q : Option BlockId} :
    (sp.mapUse j f).use j q = fun v => f q (sp.use j q v) := funext fun _ => if_pos rfl

theorem Splice.use_mapUse_ne {f : Option BlockId → Value → Value} {k : InstId} (h : k ≠ j) :
    (sp.mapUse j f).use k = sp.use k := funext fun _ => funext fun _ => if_neg h

section
variable {c : BlockId} {Is : List Instruction}

theorem Splice.before_store : (sp.store b I Is).before = sp.before := by rw [store]; split <;> rfl

theorem Splice.use_store : (sp.store b I Is).use = sp.use := by rw [store]; split <;> rfl

theorem Splice.gone_store : (sp.store b I Is).gone = sp.gone := by rw [store]; split <;> rfl

theorem Splice.top_store (h : sp.top c = []) :
    (sp.store b I Is).top c = if I.op.isPhi ∧ c = b then Is else [] := by
  rw [store]
  split
  · rename_i hphi
    by_cases hc : c = b
    · rw [if_pos ⟨hphi, hc⟩, addTop]
      dsimp only
      rw [if_pos hc, h, List.append_nil]
    · rw [if_neg fun h => hc h.2]
      exact (if_neg hc).trans h
  · rename_i hphi
    rw [if_neg fun h => hphi h.1]
    exact h

theorem Splice.after_store (h : sp.after j = []) :
    (sp.store b I Is).after j = if I.op.isPhi = false ∧ j = I.id then Is else [] := by
  rw [store]
  split
  · rename_i hphi
    rw [if_neg fun h => Bool.false_ne_true (h.1.symm.trans hphi)]
    exact h
  · rename_i hphi
    by_cases hj : j = I.id
    · rw [if_pos ⟨Bool.eq_false_iff.mpr hphi, hj⟩, addAfter]
      dsimp only
      rw [if_pos hj, h, List.append_nil]
    · rw [if_neg fun h => hj h.2]
      exact (if_neg hj).trans h

end

theorem Function.Reloaded.congr {sp' : Splice} (h : F.Reloaded i j sp) (huse : sp'.use j = sp.use j) :
    F.Reloaded i j sp' where
  inst b hb I hI hid := by
    have hinst : sp'.inst I = sp.inst I := by rw [Splice.inst, Splice.inst, hid, huse]
    exact hinst ▸ h.inst b hb I hI hid
  term b hb hid := huse ▸ h.term b hb hid

theorem Function.Spliced.lt_freshInst (h : F.Spliced sp G) (hb : b ∈ F.layout)
    (hj : (F.block b).IsSpot j) (hI : I ∈ sp.before j) : I.id < G.freshInst := by
  refine G.lt_freshInst (G.instIds_of_mem (h.mem_layout hb) ?_)
  rw [h.block b hb]
  exact Splice.mem_block_of_before hj hI

end

namespace ContextSpill

/-- What is put into `F` before the store: the slot of `i`, and loads from it, which begin at the ids
`ns j` in front of `j`. -/
structure Reloads (S : Sizes) (Point : InstId) (Slot : Instruction) (i : InstId) (F : Function)
    (ns : InstId → List InstId) (sp : Splice) : Prop where
  gone : sp.gone = []
  top : ∀ b, sp.top b = []
  after : ∀ j, sp.after j = []
  before : ∀ j, sp.before j =
    (if j = Point then [Slot] else []) ++ (ns j).flatMap fun n => insert3DLoadFor S n Slot
  ordered : ∀ j, (ns j).Pairwise fun m n => m + 10 ≤ n
  later : ∀ j, ∀ n ∈ ns j, Slot.id < n
  needed : ∀ j, ns j ≠ [] → F.Needs i j
  use : ∀ u q v, F.ReadsAt u q → sp.use u q v = v ∨
    v = .inst i ∧ ∃ n ∈ ns (F.place u q), sp.use u q v = .inst (n + 9)

section
variable {S : Sizes} {Point : InstId} {Slot I J : Instruction} {i j m n u : InstId} {F G : Function}
  {ns : InstId → List InstId} {sp : Splice} {b : BlockId} {Loads : List (BlockId × InstId)}
  {ps : List (Value × BlockId)} {v : Value} {q : Option BlockId}

theorem unused_load (hn : G.freshInst ≤ n) : G.Unused (insert3DLoadFor S n Slot) where
  fresh I hI := hn.trans (id_insert3DLoadFor hI).1
  nodup := by
    rw [map_id_insert3DLoadFor]
    exact List.nodup_range.map fun _ _ => Nat.add_left_cancel
  phi I hI := by
    simp only [insert3DLoadFor, insert3DGepFor, List.cons_append, List.nil_append, List.mem_cons,
      List.not_mem_nil, or_false] at hI
    rcases hI with rfl | rfl | rfl | rfl | rfl | rfl | rfl | rfl | rfl | rfl <;> rfl

theorem unused_store (hn : G.freshInst ≤ n) : G.Unused (insert3DStoreFor S n v j) where
  fresh I hI := hn.trans (id_insert3DStoreFor hI).1
  nodup := by
    rw [map_id_insert3DStoreFor]
    exact List.nodup_range.map fun _ _ => Nat.add_left_cancel
  phi I hI := by
    simp only [insert3DStoreFor, insert3DGepFor, List.cons_append, List.nil_append, List.mem_cons,
      List.not_mem_nil, or_false] at hI
    rcases hI with rfl | rfl | rfl | rfl | rfl | rfl | rfl | rfl | rfl | rfl <;> rfl

/-- An entry is replaced if it is `i`, and there is a load in its block. -/
theorem loadedIncoming_cases : loadedIncoming Loads i b v = v ∧
      (v = .inst i → ∀ l ∈ Loads, l.1 ≠ b) ∨
    v = .inst i ∧ ∃ l ∈ Loads, l.1 = b ∧ loadedIncoming Loads i b v = .inst l.2 := by
  rw [loadedIncoming]
  cases hfind : Loads.find? (·.1 = b) with
  | none =>
    refine .inl ⟨rfl, fun _ l hl hlb => ?_⟩
    exact List.find?_eq_none.mp hfind l hl (decide_eq_true hlb)
  | some l =>
    by_cases hv : v = .inst i
    · refine .inr ⟨hv, l, List.mem_of_find?_eq_some hfind, ?_, if_pos hv⟩
      simpa using List.find?_some hfind
    · exact .inl ⟨if_neg hv, fun h => absurd h hv⟩

namespace Reloads

theorem eq_inst (h : Reloads S Point Slot i F ns sp)
    (hq : F.ReadsAt u q) (huse : sp.use u q v = .inst i) : v = .inst i := by
  rcases h.use u q v hq with heq | ⟨hv, -⟩
  · rw [← heq, huse]
  · exact hv

/-- One more load in front of a place that needs it. -/
theorem addBefore (h : Reloads S Point Slot i F ns sp) (hneed : F.Needs i j)
    (hlater : Slot.id < n) (hordered : ∀ m ∈ ns j, m + 10 ≤ n) :
    Reloads S Point Slot i F (fun l => if l = j then ns l ++ [n] else ns l)
      (sp.addBefore j (insert3DLoadFor S n Slot)) where
  gone := h.gone
  top := h.top
  after := h.after
  before l := by
    rw [Splice.addBefore]
    dsimp only
    split
    · rw [h.before, List.flatMap_append, List.append_assoc, List.flatMap_singleton]
    · exact h.before l
  ordered l := by
    split
    · rename_i hl
      subst hl
      exact List.pairwise_append.mpr ⟨h.ordered l, List.pairwise_singleton .., fun m hm k hk =>
        List.mem_singleton.mp hk ▸ hordered m hm⟩
    · exact h.ordered l
  later l := by
    split
    · exact List.forall_mem_append.mpr ⟨h.later l, fun k hk => List.mem_singleton.mp hk ▸ hlater⟩
    · exact h.later l
  needed l hl := by
    split at hl
    · rename_i hlj
      exact hlj ▸ hneed
    · exact h.needed l hl
  use u q v hq := by
    rcases h.use u q v hq with heq | ⟨hv, k, hk, huse⟩
    · exact .inl heq
    · refine .inr ⟨hv, k, ?_, huse⟩
      split
      · exact List.mem_append_left _ hk
      · exact hk

/-- One user reads loaded values. -/
theorem mapUse {f : Option BlockId → Value → Value} (h : Reloads S Point Slot i F ns sp)
    (hf : ∀ q v, F.ReadsAt u q → f q v = v ∨
      v = .inst i ∧ ∃ n ∈ ns (F.place u q), f q v = .inst (n + 9)) :
    Reloads S Point Slot i F ns (sp.mapUse u f) where
  gone := h.gone
  top := h.top
  after := h.after
  before := h.before
  ordered := h.ordered
  later := h.later
  needed := h.needed
  use k q v hq := by
    rw [Splice.mapUse]
    dsimp only
    split
    · rename_i hk
      subst hk
      rcases hf q (sp.use k q v) hq with heq | ⟨hv, n, hn, heq⟩
      · rw [heq]
        exact h.use k q v hq
      · exact .inr ⟨h.eq_inst hq hv, n, hn, heq⟩
    · exact h.use k q v hq

variable (h : Reloads S Point Slot i F ns sp) (hsp : F.Spliced sp G) (hF : F.Valid)
  (hPoint : (F.block F.entry).IsSpot Point)
include h hsp hF hPoint

omit hF in
theorem slot_lt : Slot.id < G.freshInst := by
  refine hsp.lt_freshInst F.entry_mem_layout hPoint ?_
  rw [h.before, if_pos rfl]
  exact List.mem_cons_self

theorem load (hb : b ∈ F.layout) (hj : (F.block b).IsSpot j) (hneed : F.Needs i j) :
    F.Spliced (sp.addBefore j (insert3DLoadFor S G.freshInst Slot))
        (G.updateBlock b (BasicBlock.insertAllBefore j (insert3DLoadFor S G.freshInst Slot))) ∧
      Reloads S Point Slot i F (fun l => if l = j then ns l ++ [G.freshInst] else ns l)
        (sp.addBefore j (insert3DLoadFor S G.freshInst Slot)) := by
  refine ⟨hsp.insertBefore hF h.gone hb (unused_load (Nat.le_refl _)) hj,
    h.addBefore hneed (h.slot_lt hsp hPoint) fun m hm => ?_⟩
  have hlast : (⟨m + 9, LoopInserter.elementType Slot, .load (.inst (m + 8))⟩ : Instruction) ∈
      sp.before j := by
    rw [h.before]
    exact List.mem_append_right _ (List.mem_flatMap.mpr
      ⟨m, hm, List.mem_append_right _ List.mem_cons_self⟩)
  exact hsp.lt_freshInst hb hj hlast

/-- The loop over the entries of a PHI. -/
theorem foldl_loadIncoming (hps : ∀ p ∈ ps, p.1 = .inst i →
      p.2 ∈ F.layout ∧ F.Needs i (F.block p.2).termId)
    (hLoads : ∀ l ∈ Loads, ∃ n ∈ ns (F.block l.1).termId, l.2 = n + 9) : ∃ ns' sp',
    F.Spliced sp' (ps.foldl (loadIncoming S Slot i) (G, Loads)).1 ∧
      Reloads S Point Slot i F ns' sp' ∧ sp'.use = sp.use ∧
      (∀ l ∈ (ps.foldl (loadIncoming S Slot i) (G, Loads)).2,
        ∃ n ∈ ns' (F.block l.1).termId, l.2 = n + 9) ∧
      Loads ⊆ (ps.foldl (loadIncoming S Slot i) (G, Loads)).2 ∧
      ∀ p ∈ ps, p.1 = .inst i →
        ∃ l ∈ (ps.foldl (loadIncoming S Slot i) (G, Loads)).2, l.1 = p.2 := by
  induction ps generalizing G sp ns Loads with
  | nil =>
    exact ⟨ns, sp, hsp, h, rfl, hLoads, List.Subset.refl _, fun p hp => absurd hp List.not_mem_nil⟩
  | cons p ps ih =>
    obtain ⟨hp, hps⟩ := List.forall_mem_cons.mp hps
    rw [List.foldl_cons]
    by_cases hload : p.1 = .inst i ∧ (Loads.find? (·.1 = p.2)).isNone
    · obtain ⟨hb, hneed⟩ := hp hload.1
      obtain ⟨hsp', h'⟩ := h.load hsp hF hPoint hb (.inl rfl) hneed
      rw [loadIncoming, if_pos hload]
      dsimp only
      rw [hsp.termId hb]
      have hLoads' : ∀ l ∈ (p.2, G.freshInst + 9) :: Loads,
          ∃ n ∈ if (F.block l.1).termId = (F.block p.2).termId then
            ns (F.block l.1).termId ++ [G.freshInst] else ns (F.block l.1).termId, l.2 = n + 9 := by
        refine List.forall_mem_cons.mpr ⟨⟨G.freshInst, by simp, rfl⟩, fun l hl => ?_⟩
        obtain ⟨n, hn, heq⟩ := hLoads l hl
        refine ⟨n, ?_, heq⟩
        split
        · exact List.mem_append_left _ hn
        · exact hn
      obtain ⟨ns', sp', hsp'', h'', huse, hall, hsub, hdone⟩ := ih h' hsp' hps hLoads'
      exact ⟨ns', sp', hsp'', h'', huse, hall, fun l hl => hsub (List.mem_cons_of_mem _ hl),
        List.forall_mem_cons.mpr ⟨fun _ => ⟨_, hsub List.mem_cons_self, rfl⟩, hdone⟩⟩
    · rw [loadIncoming, if_neg hload]
      obtain ⟨ns', sp', hsp', h', huse, hall, hsub, hdone⟩ := ih h hsp hps hLoads
      refine ⟨ns', sp', hsp', h', huse, hall, hsub, List.forall_mem_cons.mpr ⟨fun hpi => ?_, hdone⟩⟩
      obtain ⟨l, hl⟩ := Option.ne_none_iff_exists'.mp fun hnone =>
        hload ⟨hpi, Option.isNone_iff_eq_none.mpr hnone⟩
      refine ⟨l, hsub (List.mem_of_find?_eq_some hl), ?_⟩
      simpa using List.find?_some hl

/-- A PHI. -/
theorem reloadUser_phi (hi : i < Slot.id) (hb : b ∈ F.layout) (hJ : J ∈ (F.block b).insts)
    (hphi : J.op.isPhi) : ∃ ns' sp', F.Spliced sp' (reloadUser S Slot i G J.id) ∧
      Reloads S Point Slot i F ns' sp' ∧ F.Reloaded i J.id sp' ∧
      ∀ u, u ≠ J.id → sp'.use u = sp.use u := by
  obtain ⟨u, ty, op⟩ := J
  cases op with
  | phi ps =>
    have hu : u ∈ (F.block b).instIds := List.mem_append_left _ (List.mem_map_of_mem hJ)
    have hblock := hsp.blockOf h.gone hb hu
    have hfind := hsp.find hb hJ (h.gone ▸ List.not_mem_nil)
    let ps' := ps.map fun p => (sp.use u (some p.2) p.1, p.2)
    have hps : ∀ p ∈ ps', p.1 = .inst i → p.2 ∈ F.layout ∧ F.Needs i (F.block p.2).termId := by
      intro p hp hpi
      obtain ⟨⟨v, q⟩, hmem, rfl⟩ := List.mem_map.mp hp
      obtain rfl : v = .inst i := h.eq_inst (.inr ⟨b, hb, _, hJ, rfl, rfl⟩) hpi
      exact ⟨hF.incoming b hb _ hJ q (List.mem_map_of_mem hmem), .phi hb hJ hmem⟩
    obtain ⟨ns', sp', hsp', h', huse, hall, -, hdone⟩ := h.foldl_loadIncoming hsp hF hPoint hps
      (fun l hl => absurd hl List.not_mem_nil)
    have hedit := hsp'.setIncomingValues
      (f := loadedIncoming (ps'.foldl (loadIncoming S Slot i) (G, [])).2 i) hF hb hJ rfl
    have hread : reloadUser S Slot i G u = (ps'.foldl (loadIncoming S Slot i) (G, [])).1.updateBlock b
        (setIncomingValues u (loadedIncoming (ps'.foldl (loadIncoming S Slot i) (G, [])).2 i)) := by
      rw [reloadUser, hblock]
      dsimp only
      rw [hfind]
      rfl
    refine ⟨ns', _, hread ▸ hedit, h'.mapUse fun q v _ => ?_,
      ⟨fun c hc I hI hid => ?_, fun c hc hid => ?_⟩,
      fun k hk => ?_⟩
    · cases q with
      | none => exact .inl rfl
      | some q =>
        rcases @loadedIncoming_cases i q (ps'.foldl (loadIncoming S Slot i) (G, [])).2 v with
          ⟨heq, -⟩ | ⟨hv, l, hl, rfl, heq⟩
        · exact .inl heq
        · obtain ⟨n, hn, hln⟩ := hall l hl
          exact .inr ⟨hv, n, hn, heq.trans (hln ▸ rfl)⟩
    · obtain rfl := F.inst_eq_of_id hF.ids hc hb hI hJ hid
      rw [Splice.inst_mapUse rfl]
      intro hread
      obtain ⟨p, hp, heq⟩ := List.mem_map.mp hread
      obtain ⟨p, hmem, rfl⟩ := List.mem_map.mp hp
      have heq : loadedIncoming (ps'.foldl (loadIncoming S Slot i) (G, [])).2 i p.2
        (sp'.use u (some p.2) p.1) = .inst i := heq
      rw [huse] at heq
      rcases @loadedIncoming_cases i p.2 (ps'.foldl (loadIncoming S Slot i) (G, [])).2
        (sp.use u (some p.2) p.1) with ⟨hsame, hnone⟩ | ⟨-, l, hl, -, hload⟩
      · have hold := hsame.symm.trans heq
        obtain ⟨l, hl, hlp⟩ := hdone _ (List.mem_map_of_mem hmem) hold
        exact hnone hold l hl hlp
      · obtain ⟨n, hn, hln⟩ := hall l hl
        have hin : l.2 = i := Value.inst.inj (hload.symm.trans heq)
        have hlt : i < n := hi.trans (h'.later _ n hn)
        exact absurd (hlt.trans_le ((Nat.le_add_right n 9).trans_eq (hln.symm.trans hin)))
          (Nat.lt_irrefl i)
    · exact absurd hid.symm (F.termId_ne hF hc hb hJ)
    · exact (Splice.use_mapUse_ne hk).trans (congrFun huse k)
  | _ => cases hphi

/-- Another instruction, or a terminator. -/
theorem reloadUser_spot (hi : i < Slot.id) (hb : b ∈ F.layout) (hu : (F.block b).IsSpot u)
    (hneed : F.Needs i u) : ∃ ns' sp', F.Spliced sp' (reloadUser S Slot i G u) ∧
      Reloads S Point Slot i F ns' sp' ∧ F.Reloaded i u sp' ∧
      ∀ k, k ≠ u → sp'.use k = sp.use k := by
  have hblock := hsp.blockOf h.gone hb hu.mem
  obtain ⟨hsp₁, h₁⟩ := h.load hsp hF hPoint hb hu hneed
  have hsp₂ := hsp₁.replaceUsesIn (k := Value.replace i (.inst (G.freshInst + 9))) hF hb hu.mem
  have hlt : i ≠ G.freshInst + 9 := Nat.ne_of_lt
    ((hi.trans (h.slot_lt hsp hPoint)).trans_le (Nat.le_add_right _ 9))
  have hnever : ∀ {f : Value → Value} {vs : List Value},
      .inst i ∉ vs.map fun v => Value.replace i (.inst (G.freshInst + 9)) (f v) := by
    intro f vs hmem
    obtain ⟨v, -, hv⟩ := List.mem_map.mp hmem
    rw [Value.replace] at hv
    split at hv
    · exact hlt (Value.inst.inj hv).symm
    · contradiction
  have hread : reloadUser S Slot i G u =
      (G.updateBlock b (BasicBlock.insertAllBefore u
        (insert3DLoadFor S G.freshInst Slot))).updateBlock b
        (BasicBlock.replaceUsesIn u (Value.replace i (.inst (G.freshInst + 9)))) := by
    rw [reloadUser, hblock]
    dsimp only
    split
    · rename_i id ty incoming hfind
      rcases hu with rfl | ⟨J, hJ, hphi, rfl⟩
      · cases hfind.symm.trans (hsp.find_term hb)
      · have hinst := hfind.symm.trans (hsp.find hb hJ (h.gone ▸ List.not_mem_nil))
        have hop : (sp.inst J).op.isPhi = true := by rw [← Option.some.inj hinst]; rfl
        exact absurd (hphi.symm.trans (Splice.isPhi_inst.symm.trans hop)) Bool.false_ne_true
    · rfl
  refine ⟨_, _, hread ▸ hsp₂, h₁.mapUse fun q v hq => ?_, ⟨fun c hc I hI hid => ?_, fun c hc hid => ?_⟩,
    fun k hk => ?_⟩
  · rcases hq with rfl | ⟨c, hc, J, hJ, hid, hphi⟩
    · by_cases hv : v = .inst i
      · refine .inr ⟨hv, G.freshInst, ?_, if_pos hv⟩
        rw [Function.place, if_pos rfl]
        exact List.mem_append_right _ List.mem_cons_self
      · exact .inl (if_neg hv)
    · exact absurd hphi (Bool.eq_false_iff.mp (hu.not_phi hF hb hc hJ hid))
  · intro hread
    rw [Splice.inst_mapUse hid, Op.mapUses_of_not_phi (hu.not_phi hF hb hc hI hid),
      Op.operands_mapValues] at hread
    exact hnever hread
  · intro hread
    rw [Splice.use_mapUse, Terminator.operands_mapValues] at hread
    exact hnever hread
  · exact Splice.use_mapUse_ne hk

theorem reloadUser (hi : i < Slot.id) (hu : u ∈ F.useList i) : ∃ ns' sp',
    F.Spliced sp' (reloadUser S Slot i G u) ∧ Reloads S Point Slot i F ns' sp' ∧
      F.Reloaded i u sp' ∧ ∀ k, k ≠ u → sp'.use k = sp.use k := by
  obtain ⟨b, hb, hu⟩ := List.mem_flatMap.mp hu
  rcases List.mem_append.mp hu with hu | hu
  · obtain ⟨J, hJ, hu⟩ := List.mem_flatMap.mp hu
    obtain ⟨v, hv, rfl⟩ := List.mem_map.mp hu
    obtain ⟨hv, hvi⟩ := List.mem_filter.mp hv
    obtain rfl := of_decide_eq_true hvi
    cases hphi : J.op.isPhi with
    | true => exact h.reloadUser_phi hsp hF hPoint hi hb hJ hphi
    | false =>
      exact h.reloadUser_spot hsp hF hPoint hi hb (.inr ⟨J, hJ, hphi, rfl⟩) (.inst hb hJ hphi hv)
  · obtain ⟨v, hv, rfl⟩ := List.mem_map.mp hu
    obtain ⟨hv, hvi⟩ := List.mem_filter.mp hv
    obtain rfl := of_decide_eq_true hvi
    exact h.reloadUser_spot hsp hF hPoint hi hb (.inl rfl) (.term hb hv)

/-- The loop over the users. -/
theorem foldl_reloadUser {us : List InstId} (hi : i < Slot.id) (hus : ∀ u ∈ us, u ∈ F.useList i) :
    ∃ ns' sp', F.Spliced sp' (us.foldl (ContextSpill.reloadUser S Slot i) G) ∧
      Reloads S Point Slot i F ns' sp' ∧ (∀ u ∈ us, F.Reloaded i u sp') ∧
      ∀ k, k ∉ us → sp'.use k = sp.use k := by
  induction us generalizing G ns sp with
  | nil => exact ⟨ns, sp, hsp, h, fun u hu => absurd hu List.not_mem_nil, fun _ _ => rfl⟩
  | cons u us ih =>
    obtain ⟨hu, hus⟩ := List.forall_mem_cons.mp hus
    obtain ⟨ns₁, sp₁, hsp₁, h₁, hu₁, hother₁⟩ := h.reloadUser hsp hF hPoint hi hu
    obtain ⟨ns₂, sp₂, hsp₂, h₂, hus₂, hother₂⟩ := ih h₁ hsp₁ hus
    refine ⟨ns₂, sp₂, hsp₂, h₂, List.forall_mem_cons.mpr ⟨?_, hus₂⟩, fun k hk => ?_⟩
    · by_cases hmem : u ∈ us
      · exact hus₂ u hmem
      · exact hu₁.congr (hother₂ u hmem)
    · rw [List.mem_cons, not_or] at hk
      exact (hother₂ k hk.2).trans (hother₁ k hk.1)

end Reloads

/-- The store behind the value, and the rest. -/
theorem spliced_demoteRegToStack {users : Function → InstId → List InstId} (hF : F.Valid)
    (hPoint : (F.block F.entry).IsSpot Point) (hb : b ∈ F.layout) (hI : I ∈ (F.block b).insts)
    (hne : users F I.id ≠ []) (hus : ∀ u ∈ users F I.id, u ∈ F.useList I.id) : ∃ ns sp n,
    Reloads S Point (insert3DAllocaFor S F.freshInst I) I.id F ns sp ∧ F.freshInst < n ∧
      (∀ u ∈ users F I.id, F.Reloaded I.id u sp) ∧
      F.Spliced (sp.store b I (insert3DStoreFor S n (.inst I.id) F.freshInst))
        (DemoteRegToStack S Point users F I.id) := by
  have hId : I.id ∈ (F.block b).instIds := List.mem_append_left _ (List.mem_map_of_mem hI)
  have hblock := F.blockOf_eq_some hF.ids hb hId
  have hfind := Function.find_of_mem hF.ids hb hI
  have hi : I.id < F.freshInst := F.lt_freshInst (F.instIds_of_mem hb hI)
  have hunused : F.Unused [insert3DAllocaFor S F.freshInst I] := by
    refine ⟨fun J hJ => ?_, List.nodup_singleton _, fun J hJ => ?_⟩ <;> rw [List.mem_singleton.mp hJ]
    · exact Nat.le_refl _
    · rfl
  have hsp := (F.spliced_empty hF.ids).insertBefore hF rfl F.entry_mem_layout hunused hPoint
  have h : Reloads S Point (insert3DAllocaFor S F.freshInst I) I.id F (fun _ => [])
      (Splice.empty.addBefore Point [insert3DAllocaFor S F.freshInst I]) := by
    constructor
    · rfl
    · exact fun _ => rfl
    · exact fun _ => rfl
    · exact fun j => (List.append_nil _).symm
    · exact fun _ => .nil
    · exact fun _ n hn => absurd hn List.not_mem_nil
    · exact fun _ hj => absurd rfl hj
    · exact fun _ _ _ _ => .inl rfl
  obtain ⟨ns, sp, hsp', h', hus', -⟩ := h.foldl_reloadUser hsp hF hPoint hi hus
  refine ⟨ns, sp, _, h', h'.slot_lt hsp' hPoint, hus', ?_⟩
  have hstore := hsp'.insertAfter hF h'.gone hb
    (unused_store (S := S) (v := .inst I.id) (j := F.freshInst) (Nat.le_refl _)) hI
  rw [DemoteRegToStack, hblock]
  dsimp only
  rw [hfind]
  dsimp only
  rw [if_neg (c := (users F I.id).isEmpty = true) (by simpa using hne)]
  exact hstore

end

end ContextSpill

end VariOCL.IR
