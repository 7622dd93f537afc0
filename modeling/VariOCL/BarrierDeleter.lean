import VariOCL.ImplicitCdgBarriers
import VariOCL.ImplicitConditionalBarriers
import VariOCL.WellDefined

/-! barrier_deleter.cpp: the barrier calls go again. -/

namespace VariOCL.IR

namespace BarrierDeleter

/-- A call among the uses of the function `barrier`. -/
def usesBarrier (I : Instruction) : Bool :=
  match I.op with
  | .call callee args => callee == some "barrier" || args.contains (.global "barrier")
  | _ => false

def deleteIn (BB : BasicBlock) : BasicBlock :=
  { BB with insts := BB.insts.filter fun I => !usesBarrier I }

def deleteBarriers (F : Function) : Function :=
  { F with block := fun b => if b ∈ F.layout then deleteIn (F.block b) else F.block b }

/-- The functions that a module declares, and those that it defines. -/
structure Program where
  declared : List String
  functions : List Function

def Program.getFunction (M : Program) (name : String) : Bool :=
  M.declared.contains name || M.functions.any (·.name = name)

def refersToBarrier (F : Function) : Bool :=
  F.layout.any fun b =>
    ((F.block b).insts.any fun I => usesBarrier I || I.op.operands.contains (.global "barrier")) ||
      (F.block b).term.operands.contains (.global "barrier")

/-- `eraseFromParent` asserts that nothing else refers to the function. -/
def Program.eraseBarrier (M : Program) : Option Program :=
  let functions := M.functions.filter (·.name ≠ "barrier")
  if functions.any refersToBarrier then none
  else some ⟨M.declared.filter (· ≠ "barrier"), functions⟩

def runOnModule (M : Program) : Option (Program × Bool) :=
  if M.getFunction "barrier" then
    (Program.eraseBarrier ⟨M.declared, M.functions.map deleteBarriers⟩).map fun M' => (M', true)
  else some (M, false)

section
variable {F G : Function} {b : BlockId} {I : Instruction} {BB : BasicBlock} {n : InstId}

theorem block_deleteBarriers (hb : b ∈ F.layout) :
    (deleteBarriers F).block b = deleteIn (F.block b) := if_pos hb

theorem usesBarrier_of_isBarrier (h : I.isBarrier) : usesBarrier I := by
  obtain ⟨id, ty, op⟩ := I
  cases op with
  | call callee args =>
    cases callee with
    | none => cases h
    | some name =>
      have hname : name = "barrier" := by simpa [Instruction.isBarrier, Op.isBarrier] using h
      simp [usesBarrier, hname]
  | _ => cases h

theorem instIds_deleteIn_sublist (BB : BasicBlock) : (deleteIn BB).instIds.Sublist BB.instIds :=
  (List.filter_sublist.map _).append_right _

theorem instIds_deleteBarriers_sublist (F : Function) :
    (deleteBarriers F).instIds.Sublist F.instIds :=
  List.Sublist.flatMap_right _ fun b hb => by
    rw [block_deleteBarriers (F := F) hb]
    exact instIds_deleteIn_sublist (F.block b)

theorem valid_deleteBarriers (hF : F.Valid) : (deleteBarriers F).Valid := by
  refine hF.of_phis rfl rfl (fun b hb => ?_) ((instIds_deleteBarriers_sublist F).nodup hF.ids)
    (fun b hb => ?_) fun b hb I hI hphi => ?_
  · rw [Function.succs, block_deleteBarriers hb]
    rfl
  · rw [block_deleteBarriers hb]
    exact (hF.pairwise hb).sublist List.filter_sublist
  · rw [block_deleteBarriers hb] at hI
    exact ⟨I, (List.mem_filter.mp hI).1, hphi, rfl⟩

/-- A deleted call has no instruction of its number left. -/
theorem not_mem_deleteBarriers (hF : F.Valid) (hb : b ∈ F.layout) (hI : I ∈ (F.block b).insts)
    (h : usesBarrier I) : I.id ∉ (deleteBarriers F).instIds := by
  intro hmem
  obtain ⟨d, hd, hid⟩ := Function.mem_instIds.mp hmem
  rw [block_deleteBarriers (F := F) hd] at hid
  have hIb : I.id ∈ (F.block b).instIds := List.mem_append_left _ (List.mem_map_of_mem hI)
  obtain rfl := F.eq_of_mem_instIds hF.ids hd hb ((instIds_deleteIn_sublist _).subset hid) hIb
  have hn := List.nodup_append.mp (hF.instIds_nodup hd)
  rcases List.mem_append.mp hid with hid | hid
  · obtain ⟨J, hJ, heq⟩ := List.mem_map.mp hid
    obtain ⟨hJ, hkeep⟩ := List.mem_filter.mp hJ
    rw [List.inj_on_of_nodup_map hn.1 hJ hI heq, h] at hkeep
    cases hkeep
  · exact hn.2.2 _ (List.mem_map_of_mem hI) _ hid rfl

theorem sameOn_deleteBarriers (hF : F.Valid) : (deleteBarriers F).SameOn
    (fun e => decide (e.id ∈ (deleteBarriers F).instIds)) F := by
  refine Function.SameOn.symm ⟨fun b => ?_, fun b => ?_, fun b pred => ?_⟩
  · rw [deleteBarriers]
    dsimp only
    split <;> rfl
  · rw [deleteBarriers]
    dsimp only
    split <;> rfl
  · by_cases hb : b ∈ F.layout
    · rw [block_deleteBarriers hb, BasicBlock.events, BasicBlock.events, deleteIn,
        List.filter_map, List.filter_map, List.filter_filter]
      refine congrArg _ (List.filter_congr fun I hI => ?_)
      simp only [Function.comp_apply, Instruction.id_event]
      cases hI' : usesBarrier I with
      | false => rw [Bool.not_false, Bool.and_true]
      | true => simpa using not_mem_deleteBarriers hF hb hI hI'
    · rw [deleteBarriers]
      dsimp only
      rw [if_neg hb]

/-- No barrier is left, and the other instructions are executed as before. -/
theorem deleteBarriers_traces (F : Function) (hF : F.Valid) : (deleteBarriers F).Valid ∧
    (∀ b ∈ (deleteBarriers F).layout, hasBarrier ((deleteBarriers F).block b) = false) ∧
      (deleteBarriers F).traces = F.tracesOn (deleteBarriers F).instIds := by
  have hvalid := valid_deleteBarriers hF
  refine ⟨hvalid, fun b hb => ?_, ?_⟩
  · rw [block_deleteBarriers (F := F) hb]
    refine List.any_eq_false.mpr fun I hI hbar => ?_
    rw [deleteIn, List.mem_filter, usesBarrier_of_isBarrier hbar] at hI
    cases hI.2
  · rw [← hvalid.tracesOn_instIds]
    exact ((sameOn_deleteBarriers hF).tracesOn_eq rfl).symm

/-! ### Barriers that were put in -/

theorem deleteBarriers_updateBlock {f : BasicBlock → BasicBlock}
    (h : deleteIn (f (F.block b)) = deleteIn (F.block b)) (hb : b ∈ F.layout) :
    deleteBarriers (F.updateBlock b f) = deleteBarriers F := by
  rw [deleteBarriers, deleteBarriers]
  refine congrArg (Function.mk F.name F.entry F.rest) (funext fun x => ?_)
  by_cases hx : x = b
  · subst hx
    rw [F.layout_updateBlock, if_pos hb, if_pos hb, F.block_updateBlock, h]
  · rw [F.layout_updateBlock, F.block_updateBlock_ne f hx]

theorem deleteIn_insert {pre post : List Instruction} (hinsts : BB.insts = pre ++ post) :
    deleteIn { BB with insts := pre ++ barrierCall n :: post } = deleteIn BB := by
  rw [deleteIn, deleteIn, hinsts, List.filter_append, List.filter_append, List.filter_cons]
  rfl

theorem deleteBarriers_atFirstNonPHI (hb : b ∈ F.layout) :
    deleteBarriers (F.createBarrierAtFirstNonPHI b) = deleteBarriers F :=
  deleteBarriers_updateBlock (deleteIn_insert (List.takeWhile_append_dropWhile ..).symm) hb

theorem deleteBarriers_beforeTerminator (hb : b ∈ F.layout) :
    deleteBarriers (F.createBarrierBeforeTerminator b) = deleteBarriers F :=
  deleteBarriers_updateBlock (deleteIn_insert (List.append_nil _).symm) hb

/-- `G` is `F` with barrier calls put in. -/
structure AddsBarriers (F G : Function) : Prop where
  layout : G.layout = F.layout
  succs : ∀ b, G.succs b = F.succs b
  deleted : deleteBarriers G = deleteBarriers F
  has : ∀ b, hasBarrier (F.block b) → hasBarrier (G.block b)
  ends : ∀ b, endsWithBarrier (F.block b) → endsWithBarrier (G.block b)
  keeps : F.Valid → F.Keeps G
  wellDefined : F.WellDefined → G.WellDefined

theorem AddsBarriers.refl (F : Function) : AddsBarriers F F :=
  ⟨rfl, fun _ => rfl, rfl, fun _ h => h, fun _ h => h, .refl, fun h => h⟩

theorem AddsBarriers.trans {H : Function} (h : AddsBarriers F G) (h' : AddsBarriers G H) :
    AddsBarriers F H where
  layout := h'.layout.trans h.layout
  succs b := (h'.succs b).trans (h.succs b)
  deleted := h'.deleted.trans h.deleted
  has b hb := h'.has b (h.has b hb)
  ends b hb := h'.ends b (h.ends b hb)
  keeps hF := (h.keeps hF).trans (h'.keeps (h.keeps hF).valid)
  wellDefined hF := h'.wellDefined (h.wellDefined hF)

theorem endsWithBarrier_iff : endsWithBarrier BB ↔ ∃ I ∈ BB.insts.getLast?, I.isBarrier := by
  rw [endsWithBarrier, BasicBlock.size]
  cases h : BB.insts.getLast? with
  | none => simp
  | some I =>
    have hpos : 0 < BB.insts.length := List.length_pos_of_mem (List.mem_of_getLast? h)
    simp [hpos]

theorem hasBarrier_of_endsWithBarrier (h : endsWithBarrier BB) : hasBarrier BB := by
  obtain ⟨I, hI, hbar⟩ := endsWithBarrier_iff.mp h
  exact List.any_eq_true.mpr ⟨I, List.mem_of_getLast? hI, hbar⟩

theorem addsBarriers_atFirstNonPHI (hb : b ∈ F.layout) :
    AddsBarriers F (F.createBarrierAtFirstNonPHI b) where
  layout := rfl
  succs x := by rw [Function.succs, (F.barrierAdded_firstNonPHI b).term, Function.succs]
  deleted := deleteBarriers_atFirstNonPHI hb
  has x h := by
    by_cases hx : x = b
    · subst hx
      exact List.any_eq_true.mpr ⟨_, ((F.barrierAdded_firstNonPHI x).insts _).mpr (.inl rfl), rfl⟩
    · rwa [(F.barrierAdded_firstNonPHI b).other x hx]
  ends x h := by
    by_cases hx : x = b
    · subst hx
      obtain ⟨I, hI, hbar⟩ := endsWithBarrier_iff.mp h
      refine endsWithBarrier_iff.mpr ?_
      rw [Function.createBarrierAtFirstNonPHI, F.block_updateBlock, BasicBlock.insertAtFirstNonPHI]
      rw [← List.takeWhile_append_dropWhile (p := (·.op.isPhi)) (l := (F.block x).insts)] at hI
      cases hrest : (F.block x).insts.dropWhile (·.op.isPhi) with
      | nil => exact ⟨barrierCall F.freshInst, by simp, rfl⟩
      | cons J Js =>
        rw [hrest] at hI
        exact ⟨I, by simpa using hI, hbar⟩
    · rwa [(F.barrierAdded_firstNonPHI b).other x hx]
  keeps hF := hF.keeps_atFirstNonPHI hb
  wellDefined hF := hF.createBarrierAtFirstNonPHI hb

theorem endsWithBarrier_beforeTerminator (F : Function) (b : BlockId) :
    endsWithBarrier ((F.createBarrierBeforeTerminator b).block b) := by
  rw [endsWithBarrier_iff, Function.createBarrierBeforeTerminator, F.block_updateBlock]
  exact ⟨barrierCall F.freshInst, by simp [BasicBlock.insertBeforeTerminator], rfl⟩

theorem addsBarriers_beforeTerminator (hb : b ∈ F.layout) :
    AddsBarriers F (F.createBarrierBeforeTerminator b) where
  layout := rfl
  succs x := by rw [Function.succs, (F.barrierAdded_beforeTerminator b).term, Function.succs]
  deleted := deleteBarriers_beforeTerminator hb
  has x h := by
    by_cases hx : x = b
    · subst hx
      exact hasBarrier_of_endsWithBarrier (endsWithBarrier_beforeTerminator F x)
    · rwa [(F.barrierAdded_beforeTerminator b).other x hx]
  ends x h := by
    by_cases hx : x = b
    · subst hx
      exact endsWithBarrier_beforeTerminator F x
    · rwa [(F.barrierAdded_beforeTerminator b).other x hx]
  keeps hF := hF.keeps_beforeTerminator hb
  wellDefined hF := hF.createBarrierBeforeTerminator hb

theorem AddsBarriers.atFirstNonPHI (h : AddsBarriers F G) (hb : b ∈ F.layout) :
    AddsBarriers F (G.createBarrierAtFirstNonPHI b) :=
  h.trans (addsBarriers_atFirstNonPHI (h.layout ▸ hb))

theorem AddsBarriers.beforeTerminator (h : AddsBarriers F G) (hb : b ∈ F.layout) :
    AddsBarriers F (G.createBarrierBeforeTerminator b) :=
  h.trans (addsBarriers_beforeTerminator (h.layout ▸ hb))

theorem AddsBarriers.foldl {bs : List BlockId} (h : AddsBarriers F G) (hbs : ∀ b ∈ bs, b ∈ F.layout)
    {g : Function → BlockId → Function}
    (hstep : ∀ H, AddsBarriers F H → ∀ b ∈ F.layout, AddsBarriers F (g H b)) :
    AddsBarriers F (bs.foldl g G) := by
  induction bs generalizing G with
  | nil => exact h
  | cons b bs ih =>
    obtain ⟨hb, hbs⟩ := List.forall_mem_cons.mp hbs
    exact ih (hstep G h b hb) hbs

/-! ### The passes -/

theorem addsBarriers_implicitCdg (hF : F.Closed) :
    AddsBarriers F (ImplicitCdgBarriers.runOnFunction F) := by
  refine (AddsBarriers.refl F).foldl (fun b hb => (ImplicitCdgBarriers.mem_BBsCtrl.mp hb).1)
    fun H hH b hb => ?_
  have hends := (hH.atFirstNonPHI hb).beforeTerminator hb
  rw [ImplicitCdgBarriers.insertAround]
  split
  · exact hends
  · refine hends.foldl (fun d hd => hF b hb d ?_) fun H hH d hd => hH.atFirstNonPHI hd
    rwa [hends.succs] at hd

section
variable {preds : BlockId → List BlockId} {pos pred : BlockId} {fuel : Nat}
  {p : BlockId × BlockId} (hpreds : ∀ x, ∀ y ∈ preds x, y ∈ F.layout)
include hpreds

theorem mem_of_locate {q : Option BlockId} (hpos : pos ∈ F.layout) (hq : ∀ x ∈ q, x ∈ F.layout)
    (h : ImplicitConditionalBarriers.locate F preds G b fuel pos q = .ok p) : p.1 ∈ F.layout := by
  induction fuel generalizing pos q with
  | zero => cases h
  | succ n ih =>
    cases q with
    | none => cases h
    | some pred =>
      have hpred := hq pred rfl
      rw [ImplicitConditionalBarriers.locate] at h
      split at h
      · split at h
        · cases h
          exact hpred
        · exact ih hpred (fun x hx => hpreds pred x (List.mem_of_find?_eq_some hx)) h
      · cases h
        exact hpos

theorem addsBarriers_addBarrier {G' : Function} (h : AddsBarriers F G) (hb : b ∈ F.layout)
    (hadd : ImplicitConditionalBarriers.addBarrier F preds fuel G b = .ok G') :
    AddsBarriers F G' := by
  rw [ImplicitConditionalBarriers.addBarrier] at hadd
  cases hloc : ImplicitConditionalBarriers.locate F preds G b fuel b
      (ImplicitConditionalBarriers.firstNonBackedgePredecessor F preds b) with
  | error e =>
    rw [hloc] at hadd
    cases hadd
  | ok p =>
    have hpos := mem_of_locate hpreds hb
      (fun x hx => hpreds b x (List.mem_of_find?_eq_some hx)) hloc
    rw [hloc] at hadd
    obtain ⟨pos, pred⟩ := p
    dsimp only [bind, Except.bind] at hadd
    split at hadd
    · cases hadd
      exact h
    · cases hadd
      exact h.atFirstNonPHI hpos

theorem addsBarriers_implicitConditional
    (h : ImplicitConditionalBarriers.runOnFunction F preds fuel = .ok G) : AddsBarriers F G := by
  have key : ∀ (bs : List BlockId) (H : Function), AddsBarriers F H → (∀ b ∈ bs, b ∈ F.layout) →
      bs.foldlM (ImplicitConditionalBarriers.addBarrier F preds fuel) H = .ok G →
        AddsBarriers F G := by
    intro bs
    induction bs with
    | nil =>
      intro H hH _ hrun
      cases hrun
      exact hH
    | cons b bs ih =>
      intro H hH hbs hrun
      obtain ⟨hb, hbs⟩ := List.forall_mem_cons.mp hbs
      rw [List.foldlM_cons] at hrun
      cases hadd : ImplicitConditionalBarriers.addBarrier F preds fuel H b with
      | error e =>
        rw [hadd] at hrun
        cases hrun
      | ok H' =>
        rw [hadd] at hrun
        exact ih H' (addsBarriers_addBarrier hpreds hH hb hadd) hbs hrun
  exact key _ F (.refl F) (fun b hb => (List.mem_filter.mp hb).1) h

end

/-- The passes that put barriers around control dependences. -/
inductive BarrierPass (F : Function) : Function → Prop
  | implicitCdg : BarrierPass F (ImplicitCdgBarriers.runOnFunction F)
  | implicitConditional {preds : BlockId → List BlockId} {fuel : Nat} {G : Function} :
      (∀ x, (preds x).Perm (F.predEdges x)) →
      ImplicitConditionalBarriers.runOnFunction F preds fuel = .ok G → BarrierPass F G

theorem BarrierPass.adds (h : BarrierPass F G) (hF : F.Closed) : AddsBarriers F G := by
  cases h with
  | implicitCdg => exact addsBarriers_implicitCdg hF
  | implicitConditional hpreds h =>
    exact addsBarriers_implicitConditional
      (fun x y hy => (F.mem_predEdges.mp ((hpreds x).mem_iff.mp hy)).1) h

theorem addsBarriers_of_passes (hF : F.Valid) (h : Relation.ReflTransGen BarrierPass F G) :
    AddsBarriers F G := by
  induction h with
  | refl => exact .refl F
  | tail _ hpass ih => exact ih.trans (hpass.adds (ih.keeps hF).valid.closed)

/-- Whatever of these passes ran, in any order, the function executes what it executed before, and the
deletion of the barriers gives the same function as if none had. -/
theorem deleteBarriers_of_passes (hF : F.Valid) (h : Relation.ReflTransGen BarrierPass F G) :
    G.Valid ∧ G.tracesOn F.instIds = F.traces ∧ deleteBarriers G = deleteBarriers F ∧
      (∀ b ∈ G.layout, hasBarrier ((deleteBarriers G).block b) = false) ∧
        (deleteBarriers G).traces = G.tracesOn (deleteBarriers F).instIds := by
  have hadds := addsBarriers_of_passes hF h
  have hG := hadds.keeps hF
  obtain ⟨-, hno, htraces⟩ := deleteBarriers_traces G hG.valid
  refine ⟨hG.valid, hG.all hF, hadds.deleted, hno, ?_⟩
  rwa [← hadds.deleted]

theorem deleteBarriers_of_passes_joinPastBarrier :
    ∃ G, BarrierPass ImplicitCdgBarriers.joinPastBarrier G ∧ G.Valid ∧
      G.tracesOn ImplicitCdgBarriers.joinPastBarrier.instIds =
        ImplicitCdgBarriers.joinPastBarrier.traces ∧
      deleteBarriers G = deleteBarriers ImplicitCdgBarriers.joinPastBarrier ∧
        (∀ b ∈ G.layout, hasBarrier ((deleteBarriers G).block b) = false) ∧
          (deleteBarriers G).traces =
            G.tracesOn (deleteBarriers ImplicitCdgBarriers.joinPastBarrier).instIds :=
  ⟨_, .implicitCdg, deleteBarriers_of_passes
    { nodup := by decide
      closed := by simp only [Function.Closed]; decide
      entryPreds := by decide
      ids := by decide
      phisFirst := by decide
      entryPhis := by decide
      incoming := by decide } (.single .implicitCdg)⟩

/-! ### The module -/

/-- The function `barrier` is called, and not used in any other way. -/
def OnlyCalled (F : Function) : Prop :=
  ∀ b ∈ F.layout, (∀ I ∈ (F.block b).insts, .global "barrier" ∈ I.op.operands → usesBarrier I) ∧
    .global "barrier" ∉ (F.block b).term.operands

theorem refersToBarrier_deleteBarriers :
    refersToBarrier (deleteBarriers F) = false ↔ OnlyCalled F := by
  rw [refersToBarrier, List.any_eq_false]
  refine forall₂_congr fun b hb => ?_
  rw [block_deleteBarriers (F := F) hb, Bool.or_eq_true, not_or, deleteIn]
  refine and_congr ?_ (by simp)
  simp only [List.any_eq_true, List.mem_filter, not_exists, not_and]
  refine forall_congr' fun I => ⟨fun h hI hop => ?_, fun h hI => ?_⟩
  · by_contra huses
    exact h ⟨hI, by simpa using huses⟩ (by simp [hop])
  · obtain ⟨hI, huses⟩ := hI
    have huses : usesBarrier I = false := by simpa using huses
    simpa [huses] using mt (h hI)

theorem any_refersToBarrier_eq_false {Fs : List Function} :
    ((Fs.map deleteBarriers).filter (·.name ≠ "barrier")).any refersToBarrier = false ↔
      ∀ F ∈ Fs, F.name ≠ "barrier" → OnlyCalled F := by
  rw [List.any_eq_false]
  constructor
  · intro h F hF hname
    refine refersToBarrier_deleteBarriers.mp (Bool.eq_false_iff.mpr (h _ ?_))
    exact List.mem_filter.mpr ⟨List.mem_map_of_mem hF, decide_eq_true hname⟩
  · intro h G hG
    obtain ⟨hG, hname⟩ := List.mem_filter.mp hG
    obtain ⟨F, hF, rfl⟩ := List.mem_map.mp hG
    exact Bool.eq_false_iff.mp
      (refersToBarrier_deleteBarriers.mpr (h F hF (of_decide_eq_true hname)))

/-- The pass ends, unless `barrier` is used where it is not called. -/
theorem runOnModule_isSome_iff (M : Program) : (runOnModule M).isSome ↔
    (M.getFunction "barrier" → ∀ F ∈ M.functions, F.name ≠ "barrier" → OnlyCalled F) := by
  rw [runOnModule]
  split
  · rename_i hfound
    rw [forall_prop_of_true hfound, ← any_refersToBarrier_eq_false, Option.isSome_map,
      Program.eraseBarrier]
    split
    · simp_all
    · simp_all
  · simp_all

/-- What it returns does not refer to `barrier`, and executes the rest as before. -/
theorem runOnModule_spec {M M' : Program} (hM : ∀ F ∈ M.functions, F.Valid)
    (h : runOnModule M = some (M', true)) :
    M'.getFunction "barrier" = false ∧ ∀ G ∈ M'.functions, refersToBarrier G = false ∧ G.Valid ∧
      ∃ F ∈ M.functions, G = deleteBarriers F ∧ G.traces = F.tracesOn G.instIds := by
  rw [runOnModule] at h
  split at h
  · rw [Program.eraseBarrier] at h
    dsimp only at h
    split at h
    · cases h
    · rename_i hrefers
      cases h
      rw [Bool.not_eq_true, List.any_eq_false] at hrefers
      refine ⟨by simp [Program.getFunction], fun G hG => ?_⟩
      have hno := Bool.eq_false_iff.mpr (hrefers G hG)
      obtain ⟨hG, -⟩ := List.mem_filter.mp hG
      obtain ⟨F, hF, rfl⟩ := List.mem_map.mp hG
      obtain ⟨hvalid, -, htraces⟩ := deleteBarriers_traces F (hM F hF)
      exact ⟨hno, hvalid, F, hF, rfl, htraces⟩
  · cases h

/-- Whatever of the passes ran on its functions, the module becomes the same as if none had. -/
theorem runOnModule_of_passes {M N : Program} (hM : ∀ F ∈ M.functions, F.Valid)
    (h : List.Forall₂ (Relation.ReflTransGen BarrierPass) M.functions N.functions)
    (hN : "barrier" ∈ N.declared) : runOnModule N = runOnModule ⟨N.declared, M.functions⟩ := by
  have hdeleted : N.functions.map deleteBarriers = M.functions.map deleteBarriers := by
    generalize M.functions = Fs at hM h
    generalize N.functions = Gs at h
    induction h with
    | nil => rfl
    | @cons F G Fs Gs hpass _ ih =>
      obtain ⟨hF, hFs⟩ := List.forall_mem_cons.mp hM
      rw [List.map_cons, List.map_cons, ih hFs, (addsBarriers_of_passes hF hpass).deleted]
  have hfound : ∀ Fs, Program.getFunction ⟨N.declared, Fs⟩ "barrier" := fun Fs => by
    simp [Program.getFunction, hN]
  rw [runOnModule, runOnModule, if_pos (hfound _), if_pos (hfound _)]
  dsimp only
  rw [hdeleted]

end

end BarrierDeleter

end VariOCL.IR
