import VariOCL.ContextSpill.Steps

/-! Each run of a function is one of the function with its values and PHIs in slots. -/

namespace VariOCL.IR.ContextSpill

open Sim LoopInserter
open BreakPhi (SSA)

section
variable {ι Val : Type} [DecidableEq ι] [Nonempty ι] [DecidableEq Val] {M : ι → Machine Val}
  {w : ι → WorkItem Val} {num : Nat → Val} {lid : ι → Dims} {lsz : Dims} {base : InstId → Val}
  {cell : ι → InstId → Val} {F G : Function} {i n : InstId} {slots new : List Instruction}
  {keep : Act Val → Bool} {X : InstId → Prop} {P : Val → Prop}

/-- What a step leaves for the next one. -/
structure Onto {ι Val : Type} [DecidableEq ι] [DecidableEq Val] (M : ι → Machine Val)
    (w : ι → WorkItem Val) (cell : ι → InstId → Val) (keep : Act Val → Bool) (X : InstId → Prop)
    (P : Val → Prop) (F₀ : Function) (n : InstId) (slots : List Instruction) (F : Function) : Prop where
  ready : Ready n slots F
  spills : F₀.Spills M w cell keep X P F
  values : ∀ j, X j → j ∈ F.instIds ∧ j ∉ phiInsts F
  dropped : ∀ x : Act Val, x.id ∈ phiInsts F → keep x = false

section
variable (hM : ∀ v, Slots (M v) (w v) num (lid v) lsz base (cell v) n)
  (hcells : ∀ v u k l, n ≤ k → n ≤ l → cell v k = cell u l → v = u ∧ k = l) (hR : Ready n slots F)
  (hkeep : ∀ x : Act Val, n ≤ x.id → keep x = false)
  (hP : ∀ a, P a → ∀ v k, n ≤ k → a ≠ cell v k) (hX : ∀ j, X j → j ∈ F.instIds ∧ j ∉ phiInsts F)

include hcells hR hP in
omit [Nonempty ι] in
/-- The cells of the new slot are those of no other work-item, and of no slot to come. -/
theorem Ready.spills {Before : ι → Option BlockId → BlockId → State Val → State Val → Prop}
    {Rel : ι → State Val → State Val → Prop} {sp : Splice} {head body : BlockId → List Instruction}
    [Nonempty ι] (hsp : F.Spliced sp G) (hslot : F.freshInst < G.freshInst)
    (hBefore : ∀ v pred b, Steady (fun a => ∀ v, a ≠ cell v F.freshInst) (· = cell v F.freshInst)
      (Before v pred b))
    (hRel : ∀ v, Steady (fun a => ∀ v, a ≠ cell v F.freshInst) (· = cell v F.freshInst) (Rel v))
    (h : ∀ v, sp.Simulated F (M v) (w v)
      (fun x => ∀ a, x.address = some a → ∀ v, a ≠ cell v F.freshInst) keep
      (OnlyCell (cell v F.freshInst)) head body (Before v) (Rel v))
    (hstart : ∀ v m, Before v none F.entry ⟨fun _ => none, m⟩ ⟨fun _ => none, m⟩)
    (henv : ∀ v pred b s t, Before v pred b s t → ∀ j, X j → t.env j = s.env j)
    (henv' : ∀ v s t, Rel v s t → ∀ j, X j → t.env j = s.env j) : F.Spills M w cell keep X P G := by
  have hle := hR.le_freshInst
  refine Splice.Simulated.spills hBefore hRel h hsp hR.valid (fun v a ha hoff => hoff v ha)
    (fun v u a hv hu => (hcells v u _ _ hle hle (hv.symm.trans hu)).1) hstart
    (fun a hoff v => hoff v _ (Nat.le_refl _)) (fun v a ha u k hk heq => ?_) hslot.le
    (fun a ha v => hP a ha v _ hle) henv henv'
  have hkF := (hcells v u _ k hle (hle.trans (hslot.le.trans hk)) (ha.symm.trans heq)).2
  exact Nat.lt_irrefl _ (hslot.trans_le (hk.trans_eq hkF.symm))

include hM hcells hR hkeep hP hX

theorem RegStep.spills (h : RegStep n F i new G) : F.Spills M w cell keep X P G := by
  cases h with
  | @demote b I ns sp l G hb hI hlow hns hl _ hsp =>
    have hle := hR.le_freshInst
    have hslot : F.freshInst < G.freshInst := by
      refine hsp.lt_freshInst (I := insert3DAllocaFor (sizesFrom n) F.freshInst I) F.entry_mem_layout
        hR.isSpot ?_
      rw [Splice.before_store, hns.before, if_pos rfl]
      exact List.mem_cons_self
    have hsame : ∀ v s t, Saved (fun a => ∀ v, a ≠ cell v F.freshInst) n num lsz base (cell v) F I.id
        s t → ∀ j, X j → t.env j = s.env j := fun v s t h j hj =>
      h.matched.env j (hX j hj).1 List.not_mem_nil
    refine hR.spills hcells hP hsp hslot (fun v _ _ => BeforePhis.steady Saved.steady)
      (fun v => Saved.steady) (fun v => hns.simulated hR (hM v) hle (fun x hx => hkeep x (hle.trans hx))
        (fun h => h v rfl) hb hI hl rfl (hR.headed.not_mem hlow))
      (fun v m => ⟨rfl, fun _ => rfl, fun _ _ => rfl⟩) (fun v pred c s t h => ?_) hsame
    cases pred with
    | none => exact fun j _ => congrFun h.env j
    | some q => exact hsame v s t h.1

theorem PhiStep.spills (h : PhiStep n F i new G)
    (hdropped : ∀ x : Act Val, x.id ∈ phiInsts F → keep x = false) :
    F.Spills M w cell keep X P G := by
  have hi := h.mem_phiInsts
  have hready := h.ready hR
  have hle := hR.le_freshInst
  have hX' : ∀ j, X j → j ∈ F.instIds ∧ j ∉ [i] := fun j hj =>
    ⟨(hX j hj).1, fun hmem => (hX j hj).2 (List.mem_singleton.mp hmem ▸ hi)⟩
  have hkeepI : ∀ x : Act Val, x.id = i → keep x = false := fun x hx => hdropped x (hx ▸ hi)
  cases h with
  | @demote b I ns l G hb hI hphi hlow hfill hsp =>
    have hslot : F.freshInst < G.freshInst := by
      refine hsp.lt_freshInst (I := insert3DAllocaFor (sizesFrom n) F.freshInst I) F.entry_mem_layout
        hR.isSpot (List.mem_append_left _ ?_)
      rw [if_pos rfl]
      exact List.mem_cons_self
    have hsame : ∀ v s t, Loaded (fun a => ∀ v, a ≠ cell v F.freshInst) n num lsz base (cell v) F I.id
        (l + 9) s t → ∀ j, X j → t.env j = s.env j := fun v s t h j hj =>
      h.matched.env j (hX' j hj).1 (hX' j hj).2
    refine hR.spills hcells hP hsp hslot (fun v _ _ => BeforeLoad.steady Loaded.steady)
      (fun v => Loaded.steady) (fun v => hfill.simulated hR rfl (hM v) hle
        (fun x hx => hkeep x (hle.trans hx)) hb hI hphi (fun h => h v rfl) hkeepI hlow)
      (fun v m => ⟨rfl, fun _ => rfl, fun _ _ => rfl⟩) (fun v pred c s t h => ?_) hsame
    cases pred with
    | none => exact fun j _ => congrFun h.env j
    | some q => exact hsame v s t h.1
  | @erase b I hb hI hphi hlow hnone =>
    have hsp := (F.spliced_empty hR.valid.ids).erase hR.valid hb hI hphi
    have hfresh : F.freshInst ≤ (F.updateBlock b (BasicBlock.erase I.id)).freshInst := by
      refine Function.freshInst_le fun i hi => ?_
      by_cases hiI : i = I.id
      · exact hiI ▸ hlow.trans_le hready.le_freshInst
      · exact Function.lt_freshInst (hsp.mem_instIds hi fun hmem => hiI (List.mem_singleton.mp hmem))
    exact plain_erase.spills hsp hR.valid (fun i hi => List.mem_singleton.mp hi ▸ hnone)
      (fun x hx => hkeepI x (List.mem_singleton.mp hx))
      (fun _ c _ t => ⟨t, [], rfl, fun _ _ => rfl, rfl, fun _ hx => absurd hx List.not_mem_nil⟩)
      hfresh hX'

end

section
variable {F₀ : Function} (hM : ∀ v, Slots (M v) (w v) num (lid v) lsz base (cell v) n)
  (hcells : ∀ v u k l, n ≤ k → n ≤ l → cell v k = cell u l → v = u ∧ k = l)
  (hkeep : ∀ x : Act Val, n ≤ x.id → keep x = false)
  (hP : ∀ a, P a → ∀ v k, n ≤ k → a ≠ cell v k) (hF : Onto M w cell keep X P F₀ n slots F)
include hM hcells hkeep hP hF

theorem Onto.regStep (h : RegStep n F i new G) : Onto M w cell keep X P F₀ n (slots ++ new) G := by
  obtain ⟨sp, hsp, hgone, -⟩ := h.spliced
  have hphis := phiInsts_subset hsp hF.ready.valid
  exact ⟨h.ready hF.ready, hF.spills.trans (h.spills hM hcells hF.ready hkeep hP hF.values),
    fun j hj => ⟨hsp.instIds_subset hgone (hF.values j hj).1,
      fun hmem => (hF.values j hj).2 (hphis hmem)⟩,
    fun x hx => hF.dropped x (hphis hx)⟩

theorem Onto.phiStep (h : PhiStep n F i new G) : Onto M w cell keep X P F₀ n (slots ++ new) G := by
  obtain ⟨sp, hsp, hgone⟩ := h.spliced hF.ready.valid
  have hphis := phiInsts_subset hsp hF.ready.valid
  refine ⟨h.ready hF.ready,
    hF.spills.trans (h.spills hM hcells hF.ready hkeep hP hF.values hF.dropped),
    fun j hj => ⟨hsp.mem_instIds (hF.values j hj).1 fun hmem => ?_,
      fun hmem => (hF.values j hj).2 (hphis hmem)⟩,
    fun x hx => hF.dropped x (hphis hx)⟩
  exact (hF.values j hj).2 (List.mem_singleton.mp (hgone ▸ hmem) ▸ h.mem_phiInsts)

end

end

/-! ### The sizes -/

theorem execInsts_prologue {Val : Type} [DecidableEq Val] {M : Machine Val} {w : WorkItem Val}
    {num : Nat → Val} {lid lsz : Dims} {base cell : InstId → Val} {m n : InstId} {t : State Val}
    (hM : Slots M w num lid lsz base cell m) :
    ∃ t' ls, M.execInsts w (prologue n) t = some (t', ls) ∧ t'.mem = t.mem ∧
      ∀ x ∈ ls, x.address = none := by
  obtain ⟨vs, -, -, -, hemit⟩ := emits_sizes (t := t) (n := n) hM
  obtain ⟨t', ls, hexec, hwin, hls⟩ := hemit t .start
  have hpoint : ∃ x, M.execInst w (allocaPoint n) t' = some (t'.define (n + 5) x, [.value (n + 5) x]) :=
    ⟨_, Machine.execInst_of_ret [_] rfl rfl⟩
  obtain ⟨x, hx⟩ := hpoint
  have hrest : M.execInsts w [allocaPoint n] t' = some (t'.define (n + 5) x, [.value (n + 5) x]) := by
    rw [Machine.execInsts, hx]
    rfl
  exact ⟨_, _, Machine.execInsts_append_of_some hexec hrest, hwin.mem,
    List.forall_mem_append.mpr ⟨hls, List.forall_mem_singleton.mpr rfl⟩⟩

section
variable {ι Val : Type} [DecidableEq ι] [Nonempty ι] [DecidableEq Val] {M : ι → Machine Val}
  {w : ι → WorkItem Val} {num : Nat → Val} {lid : ι → Dims} {lsz : Dims} {base : InstId → Val}
  {cell : ι → InstId → Val} {F G : Function} {keep : Act Val → Bool} {X : InstId → Prop}
  {P : Val → Prop}

theorem spills_withPrologue (hF : F.Valid)
    (hM : ∀ v, Slots (M v) (w v) num (lid v) lsz base (cell v) F.freshInst)
    (hkeep : ∀ x : Act Val, F.freshInst ≤ x.id → keep x = false) (hX : ∀ j, X j → j ∈ F.instIds) :
    F.Spills M w cell keep X P (withPrologue F) := by
  have hsp := spliced_withPrologue hF
  have hplain : (Splice.empty.addTop F.entry (prologue F.freshInst)).Plain :=
    ⟨fun _ => rfl, fun _ => rfl, fun _ _ _ => rfl⟩
  refine hplain.spills hsp hF (fun i hi => absurd hi List.not_mem_nil)
    (fun x hx => absurd hx List.not_mem_nil) (fun v b hb t => ?_)
    (Function.freshInst_le fun i hi => Function.lt_freshInst (hsp.instIds_subset rfl hi))
    fun j hj => ⟨hX j hj, List.not_mem_nil⟩
  by_cases hbe : b = F.entry
  · have htop : (Splice.empty.addTop F.entry (prologue F.freshInst)).top b = prologue F.freshInst :=
      (if_pos hbe).trans (List.append_nil _)
    obtain ⟨t', ls, hexec, hmem, hls⟩ := execInsts_prologue (n := F.freshInst) (t := t) (hM v)
    rw [htop]
    refine ⟨t', ls, hexec, fun j hj => Machine.env_execInsts hexec fun hin => ?_, hmem, fun x hx =>
      ⟨hkeep x ?_, fun a ha => ?_⟩⟩
    · obtain ⟨I, hI, rfl⟩ := List.mem_map.mp hin
      exact Nat.not_lt.mpr (unused_prologue.fresh I hI) (F.lt_freshInst hj)
    · obtain ⟨I, hI, hid⟩ := List.mem_map.mp (Machine.id_of_execInsts hexec hx)
      exact hid ▸ unused_prologue.fresh I hI
    · rw [hls x hx] at ha
      cases ha
  · have htop : (Splice.empty.addTop F.entry (prologue F.freshInst)).top b = [] := if_neg hbe
    rw [htop]
    exact ⟨t, [], rfl, fun _ _ => rfl, rfl, fun _ hx => absurd hx List.not_mem_nil⟩

end

/-! ### The pass -/

/-- What `F` does, but for its PHIs. -/
def remains {Val : Type} (F : Function) (x : Act Val) : Bool :=
  decide (x.id ∈ F.instIds ∧ x.id ∉ phiInsts F)

section
variable {ι Val : Type} [DecidableEq ι] [Nonempty ι] [DecidableEq Val] {M : ι → Machine Val}
  {w : ι → WorkItem Val} {num : Nat → Val} {lid : ι → Dims} {lsz : Dims} {base : InstId → Val}
  {elem : Val → Nat → Val} {F G : Function} {users : Function → InstId → List InstId}
  (hF : SSA F) (hdef : F.OperandsDefined) (husers : ∀ H i u, u ∈ users H i ↔ u ∈ H.useList i)
  (hM : WorkGroup M w num lid lsz base elem F.freshInst) (h : runOnFunction users F = .ok G)
include hF hdef husers hM h

theorem onto_runOnFunction : ∃ slots, Onto M w (fun v => slotCell base elem lsz (lid v)) (remains F)
    (fun j => j ∈ F.instIds ∧ j ∉ phiInsts F)
    (fun a => ∀ v k, F.freshInst ≤ k → a ≠ slotCell base elem lsz (lid v) k) F F.freshInst slots G := by
  obtain ⟨slots₁, slots₂, F₁, hregs, hphis⟩ := steps_of_runOnFunction hF hdef husers h
  have hvalid := hF.valid
  have hsp := spliced_withPrologue hvalid
  have hkeep : ∀ x : Act Val, F.freshInst ≤ x.id → remains F x = false := fun x hx =>
    decide_eq_false fun h => Nat.not_lt.mpr hx (F.lt_freshInst h.1)
  have hsub := phiInsts_subset hsp hvalid
  have hstart : Onto M w (fun v => slotCell base elem lsz (lid v)) (remains F)
      (fun j => j ∈ F.instIds ∧ j ∉ phiInsts F)
      (fun a => ∀ v k, F.freshInst ≤ k → a ≠ slotCell base elem lsz (lid v) k) F F.freshInst []
      (withPrologue F) :=
    ⟨ready_withPrologue hF, spills_withPrologue hvalid hM.slots hkeep fun j hj => hj.1,
      fun j hj => ⟨hsp.instIds_subset rfl hj.1, fun hmem => hj.2 (hsub hmem)⟩,
      fun x hx => decide_eq_false fun h => h.2 (hsub hx)⟩
  have hregs := hregs.inv (C := fun _ => Onto M w _ _ _ _ F F.freshInst)
    (fun _ _ _ _ _ _ hF hstep => hF.regStep hM.slots hM.apart hkeep (fun _ ha => ha) hstep) hstart
  exact ⟨slots₂, hphis.inv (C := fun _ => Onto M w _ _ _ _ F F.freshInst)
    (fun _ _ _ _ _ _ hF hstep => hF.phiStep hM.slots hM.apart hkeep (fun _ ha => ha) hstep) hregs⟩

/-- Whatever the work-items do in `F`, in any order, they do in the function with the slots, at the
same places, and with the same values and memory, as long as they stay off the slots. -/
theorem runOnFunction_spills : F.Spills M w (fun v => slotCell base elem lsz (lid v)) (remains F)
    (fun j => j ∈ F.instIds ∧ j ∉ phiInsts F)
    (fun a => ∀ v k, F.freshInst ≤ k → a ≠ slotCell base elem lsz (lid v) k) G := by
  obtain ⟨slots, hG⟩ := onto_runOnFunction hF hdef husers hM h
  exact hG.spills

end

/-- Two PHIs that exchange their values behind a barrier; the second one is returned. -/
def swap : Function where
  name := "swap"
  entry := 0
  rest := [1, 2]
  block
    | 0 => ⟨[barrierCall 5], 0, .br 1⟩
    | 1 => ⟨[⟨1, .int 32, .phi [(.constInt 32 1, 0), (.inst 2, 1)]⟩,
        ⟨2, .int 32, .phi [(.constInt 32 0, 0), (.inst 1, 1)]⟩], 3, .condBr (.inst 1) 1 2⟩
    | _ => ⟨[], 4, .ret (some (.inst 2))⟩

/-- Two work-items; the array of the slot `i` is at the address `2 * i`. -/
def swapMachine : Machine Nat where
  atom
    | .constInt _ n => n
    | _ => 0
  eval
    | .int k, .trunc _, [a] => a % 2 ^ k
    | _, .other "add" _, [a, b] => (a + b) % 2 ^ 32
    | _, .other "mul" _, [a, b] => a * b % 2 ^ 32
    | _, .gep .., [a, b] => a + b
    | _, _, _ => 0
  truth v := v != 0
  caseOf v := v
  alloca i _ _ := .ret (2 * i)
  call
    | _, [0] => .ret 2
    | _, _ => .ret 1

def swapId (v : Bool) : WorkItem Nat
  | _, [0] => some (if v then 1 else 0)
  | _, _ => some 0

theorem swap_ssa : SSA swap where
  valid :=
    { nodup := by decide
      closed := by unfold Function.Closed; decide
      entryPreds := by decide
      ids := by decide
      phisFirst := by decide
      entryPhis := by decide
      incoming := by decide }
  defined b hb I hI p hp i hi := by
    have hphi : ∀ b ∈ swap.layout, ∀ I ∈ (swap.block b).insts, ∀ p ∈ I.op.incoming,
        p.1.isConstant = true ∨ p.2 = 1 ∧ (p.1 = .inst 1 ∨ p.1 = .inst 2) := by decide
    rcases hphi b hb I hI p hp with hconst | ⟨hp1, hinst⟩
    · rw [hi] at hconst
      cases hconst
    · rw [hp1]
      refine ⟨1, by decide, .refl, ?_⟩
      rw [hi] at hinst
      rcases hinst with heq | heq
      · cases heq
        decide
      · cases heq
        decide
  unique := by decide

theorem swap_workGroup {n : InstId} : WorkGroup (fun _ => swapMachine) swapId id
    (fun v => localId 0 0 (if v then 1 else 0)) (localId 1 1 2) (2 * ·) (· + ·) n where
  slots v :=
    { numbers := ⟨fun _ _ => rfl, fun _ _ => rfl, fun _ _ => rfl⟩
      local_id d := by
        revert v d
        decide
      local_size d := by
        obtain rfl | rfl | rfl : d = 0 ∨ d = 1 ∨ d = 2 := by omega
        · rfl
        · rfl
        · rfl
      alloca _ _ _ _ := rfl
      gep _ _ := rfl }
  inGroup := by unfold InGroup; decide
  distinct := by unfold Function.Injective; decide
  small := by decide
  arrays k l x y _ _ hx hy heq := by
    have hx : x < 2 := hx
    have hy : y < 2 := hy
    have heq : 2 * k + x = 2 * l + y := heq
    exact ⟨show @Eq Nat k l by omega, by omega⟩

theorem swap_operandsDefined : swap.OperandsDefined := by
  have hvalues : ∀ b ∈ swap.layout, ∀ v ∈ (swap.block b).values,
      v.isConstant = true ∨ v = .inst 1 ∨ v = .inst 2 := by decide
  intro b hb i hi
  rcases hvalues b hb _ hi with hconst | hi | hi
  · cases hconst
  · cases hi
    decide
  · cases hi
    decide

theorem swap_ok : ∃ G, runOnFunction Function.useList swap = .ok G := by
  rw [runOnFunction, if_neg (by decide), if_neg (by decide)]
  exact ⟨_, rfl⟩

/-- What a work-item does in the entry, in the loop twice, and at the end. -/
def swapActs : Nat → List (Act Nat)
  | 0 => [.access 5 (.sync [0]), .value 5 0, .branch 0 (some 0)]
  | 1 => [.value 1 1, .value 2 0, .branch 3 (some 0)]
  | 2 => [.value 1 0, .value 2 1, .branch 3 (some 1)]
  | _ => [.branch 4 none]

/-- The work-items take turns, and the second one is the first to return. -/
def swapRun : List (Bool × List (Act Nat)) :=
  [(false, swapActs 0), (true, swapActs 0), (false, swapActs 1), (true, swapActs 1),
    (true, swapActs 2), (true, swapActs 3), (false, swapActs 2), (false, swapActs 3)]

theorem run_swapRun : ∃ c, Replay (Turn (swap.ExecOwn (fun _ => swapMachine) swapId))
    (swap.items Bool fun _ => none) swapRun c ∧ ∀ v, (c.own v).1 = .returned :=
  ⟨_, .cons (.intro (Function.Exec.own (.branch rfl rfl)))
    (.cons (.intro (Function.Exec.own (.branch rfl rfl)))
    (.cons (.intro (Function.Exec.own (.branch rfl rfl)))
    (.cons (.intro (Function.Exec.own (.branch rfl rfl)))
    (.cons (.intro (Function.Exec.own (.branch rfl rfl)))
    (.cons (.intro (Function.Exec.own (.ret rfl)))
    (.cons (.intro (Function.Exec.own (.branch rfl rfl)))
    (.single (.intro (Function.Exec.own (.ret rfl)))))))))), by decide⟩

/-- What is kept of `swapActs`, without the PHIs. -/
def swapKept : List (Bool × List (Act Nat)) :=
  [(false, [.access 5 (.sync [0]), .value 5 0, .branch 0 (some 0)]),
    (true, [.access 5 (.sync [0]), .value 5 0, .branch 0 (some 0)]),
    (false, [.branch 3 (some 0)]), (true, [.branch 3 (some 0)]),
    (true, [.branch 3 (some 1)]), (true, [.branch 4 none]),
    (false, [.branch 3 (some 1)]), (false, [.branch 4 none])]

theorem keepsOff_swapRun {cell : Bool → InstId → Nat} {n : InstId} :
    ∀ x ∈ swapRun, ∀ y ∈ x.2, y.KeepsOff cell n := by
  have hoff : ∀ x ∈ swapRun, ∀ y ∈ x.2, y.address = none := by decide
  intro x hx y hy a ha
  rw [hoff x hx y hy] at ha
  cases ha

theorem runOnFunction_spills_swap : ∃ G ts c, runOnFunction Function.useList swap = .ok G ∧
    Replay (Turn (G.ExecOwn (fun _ => swapMachine) swapId)) (G.items Bool fun _ => none) ts c ∧
      (∀ v, (c.own v).1 = .returned) ∧ keptTurns (remains swap) ts = swapKept := by
  obtain ⟨G, hG⟩ := swap_ok
  obtain ⟨d, hr, hd⟩ := run_swapRun
  obtain ⟨ts, c, hr', hkept, -, hsame⟩ := runOnFunction_spills swap_ssa swap_operandsDefined
    (fun _ _ _ => .rfl) swap_workGroup hG _ _ _ hr keepsOff_swapRun
  exact ⟨G, ts, c, hG, hr', fun v => (hsame.place v).trans (hd v), hkept.trans (by decide)⟩

end VariOCL.IR.ContextSpill
