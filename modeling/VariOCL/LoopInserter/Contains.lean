import VariOCL.LoopInserter.Exact
import VariOCL.ControlDep.Frontier
import VariOCL.Graph.Region

/-! `findRegionContains` asks the dominator tree, and the loops are built from the flooded sets: the
two agree where the regions share no block and are entered at their entries. -/

namespace VariOCL.IR

open Relation (ReflTransGen)

namespace LoopInserter

/-- LLVM's `Region::contains`. -/
def MxPARegion.contains (F : Function) (R : MxPARegion) (BB : BlockId) : Bool :=
  match R.Exit with
  | none => true
  | some Exit => F.dominates R.Entry BB && !(F.dominates Exit BB && F.dominates R.Entry Exit)

/-- The condition in the loop of `findRegionContains`. -/
def MxPARegion.claims (F : Function) (R : MxPARegion) (BB : BlockId) : Bool :=
  R.contains F BB || some BB == R.Exit

def findRegionContains (F : Function) (PR : List MxPARegion) (BB : BlockId) : Option MxPARegion :=
  PR.find? fun RN => RN.claims F BB

section
variable (F : Function) (preds : BlockId → List BlockId)

/-- `PR` is the region `createRegionBeforeBarrier` returns for the barrier block `B`. -/
structure Builds (B : BlockId) (PR : MxPARegion) : Prop where
  mem : B ∈ F.layout
  barrier : hasBarrier (F.block B)
  returned : ∃ fuel, createRegionBeforeBarrier F preds fuel B = .ok (some PR)

structure RegionsApart : Prop where
  disjoint : ∀ B B' PR PR', Builds F preds B PR → Builds F preds B' PR' → B ≠ B' →
    ∀ x ∈ PR.BBSet, x ∉ PR'.BBSet
  entered : ∀ B PR, Builds F preds B PR → ∀ x ∈ PR.BBSet, ∀ p ∈ F.predEdges x, p ∉ PR.BBSet →
    x = PR.Entry

/-- A kernel whose blocks all lie between its entry and an exit. -/
structure Placeable : Prop where
  perm : ∀ b, (preds b).Perm (F.predEdges b)
  valid : F.Valid
  hivedOff : F.HivedOff
  reachable : ∀ b ∈ F.layout, F.Reachable b
  exits : ∀ b ∈ F.layout, F.ReachesExit b
  apart : RegionsApart F preds

end

section
variable {F : Function} {preds : BlockId → List BlockId} {B BB b p q x y : BlockId}
  {PR : MxPARegion} {l : List BlockId}

theorem FlowsTo.above (h : F.FlowsTo x B) (hx : hasBarrier (F.block x) = false) : F.Above B x :=
  ⟨hx, ReflTransGen.mono
    (fun _ _ h => ⟨h.1, fun hbar => absurd (h.2.symm.trans hbar) Bool.false_ne_true⟩) _ _ h.2⟩

theorem Builds.spec (h : Builds F preds B PR) (hP : Placeable F preds) :
    (∃ l, Tops F preds B l) ∧ IsRegionBefore F preds B (some PR) := by
  obtain ⟨fuel, hfuel⟩ := h.returned
  exact createRegionBeforeBarrier_sound hP.perm hP.valid hP.hivedOff.below h.mem h.barrier hfuel

/-- A region is built before a barrier block that has code below a barrier above it. -/
theorem Placeable.exists_builds (hP : Placeable F preds) (hB : B ∈ F.layout)
    (hbar : hasBarrier (F.block B)) (hl : Tops F preds B l) (hx : F.Above B x)
    (hpx : ∃ p ∈ F.predEdges x, hasBarrier (F.block p)) :
    ∃ PR, Builds F preds B PR ∧ ∀ z, z ∈ PR.BBSet ↔ F.Above B z := by
  obtain ⟨m, hm⟩ := hl.addPredecessors (v := []) hP.perm hP.hivedOff.below hB hbar
  have hw := hm (max m (floodFuel F)) (Nat.le_max_left _ _)
  rw [List.append_nil] at hw
  obtain ⟨R, hR, hspec⟩ := createRegionBeforeBarrier_of_tops hP.perm hP.hivedOff.below hbar hl hw
    (Nat.le_max_right _ _)
  cases R with
  | none =>
    obtain ⟨p, hp, hpbar⟩ := hpx
    exact absurd ((hspec x hx p ((hP.perm x).symm.subset hp)).symm.trans hpbar) Bool.false_ne_true
  | some PR => exact ⟨PR, ⟨hB, hbar, _, hR⟩, hspec.1⟩

theorem Placeable.builds_of_code (hP : Placeable F preds) (hx : x ∈ F.predEdges y)
    (hcode : hasBarrier (F.block x) = false) (hbar : hasBarrier (F.block y)) :
    ∃ PR, Builds F preds y PR ∧ ∀ z, z ∈ PR.BBSet ↔ F.Above y z := by
  obtain ⟨hxmem, he⟩ := F.mem_predEdges.mp hx
  have hy : y ∈ F.layout := hP.valid.closed x hxmem y he
  have hl : Tops F preds y [x] := by
    have hxy : x ∈ preds y := (hP.perm y).symm.subset hx
    rcases preds_eq hP.perm hP.valid hP.hivedOff.below hy hbar with hp | ⟨p, hp, -⟩
    · simp [hp] at hxy
    · rw [hp, List.mem_singleton] at hxy
      subst hxy
      exact .code hp hcode
  have hin : F.InRegion y x := ⟨hxmem, hcode, hbar, .single ⟨hx, hcode⟩⟩
  obtain ⟨z, hz, hpz⟩ := exists_entered hP.hivedOff hP.valid (hP.reachable x hxmem) hin
  exact hP.exists_builds hy hbar hl (FlowsTo.above hz.2.2 hz.2.1) hpz

theorem not_self_pred (hF : F.Closed) (hreach : F.Reachable b) (hne : b ≠ F.entry) :
    F.predEdges b ≠ [b] := by
  intro hself
  induction hreach with
  | refl => exact hne rfl
  | @tail x y hx he ih =>
    have hxy : x ∈ F.predEdges y := F.mem_predEdges.mpr ⟨hF.reachable_mem hx, he⟩
    rw [hself, List.mem_singleton] at hxy
    subst hxy
    exact ih hne hself

theorem Above.step (h : F.Above B x) (hB : hasBarrier (F.block B)) :
    ∃ q ∈ F.predEdges B, ReflTransGen F.RegionEdge x q := by
  rcases ReflTransGen.cases_tail h.2 with rfl | ⟨q, hq, hqB⟩
  · exact absurd (h.1.symm.trans hB) Bool.false_ne_true
  · exact ⟨q, hqB.1, hq⟩

/-- The block above the barrier of a region is code: below another barrier the flooding would
return the other barrier's region again. -/
theorem Placeable.exit_spec (hP : Placeable F preds) (h : Builds F preds B PR) :
    ∃ p, F.predEdges B = [p] ∧ F.succs p = [B] ∧ hasBarrier (F.block p) = false ∧
      PR.Exit = some p := by
  obtain ⟨⟨l, hl⟩, hset, hentry, ⟨r, hr, hrbar⟩, hexit⟩ := h.spec hP
  have hne : B ≠ F.entry := by
    rintro rfl
    exact not_above_entry hP.valid h.barrier hentry
  obtain ⟨p, hp, hterm⟩ := hP.hivedOff.pred B h.mem hne h.barrier
  have hpreds : preds B = [p] := List.perm_singleton.mp (hp ▸ hP.perm B)
  refine ⟨p, hp, by rw [Function.succs, hterm]; rfl, ?_,
    by rw [hexit, getSinglePredecessor, hpreds]⟩
  cases hbar : hasBarrier (F.block p) with
  | false => rfl
  | true =>
    have hpmem : p ∈ F.layout := (F.mem_predEdges.mp (hp ▸ List.mem_cons_self)).1
    obtain ⟨q, hq, hw⟩ := Above.step hentry h.barrier
    rw [hp, List.mem_singleton] at hq
    subst hq
    have hlp := (hl.pred (x := q) (hpreds ▸ List.mem_cons_self)).1 hbar
    obtain ⟨PR', hPR', hset'⟩ := hP.exists_builds hpmem hbar hlp ⟨hentry.1, hw⟩
      ⟨r, (hP.perm _).subset hr, hrbar⟩
    have hpB : B ≠ q := by
      rintro rfl
      exact not_self_pred hP.valid.closed (hP.reachable B h.mem) hne hp
    exact absurd ((hset' _).mpr ⟨hentry.1, hw⟩)
      (hP.apart.disjoint B q PR PR' h hPR' hpB _ ((hset _).mpr hentry))

theorem Placeable.inRegion_of_above (hp : F.predEdges B = [p])
    (hcode : hasBarrier (F.block p) = false) (hB : hasBarrier (F.block B)) (hx : F.Above B x) :
    F.InRegion B x := by
  have hw : ReflTransGen (fun x y => x ∈ F.predEdges y ∧ hasBarrier (F.block x) = false) x B := by
    obtain ⟨hxcode, hw⟩ := hx
    induction hw using ReflTransGen.head_induction_on with
    | refl => exact .refl
    | @head x y hxy hyB ih =>
      cases hybar : hasBarrier (F.block y) with
      | false => exact (ih hybar).head ⟨hxy.1, hxcode⟩
      | true =>
        rcases ReflTransGen.cases_tail hyB with rfl | ⟨q, hyq, hqB⟩
        · exact .single ⟨hxy.1, hxcode⟩
        · have hqp := hqB.1
          rw [hp, List.mem_singleton] at hqp
          subst hqp
          have := hasBarrier_of_regionEdges hyq hybar
          exact absurd (hcode.symm.trans this) Bool.false_ne_true
  exact ⟨hx.mem hB, hx.1, hB, hw⟩

/-- Below code lies a barrier block, since the exits are barrier blocks. -/
theorem Placeable.exists_flowsTo (hP : Placeable F preds) (hy : y ∈ F.layout) :
    ∃ C, F.FlowsTo y C := by
  obtain ⟨e, hs, hw⟩ := hP.exits y hy
  have hbar : hasBarrier (F.block e) := hasBarrier_of_containsJustABarrier
    (hP.hivedOff.exits e (hP.valid.closed.mem_of_reach hy hw) hs)
  induction hw using ReflTransGen.head_induction_on with
  | refl => exact ⟨e, hbar, .refl⟩
  | @head y z hyz _ ih =>
    cases hyb : hasBarrier (F.block y) with
    | true => exact ⟨y, hyb, .refl⟩
    | false =>
      obtain ⟨C, hC, hw⟩ := ih (hP.valid.closed y hy z hyz)
      exact ⟨C, hC, hw.head ⟨F.mem_predEdges.mpr ⟨hy, hyz⟩, hyb⟩⟩

/-- Code that flows to `C` is in the region before `C`, and in no other. -/
theorem Placeable.eq_of_flowsTo (hP : Placeable F preds) (h : Builds F preds B PR)
    (hx : x ∈ PR.BBSet) {C : BlockId} (hC : F.FlowsTo x C) : C = B := by
  have hxcode : hasBarrier (F.block x) = false := (((h.spec hP).2.1 x).mp hx).1
  obtain ⟨q, hq, hqcode⟩ := FlowsTo.last hC hxcode
  obtain ⟨PR', hPR', hset'⟩ := hP.builds_of_code hq hqcode hC.1
  by_contra hne
  exact hP.apart.disjoint B C PR PR' h hPR' (Ne.symm hne) x hx
    ((hset' x).mpr (FlowsTo.above hC hxcode))

theorem Placeable.singleEntryExit (hP : Placeable F preds) (h : Builds F preds B PR)
    (hp : F.predEdges B = [p]) (hsucc : F.succs p = [B])
    (hcode : hasBarrier (F.block p) = false) :
    Graph.SingleEntryExit F.Edge F.entry {x | x ∈ PR.BBSet} PR.Entry p := by
  obtain ⟨-, hset, hentry, -, -⟩ := h.spec hP
  have hpB : p ∈ F.predEdges B := hp ▸ List.mem_cons_self
  have hmem : ∀ x, x ∈ PR.BBSet → F.InRegion B x := fun x hx =>
    Placeable.inRegion_of_above hp hcode h.barrier ((hset x).mp hx)
  have hBmem : B ∉ PR.BBSet := fun hB =>
    Bool.false_ne_true ((hmem B hB).2.1.symm.trans h.barrier)
  constructor
  · intro hr
    have := hasBarrier_of_containsJustABarrier hP.hivedOff.entry
    exact Bool.false_ne_true ((hmem _ hr).2.1.symm.trans this)
  · exact (hset _).mpr hentry
  · exact (hset p).mpr ⟨hcode, .single ⟨hpB, fun hbar =>
      absurd (hcode.symm.trans hbar) Bool.false_ne_true⟩⟩
  · intro u v hu he hout hv
    exact hP.apart.entered B PR h v hv u
      (F.mem_predEdges.mpr ⟨hP.valid.closed.reachable_mem hu, he⟩) hout
  · intro u v hu he hin hout
    have huv : u ∈ F.predEdges v := F.mem_predEdges.mpr ⟨hP.valid.closed.reachable_mem hu, he⟩
    have hucode := (hmem u hin).2.1
    have hv : v ∈ F.layout := hP.valid.closed u (hmem u hin).1 v he
    obtain ⟨C, hC, hw⟩ := hP.exists_flowsTo hv
    have hCB := hP.eq_of_flowsTo h hin ⟨hC, hw.head ⟨huv, hucode⟩⟩
    subst hCB
    cases hvbar : hasBarrier (F.block v) with
    | false => exact absurd ((hset v).mpr (FlowsTo.above ⟨hC, hw⟩ hvbar)) hout
    | true =>
      have hvC := hP.eq_of_flowsTo h hin ⟨hvbar, .single ⟨huv, hucode⟩⟩
      rw [hvC, hp, List.mem_singleton] at huv
      exact huv
  · intro v hv
    rw [Function.Edge, hsucc, List.mem_singleton] at hv
    exact hv ▸ hBmem

theorem Placeable.claims_iff (hP : Placeable F preds) (h : Builds F preds B PR)
    (hBB : BB ∈ F.layout) : PR.claims F BB = true ↔ BB ∈ PR.BBSet := by
  obtain ⟨p, hp, hsucc, hcode, hexit⟩ := hP.exit_spec h
  have hpmem : p ∈ F.layout := (F.mem_predEdges.mp (hp ▸ List.mem_cons_self)).1
  have hregion := (hP.singleEntryExit h hp hsucc hcode).mem_iff (hP.reachable p hpmem)
    (hP.reachable BB hBB)
  have hdom := fun d b => F.dominates_iff hP.valid.closed (d := d) (b := b)
  rw [Set.mem_ofPred_eq] at hregion
  rw [hregion, MxPARegion.claims, MxPARegion.contains, hexit]
  simp only [Bool.or_eq_true, Bool.and_eq_true, Bool.not_eq_true', ← Bool.not_eq_true, hdom,
    beq_iff_eq, Option.some.injEq, Function.Dominates]

theorem mem_of_findRegionContains {PRs : List MxPARegion} {R : MxPARegion}
    (h : findRegionContains F PRs BB = some R) : R ∈ PRs ∧ R.claims F BB = true :=
  ⟨List.mem_of_find?_eq_some h, List.find?_some (p := fun RN => MxPARegion.claims F RN BB) h⟩

/-- The two notions of membership agree, and no block is given to a region that leaves it out. -/
theorem findRegionContains_covered (hP : Placeable F preds) :
    (∀ B PR, Builds F preds B PR → ∀ BB ∈ F.layout, (PR.claims F BB = true ↔ BB ∈ PR.BBSet)) ∧
    ∀ PRs : List MxPARegion, (∀ R ∈ PRs, ∃ B, Builds F preds B R) → ∀ BB ∈ F.layout, ∀ R,
      findRegionContains F PRs BB = some R → R ∈ PRs ∧ BB ∈ R.BBSet := by
  refine ⟨fun B PR h BB hBB => hP.claims_iff h hBB, fun PRs hPRs BB hBB R hR => ?_⟩
  obtain ⟨hmem, hclaims⟩ := mem_of_findRegionContains hR
  obtain ⟨B, hB⟩ := hPRs R hmem
  exact ⟨hmem, (hP.claims_iff hB hBB).mp hclaims⟩

/-- A numbering of the code by the barrier it flows to tells the regions apart. -/
theorem regionsApart_of_target (hperm : ∀ b, (preds b).Perm (F.predEdges b)) (hF : F.Valid)
    (hH : F.HivedOff) (hsep : F.Separated) (target : BlockId → BlockId)
    (hbar : ∀ b ∈ F.layout, hasBarrier (F.block b) → target b = b)
    (hcode : ∀ b ∈ F.layout, hasBarrier (F.block b) = false → ∀ s ∈ F.succs b, target s = target b)
    (hentry : ∀ x ∈ F.layout, ∀ y ∈ F.layout, hasBarrier (F.block x) = false →
      hasBarrier (F.block y) = false → entersRegion F x → entersRegion F y →
        target x = target y → x = y) : RegionsApart F preds := by
  have htarget : ∀ B x, F.InRegion B x → target x = B := fun B x h =>
    FlowsTo.target_eq hF.closed hbar hcode h.1 h.2.2
  have hspec : ∀ B PR, Builds F preds B PR → (∀ x, x ∈ PR.BBSet ↔ F.InRegion B x) ∧
      F.Enters B PR.Entry := by
    intro B PR h
    obtain ⟨fuel, hfuel⟩ := h.returned
    obtain ⟨-, hset, habove, ⟨q, hq, hqbar⟩, -⟩ :=
      createRegionBeforeBarrier_sound hperm hF hH.below h.mem h.barrier hfuel
    have hin := fun x => above_iff_inRegion (x := x) hF hsep h.barrier
    refine ⟨fun x => (hset x).trans (hin x), (hin _).mp habove,
      .inr ⟨q, (hperm _).subset hq, fun hin => ?_⟩⟩
    exact Bool.false_ne_true (hin.2.1.symm.trans hqbar)
  constructor
  · intro B B' PR PR' h h' hne x hx hx'
    have hxB := htarget B x (((hspec B PR h).1 x).mp hx)
    have hxB' := htarget B' x (((hspec B' PR' h').1 x).mp hx')
    exact hne (hxB.symm.trans hxB')
  · intro B PR h x hx p hp hout
    obtain ⟨hset, henter⟩ := hspec B PR h
    have hin := (hset x).mp hx
    have hx' : F.Enters B x := ⟨hin, .inr ⟨p, hp, fun hin => hout ((hset p).mpr hin)⟩⟩
    exact hentry x hin.1 _ henter.1.1 hin.2.1 henter.1.2.1 (entersRegion_of_enters hx')
      (entersRegion_of_enters henter) ((htarget B x hin).trans (htarget B _ henter.1).symm)

end

theorem loopBetweenBarriers_separated : loopBetweenBarriers.Separated := by
  unfold Function.Separated
  decide

theorem loopBetweenBarriers_placeable :
    Placeable loopBetweenBarriers loopBetweenBarriers.predEdges where
  perm _ := .rfl
  valid := loopBetweenBarriers_valid
  hivedOff := loopBetweenBarriers_hivedOff
  reachable := loopBetweenBarriers_reachable
  exits := (Function.terminating_of_tree loopBetweenBarriers_valid.closed (by decide)).exits
  apart := regionsApart_of_target (fun _ => .rfl) loopBetweenBarriers_valid
    loopBetweenBarriers_hivedOff loopBetweenBarriers_separated
    (fun b => [0, 4, 4, 4, 4].getD b 0) (by decide) (by decide) (by decide)

theorem findRegionContains_covered_loopBetweenBarriers :
    (∀ B PR, Builds loopBetweenBarriers loopBetweenBarriers.predEdges B PR →
      ∀ BB ∈ loopBetweenBarriers.layout,
        (PR.claims loopBetweenBarriers BB = true ↔ BB ∈ PR.BBSet)) ∧
    ∀ PRs : List MxPARegion,
      (∀ R ∈ PRs, ∃ B, Builds loopBetweenBarriers loopBetweenBarriers.predEdges B R) →
      ∀ BB ∈ loopBetweenBarriers.layout, ∀ R,
        findRegionContains loopBetweenBarriers PRs BB = some R → R ∈ PRs ∧ BB ∈ R.BBSet :=
  findRegionContains_covered loopBetweenBarriers_placeable

end LoopInserter

end VariOCL.IR
