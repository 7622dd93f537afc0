import VariOCL.LoopInserter.Gather
import VariOCL.LoopInserter.Check

/-! The collected regions are disjoint as long as no visited barrier block is popped. -/

namespace VariOCL.IR.LoopInserter

open Relation (ReflTransGen)

section
variable {F : Function} {preds : BlockId → List BlockId} {getLoopFor : BlockId → Option BlockId}
  {fuel : Nat} {s t : Gathering} {V : List BlockId} {b p x y : BlockId}

/-- The next turn pops a barrier block whose region is collected already. -/
def Revisits (s : Gathering) : Prop :=
  s.ExitBB = none ∧ ∃ b rest, s.ExitBlocks = b :: rest ∧ b ∈ s.VisitedBarriers

def DisjointRegions (PRVector : List MxPARegion) : Prop :=
  PRVector.Pairwise fun R S => ∀ b ∈ R.BBSet, b ∉ S.BBSet

/-- A region is collected once for each block that was in hand without being visited. -/
structure FreshInv (s : Gathering) : Prop where
  inHand : ∀ b, s.ExitBB = some b → b ∉ s.VisitedBarriers
  nodup : s.VisitedBarriers.Nodup

theorem FreshInv.turn (hs : FreshInv s) (ht : Turn getLoopFor F preds fuel s t)
    (hno : ¬ Revisits s) : FreshInv t := by
  cases ht with
  | @pop b rest hE hX =>
    refine ⟨fun c hc hmem => ?_, hs.nodup⟩
    cases hc
    exact hno ⟨hE, b, rest, hX, hmem⟩
  | noRegion hE _ =>
    refine ⟨fun c hc => ?_, hs.nodup⟩
    cases hc
  | @region b PR hE _ =>
    refine ⟨fun c hc => ?_, List.nodup_cons.mpr ⟨hs.inHand b hE, hs.nodup⟩⟩
    exact (mem_of_mem_keptBarriers (List.mem_of_head? hc)).2

theorem Visits.freshInv (hs : Visits getLoopFor F preds fuel s)
    (hno : ∀ s, Visits getLoopFor F preds fuel s → ¬ Revisits s) : FreshInv s := by
  induction hs with
  | refl =>
    refine ⟨fun b hb => ?_, .nil⟩
    cases hb
  | tail hr hstep ih => exact ih.turn (turn_of_gatherStep hstep) (hno _ hr)

theorem pairwise_of_forall₂ {α β : Type*} {R : α → β → Prop} {S : α → α → Prop}
    {xs : List α} {ys : List β} (h : List.Forall₂ R xs ys) (hnd : ys.Nodup)
    (hS : ∀ x y x' y', y ∈ ys → y' ∈ ys → R x y → R x' y' → y ≠ y' → S x x') :
    xs.Pairwise S := by
  induction h with
  | nil => exact .nil
  | @cons x y xs ys hxy hrest ih =>
    obtain ⟨hy, hnd⟩ := List.nodup_cons.mp hnd
    refine List.pairwise_cons.mpr ⟨fun x' hx' => ?_, ih hnd fun a b a' b' hb hb' =>
      hS a b a' b' (List.mem_cons_of_mem y hb) (List.mem_cons_of_mem y hb')⟩
    obtain ⟨y', hy', hxy'⟩ := exists_of_forall₂_right hrest.flip hx'
    exact hS x y x' y' List.mem_cons_self (List.mem_cons_of_mem y hy') hxy hxy'
      fun heq => hy (heq ▸ hy')

theorem GatherInv.disjoint (h : Gatherable F preds getLoopFor) (hfuel : floodFuel F ≤ fuel)
    (hInv : GatherInv F preds fuel s) (hnd : s.VisitedBarriers.Nodup) :
    DisjointRegions s.PRVector := by
  refine pairwise_of_forall₂ hInv.regions (List.nodup_reverse.mpr hnd) ?_
  intro R b S c hb hc hR hS hne x hxR hxS
  have hb := hInv.visited b (List.mem_reverse.mp hb)
  have hc := hInv.visited c (List.mem_reverse.mp hc)
  exact hne (h.eq_of_above hb hc (((h.isRegionBefore hfuel hb hR).1 x).mp hxR)
    (((h.isRegionBefore hfuel hc hS).1 x).mp hxS))

theorem regions_kept (hr : Sim.Reaches (gatherStep getLoopFor F preds fuel) s t) :
    s.PRVector <+: t.PRVector := by
  induction hr with
  | refl => exact List.prefix_rfl
  | tail _ hstep ih =>
    cases turn_of_gatherStep hstep with
    | pop _ _ => exact ih
    | noRegion _ _ => exact ih
    | region _ _ => exact ih.trans (List.prefix_append _ _)

/-- A visited block that is popped has its region collected once more. -/
theorem not_disjoint_of_revisits (h : Gatherable F preds getLoopFor) (hfuel : floodFuel F ≤ fuel)
    (hs : Visits getLoopFor F preds fuel s) (hrev : Revisits s)
    (ht : Visits getLoopFor F preds fuel t) (hdone : t.agenda = []) :
    ¬ DisjointRegions t.PRVector := by
  intro hdisj
  obtain ⟨hE, b, rest, hX, hb⟩ := hrev
  obtain ⟨PR, hmem, hR⟩ := (hs.inv h hfuel).exists_region hb
  have hrun := Sim.Reaches.of_final hs ht (gatherStep_of_agenda_nil hdone)
  rcases ReflTransGen.cases_head hrun with rfl | ⟨u, hsu, hrun⟩
  · simp [Gathering.agenda, hX] at hdone
  cases turn_of_gatherStep hsu with
  | noRegion hE' _ => cases hE.symm.trans hE'
  | region hE' _ => cases hE.symm.trans hE'
  | pop _ hX' =>
    cases hX.symm.trans hX'
    rcases ReflTransGen.cases_head hrun with rfl | ⟨v, huv, hrun⟩
    · cases hdone
    cases turn_of_gatherStep huv with
    | pop hE' _ => cases hE'
    | noRegion hE' hR' =>
      cases hE'
      cases hR.symm.trans hR'
    | region hE' hR' =>
      cases hE'
      cases hR.symm.trans hR'
      have hpair := List.Pairwise.sublist (regions_kept hrun).sublist hdisj
      have hspec := h.isRegionBefore hfuel ((hs.inv h hfuel).visited b hb) hR
      have hentry := (hspec.1 PR.Entry).mpr hspec.2.1
      exact (List.pairwise_append.mp hpair).2.2 PR hmem PR (List.mem_singleton_self PR) _ hentry
        hentry

/-! ### Kernels without a second visit -/

/-- Two predecessor edges of an entry from within its loop come from two barrier blocks, each with
no other successor edge. -/
def LatchesAlone (F : Function) (getLoopFor : BlockId → Option BlockId) : Prop :=
  ∀ B E, F.Enters B E → ∀ p q, [p, q].Subperm (F.predEdges E) →
    ¬ F.OutsideLoopOf getLoopFor E p → ¬ F.OutsideLoopOf getLoopFor E q →
      p ≠ q ∧ F.succs p = [E]

/-- The region before a visited barrier block contains `x`. -/
def Collected (F : Function) (V : List BlockId) (x : BlockId) : Prop := ∃ b ∈ V, F.Above b x

/-- No region that is still to be collected has `x` above its entry. -/
def Spent (F : Function) (V : List BlockId) (x : BlockId) : Prop :=
  ∀ E ∈ F.succs x, Collected F V E

/-- While `y` is worked on, `x` below it on the agenda is not found again: it leads to collected
regions only, or `y` is in a loop around which `x` lies and whose header is collected. -/
def Guards (F : Function) (V : List BlockId) (y x : BlockId) : Prop :=
  y ≠ x ∧ (Spent F V x ∨ ∃ h, Collected F V h ∧ ¬ F.InLoop h x ∧ F.InLoop h y)

theorem Collected.cons (h : Collected F V x) : Collected F (b :: V) x := by
  obtain ⟨c, hc, hx⟩ := h
  exact ⟨c, List.mem_cons_of_mem b hc, hx⟩

theorem Spent.cons (h : Spent F V x) : Spent F (b :: V) x := fun E hE => (h E hE).cons

theorem Guards.cons (h : Guards F V y x) : Guards F (b :: V) y x :=
  ⟨h.1, h.2.imp Spent.cons fun ⟨l, hl, hloop⟩ => ⟨l, hl.cons, hloop⟩⟩

structure GuardInv (F : Function) (s : Gathering) : Prop where
  unvisited : ∀ b ∈ s.agenda, b ∉ s.VisitedBarriers
  guarded : s.agenda.Pairwise (Guards F s.VisitedBarriers)

theorem GuardInv.not_revisits (h : GuardInv F s) : ¬ Revisits s := by
  rintro ⟨hE, b, rest, hX, hb⟩
  refine h.unvisited b ?_ hb
  rw [Gathering.agenda, hE, hX]
  exact List.mem_cons_self

theorem GuardInv.start (h : F.Valid) : GuardInv F (startOf F) where
  unvisited _ _ := List.not_mem_nil
  guarded := by
    have hnd : (exitBlocks F).Nodup := List.nodup_reverse.mpr (h.nodup.filter _)
    refine List.Pairwise.imp_of_mem (fun {x y} _ hy hne => ⟨hne, .inl fun E hE => ?_⟩) hnd
    rw [(mem_exitBlocks.mp hy).2] at hE
    exact absurd hE List.not_mem_nil

theorem not_collected (h : Gatherable F preds getLoopFor) (hb : F.EndsRegion b)
    (hends : ∀ c ∈ V, F.EndsRegion c) (hV : b ∉ V) (hx : F.Above b x) : ¬ Collected F V x := by
  rintro ⟨c, hc, hx'⟩
  exact hV (h.eq_of_above hb (hends c hc) hx hx' ▸ hc)

/-- Walking up from a block of a loop whose header is collected stays in the loop. -/
theorem inLoop_of_above (h : Gatherable F preds getLoopFor)
    (hreach : ∀ b ∈ F.layout, F.Reachable b) (hb : F.EndsRegion b)
    (hends : ∀ c ∈ V, F.EndsRegion c) (hV : b ∉ V) {l : BlockId} (hl : Collected F V l)
    (hloop : F.InLoop l b) (hx : F.Above b x) :
    F.InLoop l x := by
  refine Graph.InLoop.of_walk hx.2 hloop (fun y z hyz => ?_) fun y _ hyb => ?_
  · obtain ⟨hmem, hedge⟩ := F.mem_predEdges.mp hyz.1
    exact ⟨hedge, hreach y hmem⟩
  · rintro rfl
    obtain ⟨c, hc, hlc⟩ := hl
    exact not_collected h hb hends hV ⟨hlc.1, hyb⟩ ⟨c, hc, hlc⟩

/-- A predecessor of the entry is guarded from what was guarded from the block in hand. -/
theorem Guards.pred (h : Gatherable F preds getLoopFor)
    (hreach : ∀ b ∈ F.layout, F.Reachable b) (hb : F.EndsRegion b)
    (hends : ∀ c ∈ V, F.EndsRegion c) (hV : b ∉ V) {E k : BlockId} (hE : F.Above b E)
    (hk : k ∈ preds E) (hg : Guards F V b x) : Guards F (b :: V) k x := by
  obtain ⟨hmem, hedge⟩ := h.mem_preds.mp hk
  have hnew := not_collected h hb hends hV hE
  rcases hg.2 with hspent | ⟨l, hl, hx, hbl⟩
  · refine ⟨?_, .inl hspent.cons⟩
    rintro rfl
    exact hnew (hspent E hedge)
  · have hEl := inLoop_of_above h hreach hb hends hV hl hbl hE
    have hkl := hEl.pred (fun heq => hnew (heq ▸ hl)) hedge (hreach k hmem)
    exact ⟨fun heq => hx (heq ▸ hkl), .inr ⟨l, hl.cons, hx, hkl⟩⟩

theorem not_outside_of_same (hL : F.LoopForest getLoopFor) {E : BlockId}
    (h : isInTheSameLoop getLoopFor p E) : ¬ F.OutsideLoopOf getLoopFor E p := by
  simp only [isInTheSameLoop, Bool.and_eq_true, beq_iff_eq] at h
  obtain ⟨l, hl⟩ := Option.isSome_iff_exists.mp h.1.2
  exact fun hout => hout l hl (hL.of_same hl h.2.symm)

/-- A predecessor in the loop of the entry guards one that is not in this loop itself. -/
theorem guards_other (h : Gatherable F preds getLoopFor)
    (hreach : ∀ b ∈ F.layout, F.Reachable b) (halone : LatchesAlone F getLoopFor) {B E L o : BlockId}
    (hB : F.Enters B E) (hE : Collected F V E) (hL : L ∈ preds E)
    (hLs : isInTheSameLoop getLoopFor L E) (ho : o ∈ preds E)
    (hos : isInTheSameLoop getLoopFor o E = false) : Guards F V L o := by
  have hne : L ≠ o := by
    rintro rfl
    exact Bool.false_ne_true (hos.symm.trans hLs)
  have hin := not_outside_of_same h.loops hLs
  by_cases hout : F.OutsideLoopOf getLoopFor E o
  · obtain ⟨l, hl⟩ : ∃ l, getLoopFor E = some l := by
      by_contra hno
      exact hin fun l hl => absurd ⟨l, hl⟩ hno
    obtain ⟨hmem, hedge⟩ := h.mem_preds.mp ho
    have hheader := h.loops.eq_header hl hedge (hreach o hmem) (hout l hl)
    have hLl : F.InLoop l L := by
      by_contra hno
      refine hin fun l' hl' => ?_
      cases hl.symm.trans hl'
      exact hno
    exact ⟨hne, .inr ⟨l, hheader ▸ hE, hout l hl, hLl⟩⟩
  · have hsub : [o, L].Subperm (F.predEdges E) := by
      refine List.Nodup.subperm (by simpa using hne.symm) fun x hx => ?_
      rcases List.mem_cons.mp hx with rfl | hx
      · exact (h.perm E).subset ho
      · exact (h.perm E).subset (List.mem_singleton.mp hx ▸ hL)
    obtain ⟨-, hsucc⟩ := halone B E hB o L hsub hout hin
    refine ⟨hne, .inl fun y hy => ?_⟩
    rw [hsucc, List.mem_singleton] at hy
    exact hy ▸ hE

/-- Of two predecessor edges in the loop of the entry, neither comes from a block found again. -/
theorem loopBarriers_spent (h : Gatherable F preds getLoopFor)
    (halone : LatchesAlone F getLoopFor) {B E : BlockId} (hB : F.Enters B E)
    (hE : Collected F V E) :
    (loopBarriers getLoopFor V E (preds E)).Pairwise fun p q => p ≠ q ∧ Spent F V p := by
  rw [List.pairwise_iff_forall_sublist]
  intro p q hpq
  have hin : ∀ {x}, x ∈ [p, q] → ¬ F.OutsideLoopOf getLoopFor E x := fun hx =>
    not_outside_of_same h.loops (mem_loopBarriers.mp (hpq.subset hx)).2.2
  have hsub := (hpq.trans List.filter_sublist).subperm.trans (h.perm E).subperm
  obtain ⟨hne, hsucc⟩ := halone B E hB p q hsub (hin (by simp)) (hin (by simp))
  refine ⟨hne, fun y hy => ?_⟩
  rw [hsucc, List.mem_singleton] at hy
  exact hy ▸ hE

/-- The blocks that one scan keeps are guarded from one another. -/
theorem keptBarriers_guarded (h : Gatherable F preds getLoopFor)
    (hreach : ∀ b ∈ F.layout, F.Reachable b) (halone : LatchesAlone F getLoopFor) {B E : BlockId}
    (hB : F.Enters B E) (hE : Collected F V E) :
    (keptBarriers getLoopFor V E (preds E)).Pairwise (Guards F V) := by
  have hother : ∀ o ∈ (otherBarriers getLoopFor V E (preds E)).getLast?.toList,
      o ∈ preds E ∧ isInTheSameLoop getLoopFor o E = false := by
    intro o ho
    have := mem_otherBarriers.mp (List.mem_of_getLast? (Option.mem_toList.mp ho))
    exact ⟨this.1, this.2.2⟩
  have hone : (otherBarriers getLoopFor V E (preds E)).getLast?.toList.Pairwise (Guards F V) := by
    cases (otherBarriers getLoopFor V E (preds E)).getLast? <;> simp
  rw [keptBarriers]
  cases hlast : (loopBarriers getLoopFor V E (preds E)).getLast? with
  | none => exact hone
  | some L =>
    obtain ⟨ls, hls⟩ := List.getLast?_eq_some_iff.mp hlast
    have hspent := loopBarriers_spent h halone hB hE
    have hmem : ∀ p, p ∈ ls ++ [L] → p ∈ preds E ∧ isInTheSameLoop getLoopFor p E := by
      intro p hp
      have := mem_loopBarriers.mp (hls ▸ hp)
      exact ⟨this.1, this.2.2⟩
    have hL := hmem L (List.mem_append_right ls (List.mem_singleton_self L))
    rw [hls, List.pairwise_append] at hspent
    simp only [hls, List.dropLast_concat]
    refine List.pairwise_cons.mpr ⟨fun x hx => ?_, List.pairwise_append.mpr ⟨hone, ?_, ?_⟩⟩
    · rcases List.mem_append.mp hx with hx | hx
      · exact guards_other h hreach halone hB hE hL.1 hL.2 (hother x hx).1 (hother x hx).2
      · obtain ⟨hne, hx⟩ := hspent.2.2 x (List.mem_reverse.mp hx) L (List.mem_singleton_self L)
        exact ⟨hne.symm, .inl hx⟩
    · rw [List.pairwise_reverse]
      exact hspent.1.imp fun hpq => ⟨hpq.1.symm, .inl hpq.2⟩
    · intro o ho p hp
      have hp := List.mem_reverse.mp hp
      refine ⟨?_, .inl (hspent.2.2 p hp L (List.mem_singleton_self L)).2⟩
      rintro rfl
      exact Bool.false_ne_true ((hother o ho).2.symm.trans (hmem o (List.mem_append_left _ hp)).2)

theorem GuardInv.turn (h : Gatherable F preds getLoopFor) (hfuel : floodFuel F ≤ fuel)
    (hreach : ∀ b ∈ F.layout, F.Reachable b) (halone : LatchesAlone F getLoopFor)
    (hInv : GatherInv F preds fuel s) (hs : GuardInv F s)
    (ht : Turn getLoopFor F preds fuel s t) : GuardInv F t := by
  cases ht with
  | @pop b rest hE hX =>
    have hagenda : (Gathering.mk s.PRVector rest s.VisitedBarriers (some b)).agenda = s.agenda := by
      simp [Gathering.agenda, hE, hX]
    exact ⟨hagenda ▸ hs.unvisited, hagenda ▸ hs.guarded⟩
  | @noRegion b hE _ =>
    obtain ⟨hunvisited, hguarded⟩ := hs
    rw [agenda_some hE] at hunvisited hguarded
    exact ⟨fun x hx => hunvisited x (List.mem_cons_of_mem b hx), (List.pairwise_cons.mp hguarded).2⟩
  | @region b PR hE hR =>
    obtain ⟨hunvisited, hguarded⟩ := hs
    rw [agenda_some hE] at hunvisited hguarded
    obtain ⟨hbelow, hguarded⟩ := List.pairwise_cons.mp hguarded
    have hb : F.EndsRegion b := hInv.agenda b (agenda_some hE ▸ List.mem_cons_self)
    have hV := hunvisited b List.mem_cons_self
    obtain ⟨-, hentry, ⟨q, hq, hqbar⟩, -⟩ := h.isRegionBefore hfuel hb hR
    obtain ⟨B, hB, -⟩ := exists_enters hb hentry (.inr ⟨q, (h.perm _).subset hq, hqbar⟩)
    constructor
    · intro x hx
      rw [agenda_kept, List.mem_append] at hx
      rcases hx with hx | hx
      · exact (mem_of_mem_keptBarriers hx).2
      · refine List.not_mem_cons_of_ne_of_not_mem (hbelow x hx).1.symm ?_
        exact hunvisited x (List.mem_cons_of_mem b hx)
    · rw [agenda_kept]
      refine List.pairwise_append.mpr ⟨?_, hguarded.imp Guards.cons, fun k hk x hx => ?_⟩
      · exact keptBarriers_guarded h hreach halone hB ⟨b, List.mem_cons_self, hentry⟩
      · exact (hbelow x hx).pred h hreach hb hInv.visited hV hentry (mem_of_mem_keptBarriers hk).1

/-- No visited block is popped where the latches of a region's entry stand alone. -/
theorem Visits.not_revisits (h : Gatherable F preds getLoopFor) (hfuel : floodFuel F ≤ fuel)
    (hreach : ∀ b ∈ F.layout, F.Reachable b) (halone : LatchesAlone F getLoopFor)
    (hs : Visits getLoopFor F preds fuel s) : ¬ Revisits s := by
  refine GuardInv.not_revisits (F := F) ?_
  induction hs with
  | refl => exact .start h.valid
  | tail hr hstep ih =>
    exact ih.turn h hfuel hreach halone (Visits.inv h hfuel hr) (turn_of_gatherStep hstep)

/-- The gathering returns; its regions are disjoint exactly if no visited block is popped, as is the
case where the latches of a region's entry stand alone. -/
theorem gatherParallelRegions_disjoint_iff (h : Gatherable F preds getLoopFor)
    (hfuel : floodFuel F ≤ fuel) :
    ∃ PRVector n, (∀ turns, n ≤ turns →
        gatherParallelRegions getLoopFor F preds fuel turns = .ok PRVector) ∧
      (DisjointRegions PRVector ↔
        ∀ s, Visits getLoopFor F preds fuel s → ¬ Revisits s) ∧
      ((∀ b ∈ F.layout, F.Reachable b) → LatchesAlone F getLoopFor → DisjointRegions PRVector) := by
  obtain ⟨s, n, hs, hdone, hrun⟩ := gatherParallelRegions_ends h hfuel
  have hfresh : (∀ s, Visits getLoopFor F preds fuel s → ¬ Revisits s) →
      DisjointRegions s.PRVector := fun hno =>
    (hs.inv h hfuel).disjoint h hfuel (hs.freshInv hno).nodup
  refine ⟨s.PRVector, n, hrun, ⟨fun hdisj t ht hrev => ?_, hfresh⟩, fun hreach halone => ?_⟩
  · exact not_disjoint_of_revisits h hfuel ht hrev hs hdone hdisj
  · exact hfresh fun t ht => ht.not_revisits h hfuel hreach halone

end

theorem latchesAlone_of_check {F : Function} {getLoopFor : BlockId → Option BlockId}
    (hF : F.Closed) (h : ∀ x ∈ F.layout, entersRegion F x → (F.predEdges x).Nodup ∧
      ∀ p ∈ F.predEdges x, ∀ q ∈ F.predEdges x, p ≠ q → outsideLoop F getLoopFor x p = false →
        outsideLoop F getLoopFor x q = false → F.succs p = [x]) : LatchesAlone F getLoopFor := by
  intro B E hE p q hpq hp hq
  obtain ⟨hnodup, hsuccs⟩ := h E hE.1.1 (entersRegion_of_enters hE)
  have hinside : ∀ x, ¬ F.OutsideLoopOf getLoopFor E x → outsideLoop F getLoopFor E x = false :=
    fun x hx => Bool.eq_false_iff.mpr fun hout => hx ((outsideLoop_iff hF).mp hout)
  obtain ⟨l, hperm, hsub⟩ := hpq
  have hne : p ≠ q := by simpa using hperm.nodup_iff.mp (hsub.nodup hnodup)
  have hmem : ∀ x ∈ [p, q], x ∈ F.predEdges E := fun x hx => hsub.subset (hperm.mem_iff.mpr hx)
  exact ⟨hne, hsuccs p (hmem p (by simp)) q (hmem q (by simp)) hne (hinside p hp) (hinside q hq)⟩

/-- Block 2 is the entry of a loop with the latches 7 and 9, which lead nowhere else. -/
def twoLatches : Function where
  name := "two_latches"
  entry := 0
  rest := [1, 2, 3, 4, 5, 6, 7, 8, 9, 10, 11]
  block
    | 0 => ⟨[], 0, .br 1⟩
    | 1 => ⟨[barrierCall 1], 2, .br 2⟩
    | 2 => ⟨[], 3, .br 3⟩
    | 3 => ⟨[barrierCall 4], 5, .condBr (.argument 0) 4 10⟩
    | 4 => ⟨[], 6, .br 5⟩
    | 5 => ⟨[barrierCall 7], 8, .condBr (.argument 1) 6 8⟩
    | 6 => ⟨[], 9, .br 7⟩
    | 7 => ⟨[barrierCall 10], 11, .br 2⟩
    | 8 => ⟨[], 12, .br 9⟩
    | 9 => ⟨[barrierCall 13], 14, .br 2⟩
    | 10 => ⟨[], 15, .br 11⟩
    | _ => ⟨[barrierCall 16], 17, .ret none⟩

def twoLatches_getLoopFor (b : BlockId) : Option BlockId :=
  if b ∈ [2, 3, 4, 5, 6, 7, 8, 9] then some 2 else none

theorem twoLatches_valid : twoLatches.Valid where
  nodup := by decide
  closed := by unfold Function.Closed; decide
  entryPreds := by decide
  ids := by decide
  phisFirst := by decide
  entryPhis := by decide
  incoming := by decide

theorem twoLatches_body : [2, 3, 4, 5, 6, 7, 8, 9] ⊆ twoLatches.layout := by decide

theorem twoLatches_gatherable :
    Gatherable twoLatches twoLatches.predEdges twoLatches_getLoopFor where
  valid := twoLatches_valid
  reducible := Function.reducible_of_rank twoLatches_valid.closed id (by decide)
  perm _ := .rfl
  loops := Function.loopForest_of_inLoop twoLatches_valid.closed
    (fun _ hb => if_neg fun hmem => hb (twoLatches_body hmem)) (by decide) (by decide)
  hivedOff := hivedOffBelow_of_single (by decide) (by decide) (by decide)
  regions := oneRegionEach_of_target twoLatches_valid.closed
    (fun b => [1, 1, 3, 3, 5, 5, 7, 7, 9, 9, 11, 11].getD b 0)
    (fun b => [1, 0, 1, 0, 1, 0, 1, 0, 1, 0, 1, 0].getD b 0)
    (by decide) (by decide) (by decide) (by decide) (by decide)

theorem twoLatches_reachable : ∀ b ∈ twoLatches.layout, twoLatches.Reachable b := by
  have hsearch : ∀ b ∈ twoLatches.layout, twoLatches.reachable b = true := by decide
  exact fun b hb => (Function.reachable_iff twoLatches_valid.closed).mp (hsearch b hb)

theorem gatherParallelRegions_disjoint_iff_twoLatches : ∃ PRVector n,
    (∀ turns, n ≤ turns → gatherParallelRegions twoLatches_getLoopFor twoLatches
      twoLatches.predEdges (floodFuel twoLatches) turns = .ok PRVector) ∧
    DisjointRegions PRVector ∧ ∀ s, Visits twoLatches_getLoopFor twoLatches
      twoLatches.predEdges (floodFuel twoLatches) s → ¬ Revisits s := by
  obtain ⟨PRVector, n, hrun, hiff, halone⟩ :=
    gatherParallelRegions_disjoint_iff twoLatches_gatherable le_rfl
  have hdisjoint := halone twoLatches_reachable
    (latchesAlone_of_check twoLatches_valid.closed (by decide))
  exact ⟨PRVector, n, hrun, hdisjoint, hiff.mp hdisjoint⟩

/-- Block 2 is the entry of a loop with the latches 5 and 7, and 5 also leads on to 7. -/
def latchInLoop : Function where
  name := "latch_in_loop"
  entry := 0
  rest := [1, 2, 3, 4, 5, 6, 7, 8, 9]
  block
    | 0 => ⟨[], 0, .br 1⟩
    | 1 => ⟨[barrierCall 1], 2, .br 2⟩
    | 2 => ⟨[], 3, .br 3⟩
    | 3 => ⟨[barrierCall 4], 5, .condBr (.argument 0) 4 8⟩
    | 4 => ⟨[], 6, .br 5⟩
    | 5 => ⟨[barrierCall 7], 8, .condBr (.argument 1) 2 6⟩
    | 6 => ⟨[], 9, .br 7⟩
    | 7 => ⟨[barrierCall 10], 11, .br 2⟩
    | 8 => ⟨[], 12, .br 9⟩
    | _ => ⟨[barrierCall 13], 14, .ret none⟩

def latchInLoop_getLoopFor (b : BlockId) : Option BlockId :=
  if b ∈ [2, 3, 4, 5, 6, 7] then some 2 else none

theorem latchInLoop_valid : latchInLoop.Valid where
  nodup := by decide
  closed := by unfold Function.Closed; decide
  entryPreds := by decide
  ids := by decide
  phisFirst := by decide
  entryPhis := by decide
  incoming := by decide

theorem latchInLoop_body : [2, 3, 4, 5, 6, 7] ⊆ latchInLoop.layout := by decide

theorem latchInLoop_gatherable :
    Gatherable latchInLoop latchInLoop.predEdges latchInLoop_getLoopFor where
  valid := latchInLoop_valid
  reducible := Function.reducible_of_rank latchInLoop_valid.closed id (by decide)
  perm _ := .rfl
  loops := Function.loopForest_of_inLoop latchInLoop_valid.closed
    (fun _ hb => if_neg fun hmem => hb (latchInLoop_body hmem)) (by decide) (by decide)
  hivedOff := hivedOffBelow_of_single (by decide) (by decide) (by decide)
  regions := oneRegionEach_of_target latchInLoop_valid.closed
    (fun b => [1, 1, 3, 3, 5, 5, 7, 7, 9, 9].getD b 0)
    (fun b => [1, 0, 1, 0, 1, 0, 1, 0, 1, 0].getD b 0)
    (by decide) (by decide) (by decide) (by decide) (by decide)

/-- The region before block 5 is collected on the way up from 7, and once more from the stack. -/
theorem regions_not_disjoint :
    Gatherable latchInLoop latchInLoop.predEdges latchInLoop_getLoopFor ∧
    ∃ PRVector, gatherParallelRegions latchInLoop_getLoopFor latchInLoop latchInLoop.predEdges
      40 40 = .ok PRVector ∧ ¬ DisjointRegions PRVector :=
  ⟨latchInLoop_gatherable, [⟨[8], 8, some 8⟩, ⟨[2], 2, some 2⟩, ⟨[6], 6, some 6⟩,
    ⟨[4], 4, some 4⟩, ⟨[4], 4, some 4⟩], by rfl, by unfold DisjointRegions; decide⟩

end VariOCL.IR.LoopInserter
