import VariOCL.LoopInserter.Shape

/-! The runs of `gatherParallelRegions`: what one turn of its loops does to the blocks in hand and
on the stack, and that the loops end without a failed assertion. -/

namespace VariOCL.IR.LoopInserter

open Relation (ReflTransGen)

section
variable (getLoopFor : BlockId → Option BlockId) (V : List BlockId) (E : BlockId)

/-- The unvisited predecessors in the loop of the entry. -/
def loopBarriers (ps : List BlockId) : List BlockId :=
  ps.filter fun p => p ∉ V ∧ isInTheSameLoop getLoopFor p E

/-- The other unvisited predecessors. -/
def otherBarriers (ps : List BlockId) : List BlockId :=
  ps.filter fun p => p ∉ V ∧ ¬ isInTheSameLoop getLoopFor p E

/-- What a scan keeps of the predecessors, the next block in hand first. -/
def keptBarriers (ps : List BlockId) : List BlockId :=
  match (loopBarriers getLoopFor V E ps).getLast? with
  | none => (otherBarriers getLoopFor V E ps).getLast?.toList
  | some L => L :: ((otherBarriers getLoopFor V E ps).getLast?.toList ++
      (loopBarriers getLoopFor V E ps).dropLast.reverse)

variable {getLoopFor V E}

theorem getLast?_toList_append {α : Type*} (xs : List α) :
    xs.getLast?.toList ++ xs.dropLast.reverse = xs.reverse := by
  induction xs using List.reverseRecOn with
  | nil => rfl
  | append_singleton xs x _ => simp

theorem loopBarriers_append (ps : List BlockId) (p : BlockId) :
    loopBarriers getLoopFor V E (ps ++ [p]) =
      if p ∉ V ∧ isInTheSameLoop getLoopFor p E then loopBarriers getLoopFor V E ps ++ [p]
      else loopBarriers getLoopFor V E ps := by
  rw [loopBarriers, List.filter_append]
  split <;> simp_all [loopBarriers]

theorem otherBarriers_append (ps : List BlockId) (p : BlockId) :
    otherBarriers getLoopFor V E (ps ++ [p]) =
      if p ∉ V ∧ ¬ isInTheSameLoop getLoopFor p E then otherBarriers getLoopFor V E ps ++ [p]
      else otherBarriers getLoopFor V E ps := by
  rw [otherBarriers, List.filter_append]
  split <;> simp_all [otherBarriers]

theorem foldl_scanPredecessor (X ps : List BlockId) :
    ps.foldl (scanPredecessor getLoopFor V E) ⟨X, none, none, 0⟩ =
      ⟨(loopBarriers getLoopFor V E ps).dropLast.reverse ++ X,
        (loopBarriers getLoopFor V E ps).getLast?, (otherBarriers getLoopFor V E ps).getLast?,
        (ps.filter (· ∉ V)).length⟩ := by
  induction ps using List.reverseRecOn with
  | nil => rfl
  | append_singleton ps p ih =>
    rw [List.foldl_append, ih, loopBarriers_append, otherBarriers_append, List.filter_append]
    simp only [List.foldl_cons, List.foldl_nil, scanPredecessor]
    by_cases hV : p ∈ V
    · simp [hV]
    · cases hs : isInTheSameLoop getLoopFor p E with
      | true =>
        simp only [hV, if_false, if_true, not_false_eq_true, not_true, and_true, and_false,
          ← List.append_assoc, getLast?_toList_append]
        simp [hV]
      | false => simp [hV]

theorem mem_loopBarriers {ps : List BlockId} {p : BlockId} :
    p ∈ loopBarriers getLoopFor V E ps ↔
      p ∈ ps ∧ p ∉ V ∧ isInTheSameLoop getLoopFor p E := by
  simp [loopBarriers]

theorem mem_otherBarriers {ps : List BlockId} {p : BlockId} :
    p ∈ otherBarriers getLoopFor V E ps ↔
      p ∈ ps ∧ p ∉ V ∧ isInTheSameLoop getLoopFor p E = false := by
  simp [otherBarriers]

theorem scanPredecessors_eq (getLoopFor : BlockId → Option BlockId) (V : List BlockId)
    (E : BlockId) (preds : BlockId → List BlockId) (X : List BlockId) :
    ∃ L, scanPredecessors getLoopFor preds V E X =
      ⟨(keptBarriers getLoopFor V E (preds E)).tail ++ X, L,
        (keptBarriers getLoopFor V E (preds E)).head?, ((preds E).filter (· ∉ V)).length⟩ := by
  refine ⟨(loopBarriers getLoopFor V E (preds E)).getLast?, ?_⟩
  rw [scanPredecessors, foldl_scanPredecessor]
  simp only [preferLoopBarrier, keptBarriers]
  cases hL : (loopBarriers getLoopFor V E (preds E)).getLast? with
  | none =>
    rw [List.getLast?_eq_none_iff.mp hL]
    cases (otherBarriers getLoopFor V E (preds E)).getLast? <;> rfl
  | some L =>
    have hmem := (mem_loopBarriers.mp (List.mem_of_getLast? hL)).2.1
    simp [hmem]

theorem mem_of_mem_keptBarriers {ps : List BlockId} {p : BlockId}
    (h : p ∈ keptBarriers getLoopFor V E ps) : p ∈ ps ∧ p ∉ V := by
  rw [keptBarriers] at h
  cases hL : (loopBarriers getLoopFor V E ps).getLast? with
  | none =>
    simp only [hL, Option.mem_toList] at h
    have := mem_otherBarriers.mp (List.mem_of_getLast? h)
    exact ⟨this.1, this.2.1⟩
  | some L =>
    simp only [hL, List.mem_cons, List.mem_append, Option.mem_toList,
      List.mem_reverse] at h
    rcases h with rfl | h | h
    · have := mem_loopBarriers.mp (List.mem_of_getLast? hL)
      exact ⟨this.1, this.2.1⟩
    · have := mem_otherBarriers.mp (List.mem_of_getLast? h)
      exact ⟨this.1, this.2.1⟩
    · have := mem_loopBarriers.mp (List.dropLast_subset _ h)
      exact ⟨this.1, this.2.1⟩

/-- Only other barriers than the last one outside the loop are dropped. -/
theorem mem_keptBarriers {ps : List BlockId} {p : BlockId} (hp : p ∈ ps) (hV : p ∉ V)
    (hother : ∀ q ∈ otherBarriers getLoopFor V E ps, ∀ q' ∈ otherBarriers getLoopFor V E ps,
      q = q') : p ∈ keptBarriers getLoopFor V E ps := by
  have hlast : p ∈ otherBarriers getLoopFor V E ps →
      p ∈ (otherBarriers getLoopFor V E ps).getLast?.toList := by
    intro h
    obtain ⟨q, hq⟩ := Option.ne_none_iff_exists'.mp
      (mt List.getLast?_eq_none_iff.mp (List.ne_nil_of_mem h))
    rw [hq, hother p h q (List.mem_of_getLast? hq)]
    exact List.mem_singleton_self q
  have hloop : p ∈ loopBarriers getLoopFor V E ps →
      p ∈ (loopBarriers getLoopFor V E ps).getLast?.toList ++
        (loopBarriers getLoopFor V E ps).dropLast.reverse := by
    rw [getLast?_toList_append]
    exact List.mem_reverse.mpr
  have hcase : p ∈ loopBarriers getLoopFor V E ps ∨ p ∈ otherBarriers getLoopFor V E ps := by
    cases hs : isInTheSameLoop getLoopFor p E with
    | true => exact .inl (mem_loopBarriers.mpr ⟨hp, hV, hs⟩)
    | false => exact .inr (mem_otherBarriers.mpr ⟨hp, hV, hs⟩)
  rw [keptBarriers]
  cases hL : (loopBarriers getLoopFor V E ps).getLast? with
  | none =>
    rw [List.getLast?_eq_none_iff.mp hL] at hcase
    exact hlast (hcase.resolve_left List.not_mem_nil)
  | some L =>
    rw [hL] at hloop
    simp only [Option.toList_some, List.singleton_append, List.mem_cons, List.mem_append] at hloop ⊢
    tauto

theorem keptBarriers_eq_nil (getLoopFor : BlockId → Option BlockId) (V : List BlockId)
    (E : BlockId) (ps : List BlockId) :
    keptBarriers getLoopFor V E ps = [] ↔ (ps.filter (· ∉ V)).length = 0 := by
  rw [List.length_eq_zero_iff, List.filter_eq_nil_iff]
  constructor
  · intro h p hp
    by_contra hV
    have hV : p ∉ V := by simpa using hV
    rw [keptBarriers] at h
    cases hL : (loopBarriers getLoopFor V E ps).getLast? with
    | some L => simp [hL] at h
    | none =>
      have hno := List.getLast?_eq_none_iff.mp hL
      cases hs : isInTheSameLoop getLoopFor p E with
      | true => exact List.not_mem_nil (hno ▸ mem_loopBarriers.mpr ⟨hp, hV, hs⟩)
      | false =>
        have hne := List.ne_nil_of_mem (mem_otherBarriers.mpr ⟨hp, hV, hs⟩)
        simp only [hL, Option.toList_eq_nil_iff] at h
        exact hne (List.getLast?_eq_none_iff.mp h)
  · intro h
    rw [List.eq_nil_iff_forall_not_mem]
    intro p hp
    obtain ⟨hps, hV⟩ := mem_of_mem_keptBarriers hp
    simpa [hV] using h p hps

end

/-! ### The turns of the loops -/

section
variable {F : Function} {preds : BlockId → List BlockId} {getLoopFor : BlockId → Option BlockId}
  {fuel : Nat} {s t : Gathering} {b p : BlockId}

/-- The blocks whose regions are still to be collected, the next one first. -/
def Gathering.agenda (s : Gathering) : List BlockId := s.ExitBB.toList ++ s.ExitBlocks

/-- The blocks that the scan of the predecessors of `PR`'s entry keeps. -/
def keptBy (getLoopFor : BlockId → Option BlockId) (preds : BlockId → List BlockId)
    (s : Gathering) (b : BlockId) (PR : MxPARegion) : List BlockId :=
  keptBarriers getLoopFor (b :: s.VisitedBarriers) PR.Entry (preds PR.Entry)

inductive Turn (getLoopFor : BlockId → Option BlockId) (F : Function)
    (preds : BlockId → List BlockId) (fuel : Nat) (s : Gathering) : Gathering → Prop
  | pop {b : BlockId} {rest : List BlockId} : s.ExitBB = none → s.ExitBlocks = b :: rest →
      Turn getLoopFor F preds fuel s ⟨s.PRVector, rest, s.VisitedBarriers, some b⟩
  | noRegion {b : BlockId} : s.ExitBB = some b →
      createRegionBeforeBarrier F preds fuel b = .ok none →
      Turn getLoopFor F preds fuel s ⟨s.PRVector, s.ExitBlocks, s.VisitedBarriers, none⟩
  | region {b : BlockId} {PR : MxPARegion} : s.ExitBB = some b →
      createRegionBeforeBarrier F preds fuel b = .ok (some PR) →
      Turn getLoopFor F preds fuel s
        ⟨s.PRVector ++ [PR], (keptBy getLoopFor preds s b PR).tail ++ s.ExitBlocks,
          b :: s.VisitedBarriers, (keptBy getLoopFor preds s b PR).head?⟩

/-- The assertion of the inner loop holds: a scan that found a block has one in hand. -/
theorem visitRegion_eq (s : Gathering) (b : BlockId) (PR : MxPARegion) :
    visitRegion getLoopFor preds s b PR =
      .ok (some ⟨s.PRVector ++ [PR], (keptBy getLoopFor preds s b PR).tail ++ s.ExitBlocks,
        b :: s.VisitedBarriers, (keptBy getLoopFor preds s b PR).head?⟩) := by
  obtain ⟨L, hscan⟩ := scanPredecessors_eq getLoopFor (b :: s.VisitedBarriers) PR.Entry preds
    s.ExitBlocks
  have hnil := keptBarriers_eq_nil getLoopFor (b :: s.VisitedBarriers) PR.Entry (preds PR.Entry)
  simp only [visitRegion, hscan, keptBy]
  cases hk : keptBarriers getLoopFor (b :: s.VisitedBarriers) PR.Entry (preds PR.Entry) with
  | nil => simp only [hnil.mp hk, if_true, List.head?_nil]
  | cons k ks =>
    have hfound : ((preds PR.Entry).filter (· ∉ b :: s.VisitedBarriers)).length ≠ 0 := by
      rw [Ne, ← hnil, hk]
      exact List.cons_ne_nil k ks
    simp only [hfound, if_false, List.head?_cons, Option.isNone_some, Bool.false_eq_true]

theorem turn_of_gatherStep (h : gatherStep getLoopFor F preds fuel s = .ok (some t)) :
    Turn getLoopFor F preds fuel s t := by
  unfold gatherStep at h
  split at h
  · split at h
    · cases h
    · split at h
      · cases h
        exact .pop ‹_› ‹_›
      · cases h
  · split at h
    · cases h
    · cases h
      exact .noRegion ‹_› ‹_›
    · rw [visitRegion_eq] at h
      cases h
      exact .region ‹_› ‹_›

/-- What every turn of the loops keeps. -/
structure GatherInv (F : Function) (preds : BlockId → List BlockId) (fuel : Nat)
    (s : Gathering) : Prop where
  agenda : ∀ b ∈ s.agenda, F.EndsRegion b
  visited : ∀ b ∈ s.VisitedBarriers, F.EndsRegion b
  regions : List.Forall₂ (fun PR b => createRegionBeforeBarrier F preds fuel b = .ok (some PR))
    s.PRVector s.VisitedBarriers.reverse

theorem exists_of_forall₂_right {α β : Type*} {R : α → β → Prop} {xs : List α} {ys : List β}
    (h : List.Forall₂ R xs ys) {y : β} (hy : y ∈ ys) : ∃ x ∈ xs, R x y := by
  induction h with
  | nil => cases hy
  | @cons x z xs ys hxz _ ih =>
    rcases List.mem_cons.mp hy with rfl | hy
    · exact ⟨x, List.mem_cons_self, hxz⟩
    · obtain ⟨w, hw, hwy⟩ := ih hy
      exact ⟨w, List.mem_cons_of_mem x hw, hwy⟩

theorem GatherInv.exists_region (hs : GatherInv F preds fuel s) (hb : b ∈ s.VisitedBarriers) :
    ∃ PR ∈ s.PRVector, createRegionBeforeBarrier F preds fuel b = .ok (some PR) :=
  exists_of_forall₂_right hs.regions (List.mem_reverse.mpr hb)

theorem agenda_some {b : BlockId} (h : s.ExitBB = some b) :
    s.agenda = b :: s.ExitBlocks := by rw [Gathering.agenda, h]; rfl

theorem agenda_kept (V X ks : List BlockId) (R : List MxPARegion) :
    (Gathering.mk R (ks.tail ++ X) V ks.head?).agenda = ks ++ X := by
  cases ks <;> rfl

theorem Gatherable.region_spec (h : Gatherable F preds getLoopFor) (hfuel : floodFuel F ≤ fuel)
    (hb : F.EndsRegion b) :
    ∃ R, createRegionBeforeBarrier F preds fuel b = .ok R ∧ IsRegionBefore F preds b R :=
  createRegionBeforeBarrier_spec h.perm h.valid h.hivedOff hb hfuel

theorem Gatherable.isRegionBefore (h : Gatherable F preds getLoopFor)
    (hfuel : floodFuel F ≤ fuel) (hb : F.EndsRegion b) {R : Option MxPARegion}
    (hR : createRegionBeforeBarrier F preds fuel b = .ok R) : IsRegionBefore F preds b R := by
  obtain ⟨R', hR', hspec⟩ := h.region_spec hfuel hb
  cases hR.symm.trans hR'
  exact hspec

theorem Gatherable.kept_endsRegion (h : Gatherable F preds getLoopFor)
    (hfuel : floodFuel F ≤ fuel) (hb : F.EndsRegion b) {PR : MxPARegion}
    (hR : createRegionBeforeBarrier F preds fuel b = .ok (some PR)) (hp : p ∈ preds PR.Entry) :
    F.EndsRegion p := by
  obtain ⟨-, habove, ⟨q, hq, hqbar⟩, -⟩ := h.isRegionBefore hfuel hb hR
  obtain ⟨c, hc, -⟩ := exists_enters hb habove (.inr ⟨q, (h.perm _).subset hq, hqbar⟩)
  have hp' := (h.perm _).subset hp
  exact h.endsRegion hp' (h.regions.preds c _ hc p hp') habove.1

theorem GatherInv.turn (h : Gatherable F preds getLoopFor) (hfuel : floodFuel F ≤ fuel)
    (hs : GatherInv F preds fuel s) (ht : Turn getLoopFor F preds fuel s t) :
    GatherInv F preds fuel t := by
  cases ht with
  | @pop b rest hE hX =>
    refine ⟨?_, hs.visited, hs.regions⟩
    simpa [Gathering.agenda, hE, hX] using hs.agenda
  | @noRegion b hE _ =>
    refine ⟨fun x hx => hs.agenda x ?_, hs.visited, hs.regions⟩
    rw [agenda_some hE]
    exact List.mem_cons_of_mem b hx
  | @region b PR hE hR =>
    have hb : F.EndsRegion b := hs.agenda b (agenda_some hE ▸ List.mem_cons_self)
    refine ⟨fun x hx => ?_, fun x hx => ?_, ?_⟩
    · rw [agenda_kept, List.mem_append] at hx
      rcases hx with hx | hx
      · exact h.kept_endsRegion hfuel hb hR (mem_of_mem_keptBarriers hx).1
      · exact hs.agenda x (agenda_some hE ▸ List.mem_cons_of_mem b hx)
    · rcases List.mem_cons.mp hx with rfl | hx
      · exact hb
      · exact hs.visited x hx
    · rw [List.reverse_cons]
      exact List.rel_append hs.regions (.cons hR .nil)

/-! ### The loops end -/

/-- A visited block on the agenda may push blocks once more, an unvisited one is visited first. -/
def weigh (F : Function) (V bs : List BlockId) : Nat :=
  (bs.map fun b => if b ∈ V then 2 * edgeCount F + 1 else 1).sum

@[simp] theorem weigh_cons (V bs : List BlockId) (b : BlockId) :
    weigh F V (b :: bs) = (if b ∈ V then 2 * edgeCount F + 1 else 1) + weigh F V bs := rfl

@[simp] theorem weigh_append (V bs cs : List BlockId) :
    weigh F V (bs ++ cs) = weigh F V bs + weigh F V cs := by
  rw [weigh, List.map_append, List.sum_append]
  rfl

theorem weigh_of_unvisited {V bs : List BlockId} (h : ∀ b ∈ bs, b ∉ V) :
    weigh F V bs = bs.length := by
  induction bs with
  | nil => rfl
  | cons b bs ih =>
    rw [weigh_cons, if_neg (h b List.mem_cons_self),
      ih fun c hc => h c (List.mem_cons_of_mem b hc), List.length_cons, Nat.add_comm]

theorem weigh_cons_visited {V : List BlockId} (hb : b ∈ V) (bs : List BlockId) :
    weigh F (b :: V) bs = weigh F V bs := by
  induction bs with
  | nil => rfl
  | cons c bs ih =>
    have hiff : c ∈ b :: V ↔ c ∈ V := by
      rw [List.mem_cons, or_iff_right_iff_imp]
      exact fun h => h ▸ hb
    simp only [weigh_cons, ih, hiff]

def gatherMeasure (F : Function) (s : Gathering) : Nat × Nat × Nat :=
  (Graph.unseen F.layout s.VisitedBarriers, weigh F s.VisitedBarriers s.agenda, s.ExitBlocks.length)

theorem length_keptBarriers_le {V ps : List BlockId} {E : BlockId} :
    (keptBarriers getLoopFor V E ps).length ≤ 2 * ps.length := by
  have hloop : (loopBarriers getLoopFor V E ps).length ≤ ps.length := List.length_filter_le _ _
  have hother : (otherBarriers getLoopFor V E ps).length ≤ ps.length := List.length_filter_le _ _
  have hlast : ∀ xs : List BlockId, xs.getLast?.toList.length ≤ xs.length := by
    intro xs
    cases xs with
    | nil => exact le_rfl
    | cons x xs => cases h : (x :: xs).getLast? <;> simp
  rw [keptBarriers]
  cases hL : (loopBarriers getLoopFor V E ps).getLast? with
  | none =>
    have := hlast (otherBarriers getLoopFor V E ps)
    simp only
    omega
  | some L =>
    have := hlast (otherBarriers getLoopFor V E ps)
    have := List.length_pos_of_mem (List.mem_of_getLast? hL)
    simp only [List.length_cons, List.length_append, List.length_reverse, List.length_dropLast]
    omega

theorem length_preds_le (hperm : ∀ b, (preds b).Perm (F.predEdges b)) (hb : b ∈ F.layout) :
    (preds b).length ≤ edgeCount F := by
  rw [(hperm b).length_eq]
  exact List.single_le_sum (fun _ _ => Nat.zero_le _) _
    (List.mem_map_of_mem (f := fun b => (F.predEdges b).length) hb)

/-- A turn visits a block more, or leaves less on the agenda. -/
theorem Turn.measure (hperm : ∀ b, (preds b).Perm (F.predEdges b))
    (hlayout : ∀ b ∈ s.agenda, b ∈ F.layout)
    (hentry : ∀ b PR, s.ExitBB = some b → createRegionBeforeBarrier F preds fuel b = .ok (some PR) →
      PR.Entry ∈ F.layout) (ht : Turn getLoopFor F preds fuel s t) :
    Prod.Lex (· < ·) (Prod.Lex (· < ·) (· < ·)) (gatherMeasure F t) (gatherMeasure F s) := by
  cases ht with
  | @pop b rest hE hX =>
    have hagenda : (Gathering.mk s.PRVector rest s.VisitedBarriers (some b)).agenda = s.agenda := by
      simp [Gathering.agenda, hE, hX]
    rw [gatherMeasure, gatherMeasure, hagenda, hX]
    exact .right _ (.right _ (Nat.lt_succ_self _))
  | @noRegion b hE _ =>
    refine .right _ (.left _ _ ?_)
    rw [agenda_some hE, weigh_cons]
    simp only [Gathering.agenda, Option.toList_none, List.nil_append]
    split <;> omega
  | @region b PR hE hR =>
    have hb : b ∈ F.layout := hlayout b (agenda_some hE ▸ List.mem_cons_self)
    by_cases hV : b ∈ s.VisitedBarriers
    · have hunseen : Graph.unseen F.layout (b :: s.VisitedBarriers) =
          Graph.unseen F.layout s.VisitedBarriers :=
        Nat.le_antisymm (Graph.unseen_mono (List.subset_cons_self _ _))
          (Graph.unseen_mono (List.cons_subset.mpr ⟨hV, fun _ h => h⟩))
      have hkept : weigh F (b :: s.VisitedBarriers) (keptBy getLoopFor preds s b PR) =
          (keptBy getLoopFor preds s b PR).length :=
        weigh_of_unvisited fun x hx => (mem_of_mem_keptBarriers hx).2
      have hlen : (keptBy getLoopFor preds s b PR).length ≤ 2 * edgeCount F :=
        length_keptBarriers_le.trans (Nat.mul_le_mul_left 2
          (length_preds_le hperm (hentry b PR hE hR)))
      rw [gatherMeasure, gatherMeasure, hunseen]
      refine .right _ (.left _ _ ?_)
      rw [agenda_kept, agenda_some hE, weigh_append, hkept, weigh_cons_visited hV, weigh_cons,
        if_pos hV]
      omega
    · have hlt := Graph.unseen_lt hb hV
      refine .left _ _ (Nat.lt_of_le_of_lt (Graph.unseen_mono fun x hx => ?_) hlt)
      simpa [or_comm] using hx

theorem gatherStep_progress (h : Gatherable F preds getLoopFor) (hfuel : floodFuel F ≤ fuel)
    (hs : GatherInv F preds fuel s) :
    gatherStep getLoopFor F preds fuel s = .ok none ∧ s.agenda = [] ∨
      ∃ t, gatherStep getLoopFor F preds fuel s = .ok (some t) := by
  obtain ⟨P, X, V, E⟩ := s
  cases E with
  | none =>
    cases X with
    | nil => exact .inl ⟨rfl, rfl⟩
    | cons b rest =>
      have hb := hs.agenda b List.mem_cons_self
      have hjust := h.hivedOff.alone b hb.1 hb.2.1
      exact .inr ⟨_, by simp only [gatherStep, hjust, if_true]; rfl⟩
  | some b =>
    obtain ⟨R, hR, -⟩ := h.region_spec hfuel (hs.agenda b List.mem_cons_self)
    cases R with
    | none => exact .inr ⟨_, by simp only [gatherStep, hR]; rfl⟩
    | some PR => exact .inr ⟨_, by simp only [gatherStep, hR, visitRegion_eq]; rfl⟩

theorem gatherStep_of_agenda_nil (h : s.agenda = []) :
    gatherStep getLoopFor F preds fuel s = .ok none := by
  obtain ⟨P, X, V, E⟩ := s
  cases E with
  | some b => cases h
  | none =>
    cases X with
    | nil => rfl
    | cons b rest => cases h

theorem foldlM_collectExit (h : F.HivedOffBelow) {bs X : List BlockId} (hsub : bs ⊆ F.layout) :
    bs.foldlM (collectExit F) X =
      .ok ((bs.filter fun b => (F.succs b).isEmpty).reverse ++ X) := by
  induction bs generalizing X with
  | nil => rfl
  | cons b bs ih =>
    obtain ⟨hb, hsub⟩ := List.cons_subset.mp hsub
    rw [List.foldlM_cons]
    cases he : (F.succs b).isEmpty with
    | false =>
      have hstep : collectExit F X b = .ok X := by simp [collectExit, he]
      simp only [hstep, List.filter_cons, he, Bool.false_eq_true, if_false]
      exact ih hsub
    | true =>
      have hjust := h.exits b hb (List.isEmpty_iff.mp he)
      have hstep : collectExit F X b = .ok (b :: X) := by simp [collectExit, he, hjust]
      simp only [hstep, List.filter_cons, he, if_true, List.reverse_cons, List.append_assoc]
      exact ih hsub

/-- The kernel's exits, the last one on the back. -/
def exitBlocks (F : Function) : List BlockId :=
  (F.layout.filter fun b => (F.succs b).isEmpty).reverse

def startOf (F : Function) : Gathering := ⟨[], exitBlocks F, [], none⟩

theorem mem_exitBlocks : b ∈ exitBlocks F ↔ b ∈ F.layout ∧ F.succs b = [] := by
  simp [exitBlocks]

theorem GatherInv.start (preds : BlockId → List BlockId) (fuel : Nat) (h : F.HivedOffBelow) :
    GatherInv F preds fuel (startOf F) where
  agenda b hb := by
    obtain ⟨hb, hsucc⟩ := mem_exitBlocks.mp hb
    refine ⟨hb, hasBarrier_of_containsJustABarrier (h.exits b hb hsucc), fun y hy => ?_⟩
    rw [Function.Edge, hsucc] at hy
    exact absurd hy List.not_mem_nil
  visited _ hb := absurd hb List.not_mem_nil
  regions := .nil

/-- A state between two turns of the loops. -/
def Visits (getLoopFor : BlockId → Option BlockId) (F : Function)
    (preds : BlockId → List BlockId) (fuel : Nat) (s : Gathering) : Prop :=
  Sim.Reaches (gatherStep getLoopFor F preds fuel) (startOf F) s

theorem Visits.inv (h : Gatherable F preds getLoopFor) (hfuel : floodFuel F ≤ fuel)
    (hs : Visits getLoopFor F preds fuel s) : GatherInv F preds fuel s :=
  Sim.Reaches.inv hs (.start preds fuel h.hivedOff) fun _ _ hInv hst =>
    hInv.turn h hfuel (turn_of_gatherStep hst)

/-- The gathering returns, and no assertion fails on the way. -/
theorem gatherParallelRegions_ends (h : Gatherable F preds getLoopFor)
    (hfuel : floodFuel F ≤ fuel) : ∃ s n, Visits getLoopFor F preds fuel s ∧ s.agenda = [] ∧
      ∀ turns, n ≤ turns →
        gatherParallelRegions getLoopFor F preds fuel turns = .ok s.PRVector := by
  have hstep : ∀ s, GatherInv F preds fuel s →
      gatherStep getLoopFor F preds fuel s = .ok none ∨
        ∃ t, gatherStep getLoopFor F preds fuel s = .ok (some t) ∧ GatherInv F preds fuel t ∧
          Prod.Lex (· < ·) (Prod.Lex (· < ·) (· < ·)) (gatherMeasure F t) (gatherMeasure F s) := by
    intro s hs
    refine (gatherStep_progress h hfuel hs).imp And.left fun ⟨t, ht⟩ => ⟨t, ht, ?_⟩
    have hturn := turn_of_gatherStep ht
    refine ⟨hs.turn h hfuel hturn, hturn.measure h.perm (fun b hb => (hs.agenda b hb).1) ?_⟩
    intro b PR hE hR
    have hb : F.EndsRegion b := hs.agenda b (agenda_some hE ▸ List.mem_cons_self)
    exact (h.isRegionBefore hfuel hb hR).2.1.mem hb.2.1
  obtain ⟨s, n, hloop, hInv⟩ := Sim.loop_ends_of_wellFounded Failure.outOfFuel
    (WellFounded.prod_lex Nat.lt_wfRel.wf (WellFounded.prod_lex Nat.lt_wfRel.wf Nat.lt_wfRel.wf))
    hstep (GatherInv.start preds fuel h.hivedOff)
  obtain ⟨hvisits, hdone⟩ := Sim.loop_reaches (hloop n le_rfl)
  refine ⟨s, n, hvisits, ?_, fun turns hturns => ?_⟩
  · rcases gatherStep_progress h hfuel hInv with hend | ⟨t, ht⟩
    · exact hend.2
    · cases hdone.symm.trans ht
  · rw [gatherParallelRegions, foldlM_collectExit h.hivedOff (fun _ h => h), List.append_nil]
    exact congrArg (· >>= fun s => pure s.PRVector) (hloop turns hturns)

end

end VariOCL.IR.LoopInserter
