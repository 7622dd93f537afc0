import VariOCL.LoopInserter.Gather
import VariOCL.LoopInserter.RealEntry

/-! The gathering of regions ends on every function in hived-off form, whatever its loops and its
regions are: it returns, or one of its assertions fails. -/

namespace VariOCL.IR.LoopInserter

open Relation (ReflTransGen)

section
variable {F : Function} {preds : BlockId → List BlockId} {getLoopFor : BlockId → Option BlockId}
  {b : BlockId} {l l' v : List BlockId} {s t : Flooding} {fuel n : Nat}

/-! ### Where a region formation can start -/

theorem Tops.unique (h : Tops F preds b l) (h' : Tops F preds b l') : l = l' := by
  induction h generalizing l' with
  | root hp =>
    cases h' with
    | root _ => rfl
    | code hq _ => cases hp.symm.trans hq
    | barrier hq _ _ => cases hp.symm.trans hq
  | code hp hcode =>
    cases h' with
    | root hq => cases hp.symm.trans hq
    | code hq _ =>
      cases hp.symm.trans hq
      rfl
    | barrier hq hbar _ =>
      cases hp.symm.trans hq
      cases hcode.symm.trans hbar
  | barrier hp hbar _ ih =>
    cases h' with
    | root hq => cases hp.symm.trans hq
    | code hq hcode =>
      cases hp.symm.trans hq
      cases hcode.symm.trans hbar
    | barrier hq _ ht =>
      cases hp.symm.trans hq
      exact ih ht

/-- A block of code, or a barrier that no barrier follows: the climb from it meets no cycle of
barriers. -/
def Starts (F : Function) (b : BlockId) : Prop :=
  b ∈ F.layout ∧ (hasBarrier (F.block b) → F.EndsRegion b)

/-- A block before a block of code starts a region formation: a barrier in front of a barrier leads
nowhere else. -/
theorem starts_of_pred (hF : F.Valid) (hH : F.HivedOffBelow) {x : BlockId}
    (hb : b ∈ F.predEdges x) (hx : hasBarrier (F.block x) = false) : Starts F b := by
  obtain ⟨hmem, hedge⟩ := F.mem_predEdges.mp hb
  refine ⟨hmem, fun hbar => ⟨hmem, hbar, fun y hy => ?_⟩⟩
  cases hby : hasBarrier (F.block y) with
  | false => rfl
  | true =>
    have hne : y ≠ F.entry := fun h => hF.entryPreds b hmem (h ▸ hy)
    obtain ⟨q, hq, hterm⟩ := hH.pred y (hF.closed b hmem y hy) hne hby
    have hbq : b = q := List.mem_singleton.mp (hq ▸ F.mem_predEdges.mpr ⟨hmem, hy⟩)
    have hxy : x = y := by
      rw [Function.Edge, Function.succs, hbq, hterm] at hedge
      exact List.mem_singleton.mp hedge
    rw [hxy, hby] at hx
    cases hx

theorem starts_of_mem_exitBlocks (hH : F.HivedOffBelow) (hb : b ∈ exitBlocks F) : Starts F b :=
  ⟨(mem_exitBlocks.mp hb).1, fun _ => (GatherInv.start (fun _ => []) 0 hH).agenda b hb⟩

variable (hperm : ∀ b, (preds b).Perm (F.predEdges b)) (hF : F.Valid) (hH : F.HivedOffBelow)
include hperm

include hF hH in
/-- The climb from a block that starts a region formation ends, with blocks of the function. -/
theorem addPredecessors_ends (hb : Starts F b) : ∃ l, l ⊆ F.layout ∧ l.length ≤ edgeCount F + 1 ∧
    ∀ n, F.layout.length < n → addPredecessors F preds n [] b = .ok l := by
  cases hbar : hasBarrier (F.block b) with
  | false =>
    have hlen := length_preds_le hperm hb.1
    refine ⟨(preds b).reverse, fun x hx => ?_, by rw [List.length_reverse]; omega, fun n hn => ?_⟩
    · exact mem_layout_of_mem_preds hperm (List.mem_reverse.mp hx)
    · obtain ⟨n, rfl⟩ : ∃ k, n = k + 1 := ⟨n - 1, by omega⟩
      rw [addPredecessors_code hH hb.1 hbar, List.append_nil]
  | true =>
    obtain ⟨l, -, hl⟩ := addPredecessors_barrier (v := []) hperm hF hH (hb.2 hbar) le_rfl
    refine ⟨l, fun x hx => (hl.above hperm hbar x hx).mem hbar, hl.length_le.trans (by omega),
      fun n hn => ?_⟩
    obtain ⟨l', hw, hl'⟩ :=
      addPredecessors_barrier (v := []) hperm hF hH (hb.2 hbar) (Nat.le_of_lt hn)
    rw [hw, hl'.unique hl, List.append_nil]

/-! ### The flooding ends -/

omit hperm in
/-- The blocks of the worklist are blocks of the function, and those of the region hold code. -/
structure Floods (F : Function) (s : Flooding) : Prop where
  work : s.BBWorkList ⊆ F.layout
  region : ∀ x ∈ s.RegionBBSet, x ∈ F.layout ∧ hasBarrier (F.block x) = false

include hH in
theorem floodStep_ends (hs : Floods F s) : ∃ r, (∀ n, floodStep F preds (n + 1) s = .ok r) ∧
    ∀ t, r = some t → Floods F t ∧ floodMeasure F preds t < floodMeasure F preds s := by
  obtain ⟨work, S, r⟩ := s
  cases work with
  | nil => exact ⟨none, fun _ => rfl, nofun⟩
  | cons x rest =>
    have hx : x ∈ F.layout := hs.work List.mem_cons_self
    have hrest : rest ⊆ F.layout := fun y hy => hs.work (List.mem_cons_of_mem x hy)
    by_cases hS : x ∈ S
    · refine ⟨some ⟨rest, S, r⟩, fun n => by simp only [floodStep, hS, if_true], ?_⟩
      rintro t ⟨⟩
      exact ⟨⟨hrest, hs.region⟩, by simp [floodMeasure]⟩
    cases hbar : hasBarrier (F.block x) with
    | true =>
      refine ⟨some ⟨rest, S, r.or (some x)⟩,
        fun n => by simp only [floodStep, hS, if_false, hbar, if_true], ?_⟩
      rintro t ⟨⟩
      exact ⟨⟨hrest, hs.region⟩, by simp [floodMeasure]⟩
    | false =>
      refine ⟨some ⟨(preds x).reverse ++ rest, x :: S, r⟩, fun n => ?_, ?_⟩
      · simp only [floodStep, hS, if_false, hbar, addPredecessors_code hH hx hbar]
        rfl
      rintro t ⟨⟩
      refine ⟨⟨List.append_subset.mpr ⟨fun y hy => ?_, hrest⟩, fun y hy => ?_⟩, ?_⟩
      · exact mem_layout_of_mem_preds hperm (List.mem_reverse.mp hy)
      · rcases List.mem_cons.mp hy with rfl | hy
        · exact ⟨hx, hbar⟩
        · exact hs.region y hy
      · have : pending F preds (x :: S) + (preds x).length ≤ pending F preds S := pending_cons hx hS
        simp only [floodMeasure, List.length_append, List.length_reverse, List.length_cons]
        omega

include hH in
theorem flood_ends (hs : Floods F s) : ∃ t, Floods F t ∧ ∀ fuel, floodMeasure F preds s < fuel →
    Sim.loop (floodStep F preds fuel) .outOfFuel fuel s = .ok t := by
  have hstep : ∀ s, Floods F s → floodStep F preds 1 s = .ok none ∨ ∃ t,
      floodStep F preds 1 s = .ok (some t) ∧ Floods F t ∧
        floodMeasure F preds t < floodMeasure F preds s := by
    intro s hs
    obtain ⟨r, hr, hnext⟩ := floodStep_ends hperm hH hs
    cases r with
    | none => exact .inl (hr 0)
    | some t => exact .inr ⟨t, hr 0, hnext t rfl⟩
  obtain ⟨t, ht, htInv⟩ := Sim.loop_ends Failure.outOfFuel hstep hs (Nat.lt_succ_self _)
  refine ⟨t, htInv, fun fuel hfuel => ?_⟩
  have hInv : ∀ s t, Floods F s → floodStep F preds 1 s = .ok (some t) → Floods F t := by
    intro s t hs hst
    rcases hstep s hs with hnone | ⟨u, hu, hu', -⟩
    · cases hnone.symm.trans hst
    · cases hu.symm.trans hst
      exact hu'
  refine (Sim.loop_congr hInv (fun s hs => ?_) hs).trans (Sim.loop_extends ht hfuel)
  obtain ⟨r, hr, -⟩ := floodStep_ends hperm hH hs
  obtain ⟨k, rfl⟩ : ∃ k, fuel = k + 1 := ⟨fuel - 1, by omega⟩
  rw [hr k, hr 0]

omit hperm in
variable (preds) in
theorem regionOf_ends (hs : Floods F s) (b : BlockId) :
    regionOf F preds b s ≠ .error .outOfFuel ∧ ∀ PR, regionOf F preds b s = .ok (some PR) →
      PR.Entry ∈ F.layout ∧ hasBarrier (F.block PR.Entry) = false := by
  unfold regionOf
  split
  · exact ⟨nofun, nofun⟩
  split
  · exact ⟨nofun, nofun⟩
  split
  · exact ⟨nofun, nofun⟩
  · rename_i hfind
    refine ⟨nofun, ?_⟩
    rintro PR ⟨⟩
    exact hs.region _ (by simpa using List.find?_some hfind)

/-- The fuel that no flooding uses up. -/
def gatherFuel (F : Function) : Nat := F.layout.length + 2 * edgeCount F + 2

include hF hH in
theorem createRegionBeforeBarrier_ends (hb : Starts F b) : ∃ r : Except Failure _,
    r ≠ .error .outOfFuel ∧ (∀ PR, r = .ok (some PR) → PR.Entry ∈ F.layout ∧
      hasBarrier (F.block PR.Entry) = false) ∧
    ∀ fuel, gatherFuel F ≤ fuel → createRegionBeforeBarrier F preds fuel b = r := by
  obtain ⟨l, hl, hlen, hadd⟩ := addPredecessors_ends hperm hF hH hb
  have hfloods : Floods F ⟨l, [], none⟩ := ⟨hl, fun x hx => absurd hx List.not_mem_nil⟩
  obtain ⟨s, hs, hloop⟩ := flood_ends hperm hH hfloods
  obtain ⟨hne, hentry⟩ := regionOf_ends preds hs b
  refine ⟨regionOf F preds b s, hne, hentry, fun fuel hfuel => ?_⟩
  unfold gatherFuel at hfuel
  have hmeasure : floodMeasure F preds ⟨l, [], none⟩ < fuel := by
    simp only [floodMeasure, pending_nil hperm]
    omega
  rw [createRegionBeforeBarrier, hadd fuel (by omega)]
  change (Sim.loop (floodStep F preds fuel) .outOfFuel fuel ⟨l, [], none⟩).bind _ = _
  rw [hloop fuel hmeasure]
  rfl

end

/-! ### The gathering ends -/

section
variable {F : Function} {preds : BlockId → List BlockId} {getLoopFor : BlockId → Option BlockId}
  {s t : Gathering} {fuel : Nat}

/-- Every block on the agenda can start a region formation. -/
def AllStart (F : Function) (s : Gathering) : Prop := ∀ b ∈ s.agenda, Starts F b

variable (hperm : ∀ b, (preds b).Perm (F.predEdges b)) (hF : F.Valid) (hH : F.HivedOffBelow)
include hperm hF hH

theorem AllStart.entry (hs : AllStart F s) (hfuel : gatherFuel F ≤ fuel) {b : BlockId}
    {PR : MxPARegion} (hE : s.ExitBB = some b)
    (hR : createRegionBeforeBarrier F preds fuel b = .ok (some PR)) :
    PR.Entry ∈ F.layout ∧ hasBarrier (F.block PR.Entry) = false := by
  have hb := hs b (agenda_some hE ▸ List.mem_cons_self)
  obtain ⟨r, -, hentry, hr⟩ := createRegionBeforeBarrier_ends hperm hF hH hb
  exact hentry PR ((hr fuel hfuel).symm.trans hR)

theorem AllStart.turn (hs : AllStart F s) (hfuel : gatherFuel F ≤ fuel)
    (ht : Turn getLoopFor F preds fuel s t) : AllStart F t := by
  cases ht with
  | @pop b rest hE hX =>
    intro x hx
    refine hs x ?_
    simpa [Gathering.agenda, hE, hX] using hx
  | @noRegion b hE _ =>
    intro x hx
    refine hs x ?_
    rw [agenda_some hE]
    exact List.mem_cons_of_mem b hx
  | @region b PR hE hR =>
    intro x hx
    rw [agenda_kept, List.mem_append] at hx
    rcases hx with hx | hx
    · have hpred := (hperm _).subset (mem_of_mem_keptBarriers hx).1
      exact starts_of_pred hF hH hpred (hs.entry hperm hF hH hfuel hE hR).2
    · exact hs x (agenda_some hE ▸ List.mem_cons_of_mem b hx)

theorem gatherStep_settles (hs : AllStart F s) (hfuel : gatherFuel F ≤ fuel) :
    gatherStep getLoopFor F preds fuel s ≠ .error .outOfFuel ∧
      gatherStep getLoopFor F preds fuel s =
        gatherStep getLoopFor F preds (gatherFuel F) s := by
  obtain ⟨P, X, V, E⟩ := s
  cases E with
  | none =>
    cases X with
    | nil =>
      refine ⟨fun h => ?_, rfl⟩
      cases h
    | cons b rest =>
      refine ⟨?_, rfl⟩
      simp only [gatherStep]
      split <;> exact fun h => by cases h
  | some b =>
    obtain ⟨r, hne, -, hr⟩ := createRegionBeforeBarrier_ends hperm hF hH (hs b List.mem_cons_self)
    simp only [gatherStep, hr fuel hfuel, hr _ le_rfl, and_true]
    cases r with
    | error e => exact fun h => hne (congrArg Except.error (Except.error.inj h))
    | ok R =>
      cases R with
      | none => exact fun h => by cases h
      | some PR =>
        simp only [visitRegion_eq]
        exact fun h => by cases h

/-- On a function in hived-off form the gathering ends, with its regions or with a failed
assertion. -/
theorem gatherParallelRegions_settles (getLoopFor : BlockId → Option BlockId) :
    ∃ r n, r ≠ .error .outOfFuel ∧ ∀ fuel turns, gatherFuel F ≤ fuel → n ≤ turns →
      gatherParallelRegions getLoopFor F preds fuel turns = r := by
  have hInv : ∀ s t, AllStart F s →
      gatherStep getLoopFor F preds (gatherFuel F) s = .ok (some t) → AllStart F t :=
    fun s t hs hst => hs.turn hperm hF hH le_rfl (turn_of_gatherStep hst)
  have hstep : ∀ s, AllStart F s →
      gatherStep getLoopFor F preds (gatherFuel F) s ≠ .error .outOfFuel ∧
        ∀ t, gatherStep getLoopFor F preds (gatherFuel F) s = .ok (some t) → AllStart F t ∧
          Prod.Lex (· < ·) (Prod.Lex (· < ·) (· < ·)) (gatherMeasure F t) (gatherMeasure F s) := by
    refine fun s hs => ⟨(gatherStep_settles hperm hF hH hs le_rfl).1, fun t hst => ?_⟩
    refine ⟨hInv s t hs hst, (turn_of_gatherStep hst).measure hperm (fun b hb => (hs b hb).1) ?_⟩
    exact fun b PR hE hR => (hs.entry hperm hF hH le_rfl hE hR).1
  have hstart : AllStart F (startOf F) := fun b hb => starts_of_mem_exitBlocks hH hb
  obtain ⟨r, n, hr, hloop⟩ := Sim.loop_settles Failure.outOfFuel
    (WellFounded.prod_lex Nat.lt_wfRel.wf (WellFounded.prod_lex Nat.lt_wfRel.wf Nat.lt_wfRel.wf))
    hstep hstart
  refine ⟨r.map Gathering.PRVector, n, fun h => ?_, fun fuel turns hfuel hturns => ?_⟩
  · cases r with
    | error e => exact hr (congrArg Except.error (Except.error.inj h))
    | ok s => cases h
  · have hsame : Sim.loop (gatherStep getLoopFor F preds fuel) .outOfFuel turns (startOf F) = r :=
      (Sim.loop_congr hInv (fun s hs => (gatherStep_settles hperm hF hH hs hfuel).2) hstart).trans
        (hloop turns hturns)
    rw [gatherParallelRegions, foldlM_collectExit hH (fun _ h => h), List.append_nil]
    change (Sim.loop (gatherStep getLoopFor F preds fuel) .outOfFuel turns (startOf F)).bind _ = _
    rw [hsame]
    cases r <;> rfl

end

/-- What `HiveOffBarrier` leaves, in any order of the barriers, with or without a block of code on
top: the gathering ends. -/
theorem gatherParallelRegions_terminates {F G : Function} (hF : F.Valid)
    {order : List InstId → List InstId} (ho : ∀ l, (order l).Perm l)
    (hG : G = (HiveOff.runOnFunction order F).1 ∨
      ensureARealEntryOnTopABarrierEntry (HiveOff.runOnFunction order F).1 = .ok G)
    {preds : BlockId → List BlockId} (hperm : ∀ b, (preds b).Perm (G.predEdges b))
    (getLoopFor : BlockId → Option BlockId) :
    ∃ r n, r ≠ .error .outOfFuel ∧ ∀ fuel turns, gatherFuel G ≤ fuel → n ≤ turns →
      gatherParallelRegions getLoopFor G preds fuel turns = r := by
  have hH := (HiveOff.runOnFunction_hivedOff hF ho).1
  have hV := (HiveOff.hiving_runOnFunction hF ho).started.valid
  rcases hG with rfl | hG
  · exact gatherParallelRegions_settles hperm hV hH.below getLoopFor
  · obtain ⟨hGV, hGH, -⟩ := ensureARealEntry_hivedOff hV hH hG
    exact gatherParallelRegions_settles hperm hGV hGH getLoopFor

theorem gatherParallelRegions_terminates_twoBarriers : ∃ r n, r ≠ .error .outOfFuel ∧
    ∀ fuel turns, gatherFuel (HiveOff.runOnFunction id HiveOff.twoBarriers).1 ≤ fuel → n ≤ turns →
      gatherParallelRegions (fun _ => none) (HiveOff.runOnFunction id HiveOff.twoBarriers).1
        (HiveOff.runOnFunction id HiveOff.twoBarriers).1.predEdges fuel turns = r :=
  gatherParallelRegions_terminates HiveOff.twoBarriers_valid (fun _ => .refl _) (.inl rfl)
    (fun _ => .refl _) fun _ => none

end VariOCL.IR.LoopInserter
