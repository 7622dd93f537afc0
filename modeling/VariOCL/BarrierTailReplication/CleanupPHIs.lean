import VariOCL.BarrierTailReplication.StaleEntries

/-! `CleanupPHIs`: the entries of a PHI whose block does not branch to the PHI's block any more are
removed, and the PHIs without entries. -/

namespace VariOCL.IR.BarrierTailReplication

open Sim

/-- The terminator of `b` has `BB` among its successors. -/
def branchesTo (F : Function) (BB b : BlockId) : Bool := (F.succs b).contains BB

structure Cleanup where
  F : Function
  BI : Nat
  changed : Bool

def eraseAt (BI : Nat) (B : BasicBlock) : BasicBlock := { B with insts := B.insts.eraseIdx BI }

def removePhi (F : Function) (BB : BlockId) (BI : Nat) (PN : InstId) : Function :=
  (F.updateBlock BB (eraseAt BI)).replaceAllUsesWith PN .undefValue

def setIncoming (F : Function) (BB : BlockId) (BI : Nat) (incoming : List Entry) :
    Function :=
  F.updateBlock BB fun B =>
    { B with insts := B.insts.modify BI fun I => { I with op := .phi incoming } }

def phiStep (BB : BlockId) (fuel : Nat) (s : Cleanup) : Except Unit (Option Cleanup) :=
  match (s.F.block BB).insts[s.BI]?.bind Instruction.phi? with
  | none => .ok none
  | some PN =>
    (cleanupEntries (branchesTo s.F BB) fuel PN.incoming).map fun r =>
      if r.PHIRemoved then
        some ⟨removePhi s.F BB s.BI PN.id, 0, true⟩
      else some ⟨setIncoming s.F BB s.BI r.incoming, s.BI + 1, s.changed || r.changed⟩

/-- `fuel` bounds both loops. -/
def CleanupPHIs (F : Function) (BB : BlockId) (fuel : Nat) : Except Unit (Function × Bool) :=
  (loop (phiStep BB fuel) () fuel ⟨F, 0, false⟩).map fun s => (s.F, s.changed)

/-! ### The block -/

/-- A deleted PHI leaves `undef` in the place of its uses. -/
def dropped (R : List InstId) : Value → Value
  | .inst i => if i ∈ R then .undefValue else .inst i
  | v => v

/-- `F` with other PHIs at the front of `BB`, once those in `R` have been deleted. -/
def withPhis (F : Function) (BB : BlockId) (L : List PHINode) (R : List InstId) : Function :=
  (F.updateBlock BB fun B => { B with insts := L.map PHINode.inst ++ B.afterPhis }).mapValues
    (dropped R)

section
variable {F : Function} {BB b : BlockId} {L pre post : List PHINode} {PN : PHINode}
  {R R' : List InstId}

theorem dropped_congr (h : ∀ i, i ∈ R ↔ i ∈ R') : dropped R = dropped R' := by
  funext v
  cases v with
  | inst i => simp only [dropped, h]
  | _ => rfl

theorem replace_dropped (i : InstId) (v : Value) :
    Value.replace i .undefValue (dropped R v) = dropped (i :: R) v := by
  cases v with
  | inst j =>
    by_cases hR : j ∈ R
    · simp [dropped, hR, Value.replace]
    · by_cases hi : j = i
      · simp [dropped, hi, Value.replace]
      · simp [dropped, hR, hi, Value.replace]
  | _ => rfl

theorem block_withPhis : (withPhis F BB L R).block BB =
    (⟨L.map PHINode.inst ++ (F.block BB).afterPhis, (F.block BB).termId,
      (F.block BB).term⟩ : BasicBlock).mapValues (dropped R) := by
  rw [withPhis, Function.block_mapValues, Function.block_updateBlock]

theorem block_withPhis_ne (h : b ≠ BB) :
    (withPhis F BB L R).block b = (F.block b).mapValues (dropped R) := by
  rw [withPhis, Function.block_mapValues, Function.block_updateBlock_ne _ h]

@[simp] theorem succs_withPhis : (withPhis F BB L R).succs b = F.succs b := by
  by_cases h : b = BB
  · subst h
    rw [Function.succs, block_withPhis]
    simp [Function.succs]
  · rw [Function.succs, block_withPhis_ne h]
    simp [Function.succs]

theorem branchesTo_withPhis : branchesTo (withPhis F BB L R) BB = branchesTo F BB := by
  funext b
  simp [branchesTo]

theorem removePhi_withPhis :
    removePhi (withPhis F BB (pre ++ PN :: post) R) BB pre.length PN.id =
      withPhis F BB (pre ++ post) (PN.id :: R) := by
  refine Function.eq_of_block rfl rfl rfl fun b => ?_
  have hcomp : (fun v => Value.replace PN.id .undefValue (dropped R v)) = dropped (PN.id :: R) :=
    funext fun v => replace_dropped PN.id v
  by_cases h : b = BB
  · subst h
    have herase : eraseAt pre.length ((withPhis F b (pre ++ PN :: post) R).block b) =
        (withPhis F b (pre ++ post) R).block b := by
      rw [block_withPhis, block_withPhis]
      simp only [eraseAt, BasicBlock.mapValues]
      congr 1
      simp [List.eraseIdx_append_of_length_le]
    rw [removePhi, Function.replaceAllUsesWith, Function.block_mapValues,
      Function.block_updateBlock, herase, block_withPhis, block_withPhis,
      BasicBlock.mapValues_mapValues, hcomp]
  · rw [removePhi, Function.replaceAllUsesWith, Function.block_mapValues,
      Function.block_updateBlock_ne _ h, block_withPhis_ne h, block_withPhis_ne h,
      BasicBlock.mapValues_mapValues, hcomp]

theorem modify_length {α : Type} (f : α → α) (xs ys : List α) (x : α) :
    (xs ++ x :: ys).modify xs.length f = xs ++ f x :: ys := by
  induction xs with
  | nil => rfl
  | cons y xs ih => simpa using ih

theorem setIncoming_withPhis {incoming : List Entry} (hf : incoming =
      (swept (fun p => branchesTo F BB p.2) PN.incoming).map fun p => (dropped R p.1, p.2)) :
    setIncoming (withPhis F BB (pre ++ PN :: post) R) BB pre.length incoming =
      withPhis F BB (pre ++ sweptPhi (fun p => branchesTo F BB p.2) PN :: post) R := by
  refine Function.eq_of_block rfl rfl rfl fun b => ?_
  by_cases h : b = BB
  · subst h
    rw [setIncoming, Function.block_updateBlock, block_withPhis, block_withPhis]
    simp only [BasicBlock.mapValues]
    congr 1
    have := modify_length (fun I : Instruction => { I with op := .phi incoming })
      (pre.map fun P => P.inst.mapValues (dropped R))
      (post.map (fun P => P.inst.mapValues (dropped R)) ++
        (F.block b).afterPhis.map (Instruction.mapValues (dropped R)))
      (PN.inst.mapValues (dropped R))
    simpa [Function.comp_def, hf, PHINode.inst, sweptPhi, Instruction.mapValues,
      Op.mapValues] using this
  · rw [setIncoming, Function.block_updateBlock_ne _ h, block_withPhis_ne h,
      block_withPhis_ne h]

theorem mapValues_dropped_nil {BB : BasicBlock} : BB.mapValues (dropped []) = BB := by
  have h : ∀ v, dropped [] v = v := fun v => by cases v <;> simp [dropped]
  have hinsts : BB.insts.map (Instruction.mapValues (dropped [])) = BB.insts := by
    conv => rhs; rw [← List.map_id' BB.insts]
    refine List.map_congr_left fun I _ => ?_
    rw [Instruction.mapValues, Op.mapValues_eq_self fun v _ => h v]
  rw [BasicBlock.mapValues, hinsts, Terminator.mapValues_eq_self fun v _ => h v]

theorem withPhis_self : withPhis F BB (F.block BB).phis [] = F := by
  refine Function.eq_of_block rfl rfl rfl fun b => ?_
  by_cases h : b = BB
  · subst h
    rw [block_withPhis, mapValues_dropped_nil, BasicBlock.phis_append_afterPhis]
  · rw [block_withPhis_ne h, mapValues_dropped_nil]

def hasStale (F : Function) (BB : BlockId) (PN : PHINode) : Bool :=
  PN.incoming.any fun p => !branchesTo F BB p.2

/-- The live entries of the PHIs of `BB`. -/
def isLive (F : Function) (BB : BlockId) (p : Entry) : Bool := branchesTo F BB p.2

/-- What one turn of the inner loop makes of the next PHI. -/
theorem cleanupEntries_withPhis (F : Function) (BB : BlockId) {M fuel : Nat}
    (hlen : PN.incoming.length ≤ M) (hfuel : M * (M + 2) < fuel) :
    ∃ r, cleanupEntries (branchesTo F BB) fuel (PN.incoming.map fun p => (dropped R p.1, p.2)) =
        .ok r ∧
      r.incoming = (swept (isLive F BB) PN.incoming).map (fun p => (dropped R p.1, p.2)) ∧
      r.changed = hasStale F BB PN ∧ r.PHIRemoved = loneStale (isLive F BB) PN := by
  have hmul : PN.incoming.length * (PN.incoming.length + 2) ≤ M * (M + 2) :=
    Nat.mul_le_mul hlen (Nat.add_le_add_right hlen 2)
  have hlen' : (PN.incoming.map fun p => (dropped R p.1, p.2)).length *
      ((PN.incoming.map fun p => (dropped R p.1, p.2)).length + 2) < fuel := by
    rw [List.length_map]
    omega
  obtain ⟨r, hr, hin, hch, hrem⟩ := cleanupEntries_spec hlen'
  have hmap : swept (isLive F BB) (PN.incoming.map fun p => (dropped R p.1, p.2)) =
      (swept (isLive F BB) PN.incoming).map fun p => (dropped R p.1, p.2) :=
    swept_map fun _ => rfl
  replace hin := hin.trans hmap
  rw [List.any_map] at hch
  refine ⟨r, hr, hin, hch, ?_⟩
  rw [hrem, hin, Bool.eq_iff_iff, Bool.and_eq_true, hch, loneStale_iff, List.isEmpty_iff,
    List.map_eq_nil_iff]
  refine ⟨fun ⟨hany, hnil⟩ => ⟨?_, hnil⟩, fun ⟨hne, hnil⟩ => ⟨?_, hnil⟩⟩
  · rintro hempty
    rw [hempty] at hany
    cases hany
  · obtain ⟨p, hp, hstale⟩ := (swept_eq_nil.mp hnil).resolve_left hne
    rw [hp]
    simpa [isLive] using hstale

end

/-- What the loop over the block keeps: `pre` lies behind the iterator and `post` ahead. -/
structure CleanupInv (F : Function) (BB : BlockId) (s : Cleanup) (pre post : List PHINode)
    (R : List InstId) : Prop where
  state : s.F = withPhis F BB (pre ++ post) R
  index : s.BI = pre.length
  half : ∀ PN ∈ pre, Half (isLive F BB) PN
  result : endsWith (isLive F BB) pre post = sweptPhis (isLive F BB) (F.block BB).phis
  ids : ∀ i, i ∈ R ↔ i ∈ (F.block BB).phis.map PHINode.id ∧ i ∉ (pre ++ post).map PHINode.id
  sub : ((pre ++ post).map PHINode.id).Sublist ((F.block BB).phis.map PHINode.id)
  entries : ∀ PN ∈ pre ++ post, ∃ P ∈ (F.block BB).phis, PN.incoming.Sublist P.incoming
  changed : s.changed = true → ∃ PN ∈ (F.block BB).phis, hasStale F BB PN
  unchanged : s.changed = false → pre ++ post = (F.block BB).phis ∧
    ∀ PN ∈ pre, hasStale F BB PN = false

section
variable {F : Function} {BB : BlockId} {s : Cleanup} {pre post : List PHINode} {PN : PHINode}
  {R : List InstId} {M fuel : Nat}

theorem swept_sublist {live : Entry → Bool} {l : List Entry} : (swept live l).Sublist l := by
  cases l with
  | nil => exact .slnil
  | cons p rest =>
    rw [swept]
    split
    · exact List.filter_sublist.cons_cons p
    · have h := (List.Sublist.refl (rest.take 1)).append (List.filter_sublist (p := live)
        (l := rest.drop 1))
      rw [List.take_append_drop] at h
      exact h.cons p

theorem sweptPhi_eq_self (h : hasStale F BB PN = false) : sweptPhi (isLive F BB) PN = PN := by
  have hlive : ∀ p ∈ PN.incoming, isLive F BB p = true := by
    intro p hp
    simpa [isLive] using List.any_eq_false.mp h p hp
  have hfirst : firstTwoStale (isLive F BB) PN = false := by
    rw [firstTwoStale]
    split
    · rename_i p q rest heq
      simp [hlive p (heq ▸ List.mem_cons_self)]
    · rfl
  rw [sweptPhi, swept_eq_of_not_firstTwoStale hfirst, List.filter_eq_self.mpr hlive]

theorem CleanupInv.start : CleanupInv F BB ⟨F, 0, false⟩ [] (F.block BB).phis [] where
  state := withPhis_self.symm
  index := rfl
  half := nofun
  result := by simp [endsWith]
  ids i := by simp
  sub := .refl _
  entries PN hPN := ⟨PN, hPN, .refl _⟩
  changed := nofun
  unchanged _ := ⟨rfl, nofun⟩

theorem CleanupInv.stale_of_mem (h : CleanupInv F BB s pre post R) (hPN : PN ∈ pre ++ post)
    (hstale : hasStale F BB PN = true) : ∃ P ∈ (F.block BB).phis, hasStale F BB P := by
  obtain ⟨P, hP, hsub⟩ := h.entries PN hPN
  obtain ⟨p, hp, hpst⟩ := List.any_eq_true.mp hstale
  exact ⟨P, hP, List.any_eq_true.mpr ⟨p, hsub.subset hp, hpst⟩⟩

theorem CleanupInv.removed (h : CleanupInv F BB s pre (PN :: post) R)
    (hnd : ((F.block BB).phis.map PHINode.id).Nodup) (hlone : loneStale (isLive F BB) PN = true) :
    CleanupInv F BB ⟨removePhi s.F BB s.BI PN.id, 0, true⟩ [] (pre ++ post) (PN.id :: R) where
  state := by rw [h.state, h.index, removePhi_withPhis, List.nil_append]
  index := rfl
  half := nofun
  result := (endsWith_restart h.half hlone).trans h.result
  ids i := by
    have hnd' := h.sub.nodup hnd
    simp only [List.map_append, List.map_cons, List.nodup_append, List.nodup_cons] at hnd'
    have hmem : PN.id ∈ (F.block BB).phis.map PHINode.id := h.sub.subset (by simp)
    have hpre : PN.id ∉ pre.map PHINode.id := fun hp =>
      hnd'.2.2 _ hp _ List.mem_cons_self rfl
    rw [List.mem_cons, h.ids i]
    simp only [List.nil_append, List.map_append, List.map_cons, List.mem_append, List.mem_cons]
    constructor
    · rintro (rfl | ⟨hi, hni⟩)
      · exact ⟨hmem, fun hor => hor.elim hpre hnd'.2.1.1⟩
      · exact ⟨hi, fun hor => hni (hor.imp_right .inr)⟩
    · rintro ⟨hi, hni⟩
      by_cases heq : i = PN.id
      · exact .inl heq
      · exact .inr ⟨hi, fun hor => hni (hor.imp_right fun h => h.resolve_left heq)⟩
  sub := by
    refine List.Sublist.trans ?_ h.sub
    simp
  entries P hP := by
    refine h.entries P ?_
    rw [List.nil_append, List.mem_append] at hP
    exact List.mem_append.mpr (hP.imp_right (List.mem_cons_of_mem PN))
  changed _ := by
    obtain ⟨hne, hnil⟩ := loneStale_iff.mp hlone
    obtain ⟨p, hp, hstale⟩ := (swept_eq_nil.mp hnil).resolve_left hne
    refine h.stale_of_mem (List.mem_append_right _ List.mem_cons_self) ?_
    rw [hasStale, hp]
    simpa [isLive] using hstale
  unchanged := nofun

theorem CleanupInv.next (h : CleanupInv F BB s pre (PN :: post) R) {incoming : List Entry}
    {ch : Bool} (hin : incoming = (swept (isLive F BB) PN.incoming).map
      fun p => (dropped R p.1, p.2)) (hch : ch = hasStale F BB PN)
    (hlone : loneStale (isLive F BB) PN = false) :
    CleanupInv F BB ⟨setIncoming s.F BB s.BI incoming, s.BI + 1, s.changed || ch⟩
      (pre ++ [sweptPhi (isLive F BB) PN]) post R where
  state := by
    rw [h.state, h.index, setIncoming_withPhis hin, List.append_assoc]
    rfl
  index := by simp [h.index]
  half P hP := by
    rcases List.mem_append.mp hP with hP | hP
    · exact h.half P hP
    · rw [List.mem_singleton.mp hP]
      exact half_swept
  result := (endsWith_next hlone).trans h.result
  ids i := by simpa [sweptPhi] using h.ids i
  sub := by simpa [sweptPhi] using h.sub
  entries P hP := by
    simp only [List.append_assoc, List.singleton_append, List.mem_append, List.mem_cons] at hP
    rcases hP with hP | rfl | hP
    · exact h.entries P (List.mem_append_left _ hP)
    · obtain ⟨P, hP, hsub⟩ := h.entries PN (List.mem_append_right _ List.mem_cons_self)
      exact ⟨P, hP, swept_sublist.trans hsub⟩
    · exact h.entries P (List.mem_append_right _ (List.mem_cons_of_mem PN hP))
  changed hc := by
    rcases (Bool.or_eq_true _ _).mp hc with hc | hc
    · exact h.changed hc
    · exact h.stale_of_mem (List.mem_append_right _ List.mem_cons_self) (hch ▸ hc)
  unchanged hc := by
    obtain ⟨hs, hc⟩ := Bool.or_eq_false_iff.mp hc
    obtain ⟨heq, hpre⟩ := h.unchanged hs
    have hself := sweptPhi_eq_self (hch ▸ hc)
    rw [hself, List.append_assoc]
    refine ⟨heq, fun P hP => ?_⟩
    rcases List.mem_append.mp hP with hP | hP
    · exact hpre P hP
    · rw [List.mem_singleton.mp hP, ← hch, hc]

/-- The most entries of a PHI of the block. -/
def maxEntries (F : Function) (BB : BlockId) : Nat :=
  ((F.block BB).phis.map fun PN => PN.incoming.length).foldr max 0

theorem CleanupInv.entries_le (h : CleanupInv F BB s pre post R) (hPN : PN ∈ pre ++ post) :
    PN.incoming.length ≤ maxEntries F BB := by
  obtain ⟨P, hP, hsub⟩ := h.entries PN hPN
  have hmem : P.incoming.length ∈ (F.block BB).phis.map fun PN => PN.incoming.length :=
    List.mem_map_of_mem hP
  exact hsub.length_le.trans (Nat.le_of_lt_succ (lt_foldr_max_succ hmem))

/-- One turn of the loop over the block. -/
theorem CleanupInv.step (h : CleanupInv F BB s pre post R)
    (hnd : ((F.block BB).phis.map PHINode.id).Nodup)
    (hfuel : maxEntries F BB * (maxEntries F BB + 2) < fuel) :
    phiStep BB fuel s = .ok none ∧ post = [] ∨
      ∃ t pre' post' R', phiStep BB fuel s = .ok (some t) ∧ CleanupInv F BB t pre' post' R' ∧
        ((pre' ++ post').length < (pre ++ post).length ∨
          (pre' ++ post').length = (pre ++ post).length ∧ post'.length < post.length) := by
  cases post with
  | nil =>
    refine .inl ⟨?_, rfl⟩
    have hnone : (s.F.block BB).insts[s.BI]?.bind Instruction.phi? = none := by
      rw [h.state, h.index, block_withPhis]
      cases hafter : (F.block BB).afterPhis with
      | nil => simp
      | cons I Is =>
        have hI : I.op.isPhi = false := BasicBlock.head?_afterPhis (by rw [hafter]; rfl)
        simp [Instruction.phi?_eq_none, hI]
    rw [phiStep, hnone]
  | cons PN post =>
    right
    have hsome : (s.F.block BB).insts[s.BI]?.bind Instruction.phi? =
        some ⟨PN.id, PN.ty, PN.incoming.map fun p => (dropped R p.1, p.2)⟩ := by
      rw [h.state, h.index, block_withPhis]
      simp [PHINode.inst, Instruction.phi?, Instruction.mapValues, Op.mapValues]
    have hlen := h.entries_le (List.mem_append_right pre (List.mem_cons_self (a := PN)))
    obtain ⟨r, hr, hin, hch, hrem⟩ := cleanupEntries_withPhis (R := R) F BB hlen hfuel
    have hstep : phiStep BB fuel s = .ok (some (if r.PHIRemoved then
        ⟨removePhi s.F BB s.BI PN.id, 0, true⟩
        else ⟨setIncoming s.F BB s.BI r.incoming, s.BI + 1, s.changed || r.changed⟩)) := by
      have hbranches : branchesTo s.F BB = branchesTo F BB := by rw [h.state, branchesTo_withPhis]
      rw [phiStep, hsome]
      simp only [hbranches, hr]
      cases hP : r.PHIRemoved <;> simp [Except.map, hP]
    cases hlone : loneStale (isLive F BB) PN with
    | true =>
      rw [hrem, hlone, if_pos rfl] at hstep
      exact ⟨_, _, _, _, hstep, h.removed hnd hlone, .inl (by simp)⟩
    | false =>
      rw [hrem, hlone, if_neg Bool.false_ne_true] at hstep
      exact ⟨_, _, _, _, hstep, h.next hin hch hlone, .inr (by simp)⟩

def cleanupFuel (F : Function) (BB : BlockId) : Nat :=
  maxEntries F BB * (maxEntries F BB + 2) +
    (F.block BB).phis.length * ((F.block BB).phis.length + 2) + 1

theorem CleanupInv.loop (hnd : ((F.block BB).phis.map PHINode.id).Nodup)
    (hfuel : maxEntries F BB * (maxEntries F BB + 2) < fuel) {n : Nat}
    (h : CleanupInv F BB s pre post R)
    (hn : (pre ++ post).length * ((pre ++ post).length + 1) + post.length < n) :
    ∃ t pre' R', Sim.loop (phiStep BB fuel) () n s = .ok t ∧ CleanupInv F BB t pre' [] R' := by
  induction n generalizing s pre post R with
  | zero => exact absurd hn (Nat.not_lt_zero _)
  | succ n ih =>
    rcases h.step hnd hfuel with ⟨hstop, rfl⟩ | ⟨t, pre', post', R', ht, hInv, hlt⟩
    · exact ⟨s, pre, R, by rw [Sim.loop, hstop], h⟩
    · have hmeasure : (pre' ++ post').length * ((pre' ++ post').length + 1) + post'.length < n := by
        have hpost : post'.length ≤ (pre' ++ post').length := by simp
        rcases hlt with hlt | ⟨heq, hlt⟩
        · obtain ⟨k, hk⟩ := Nat.exists_eq_add_of_lt hlt
          have : (pre ++ post).length * ((pre ++ post).length + 1) ≥
              (pre' ++ post').length * ((pre' ++ post').length + 1) +
                2 * ((pre' ++ post').length + 1) := by
            rw [hk]
            nlinarith
          omega
        · rw [heq]
          omega
      obtain ⟨u, pre'', R'', hu, hInv'⟩ := ih hInv hmeasure
      exact ⟨u, pre'', R'', by rw [Sim.loop, ht]; exact hu, hInv'⟩

end

/-! ### When the block ends up clean -/

section
variable {F : Function} {BB : BlockId} {PN : PHINode} {L rest : List PHINode}

theorem livePhis_cons {live : Entry → Bool} : livePhis live (PN :: rest) =
    (if PN.incoming.any live then [livePhi live PN] else []) ++ livePhis live rest := by
  rw [livePhis, List.filter_cons]
  split <;> rfl

theorem sweptPhis_eq_livePhis {live : Entry → Bool} (h : CleansUp live L) :
    sweptPhis live L = livePhis live L := by
  induction L with
  | nil => rfl
  | cons PN rest ih =>
    obtain ⟨hne, hfirst, hrest⟩ := h
    have hne' : PN.incoming.isEmpty = false := by simpa using hne
    have hfilter : (PN.incoming.filter live).isEmpty = !PN.incoming.any live := by
      rw [Bool.eq_iff_iff]
      simp [List.filter_eq_nil_iff]
    rw [sweptPhis, livePhis_cons, ih hrest]
    congr 1
    by_cases hlone : (PN :: rest).any (loneStale live) = true
    · rw [if_pos hlone, sweptTwice, hne', hfilter]
      cases PN.incoming.any live <;> rfl
    · have hPN : loneStale live PN = false := by
        rw [List.any_cons, Bool.or_eq_true, not_or] at hlone
        exact Bool.eq_false_iff.mpr hlone.1
      have hfirst' : firstTwoStale live PN = false := by
        refine Bool.eq_false_iff.mpr fun h => hlone ?_
        rw [List.any_cons, hfirst h, Bool.or_true]
      have hswept := swept_eq_of_not_firstTwoStale hfirst'
      have hany : PN.incoming.any live = true := by
        by_contra hany
        refine Bool.eq_false_iff.mp hPN (loneStale_iff.mpr ⟨hne, ?_⟩)
        rw [hswept, ← List.isEmpty_iff, hfilter, Bool.eq_false_iff.mpr hany, Bool.not_false]
      rw [if_neg hlone, if_pos hany, sweptPhi, hswept]
      rfl

/-- What is left of a PHI when its values are forgotten. -/
def phiShape (PN : PHINode) : InstId × List BlockId := (PN.id, PN.incoming.map Prod.snd)

theorem shape_inst (PN : PHINode) :
    (PN.inst.id, PN.inst.op.incomingBlocks) = phiShape PN := rfl

theorem id_of_mem_sweptTwice {live : Entry → Bool} {P : PHINode} (h : P ∈ sweptTwice live PN) :
    P.id = PN.id := by
  unfold sweptTwice at h
  split at h
  · rw [List.mem_singleton.mp h]
  · split at h
    · cases h
    · rw [List.mem_singleton.mp h]
      rfl

theorem mem_ids_of_mem_sweptPhis {live : Entry → Bool} {P : PHINode}
    (h : P ∈ sweptPhis live L) : P.id ∈ L.map PHINode.id := by
  induction L with
  | nil => cases h
  | cons PN rest ih =>
    rw [sweptPhis] at h
    rcases List.mem_append.mp h with h | h
    · have hid : P.id = PN.id := by
        split at h
        · exact id_of_mem_sweptTwice h
        · rw [List.mem_singleton.mp h]
          rfl
      rw [hid]
      exact List.mem_cons_self
    · exact List.mem_cons_of_mem _ (ih h)

theorem mem_ids_of_mem_livePhis {live : Entry → Bool} {P : PHINode}
    (h : P ∈ livePhis live L) : P.id ∈ L.map PHINode.id := by
  obtain ⟨Q, hQ, rfl⟩ := List.mem_map.mp h
  exact List.mem_map.mpr ⟨Q, (List.mem_filter.mp hQ).1, rfl⟩

/-- Two lists that agree after pieces with id `i` agree on the pieces. -/
theorem append_inj_of_id {A A' T T' : List PHINode} {i : InstId} (hA : ∀ P ∈ A, P.id = i)
    (hA' : ∀ P ∈ A', P.id = i) (hT : ∀ P ∈ T, P.id ≠ i) (hT' : ∀ P ∈ T', P.id ≠ i)
    (h : (A ++ T).map phiShape = (A' ++ T').map phiShape) :
    A.map phiShape = A'.map phiShape ∧ T.map phiShape = T'.map phiShape := by
  have hfilter : ∀ {X Y : List PHINode}, (∀ P ∈ X, P.id = i) → (∀ P ∈ Y, P.id ≠ i) →
      ((X ++ Y).map phiShape).filter (fun t => t.1 = i) = X.map phiShape := by
    intro X Y hX hY
    rw [List.map_append, List.filter_append, List.filter_eq_self.mpr, List.filter_eq_nil_iff.mpr,
      List.append_nil]
    · intro t ht
      obtain ⟨P, hP, rfl⟩ := List.mem_map.mp ht
      exact decide_eq_true_iff.not.mpr (hY P hP)
    · intro t ht
      obtain ⟨P, hP, rfl⟩ := List.mem_map.mp ht
      exact decide_eq_true (hX P hP)
  have hpiece : A.map phiShape = A'.map phiShape := by
    rw [← hfilter hA hT, h, hfilter hA' hT']
  refine ⟨hpiece, ?_⟩
  rw [List.map_append, List.map_append, hpiece] at h
  exact List.append_cancel_left h

/-- The PHI the loop leaves a stale entry in. -/
theorem cleansUp_of_shape (hnd : (L.map PHINode.id).Nodup)
    (h : (sweptPhis (isLive F BB) L).map phiShape =
      (livePhis (isLive F BB) L).map phiShape) : CleansUp (isLive F BB) L := by
  induction L with
  | nil => trivial
  | cons PN rest ih =>
    rw [List.map_cons, List.nodup_cons] at hnd
    rw [sweptPhis, livePhis_cons] at h
    obtain ⟨hpiece, htail⟩ := append_inj_of_id (i := PN.id)
      (fun P hP => by
        split at hP
        · exact id_of_mem_sweptTwice hP
        · rw [List.mem_singleton.mp hP]
          rfl)
      (fun P hP => by
        split at hP
        · rw [List.mem_singleton.mp hP]
          rfl
        · cases hP)
      (fun P hP heq => hnd.1 (heq ▸ mem_ids_of_mem_sweptPhis hP))
      (fun P hP heq => hnd.1 (heq ▸ mem_ids_of_mem_livePhis hP)) h
    refine ⟨fun hnil => ?_, fun hfirst => ?_, ih hnd.2 htail⟩
    · have hany : PN.incoming.any (isLive F BB) = false := by rw [hnil]; rfl
      rw [if_neg (Bool.eq_false_iff.mp hany)] at hpiece
      split at hpiece
      · simp [sweptTwice, hnil] at hpiece
      · simp at hpiece
    · by_contra hrest
      have hlone : loneStale (isLive F BB) PN = false := by
        refine Bool.eq_false_iff.mpr fun hlone => ?_
        unfold loneStale at hlone
        unfold firstTwoStale at hfirst
        split at hlone
        · rename_i heq
          rw [heq] at hfirst
          cases hfirst
        · cases hlone
      rw [List.any_cons, hlone, Bool.false_or, if_neg hrest] at hpiece
      unfold firstTwoStale at hfirst
      split at hfirst
      · rename_i p q entries heq
        rw [Bool.and_eq_true, Bool.not_eq_true', Bool.not_eq_true'] at hfirst
        split at hpiece
        · simp only [List.map_cons, List.map_nil, List.cons.injEq, and_true, phiShape,
            Prod.mk.injEq, sweptPhi, livePhi, true_and] at hpiece
          have hmem : q.2 ∈ (swept (isLive F BB) PN.incoming).map Prod.snd := by
            simp [heq, swept, hfirst.1]
          rw [hpiece] at hmem
          obtain ⟨x, hx, hxq⟩ := List.mem_map.mp hmem
          have hlive : isLive F BB x = isLive F BB q := by rw [isLive, isLive, hxq]
          exact Bool.false_ne_true (hfirst.2.symm.trans (hlive ▸ (List.mem_filter.mp hx).2))
        · simp at hpiece
      · cases hfirst

/-- `BB` with the live entries of its PHIs, and without the PHIs that have none. -/
def cleaned (F : Function) (BB : BlockId) : Function :=
  withPhis F BB (livePhis (isLive F BB) (F.block BB).phis)
    (((F.block BB).phis.filter fun PN => !PN.incoming.any (isLive F BB)).map PHINode.id)

theorem shapes_of_eq {L' : List PHINode} {R R' : List InstId}
    (h : withPhis F BB L R = withPhis F BB L' R') : L.map phiShape = L'.map phiShape := by
  have hinsts := congrArg (fun G : Function =>
    (G.block BB).insts.map fun I => (I.id, I.op.incomingBlocks)) h
  have hproj : ∀ (X : List PHINode) (S : List InstId),
      ((withPhis F BB X S).block BB).insts.map (fun I => (I.id, I.op.incomingBlocks)) =
        X.map phiShape ++ (F.block BB).afterPhis.map fun I => (I.id, I.op.incomingBlocks) := by
    intro X S
    rw [block_withPhis, BasicBlock.insts_mapValues, List.map_map, List.map_append, List.map_map]
    congr 1
    · refine List.map_congr_left fun PN _ => ?_
      simp [← shape_inst]
    · refine List.map_congr_left fun I _ => ?_
      simp
  rw [hproj, hproj] at hinsts
  exact List.append_cancel_right hinsts

theorem withPhis_livePhis {R : List InstId} (hnd : ((F.block BB).phis.map PHINode.id).Nodup)
    (hR : ∀ i, i ∈ R ↔ i ∈ (F.block BB).phis.map PHINode.id ∧
      i ∉ (livePhis (isLive F BB) (F.block BB).phis).map PHINode.id) :
    withPhis F BB (livePhis (isLive F BB) (F.block BB).phis) R = cleaned F BB := by
  have hids : (livePhis (isLive F BB) (F.block BB).phis).map PHINode.id =
      ((F.block BB).phis.filter fun PN => PN.incoming.any (isLive F BB)).map PHINode.id := by
    rw [livePhis, List.map_map]
    rfl
  rw [cleaned, withPhis, withPhis, dropped_congr fun i => ?_]
  rw [hR i, hids]
  constructor
  · rintro ⟨hi, hni⟩
    obtain ⟨P, hP, rfl⟩ := List.mem_map.mp hi
    refine List.mem_map.mpr ⟨P, List.mem_filter.mpr ⟨hP, ?_⟩, rfl⟩
    rw [Bool.not_eq_true']
    refine Bool.eq_false_iff.mpr fun hany => hni ?_
    exact List.mem_map.mpr ⟨P, List.mem_filter.mpr ⟨hP, hany⟩, rfl⟩
  · intro hi
    obtain ⟨P, hP, rfl⟩ := List.mem_map.mp hi
    obtain ⟨hP, hnone⟩ := List.mem_filter.mp hP
    refine ⟨List.mem_map.mpr ⟨P, hP, rfl⟩, fun hmem => ?_⟩
    obtain ⟨Q, hQ, hid⟩ := List.mem_map.mp hmem
    obtain ⟨hQ, hany⟩ := List.mem_filter.mp hQ
    have hQP := List.inj_on_of_nodup_map hnd hQ hP hid
    subst hQP
    simp [hany] at hnone

/-- What `CleanupPHIs` makes of the function. -/
def sweptBlock (F : Function) (BB : BlockId) : Function :=
  withPhis F BB (sweptPhis (isLive F BB) (F.block BB).phis)
    (((F.block BB).phis.map PHINode.id).filter
      (· ∉ (sweptPhis (isLive F BB) (F.block BB).phis).map PHINode.id))

theorem CleanupPHIs_eq (hnd : ((F.block BB).phis.map PHINode.id).Nodup) {fuel : Nat}
    (hfuel : cleanupFuel F BB ≤ fuel) :
    CleanupPHIs F BB fuel = .ok (sweptBlock F BB, (F.block BB).phis.any (hasStale F BB)) := by
  have hinner : maxEntries F BB * (maxEntries F BB + 2) < fuel := by
    unfold cleanupFuel at hfuel
    omega
  have hstart : CleanupInv F BB ⟨F, 0, false⟩ [] (F.block BB).phis [] := .start
  have houter : ([] ++ (F.block BB).phis).length * (([] ++ (F.block BB).phis).length + 1) +
      (F.block BB).phis.length < fuel := by
    have : (F.block BB).phis.length * ((F.block BB).phis.length + 2) =
        (F.block BB).phis.length * ((F.block BB).phis.length + 1) + (F.block BB).phis.length := by
      ring
    unfold cleanupFuel at hfuel
    rw [List.nil_append]
    omega
  obtain ⟨t, pre, R, hloop, hInv⟩ := hstart.loop hnd hinner houter
  have hpre : pre = sweptPhis (isLive F BB) (F.block BB).phis :=
    endsWith_done.symm.trans hInv.result
  have hF : t.F = sweptBlock F BB := by
    have hR : dropped R = dropped (((F.block BB).phis.map PHINode.id).filter
        (· ∉ (sweptPhis (isLive F BB) (F.block BB).phis).map PHINode.id)) :=
      dropped_congr fun i => by
        rw [hInv.ids i, List.append_nil, hpre, List.mem_filter, decide_eq_true_iff]
    rw [hInv.state, List.append_nil, hpre, sweptBlock, withPhis, withPhis, hR]
  have hchanged : t.changed = (F.block BB).phis.any (hasStale F BB) := by
    cases hch : t.changed with
    | true =>
      obtain ⟨P, hP, hst⟩ := hInv.changed hch
      exact (List.any_eq_true.mpr ⟨P, hP, hst⟩).symm
    | false =>
      obtain ⟨heq, hst⟩ := hInv.unchanged hch
      rw [List.append_nil] at heq
      exact (List.any_eq_false.mpr fun P hP => Bool.eq_false_iff.mp (hst P (heq ▸ hP))).symm
  rw [CleanupPHIs, hloop, Except.map, hF, hchanged]

/-- Exactly the stale entries are gone unless two of them came first in a PHI. -/
theorem cleanupPHIs_cleans_iff (hnd : ((F.block BB).insts.map Instruction.id).Nodup) {fuel : Nat}
    (hfuel : cleanupFuel F BB ≤ fuel) : ∃ G changed, CleanupPHIs F BB fuel = .ok (G, changed) ∧
      ((G = cleaned F BB ∧ (changed = true ↔ ∃ PN ∈ (F.block BB).phis, hasStale F BB PN)) ↔
        CleansUp (isLive F BB) (F.block BB).phis) := by
  have hphis : ((F.block BB).phis.map PHINode.id).Nodup := by
    rw [← BasicBlock.phis_append_afterPhis, List.map_append, List.map_map] at hnd
    exact (List.nodup_append.mp hnd).1
  refine ⟨_, _, CleanupPHIs_eq hphis hfuel, fun h => ?_, fun h => ⟨?_, List.any_eq_true⟩⟩
  · exact cleansUp_of_shape hphis (shapes_of_eq h.1)
  · rw [sweptBlock, sweptPhis_eq_livePhis h]
    exact withPhis_livePhis hphis fun i => by rw [List.mem_filter, decide_eq_true_iff]

end

/-- The first two of the three edges into block 4 have gone. -/
def joinOfThree : Function where
  name := "join_of_three"
  entry := 0
  rest := [1, 2, 3, 4, 5]
  block
    | 0 => ⟨[], 0, .switch (.argument 0) 1 [(0, 2), (1, 3)]⟩
    | 1 => ⟨[], 1, .br 5⟩
    | 2 => ⟨[], 2, .br 5⟩
    | 3 => ⟨[], 3, .br 4⟩
    | 4 => ⟨[⟨4, .int 32, .phi [(.constInt 32 1, 1), (.constInt 32 2, 2), (.constInt 32 3, 3)]⟩], 5,
        .ret none⟩
    | _ => ⟨[], 6, .ret none⟩

theorem cleanupPHIs_cleans_iff_joinOfThree :
    ∃ G changed, CleanupPHIs joinOfThree 4 (cleanupFuel joinOfThree 4) = .ok (G, changed) ∧
      ((G = cleaned joinOfThree 4 ∧
        (changed = true ↔ ∃ PN ∈ (joinOfThree.block 4).phis, hasStale joinOfThree 4 PN)) ↔
        CleansUp (isLive joinOfThree 4) (joinOfThree.block 4).phis) :=
  cleanupPHIs_cleans_iff (by decide) le_rfl

/-- The second stale entry stays. -/
theorem cleanupPHIs_keeps_stale : ∃ G, CleanupPHIs joinOfThree 4 40 = .ok (G, true) ∧
    (G.block 4).phis.map PHINode.incoming = [[(.constInt 32 2, 2), (.constInt 32 3, 3)]] ∧
    branchesTo joinOfThree 4 2 = false ∧ G ≠ cleaned joinOfThree 4 := by
  refine ⟨_, rfl, by decide, by decide, fun h => ?_⟩
  have hphis := congrArg (fun G : Function => (G.block 4).phis.map PHINode.incoming) h
  exact absurd hphis (by decide)

end VariOCL.IR.BarrierTailReplication
