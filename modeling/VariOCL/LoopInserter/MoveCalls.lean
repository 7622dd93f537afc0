import VariOCL.IR.Arrives
import VariOCL.LoopInserter.RunOnFunction

/-! `CondBarrier::moveUniformBIFCallsToEntry`: whatever their operands, the calls are executed before
the rest of the function. -/

namespace VariOCL.IR.LoopInserter

open Sim

/-- `CIsToMove` without a call that is the position they are moved to. -/
def callsToMove (F : Function) : List Instruction :=
  (F.layout.flatMap fun b => (F.block b).insts.filter isUniformBIFCall).filter
    fun I => I.id ≠ (F.block F.entry).getFirstNonPHI

/-- The calls in their new order: if the entry starts with one of them it is the last. -/
def movedCalls (F : Function) : List Instruction :=
  callsToMove F ++ ((F.block F.entry).insts.take 1).filter isUniformBIFCall

/-- The calls use no results of instructions but of calls that come before them. -/
def MovedInOrder (F : Function) : Prop :=
  ∀ pre c post, movedCalls F = pre ++ c :: post →
    ∀ j, .inst j ∈ c.op.operands → j ∈ pre.map Instruction.id

/-- `G` is `F` with the calls at the front of the entry. -/
structure Moved (F G : Function) : Prop where
  entry : G.entry = F.entry
  layout : G.layout = F.layout
  termId : ∀ b, (G.block b).termId = (F.block b).termId
  term : ∀ b, (G.block b).term = (F.block b).term
  insts : ∀ b ∈ F.layout, (G.block b).insts = (if b = F.entry then movedCalls F else []) ++
    (F.block b).insts.filter fun I => !isUniformBIFCall I

/-! ### Where the calls go -/

/-- `G` is `F` with the instructions `D` in front of the entry. -/
structure Moving (F : Function) (D : List Instruction) (G : Function) : Prop where
  entry : G.entry = F.entry
  layout : G.layout = F.layout
  termId : ∀ b, (G.block b).termId = (F.block b).termId
  term : ∀ b, (G.block b).term = (F.block b).term
  insts : ∀ b ∈ F.layout, (G.block b).insts =
    (if b = F.entry then D else []) ++ (F.block b).insts.filter fun I => I ∉ D

section
variable {F G : Function} {p : BlockId × Instruction} {b : BlockId} {D : List Instruction}
  {ps : List (BlockId × Instruction)} {I : Instruction}

theorem nodup_insts (hF : F.Valid) (hb : b ∈ F.layout) : (F.block b).insts.Nodup :=
  (List.nodup_append.mp (hF.instIds_nodup hb)).1.of_map

theorem erase_filter {α : Type} [DecidableEq α] {xs ys : List α} {a : α} (h : xs.Nodup) :
    (xs.filter fun x => x ∉ ys).erase a = xs.filter fun x => x ∉ ys ++ [a] := by
  rw [(h.filter _).erase_eq_filter, List.filter_filter]
  refine List.filter_congr fun x _ => ?_
  rw [Bool.eq_iff_iff]
  simp [and_comm]

/-- The entry starts with the position the calls are moved to. -/
theorem takeWhile_entry (hF : F.Valid) {t : Instruction → Bool}
    (ht : ∀ I ∈ (F.block F.entry).insts, I.id = (F.block F.entry).getFirstNonPHI → t I) :
    ((F.block F.entry).insts.filter t).takeWhile
      (·.id ≠ (F.block F.entry).getFirstNonPHI) = [] := by
  cases hinsts : (F.block F.entry).insts with
  | nil => rfl
  | cons P tail =>
    have hphi : P.op.isPhi = false := hF.entryPhis P (hinsts ▸ List.mem_cons_self)
    have hfirst : (F.block F.entry).getFirstNonPHI = P.id := by
      simp [BasicBlock.getFirstNonPHI, hinsts, hphi]
    have hP : t P := ht P (hinsts ▸ List.mem_cons_self) hfirst.symm
    rw [List.filter_cons_of_pos hP, List.takeWhile_cons_of_neg (by simp [hfirst])]

theorem Moving.step (h : Moving F D G) (hF : F.Valid) (hp : p.1 ∈ F.layout)
    (hI : p.2 ∈ (F.block p.1).insts) (hD : p.2 ∉ D)
    (hpos : ∀ J ∈ D, J.id ≠ (F.block F.entry).getFirstNonPHI)
    (hne : p.2.id ≠ (F.block F.entry).getFirstNonPHI) :
    Moving F (D ++ [p.2]) (moveToEntry (F.block F.entry).getFirstNonPHI G p) := by
  rw [moveToEntry, if_neg hne, h.entry]
  have hsame : ∀ x, (((G.updateBlock p.1 fun BB => { BB with insts := BB.insts.erase p.2 }).updateBlock
      F.entry (BasicBlock.insertAllBefore (F.block F.entry).getFirstNonPHI [p.2])).block x).termId =
        (G.block x).termId ∧
      (((G.updateBlock p.1 fun BB => { BB with insts := BB.insts.erase p.2 }).updateBlock
      F.entry (BasicBlock.insertAllBefore (F.block F.entry).getFirstNonPHI [p.2])).block x).term =
        (G.block x).term := by
    intro x
    simp only [Function.updateBlock, BasicBlock.insertAllBefore]
    constructor <;> split <;> split <;> simp_all
  have herased : ∀ x ∈ F.layout, ((G.updateBlock p.1 fun BB =>
      { BB with insts := BB.insts.erase p.2 }).block x).insts =
        (if x = F.entry then D else []) ++ (F.block x).insts.filter fun J => J ∉ D ++ [p.2] := by
    intro x hx
    by_cases hxp : x = p.1
    · subst hxp
      rw [Function.block_updateBlock]
      dsimp only
      rw [h.insts _ hx, List.erase_append_right _ (by split <;> simp [hD]),
        erase_filter (nodup_insts hF hx)]
    · rw [Function.block_updateBlock_ne _ hxp, h.insts x hx]
      congr 1
      refine List.filter_congr fun J hJ => ?_
      have hJp : J ≠ p.2 := by
        rintro rfl
        exact hxp (F.eq_of_mem_instIds hF.ids hx hp (List.mem_append_left _ (List.mem_map_of_mem hJ))
          (List.mem_append_left _ (List.mem_map_of_mem hI)))
      rw [Bool.eq_iff_iff]
      simp [hJp]
  constructor
  · exact h.entry
  · exact h.layout
  · exact fun x => (hsame x).1.trans (h.termId x)
  · exact fun x => (hsame x).2.trans (h.term x)
  · intro x hx
    by_cases hxe : x = F.entry
    · subst hxe
      have hfront : ∀ J ∈ D, decide (J.id ≠ (F.block F.entry).getFirstNonPHI) = true :=
        fun J hJ => decide_eq_true (hpos J hJ)
      have hrest := takeWhile_entry hF (t := fun J => decide (J ∉ D ++ [p.2])) fun J _ hJ => by
        refine decide_eq_true fun hmem => ?_
        rcases List.mem_append.mp hmem with hmem | hmem
        · exact hpos J hmem hJ
        · exact hne (List.mem_singleton.mp hmem ▸ hJ)
      have hdrop := List.takeWhile_append_dropWhile
        (p := fun J : Instruction => decide (J.id ≠ (F.block F.entry).getFirstNonPHI))
        (l := (F.block F.entry).insts.filter fun J => decide (J ∉ D ++ [p.2]))
      rw [hrest, List.nil_append] at hdrop
      rw [Function.block_updateBlock, BasicBlock.insertAllBefore, herased _ hx, if_pos rfl,
        if_pos rfl, List.takeWhile_append_of_pos hfront, List.dropWhile_append_of_pos hfront, hrest,
        hdrop, List.append_nil]
    · rw [Function.block_updateBlock_ne _ hxe, herased x hx, if_neg hxe, if_neg hxe]

theorem mem_callsToMove (hb : b ∈ F.layout) (hI : I ∈ (F.block b).insts) :
    I ∈ callsToMove F ↔ isUniformBIFCall I ∧ I.id ≠ (F.block F.entry).getFirstNonPHI := by
  simp only [callsToMove, List.mem_filter, List.mem_flatMap, decide_eq_true_eq]
  exact and_congr_left fun _ => ⟨fun ⟨_, _, _, h⟩ => h, fun h => ⟨b, hb, hI, h⟩⟩

theorem moving_foldl (hF : F.Valid) (hps : ∀ p ∈ ps, p.1 ∈ F.layout ∧ p.2 ∈ (F.block p.1).insts)
    (hn : (ps.map Prod.snd).Nodup) (hD : ∀ p ∈ ps, p.2 ∉ D)
    (hpos : ∀ J ∈ D, J.id ≠ (F.block F.entry).getFirstNonPHI) (h : Moving F D G) :
    Moving F (D ++ (ps.map Prod.snd).filter fun I => I.id ≠ (F.block F.entry).getFirstNonPHI)
      (ps.foldl (moveToEntry (F.block F.entry).getFirstNonPHI) G) := by
  induction ps generalizing D G with
  | nil => rwa [List.map_nil, List.filter_nil, List.append_nil]
  | cons p ps ih =>
    obtain ⟨hp, hps⟩ := List.forall_mem_cons.mp hps
    obtain ⟨hpD, hD⟩ := List.forall_mem_cons.mp hD
    obtain ⟨hnot, hn⟩ := List.nodup_cons.mp hn
    rw [List.foldl_cons, List.map_cons]
    by_cases hid : p.2.id = (F.block F.entry).getFirstNonPHI
    · rw [moveToEntry, if_pos hid, List.filter_cons_of_neg (by simpa using hid)]
      exact ih hps hn hD hpos h
    · rw [List.filter_cons_of_pos (by simpa using hid), List.append_cons]
      refine ih hps hn (fun q hq hmem => ?_) (fun J hJ => ?_) (h.step hF hp.1 hp.2 hpD hpos hid)
      · rcases List.mem_append.mp hmem with hmem | hmem
        · exact hD q hq hmem
        · exact hnot (List.mem_singleton.mp hmem ▸ List.mem_map_of_mem hq)
      · rcases List.mem_append.mp hJ with hJ | hJ
        · exact hpos J hJ
        · rwa [List.mem_singleton.mp hJ]

theorem nodup_calls (hF : F.Valid) :
    (F.layout.flatMap fun b => (F.block b).insts.filter isUniformBIFCall).Nodup := by
  refine List.nodup_flatMap.mpr ⟨fun b hb => (nodup_insts hF hb).filter _, ?_⟩
  refine (List.nodup_flatMap.mp hF.ids).2.imp fun hdisj J hJ hJ' => ?_
  exact hdisj (List.mem_append_left _ (List.mem_map_of_mem (List.mem_filter.mp hJ).1))
    (List.mem_append_left _ (List.mem_map_of_mem (List.mem_filter.mp hJ').1))

/-- The position is the first instruction of the entry, or its terminator. -/
theorem getFirstNonPHI_mem (F : Function) :
    (F.block F.entry).getFirstNonPHI ∈ (F.block F.entry).instIds := by
  rw [BasicBlock.getFirstNonPHI]
  cases h : ((F.block F.entry).insts.dropWhile (·.op.isPhi)).head? with
  | none => exact List.mem_append_right _ List.mem_cons_self
  | some P =>
    have hP := (List.dropWhile_sublist _).subset (List.mem_of_head? h)
    exact List.mem_append_left _ (List.mem_map_of_mem hP)

theorem moved_moveUniformBIFCallsToEntry (hF : F.Valid) :
    Moved F (moveUniformBIFCallsToEntry F) := by
  have hpicked : ((F.layout.flatMap fun b =>
      ((F.block b).insts.filter isUniformBIFCall).map fun I => (b, I)).map Prod.snd) =
        F.layout.flatMap fun b => (F.block b).insts.filter isUniformBIFCall := by
    rw [List.map_flatMap]
    exact List.flatMap_congr fun b _ => by rw [List.map_map]; exact List.map_id' _
  have hstart : Moving F [] F := by
    refine ⟨rfl, rfl, fun _ => rfl, fun _ => rfl, fun b _ => ?_⟩
    rw [ite_self, List.nil_append, List.filter_eq_self.mpr fun I _ => by simp]
  have hmem : ∀ p ∈ F.layout.flatMap fun b =>
      ((F.block b).insts.filter isUniformBIFCall).map fun I => (b, I),
        p.1 ∈ F.layout ∧ p.2 ∈ (F.block p.1).insts := by
    intro p hp
    obtain ⟨b, hb, hp⟩ := List.mem_flatMap.mp hp
    obtain ⟨I, hI, rfl⟩ := List.mem_map.mp hp
    exact ⟨hb, (List.mem_filter.mp hI).1⟩
  have hmoving := moving_foldl hF hmem (hpicked ▸ nodup_calls hF) (fun _ _ => List.not_mem_nil)
    (fun _ h => absurd h List.not_mem_nil) hstart
  rw [hpicked, List.nil_append] at hmoving
  have hmoving : Moving F (callsToMove F) (moveUniformBIFCallsToEntry F) := hmoving
  refine ⟨hmoving.entry, hmoving.layout, hmoving.termId, hmoving.term, fun b hb => ?_⟩
  refine (hmoving.insts b hb).trans ?_
  by_cases hbe : b = F.entry
  · subst hbe
    rw [if_pos rfl, if_pos rfl, movedCalls, List.append_assoc]
    congr 1
    cases hinsts : (F.block F.entry).insts with
    | nil => rfl
    | cons P tail =>
      have hfirst : (F.block F.entry).getFirstNonPHI = P.id := by
        have hphi := hF.entryPhis P (hinsts ▸ List.mem_cons_self)
        simp [BasicBlock.getFirstNonPHI, hinsts, hphi]
      have hmem : ∀ J ∈ P :: tail, J ∈ callsToMove F ↔ isUniformBIFCall J ∧ J.id ≠ P.id :=
        fun J hJ => hfirst ▸ mem_callsToMove hb (hinsts ▸ hJ)
      have hP : P ∉ callsToMove F := fun h => ((hmem P List.mem_cons_self).mp h).2 rfl
      have htail : tail.filter (fun I => I ∉ callsToMove F) =
          tail.filter fun I => !isUniformBIFCall I := by
        refine List.filter_congr fun J hJ => ?_
        have hne : J.id ≠ P.id := by
          have hn := (List.nodup_append.mp (hF.instIds_nodup hb)).1
          rw [hinsts] at hn
          exact fun h => (List.nodup_cons.mp hn).1 (h ▸ List.mem_map_of_mem hJ)
        rw [Bool.eq_iff_iff, decide_eq_true_eq, hmem J (List.mem_cons_of_mem P hJ)]
        simp [hne]
      rw [List.filter_cons_of_pos (by simpa using hP), htail]
      cases hbif : isUniformBIFCall P <;> simp [hbif]
  · rw [if_neg hbe, if_neg hbe, List.nil_append, List.nil_append]
    refine List.filter_congr fun J hJ => ?_
    have hne : J.id ≠ (F.block F.entry).getFirstNonPHI := fun h => hbe
      (F.eq_of_mem_instIds hF.ids hb F.entry_mem_layout
        (List.mem_append_left _ (List.mem_map_of_mem hJ)) (h ▸ getFirstNonPHI_mem F))
    rw [Bool.eq_iff_iff, decide_eq_true_eq, mem_callsToMove hb hJ]
    simp [hne]

/-! ### Definitions before uses -/

theorem isPhi_of_isUniformBIFCall (h : isUniformBIFCall I) : I.op.isPhi = false := by
  obtain ⟨i, t, op⟩ := I
  cases op with
  | phi incoming => cases h
  | _ => rfl

theorem mem_movedCalls (hF : F.Valid) :
    I ∈ movedCalls F ↔ ∃ b ∈ F.layout, I ∈ (F.block b).insts ∧ isUniformBIFCall I := by
  simp only [movedCalls, List.mem_append, List.mem_filter]
  constructor
  · rintro (h | ⟨hI, hbif⟩)
    · obtain ⟨b, hb, hI⟩ := List.mem_flatMap.mp (List.mem_filter.mp h).1
      exact ⟨b, hb, (List.mem_filter.mp hI).1, (List.mem_filter.mp hI).2⟩
    · exact ⟨F.entry, F.entry_mem_layout, (List.take_sublist _ _).subset hI, hbif⟩
  · rintro ⟨b, hb, hI, hbif⟩
    by_cases hid : I.id = (F.block F.entry).getFirstNonPHI
    · have hmem : I.id ∈ (F.block b).instIds := List.mem_append_left _ (List.mem_map_of_mem hI)
      obtain rfl := F.eq_of_mem_instIds hF.ids hb F.entry_mem_layout hmem
        (hid ▸ getFirstNonPHI_mem F)
      refine .inr ⟨?_, hbif⟩
      cases hinsts : (F.block F.entry).insts with
      | nil =>
        rw [hinsts] at hI
        cases hI
      | cons P tail =>
        have hphi := hF.entryPhis P (hinsts ▸ List.mem_cons_self)
        have hfirst : (F.block F.entry).getFirstNonPHI = P.id := by
          simp [BasicBlock.getFirstNonPHI, hinsts, hphi]
        rw [F.inst_eq_of_id hF.ids hb hb hI (hinsts ▸ List.mem_cons_self) (hid.trans hfirst)]
        exact List.mem_cons_self
    · exact .inl ((mem_callsToMove hb hI).mpr ⟨hbif, hid⟩)

theorem id_mem_movedCalls (hF : F.Valid) (hb : b ∈ F.layout) (hI : I ∈ (F.block b).insts) :
    I.id ∈ (movedCalls F).map Instruction.id ↔ isUniformBIFCall I := by
  constructor
  · intro h
    obtain ⟨c, hc, hid⟩ := List.mem_map.mp h
    obtain ⟨d, hd, hc, hbif⟩ := (mem_movedCalls hF).mp hc
    rwa [← F.inst_eq_of_id hF.ids hd hb hc hI hid]
  · exact fun h => List.mem_map_of_mem ((mem_movedCalls hF).mpr ⟨b, hb, hI, h⟩)

theorem termId_not_mem_movedCalls (hF : F.Valid) (hb : b ∈ F.layout) :
    (F.block b).termId ∉ (movedCalls F).map Instruction.id := by
  intro h
  obtain ⟨c, hc, hid⟩ := List.mem_map.mp h
  obtain ⟨d, hd, hc, -⟩ := (mem_movedCalls hF).mp hc
  have hmem := List.mem_map_of_mem (f := Instruction.id) hc
  obtain rfl := F.eq_of_mem_instIds hF.ids hd hb (List.mem_append_left _ hmem)
    (hid ▸ List.mem_append_right _ List.mem_cons_self)
  exact (List.nodup_append.mp (hF.instIds_nodup hd)).2.2 _ hmem _ List.mem_cons_self hid

theorem nodup_movedCalls (hF : F.Valid) : ((movedCalls F).map Instruction.id).Nodup := by
  have hnodup : (movedCalls F).Nodup := by
    refine List.nodup_append.mpr ⟨(nodup_calls hF).filter _, ?_, ?_⟩
    · exact ((nodup_insts hF F.entry_mem_layout).sublist (List.take_sublist _ _)).filter _
    · rintro c hc P hP rfl
      have hP := (List.mem_filter.mp hP).1
      cases hinsts : (F.block F.entry).insts with
      | nil =>
        rw [hinsts] at hP
        cases hP
      | cons Q tail =>
        rw [hinsts, List.take_succ_cons, List.take_zero, List.mem_singleton] at hP
        subst hP
        have hphi := hF.entryPhis c (hinsts ▸ List.mem_cons_self)
        refine of_decide_eq_true (List.mem_filter.mp hc).2 ?_
        simp [BasicBlock.getFirstNonPHI, hinsts, hphi]
  refine hnodup.map_on fun c hc d hd hid => ?_
  obtain ⟨x, hx, hc, -⟩ := (mem_movedCalls hF).mp hc
  obtain ⟨y, hy, hd, -⟩ := (mem_movedCalls hF).mp hd
  exact F.inst_eq_of_id hF.ids hx hy hc hd hid

variable {u j : InstId}

theorem Moved.succs (h : Moved F G) : G.succs = F.succs :=
  funext fun b => by rw [Function.succs, h.term, Function.succs]

theorem Moved.edge (h : Moved F G) : G.Edge = F.Edge := by
  funext x y
  rw [Function.Edge, h.succs, Function.Edge]

theorem Moved.instIds (h : Moved F G) (hb : b ∈ F.layout) : (G.block b).instIds =
    (if b = F.entry then (movedCalls F).map Instruction.id else []) ++
      (((F.block b).insts.filter fun I => !isUniformBIFCall I).map Instruction.id ++
        [(F.block b).termId]) := by
  rw [BasicBlock.instIds, h.insts b hb, h.termId, List.map_append, List.append_assoc]
  split <;> rfl

theorem filter_instIds (hF : F.Valid) (hb : b ∈ F.layout) :
    (F.block b).instIds.filter (fun i => i ∉ (movedCalls F).map Instruction.id) =
      ((F.block b).insts.filter fun I => !isUniformBIFCall I).map Instruction.id ++
        [(F.block b).termId] := by
  rw [BasicBlock.instIds, List.filter_append, List.filter_map]
  congr 1
  · congr 1
    refine List.filter_congr fun I hI => ?_
    rw [Bool.eq_iff_iff, Function.comp_apply, decide_eq_true_eq, id_mem_movedCalls hF hb hI]
    simp
  · exact List.filter_eq_self.mpr fun i hi => by
      rw [List.mem_singleton.mp hi]
      exact decide_eq_true (termId_not_mem_movedCalls hF hb)

theorem Moved.inOrder (h : Moved F G) (hF : F.Valid) (hG : G.DefinesBeforeUse) :
    MovedInOrder F := by
  intro pre c post hcalls j hj
  have hc : c ∈ movedCalls F := hcalls ▸ List.mem_append_right _ List.mem_cons_self
  obtain ⟨d, hd, hcd, hbif⟩ := (mem_movedCalls hF).mp hc
  have hinst : c ∈ (G.block G.entry).insts := by
    rw [h.entry, h.insts _ F.entry_mem_layout, if_pos rfl]
    exact List.mem_append_left _ hc
  have habove := (hG.inst G.entry G.entry_mem_layout .refl c hinst
    (isPhi_of_isUniformBIFCall hbif) j hj).of_entry
  have hids : (G.block G.entry).instIds = pre.map Instruction.id ++ c.id :: (post.map Instruction.id ++
      (((F.block F.entry).insts.filter fun I => !isUniformBIFCall I).map Instruction.id ++
        [(F.block F.entry).termId])) := by
    rw [h.entry, h.instIds F.entry_mem_layout, if_pos rfl, hcalls, List.map_append, List.map_cons,
      List.append_assoc, List.cons_append]
  rw [hids] at habove
  refine mem_of_sublist_pair ?_ habove
  rw [← hids, h.entry, h.instIds F.entry_mem_layout, if_pos rfl,
    ← filter_instIds hF F.entry_mem_layout]
  refine List.nodup_append.mpr ⟨nodup_movedCalls hF, (hF.instIds_nodup F.entry_mem_layout).filter _,
    fun i hi k hk hik => ?_⟩
  exact of_decide_eq_true (List.mem_filter.mp hk).2 (hik ▸ hi)

theorem Moved.definedAbove (h : Moved F G) (hF : F.Valid) (hb : b ∈ F.layout)
    (hu : u ∈ (F.block b).instIds) (hkept : u ∉ (movedCalls F).map Instruction.id)
    (habove : F.DefinedAbove b u j) : G.DefinedAbove b u j := by
  have hrest := filter_instIds hF hb
  have hmem : u ∈ (F.block b).instIds.filter (fun i => i ∉ (movedCalls F).map Instruction.id) :=
    List.mem_filter.mpr ⟨hu, decide_eq_true hkept⟩
  by_cases hj : j ∈ (movedCalls F).map Instruction.id
  · by_cases hbe : b = F.entry
    · subst hbe
      refine .inl ?_
      rw [h.instIds hb, if_pos rfl, ← hrest]
      exact (List.singleton_sublist.mpr hj).append (List.singleton_sublist.mpr hmem)
    · refine .inr ⟨F.entry, h.layout ▸ F.entry_mem_layout, Ne.symm hbe, ?_, ?_⟩
      · rw [Function.Dominates, h.entry]
        exact .root
      · rw [h.insts _ F.entry_mem_layout, if_pos rfl, List.map_append]
        exact List.mem_append_left _ hj
  · rcases habove with habove | ⟨d, hd, hne, hdom, hjd⟩
    · refine .inl ?_
      have hfilter := habove.filter fun i => decide (i ∉ (movedCalls F).map Instruction.id)
      rw [List.filter_eq_self.mpr (by simp only [List.forall_mem_cons, decide_eq_true_eq]
                                      exact ⟨hj, hkept, List.forall_mem_nil _⟩), hrest] at hfilter
      rw [h.instIds hb]
      exact hfilter.trans (List.sublist_append_right ..)
    · refine .inr ⟨d, h.layout ▸ hd, hne, ?_, ?_⟩
      · rwa [Function.Dominates, h.entry, h.edge]
      · obtain ⟨I, hI, rfl⟩ := List.mem_map.mp hjd
        rw [id_mem_movedCalls hF hd hI] at hj
        refine List.mem_map_of_mem ?_
        rw [h.insts d hd]
        exact List.mem_append_right _ (List.mem_filter.mpr ⟨hI, by simpa using hj⟩)

theorem Moved.definesBeforeUse (h : Moved F G) (hF : F.Valid) (hssa : F.DefinesBeforeUse)
    (hord : MovedInOrder F) : G.DefinesBeforeUse := by
  have hreach : ∀ {x}, G.Reachable x → F.Reachable x := fun hx => by
    rwa [Function.Reachable, h.entry, h.edge] at hx
  have hterm : ∀ x ∈ F.layout, (F.block x).termId ∈ (F.block x).instIds := fun x _ =>
    List.mem_append_right _ List.mem_cons_self
  constructor
  · intro b hb hr I hI hphi j hj
    rw [h.layout] at hb
    rw [h.insts b hb] at hI
    rcases List.mem_append.mp hI with hI | hI
    · by_cases hbe : b = F.entry
      · subst hbe
        rw [if_pos rfl] at hI
        obtain ⟨pre, post, hcalls⟩ := List.append_of_mem hI
        have hpre := hord pre I post hcalls j hj
        refine .inl ?_
        rw [h.instIds hb, if_pos rfl, hcalls, List.map_append, List.map_cons]
        refine .trans ?_ (List.sublist_append_left ..)
        exact (List.singleton_sublist.mpr hpre).append
          (List.singleton_sublist.mpr List.mem_cons_self)
      · rw [if_neg hbe] at hI
        cases hI
    · obtain ⟨hI, hkept⟩ := List.mem_filter.mp hI
      have hid := id_mem_movedCalls hF hb hI
      refine h.definedAbove hF hb (List.mem_append_left _ (List.mem_map_of_mem hI)) ?_
        (hssa.inst b hb (hreach hr) I hI hphi j hj)
      rw [hid]
      simpa using hkept
  · intro b hb hr j hj
    rw [h.layout] at hb
    rw [h.term] at hj
    rw [h.termId]
    exact h.definedAbove hF hb (hterm b hb) (termId_not_mem_movedCalls hF hb)
      (hssa.term b hb (hreach hr) j hj)
  · intro b hb hr I hI p hp hrp j hj
    rw [h.layout] at hb
    rw [h.insts b hb] at hI
    have hI : I ∈ (F.block b).insts := by
      rcases List.mem_append.mp hI with hI | hI
      · split at hI
        · obtain ⟨-, -, -, hbif⟩ := (mem_movedCalls hF).mp hI
          have hphi := isPhi_of_isUniformBIFCall hbif
          obtain ⟨i, t, op⟩ := I
          cases op with
          | phi incoming => cases hphi
          | _ => cases hp
        · cases hI
      · exact (List.mem_filter.mp hI).1
    have hpmem : p.2 ∈ F.layout := hF.closed.reachable_mem (hreach hrp)
    rw [h.termId]
    exact h.definedAbove hF hpmem (hterm _ hpmem) (termId_not_mem_movedCalls hF hpmem)
      (hssa.phi b hb (hreach hr) I hI p hp (hreach hrp) j hj)

end

end VariOCL.IR.LoopInserter
