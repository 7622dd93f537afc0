import VariOCL.BarrierTailReplication.Subgraph

/-! One replication: a subgraph is copied and one edge into it goes to the copy. -/

namespace VariOCL.IR.BarrierTailReplication

open Relation (ReflTransGen)

/-- `ReplicateSubgraph(b, f)` and `t->setSuccessor(i, ..)`. -/
def replicate (F : Function) (s : BlockId) (i : Nat) (b : BlockId) : Function :=
  setSuccessor (replicateSubgraph F b).1 s i (replicateSubgraph F b).2

/-- The state in which the pass replicates: `b` is the successor `i` of `s`, and `d` dominates `s`
but not `b`. -/
structure Joined (F : Function) (d s : BlockId) (i : Nat) (b : BlockId) : Prop where
  reach : F.Reachable s
  succ : (F.succs s)[i]? = some b
  forward : F.ForwardEdge s b
  dom : F.Dominates d s
  notDom : ¬ F.Dominates d b

section
variable {F : Function} {d s b u x y : BlockId} {i : Nat}

theorem Joined.mem_source (h : Joined F d s i b) (hF : WellFormed F) : s ∈ F.layout :=
  hF.closed.reachable_mem h.reach

theorem Joined.reach_start (h : Joined F d s i b) : F.Reachable b := h.reach.tail h.forward.1

theorem Joined.mem_start (h : Joined F d s i b) (hF : WellFormed F) : b ∈ F.layout :=
  hF.closed.reachable_mem h.reach_start

theorem Joined.copied (h : Joined F d s i b) (hF : WellFormed F) (hred : F.Reducible) :
    Copied F (findSubgraph F b) (replicateSubgraph F b).1 :=
  (copied_replicateSubgraph hF hred h.reach_start).1

theorem replicate_eq (h : Joined F d s i b) (hF : WellFormed F) (hred : F.Reducible) :
    replicate F s i b = setSuccessor (replicateSubgraph F b).1 s i (F.cloneBlock b) := by
  rw [replicate, (copied_replicateSubgraph hF hred h.reach_start).2]

/-- The facts about one replication that the rest of the development uses. -/
structure Replicates (F : Function) (s : BlockId) (i : Nat) (b : BlockId) (G : Function) :
    Prop where
  layout : G.layout = F.layout ++ (findSubgraph F b).map F.cloneBlock
  entry : G.entry = F.entry
  term : ∀ x ∈ F.layout, x ≠ s → (G.block x).term = (F.block x).term
  source : (G.block s).term = (F.block s).term.setSuccessor i (F.cloneBlock b)
  termId : ∀ x ∈ F.layout, (G.block x).termId = (F.block x).termId
  insts : ∀ x ∈ F.layout,
    List.Forall₂ (Extends F (findSubgraph F b)) (F.block x).insts (G.block x).insts
  copies : ∀ u ∈ findSubgraph F b, G.block (F.cloneBlock u) =
    ⟨(F.block u).insts.map fun I => ⟨F.cloneInst I.id, I.ty,
        (I.op.mapValues (ownCopy F (findSubgraph F b))).mapBlocks
          (ownBlock F (findSubgraph F b))⟩,
      F.cloneInst (F.block u).termId,
      ((F.block u).term.mapValues (ownCopy F (findSubgraph F b))).mapBlocks
        (ownBlock F (findSubgraph F b))⟩

theorem Joined.replicates (h : Joined F d s i b) (hF : WellFormed F) (hred : F.Reducible) :
    Replicates F s i b (replicate F s i b) := by
  have hc := h.copied hF hred
  have hs := h.mem_source hF
  rw [replicate_eq h hF hred]
  have hother : ∀ x, x ≠ s → (setSuccessor (replicateSubgraph F b).1 s i (F.cloneBlock b)).block x =
      (replicateSubgraph F b).1.block x := fun x hx => Function.block_updateBlock_ne _ hx
  have hsource : (setSuccessor (replicateSubgraph F b).1 s i (F.cloneBlock b)).block s =
      { (replicateSubgraph F b).1.block s with
        term := ((replicateSubgraph F b).1.block s).term.setSuccessor i (F.cloneBlock b) } :=
    Function.block_updateBlock ..
  refine ⟨hc.layout, hc.entry, fun x hx hxs => ?_, ?_, fun x hx => ?_, fun x hx => ?_,
    fun u hu => ?_⟩
  · rw [hother x hxs, hc.term x hx]
  · rw [hsource, hc.term s hs]
  · by_cases hxs : x = s
    · subst hxs
      rw [hsource, hc.termId x hx]
    · rw [hother x hxs, hc.termId x hx]
  · by_cases hxs : x = s
    · subst hxs
      rw [hsource]
      exact hc.insts x hx
    · rw [hother x hxs]
      exact hc.insts x hx
  · rw [hother _ (cloneBlock_ne hs)]
    exact hc.copies u hu

end

section
variable {F G : Function} {d s b u x y : BlockId} {i : Nat}

theorem Replicates.succs (h : Replicates F s i b G) (hx : x ∈ F.layout) (hxs : x ≠ s) :
    G.succs x = F.succs x := by
  rw [Function.succs, h.term x hx hxs, Function.succs]

theorem Replicates.succs_source (h : Replicates F s i b G) :
    G.succs s = (F.succs s).set i (F.cloneBlock b) := by
  rw [Function.succs, h.source, Terminator.successors_setSuccessor, Function.succs]

theorem Replicates.succs_copy (h : Replicates F s i b G) (hu : u ∈ findSubgraph F b) :
    G.succs (F.cloneBlock u) = (F.succs u).map (ownBlock F (findSubgraph F b)) := by
  rw [Function.succs, h.copies u hu]
  simp [Function.succs]

theorem Replicates.termOperands (h : Replicates F s i b G) (hx : x ∈ F.layout) :
    (G.block x).term.operands = (F.block x).term.operands := by
  by_cases hxs : x = s
  · subst hxs
    rw [h.source, Terminator.operands_setSuccessor]
  · rw [h.term x hx hxs]

theorem Replicates.mem_layout (h : Replicates F s i b G) :
    x ∈ G.layout ↔ x ∈ F.layout ∨ ∃ u ∈ findSubgraph F b, x = F.cloneBlock u := by
  rw [h.layout, List.mem_append, List.mem_map]
  simp [eq_comm]

theorem Replicates.mem_of_old (h : Replicates F s i b G) (hx : x ∈ F.layout) : x ∈ G.layout :=
  h.mem_layout.mpr (.inl hx)

/-- The edges into the copy, and the rest of the graph, as the general theory wants them. -/
theorem Replicates.replicated (h : Replicates F s i b G) (hj : Joined F d s i b)
    (hF : WellFormed F) :
    Graph.Replicated F.Edge G.Edge F.entry s b (· ∈ F.layout) F.cloneBlock where
  root := F.entry_mem_layout
  closed hu he := hF.closed _ hu _ he
  fresh _ := cloneBlock_not_mem
  inj _ _ := cloneBlock_inj
  from_old {x y} hx he := by
    by_cases hxs : x = s
    · subst hxs
      rw [Function.Edge, h.succs_source] at he
      rcases List.mem_or_eq_of_mem_set he with he | he
      · exact .inl he
      · exact .inr ⟨rfl, he⟩
    · rw [Function.Edge, h.succs hx hxs] at he
      exact .inl he
  to_old {x y} hx he := by
    by_cases hxs : x = s
    · subst hxs
      by_cases hy : y = b
      · exact .inr ⟨rfl, hy⟩
      · refine .inl ?_
        rw [Function.Edge, h.succs_source]
        obtain ⟨j, hj', hjy⟩ := List.mem_iff_getElem.mp he
        have hne : i ≠ j := by
          rintro rfl
          have := hj.succ
          rw [List.getElem?_eq_getElem hj', hjy] at this
          exact hy (Option.some.inj this)
        refine List.mem_iff_getElem.mpr ⟨j, by simpa using hj', ?_⟩
        rw [List.getElem_set_ne hne, hjy]
    · refine .inl ?_
      rw [Function.Edge, h.succs hx hxs]
      exact he
  from_copy {u v} hu he := by
    have hel := hj.mem_start hF
    rw [Function.Edge, h.succs_copy ((mem_findSubgraph hF hel).mpr hu), List.mem_map] at he
    obtain ⟨w, hw, rfl⟩ := he
    refine ⟨w, hw, ?_⟩
    rw [ownBlock]
    split
    · exact .inl ⟨(mem_findSubgraph hF hel).mp ‹_›, rfl⟩
    · exact .inr ⟨mt (mem_findSubgraph hF hel).mpr ‹_›, rfl⟩
  source := hj.reach
  forward := hj.forward

theorem Replicates.reducible (h : Replicates F s i b G) (hj : Joined F d s i b)
    (hF : WellFormed F) (hred : F.Reducible) : G.Reducible := by
  rw [Function.Reducible, h.entry]
  exact (h.replicated hj hF).reducible hred

/-! ### The new function is well formed -/

theorem forall₂_extends_ids {graph : List BlockId} {Is Js : List Instruction}
    (h : List.Forall₂ (Extends F graph) Is Js) :
    Js.map Instruction.id = Is.map Instruction.id := by
  induction h with
  | nil => rfl
  | cons h _ ih => rw [List.map_cons, List.map_cons, h.id_eq, ih]

theorem Replicates.instIds_old (h : Replicates F s i b G) (hx : x ∈ F.layout) :
    (G.block x).instIds = (F.block x).instIds := by
  rw [BasicBlock.instIds, forall₂_extends_ids (h.insts x hx), h.termId x hx, BasicBlock.instIds]

theorem Replicates.instIds_copy (h : Replicates F s i b G) (hu : u ∈ findSubgraph F b) :
    (G.block (F.cloneBlock u)).instIds = (F.block u).instIds.map F.cloneInst := by
  rw [h.copies u hu]
  simp [BasicBlock.instIds, Function.comp_def]

theorem Replicates.instIds_eq (h : Replicates F s i b G) : G.instIds =
    F.instIds ++ ((findSubgraph F b).flatMap fun u => (F.block u).instIds).map F.cloneInst := by
  rw [Function.instIds, h.layout, List.flatMap_append, List.flatMap_map, List.map_flatMap,
    Function.instIds]
  congr 1
  · exact List.flatMap_congr fun x hx => h.instIds_old hx
  · exact List.flatMap_congr fun u hu => h.instIds_copy hu

theorem Replicates.definedIn (h : Replicates F s i b G) (hx : x ∈ G.layout)
    {j : InstId} (hj : j ∈ (G.block x).instIds) :
    x ∈ F.layout ∧ j ∈ (F.block x).instIds ∨
      ∃ u ∈ findSubgraph F b, x = F.cloneBlock u ∧ ∃ k ∈ (F.block u).instIds, j = F.cloneInst k := by
  rcases h.mem_layout.mp hx with hx | ⟨u, hu, rfl⟩
  · exact .inl ⟨hx, h.instIds_old hx ▸ hj⟩
  · rw [h.instIds_copy hu] at hj
    obtain ⟨k, hk, rfl⟩ := List.mem_map.mp hj
    exact .inr ⟨u, hu, rfl, k, hk, rfl⟩

theorem nodup_flatMap_instIds (hF : WellFormed F) {graph : List BlockId} (hn : graph.Nodup)
    (hgraph : ∀ u ∈ graph, u ∈ F.layout) :
    (graph.flatMap fun u => (F.block u).instIds).Nodup := by
  refine List.nodup_flatMap.mpr ⟨fun u hu => (List.nodup_flatMap.mp hF.ids).1 u (hgraph u hu), ?_⟩
  exact hn.imp_of_mem fun {u v} hu hv hne j hju hjv =>
    hne (Function.eq_of_mem_instIds hF.ids (hgraph u hu) (hgraph v hv) hju hjv)

theorem mem_ownBlock (h : Replicates F s i b G) (hx : x ∈ F.layout) :
    ownBlock F (findSubgraph F b) x ∈ G.layout := by
  rw [ownBlock]
  split
  · exact h.mem_layout.mpr (.inr ⟨x, ‹_›, rfl⟩)
  · exact h.mem_of_old hx

theorem mem_ownCopy (h : Replicates F s i b G) {v : Value}
    (hv : ∀ j, v = .inst j → j ∈ F.instIds) {j : InstId}
    (hj : ownCopy F (findSubgraph F b) v = .inst j) : j ∈ G.instIds := by
  rw [h.instIds_eq, List.mem_append]
  cases v with
  | inst k =>
    simp only [ownCopy] at hj
    split at hj
    · rename_i hd
      cases hj
      obtain ⟨u, hu, hk⟩ := hd
      exact .inr (List.mem_map_of_mem (List.mem_flatMap.mpr ⟨u, hu, hk⟩))
    · cases hj
      exact .inl (hv _ rfl)
  | _ => cases hj

/-- A value defined on every path to the end of `p` has its own copy defined on every path to the
end of the copy of `p`. -/
theorem own_dominates (h : Replicates F s i b G) (hj : Joined F d s i b) (hF : WellFormed F)
    (hred : F.Reducible) {k j : InstId} {D p D' : BlockId} (hD : D ∈ F.layout) (hp : p ∈ F.layout)
    (hk : k ∈ (F.block D).instIds) (hdom : F.Dominates D p)
    (hown : ownCopy F (findSubgraph F b) (.inst k) = .inst j) (hD' : D' ∈ G.layout)
    (hj' : j ∈ (G.block D').instIds) : G.Dominates D' (ownBlock F (findSubgraph F b) p) := by
  have hr := h.replicated hj hF
  have hbl := hj.mem_start hF
  have hgraph := findSubgraph_subset hF hbl
  rw [Function.Dominates, h.entry]
  have hdef : ∀ u ∈ F.layout, k ∈ (F.block u).instIds → u = D := fun u hu hku =>
    Function.eq_of_mem_instIds hF.ids hu hD hku hk
  by_cases hDS : D ∈ findSubgraph F b
  · -- the value is copied
    rw [ownCopy, if_pos ⟨D, hDS, hk⟩] at hown
    cases hown
    obtain rfl : D' = F.cloneBlock D := by
      rcases h.definedIn hD' hj' with ⟨hD'l, hk'⟩ | ⟨u, hu, rfl, k', hk', hkk⟩
      · exact absurd (Function.mem_instIds.mpr ⟨D', hD'l, hk'⟩) cloneInst_not_mem
      · rw [hdef u (hgraph u hu) (cloneInst_inj hkk ▸ hk')]
    have hDP := (mem_findSubgraph hF hbl).mp hDS
    rw [ownBlock]
    split
    · rename_i hpS
      exact hr.dominates_copies hred ((mem_findSubgraph hF hbl).mp hpS) hDP hdom
    · -- the subgraph holds every reachable block that `D` dominates
      rename_i hpS
      refine Graph.Dominates.of_unreachable fun hreach => hpS ?_
      rcases hr.reach hreach with ⟨-, hpr⟩ | ⟨u, hu, rfl⟩
      · exact (mem_findSubgraph hF hbl).mpr (ReflTransGen.trans hDP (hdom.forward hpr))
      · exact absurd hp cloneBlock_not_mem
  · have hnd : ¬ DefinedIn F (findSubgraph F b) k := by
      rintro ⟨u, hu, hku⟩
      exact hDS (hdef u (hgraph u hu) hku ▸ hu)
    rw [ownCopy, if_neg hnd] at hown
    cases hown
    obtain rfl : D' = D := by
      rcases h.definedIn hD' hj' with ⟨hD'l, hk'⟩ | ⟨u, hu, rfl, k', hk', rfl⟩
      · exact hdef D' hD'l hk'
      · exact absurd (Function.mem_instIds.mpr ⟨D, hD, hk⟩) cloneInst_not_mem
    rw [ownBlock]
    split
    · rename_i hpS
      have hpP := (mem_findSubgraph hF hbl).mp hpS
      have hDP := mt (mem_findSubgraph hF hbl).mpr hDS
      have hne : b ≠ D' := fun he => hDP (he ▸ .refl)
      exact hr.dominates_copy hpP ((hpP.dominates_start hDP hdom).pred hne hj.forward.1)
    · exact hr.dominates_old hp hdom

theorem Extends.incoming {graph : List BlockId} {I J : Instruction} (h : Extends F graph I J)
    {incoming : List (Value × BlockId)} (hJ : J.op = .phi incoming) :
    ∃ original, I.op = .phi original ∧ ∀ q ∈ incoming, q ∈ original ∨ ∃ p ∈ graph,
      q = (ownCopy F graph (getIncomingValueForBlock original p), F.cloneBlock p) := by
  cases h with
  | @phi id ty original extra hextra =>
    cases hJ
    refine ⟨original, rfl, fun q hq => ?_⟩
    rcases List.mem_append.mp hq with hq | hq
    · exact .inl hq
    · exact .inr (hextra q hq)
  | other hphi => rw [hJ] at hphi; cases hphi

theorem forall₂_mem_right {α β : Type*} {R : α → β → Prop} {xs : List α} {ys : List β}
    (h : List.Forall₂ R xs ys) {y : β} (hy : y ∈ ys) : ∃ x ∈ xs, R x y := by
  induction h with
  | nil => cases hy
  | cons hxy _ ih =>
    rcases List.mem_cons.mp hy with rfl | hy
    · exact ⟨_, List.mem_cons_self, hxy⟩
    · obtain ⟨x, hx, hR⟩ := ih hy
      exact ⟨x, List.mem_cons_of_mem _ hx, hR⟩

/-- Each entry of a PHI of the new function stems from an entry of a PHI of the old one. -/
theorem Replicates.phiEntry (h : Replicates F s i b G) (hj : Joined F d s i b) (hF : WellFormed F)
    (hx : x ∈ G.layout) {J : Instruction} (hJ : J ∈ (G.block x).insts)
    {incoming : List (Value × BlockId)} (hop : J.op = .phi incoming) {q : Value × BlockId}
    (hq : q ∈ incoming) : ∃ y ∈ F.layout, ∃ I ∈ (F.block y).insts, ∃ original,
      I.op = .phi original ∧ (q ∈ original ∨ q.1 = .undefValue ∧ q.2 ∈ G.layout ∨
        ∃ p ∈ original, q = (ownCopy F (findSubgraph F b) p.1, ownBlock F (findSubgraph F b) p.2)) := by
  have hgraph := findSubgraph_subset hF (hj.mem_start hF)
  rcases h.mem_layout.mp hx with hx | ⟨u, hu, rfl⟩
  · obtain ⟨I, hI, hext⟩ := forall₂_mem_right (h.insts x hx) hJ
    obtain ⟨original, hop', hall⟩ := hext.incoming hop
    refine ⟨x, hx, I, hI, original, hop', ?_⟩
    rcases hall q hq with hq | ⟨p, hp, rfl⟩
    · exact .inl hq
    · unfold getIncomingValueForBlock
      cases hf : original.find? fun r => decide (r.2 = p) with
      | none => exact .inr (.inl ⟨rfl, h.mem_layout.mpr (.inr ⟨p, hp, rfl⟩)⟩)
      | some r =>
        have hrp : r.2 = p := by simpa using List.find?_some hf
        refine .inr (.inr ⟨r, List.mem_of_find?_eq_some hf, ?_⟩)
        simp [ownBlock, hrp, hp]
  · rw [h.copies u hu] at hJ
    obtain ⟨I, hI, rfl⟩ := List.mem_map.mp hJ
    refine ⟨u, hgraph u hu, I, hI, ?_⟩
    cases hI' : I.op with
    | phi original =>
      rw [hI'] at hop
      simp only [Op.mapValues, Op.mapBlocks, List.map_map, Op.phi.injEq] at hop
      subst hop
      obtain ⟨p, hp, rfl⟩ := List.mem_map.mp hq
      exact ⟨original, rfl, .inr (.inr ⟨p, hp, rfl⟩)⟩
    | _ => rw [hI'] at hop; cases hop

theorem mem_incomingBlocks {op : Op} {p : BlockId} (h : p ∈ op.incomingBlocks) :
    ∃ incoming, op = .phi incoming ∧ ∃ v, (v, p) ∈ incoming := by
  cases op with
  | phi incoming =>
    obtain ⟨q, hq, rfl⟩ := List.mem_map.mp h
    exact ⟨incoming, rfl, q.1, hq⟩
  | _ => cases h

theorem Replicates.wellFormed (h : Replicates F s i b G) (hj : Joined F d s i b)
    (hF : WellFormed F) (hred : F.Reducible) : WellFormed G := by
  have hbl := hj.mem_start hF
  have hgraph := findSubgraph_subset hF hbl
  have hsub : ∀ k ∈ F.instIds, k ∈ G.instIds := fun k hk => by
    rw [h.instIds_eq]
    exact List.mem_append_left _ hk
  have hphi : ∀ y ∈ F.layout, ∀ I ∈ (F.block y).insts, ∀ original, I.op = .phi original →
      ∀ q ∈ original, q.2 ∈ F.layout ∧ ∀ k, q.1 = .inst k → k ∈ F.instIds := by
    intro y hy I hI original hop q hq
    refine ⟨hF.incoming y hy I hI q.2 ?_, fun k hk => hF.operands y hy I hI k ?_⟩
    · rw [hop]
      exact List.mem_map_of_mem hq
    · rw [hop, ← hk]
      exact List.mem_map_of_mem hq
  exact {
    nodup := by
      rw [h.layout]
      refine List.nodup_append.mpr ⟨hF.nodup,
        (nodup_findSubgraph hF hbl).map fun _ _ he => cloneBlock_inj he, ?_⟩
      rintro x hx _ hy rfl
      obtain ⟨u, -, he⟩ := List.mem_map.mp hy
      exact cloneBlock_ne hx he
    closed := fun x hx y hy => by
      rcases h.mem_layout.mp hx with hx | ⟨u, hu, rfl⟩
      · rcases (h.replicated hj hF).from_old hx hy with hy | ⟨-, rfl⟩
        · exact h.mem_of_old (hF.closed x hx y hy)
        · exact h.mem_layout.mpr (.inr ⟨b, (mem_findSubgraph hF hbl).mpr .refl, rfl⟩)
      · rw [h.succs_copy hu] at hy
        obtain ⟨w, hw, rfl⟩ := List.mem_map.mp hy
        exact mem_ownBlock h (hF.closed u (hgraph u hu) w hw)
    ids := by
      rw [h.instIds_eq]
      refine List.nodup_append.mpr ⟨hF.ids,
        (nodup_flatMap_instIds hF (nodup_findSubgraph hF hbl) hgraph).map
          fun _ _ he => cloneInst_inj he, ?_⟩
      rintro k hk _ hk' rfl
      obtain ⟨j, -, he⟩ := List.mem_map.mp hk'
      exact cloneInst_not_mem (he ▸ hk)
    operands := fun x hx J hJ k hk => by
      cases hJop : J.op with
      | phi incoming =>
        rw [hJop] at hk
        obtain ⟨q, hq, hqk⟩ := List.mem_map.mp hk
        obtain ⟨y, hy, I, hI, original, hop, hq | ⟨hq, -⟩ | ⟨p, hp, rfl⟩⟩ :=
          h.phiEntry hj hF hx hJ hJop hq
        · exact hsub k ((hphi y hy I hI original hop q hq).2 k hqk)
        · rw [hq] at hqk; cases hqk
        · exact mem_ownCopy h (hphi y hy I hI original hop p hp).2 hqk
      | _ =>
        have hphi : J.op.isPhi = false := by rw [hJop]; rfl
        rcases h.mem_layout.mp hx with hx | ⟨u, hu, rfl⟩
        · obtain ⟨I, hI, hext⟩ := forall₂_mem_right (h.insts x hx) hJ
          rw [hext.op_eq (hext.isPhi_eq ▸ hphi)] at hk
          exact hsub k (hF.operands x hx I hI k hk)
        · rw [h.copies u hu] at hJ
          obtain ⟨I, hI, rfl⟩ := List.mem_map.mp hJ
          simp only [Op.operands_mapBlocks, Op.operands_mapValues, List.mem_map] at hk
          obtain ⟨v, hv, hvk⟩ := hk
          exact mem_ownCopy h
            (fun j hvj => hF.operands u (hgraph u hu) I hI j (hvj ▸ hv)) hvk
    termOperands := fun x hx k hk => by
      rcases h.mem_layout.mp hx with hx | ⟨u, hu, rfl⟩
      · rw [h.termOperands hx] at hk
        exact hsub k (hF.termOperands x hx k hk)
      · rw [h.copies u hu] at hk
        simp only [Terminator.operands_mapBlocks, Terminator.operands_mapValues,
          List.mem_map] at hk
        obtain ⟨v, hv, hvk⟩ := hk
        exact mem_ownCopy h (fun j hvj => hF.termOperands u (hgraph u hu) j (hvj ▸ hv)) hvk
    incoming := fun x hx J hJ p hp => by
      obtain ⟨incoming, hop, v, hq⟩ := mem_incomingBlocks hp
      obtain ⟨y, hy, I, hI, original, hop', hq | ⟨-, hq⟩ | ⟨q, hq, he⟩⟩ :=
        h.phiEntry hj hF hx hJ hop hq
      · exact h.mem_of_old (hphi y hy I hI original hop' _ hq).1
      · exact hq
      · rw [(Prod.mk.inj he).2]
        exact mem_ownBlock h (hphi y hy I hI original hop' q hq).1
    phiDefs := fun x hx J hJ incoming hop k p hq D' hD' hk => by
      obtain ⟨y, hy, I, hI, original, hop', hq' | ⟨hq', -⟩ | ⟨q, hq', he⟩⟩ :=
        h.phiEntry hj hF hx hJ hop hq
      · obtain ⟨hp, hkl⟩ := hphi y hy I hI original hop' _ hq'
        have hkl := hkl k rfl
        rcases h.definedIn hD' hk with ⟨hD'l, hk'⟩ | ⟨u, hu, rfl, k', hk', rfl⟩
        · rw [Function.Dominates, h.entry]
          exact (h.replicated hj hF).dominates_old hp
            (hF.phiDefs y hy I hI original hop' k p hq' D' hD'l hk')
        · exact absurd hkl cloneInst_not_mem
      · cases hq'
      · obtain ⟨hp, hkl⟩ := hphi y hy I hI original hop' _ hq'
        obtain ⟨hv, rfl⟩ := Prod.mk.inj he
        cases hqv : q.1 with
        | inst j =>
          obtain ⟨D, hD, hjD⟩ := Function.mem_instIds.mp (hkl j hqv)
          have hqj : (Value.inst j, q.2) ∈ original := by
            rw [← hqv]
            exact hq'
          exact own_dominates h hj hF hred hD hp hjD
            (hF.phiDefs y hy I hI original hop' j q.2 hqj D hD hjD) (hqv ▸ hv.symm) hD' hk
        | _ => rw [hqv] at hv; cases hv }

theorem Replicates.hasBarrier (h : Replicates F s i b G) (hx : x ∈ F.layout) :
    hasBarrier (G.block x) = hasBarrier (F.block x) := by
  have := h.insts x hx
  unfold IR.hasBarrier
  generalize (F.block x).insts = Is at this ⊢
  generalize (G.block x).insts = Js at this ⊢
  induction this with
  | nil => rfl
  | cons h _ ih => rw [List.any_cons, List.any_cons, h.isBarrier_eq, ih]

end

end VariOCL.IR.BarrierTailReplication
