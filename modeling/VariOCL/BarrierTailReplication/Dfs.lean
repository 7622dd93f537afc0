import VariOCL.BarrierTailReplication.Cover

/-! `FindBarriersDFS` visits every reachable block, clones included, and behind each barrier leaves
only blocks that the barrier dominates. -/

namespace VariOCL.IR.BarrierTailReplication

open Relation (ReflTransGen)
open VariOCL.Graph (Guards Short WalkN ForwardEdge)

/-! ### A bound on the blocks there can ever be -/

/-- The words over `0 .. D - 1` of at most `n` letters. -/
def words (D : Nat) : Nat → List (List Nat)
  | 0 => [[]]
  | n + 1 => [] :: (words D n).flatMap fun p => (List.range D).map fun i => p ++ [i]

/-- The block the successor indices lead to. -/
def follow (F : Function) (b : BlockId) (p : List Nat) : Option BlockId :=
  p.foldl (fun x i => x.bind fun x => (F.succs x)[i]?) (some b)

theorem exists_word {F : Function} {D : Nat} {b x : BlockId} {m : Nat}
    (hD : ∀ x, ReflTransGen F.Edge b x → (F.succs x).length ≤ D)
    (h : WalkN F.ForwardEdge b m x) : ∀ {n}, m ≤ n → ∃ p ∈ words D n, follow F b p = some x := by
  induction h with
  | refl =>
    intro n _
    exact ⟨[], by cases n <;> simp [words], rfl⟩
  | @tail m x y hw hxy ih =>
    intro n hn
    obtain ⟨n, rfl⟩ : ∃ k, n = k + 1 := ⟨n - 1, by omega⟩
    obtain ⟨p, hp, hpx⟩ := ih (Nat.le_of_succ_le_succ hn)
    obtain ⟨i, hi, hiy⟩ := List.mem_iff_getElem.mp hxy.1
    have hiD := Nat.lt_of_lt_of_le hi (hD x (Graph.forward_walk hw.walk))
    refine ⟨p ++ [i], ?_, ?_⟩
    · refine List.mem_cons_of_mem _ (List.mem_flatMap.mpr ⟨p, hp, ?_⟩)
      exact List.mem_map_of_mem (List.mem_range.mpr hiD)
    · rw [follow] at hpx
      rw [follow, List.foldl_append, hpx]
      simp [List.getElem?_eq_getElem hi, hiy]

def maxSuccs (F : Function) : Nat := (F.layout.map fun x => (F.succs x).length).foldr max 0

theorem length_succs_le {F : Function} {x : BlockId} (hx : x ∈ F.layout) :
    (F.succs x).length ≤ maxSuccs F :=
  Nat.le_of_lt_succ (lt_foldr_max_succ (List.mem_map_of_mem hx))

/-- How many blocks a run of replications of `F` can make reachable. -/
def reachBound (F : Function) : Nat := (words (maxSuccs F) F.layout.length).length

theorem Replications.length_le {F G : Function} {log : List (Function × BlockId)}
    (h : Replications F log G) (hF : WellFormed F) (hred : F.Reducible) {V : List BlockId}
    (hn : V.Nodup) (hV : ∀ x ∈ V, G.Reachable x) : V.length ≤ reachBound F := by
  have he := h.evolves hF hred
  have hcov := (h.covers hF hred).1
  have hshort : Short G.Edge G.entry F.layout.length G.entry := by
    rw [he.entry]
    have : Short F.Edge F.entry F.layout.length F.entry :=
      hred.short hF.closed F.entry_mem_layout
    exact he.entry ▸ he.short F.entry F.entry_mem_layout _ this
  have hD : ∀ x, ReflTransGen G.Edge G.entry x → (G.succs x).length ≤ maxSuccs F := by
    intro x hx
    have hxl := he.wellFormed.closed.reachable_mem hx
    have := congrArg List.length (hcov.succs hxl)
    rw [List.length_map] at this
    rw [this]
    exact length_succs_le (hcov.layout x hxl)
  have hsub : V ⊆ (words (maxSuccs F) F.layout.length).filterMap (follow G G.entry) := by
    intro x hx
    obtain ⟨m, hw⟩ := Graph.exists_walkN (Graph.reach_forward (hV x hx))
    obtain ⟨p, hp, hpx⟩ := exists_word hD hw (hshort m x hw)
    exact List.mem_filterMap.mpr ⟨p, hp, hpx⟩
  exact (hn.subperm hsub).length_le.trans (List.length_filterMap_le ..)

/-! ### The search -/

/-- An edge between visited blocks. -/
def InEdge (F : Function) (V : List BlockId) (x y : BlockId) : Prop :=
  F.Edge x y ∧ x ∈ V ∧ y ∈ V

/-- The visited blocks are reached through visited blocks, and the barriers among them guard what
follows. -/
structure Searched (st : State) : Prop where
  nodup : st.processed_bbs.Nodup
  connected : ∀ v ∈ st.processed_bbs, st.F.entry ∈ st.processed_bbs ∧
    ReflTransGen (InEdge st.F st.processed_bbs) st.F.entry v
  guards : ∀ v ∈ st.processed_bbs, hasBarrier (st.F.block v) → Guards st.F.Edge st.F.entry v

theorem Searched.reach {st : State} (h : Searched st) {v : BlockId} (hv : v ∈ st.processed_bbs) :
    st.F.Reachable v := ReflTransGen.mono (fun _ _ h => h.1) _ _ (h.connected v hv).2

/-- The block is the entry of the search or has a visited predecessor. -/
def Enters (st : State) (bb : BlockId) : Prop :=
  bb = st.F.entry ∧ st.processed_bbs = [] ∨ ∃ x ∈ st.processed_bbs, st.F.Edge x bb

/-- What a call leaves of the state before it. -/
structure Visits (st st' : State) : Prop where
  run : ∃ log, Replications st.F log st'.F
  searched : Searched st'
  keep : ∀ v ∈ st.processed_bbs, v ∈ st'.processed_bbs
  succs : ∀ v ∈ st.processed_bbs, st'.F.succs v = st.F.succs v
  closed : ∀ v ∈ st'.processed_bbs, v ∈ st.processed_bbs ∨
    ∀ y ∈ st'.F.succs v, y ∈ st'.processed_bbs

section
variable {F : Function} {st st' : State} {bb : BlockId} {fuel n : Nat}

theorem Enters.reach (h : Enters st bb) (hs : Searched st) : st.F.Reachable bb := by
  rcases h with ⟨rfl, -⟩ | ⟨x, hx, he⟩
  · exact .refl
  · exact (hs.reach hx).tail he

/-- Nothing visited before is dominated by a block visited for the first time, so the replications
behind it leave the visited blocks alone. -/
theorem succs_of_joinedSubgraphs (hs : Searched st) (hbb : bb ∉ st.processed_bbs)
    (hF : WellFormed st.F) (hred : st.F.Reducible)
    (h : JoinedSubgraphs st.F [] (fun _ => False) bb bb st') :
    ∀ v ∈ st.processed_bbs, st'.F.succs v = st.F.succs v := by
  obtain ⟨log, hrun⟩ := h.run
  have he := hrun.evolves hF hred
  obtain ⟨Q, hcov, -, hQ⟩ := h.covered
  have hlayout : ∀ v ∈ st.processed_bbs, v ∈ st.F.layout := fun v hv =>
    hF.closed.reachable_mem (hs.reach hv)
  have hav : ∀ v, ReflTransGen (InEdge st.F st.processed_bbs) st.F.entry v →
      st.F.entry ∈ st.processed_bbs → Graph.Avoiding st'.F.Edge bb st'.F.entry v := by
    intro v hv hent
    rw [he.entry]
    induction hv with
    | refl => exact .refl fun h => hbb (h ▸ hent)
    | @tail u w _ huw ih =>
      have hu : u ∉ st'.processed_bbs := fun hm =>
        Graph.dominates_iff.mp (hcov.dominates u (hQ u hm)) (he.entry ▸ ih)
      refine ih.tail ?_ fun h => hbb (h ▸ huw.2.2)
      rw [Function.Edge, h.succs u (hlayout u huw.2.1) (.inr hu)]
      exact huw.1
  intro v hv
  obtain ⟨hent, hw⟩ := hs.connected v hv
  refine h.succs v (hlayout v hv) (.inr fun hm => ?_)
  exact Graph.dominates_iff.mp (hcov.dominates v (hQ v hm)) (hav v hw hent)

/-- The call for one block: its barrier, if any, guards what follows. -/
theorem replicateAt_spec (hs : Searched st) (hbb : bb ∉ st.processed_bbs) (hen : Enters st bb)
    (hF : WellFormed st.F) (hred : st.F.Reducible) (hshort : Short st.F.Edge st.F.entry n bb)
    (hfuel : n < fuel) :
    ∃ st', replicateAt fuel bb { st with processed_bbs := bb :: st.processed_bbs } = some st' ∧
      st'.processed_bbs = bb :: st.processed_bbs ∧ (∃ log, Replications st.F log st'.F) ∧
      (∀ v ∈ st.processed_bbs, st'.F.succs v = st.F.succs v) ∧
      (hasBarrier (st'.F.block bb) → Guards st'.F.Edge st'.F.entry bb) := by
  unfold replicateAt
  by_cases hbar : hasBarrier (st.F.block bb) = true
  · rw [if_pos hbar]
    obtain ⟨fuel, rfl⟩ : ∃ k, fuel = k + 1 := ⟨fuel - 1, by omega⟩
    have hshort' : Short st.F.Edge st.F.entry fuel bb := fun m y hm =>
      (hshort m y hm).trans (Nat.le_of_lt_succ hfuel)
    obtain ⟨st', hst', hj⟩ := replicateJoinedSubgraphs_spec bb fuel
      ⟨st.F, [], st.changed⟩ (fun _ => False) bb hF hred (hen.reach hs) Graph.Dominates.refl hshort'
      List.not_mem_nil ⟨nofun, nofun, nofun⟩ nofun
    obtain ⟨Q, hcov, -, hQ⟩ := hj.covered
    have hsucc := succs_of_joinedSubgraphs hs hbb hF hred hj
    refine ⟨{ st' with processed_bbs := bb :: st.processed_bbs }, by rw [hst']; rfl, rfl, hj.run,
      hsucc, ?_⟩
    intro _ x hx
    refine hcov.dominates x ?_
    induction hx with
    | refl => exact hQ bb hj.entry
    | tail _ hf ih => exact hcov.forward _ ih _ hf
  · rw [if_neg hbar]
    exact ⟨_, rfl, rfl, ⟨[], .refl⟩, fun _ _ => rfl, fun h => absurd h hbar⟩

theorem Searched.insert (hs : Searched st) (hbb : bb ∉ st.processed_bbs) (hen : Enters st bb)
    (hF : WellFormed st.F) (hred : st.F.Reducible)
    (hV : st'.processed_bbs = bb :: st.processed_bbs)
    (hrun : ∃ log, Replications st.F log st'.F)
    (hsucc : ∀ v ∈ st.processed_bbs, st'.F.succs v = st.F.succs v)
    (hg : hasBarrier (st'.F.block bb) → Guards st'.F.Edge st'.F.entry bb) : Searched st' := by
  obtain ⟨log, hrun⟩ := hrun
  have he := hrun.evolves hF hred
  have hedge : ∀ x y, x ∈ st.processed_bbs → st.F.Edge x y → st'.F.Edge x y := fun x y hx h => by
    rw [Function.Edge, hsucc x hx]
    exact h
  have hsub : ∀ v ∈ st.processed_bbs, v ∈ st'.processed_bbs := fun v hv => by
    rw [hV]
    exact List.mem_cons_of_mem _ hv
  have hold : ∀ v ∈ st.processed_bbs, st'.F.entry ∈ st'.processed_bbs ∧
      ReflTransGen (InEdge st'.F st'.processed_bbs) st'.F.entry v := by
    intro v hv
    obtain ⟨hent, hw⟩ := hs.connected v hv
    rw [he.entry]
    exact ⟨hsub _ hent, ReflTransGen.mono (fun x y h =>
      ⟨hedge x y h.2.1 h.1, hsub x h.2.1, hsub y h.2.2⟩) _ _ hw⟩
  refine ⟨by rw [hV]; exact List.nodup_cons.mpr ⟨hbb, hs.nodup⟩, fun v hv => ?_, fun v hv => ?_⟩
  · have hbb' : bb ∈ st'.processed_bbs := by simp [hV]
    rw [hV] at hv
    rcases List.mem_cons.mp hv with rfl | hv
    · rcases hen with ⟨rfl, -⟩ | ⟨x, hx, hxb⟩
      · rw [he.entry]
        exact ⟨hbb', .refl⟩
      · obtain ⟨hent, hw⟩ := hold x hx
        exact ⟨hent, hw.tail ⟨hedge x _ hx hxb, hsub x hx, hbb'⟩⟩
    · exact hold v hv
  · rw [hV] at hv
    rcases List.mem_cons.mp hv with rfl | hv
    · exact hg
    · have hvl := hF.closed.reachable_mem (hs.reach hv)
      intro hb
      rw [he.barrier v hvl] at hb
      exact he.guards v hvl (hs.guards v hv hb)

theorem Visits.refl (hs : Searched st) : Visits st st where
  run := ⟨[], .refl⟩
  searched := hs
  keep _ h := h
  succs _ _ := rfl
  closed _ h := .inl h

theorem Visits.trans {st'' : State} (h : Visits st st') (h' : Visits st' st'') :
    Visits st st'' where
  run := by
    obtain ⟨log, hrun⟩ := h.run
    obtain ⟨log', hrun'⟩ := h'.run
    exact ⟨_, hrun.trans hrun'⟩
  searched := h'.searched
  keep v hv := h'.keep v (h.keep v hv)
  succs v hv := (h'.succs v (h.keep v hv)).trans (h.succs v hv)
  closed v hv := by
    rcases h'.closed v hv with hv | hcl
    · refine (h.closed v hv).imp_right fun hcl y hy => h'.keep y (hcl y ?_)
      rwa [h'.succs v hv] at hy
    · exact .inr hcl

/-- A call returns when its fuel covers the blocks not visited yet. -/
def DfsSpec (F : Function) (visit : BlockId → State → Option State) (n : Nat) : Prop :=
  ∀ (st : State) (bb : BlockId), (∃ log, Replications F log st.F) → Searched st → Enters st bb →
    reachBound F < st.processed_bbs.length + n →
    ∃ st', visit bb st = some st' ∧ Visits st st' ∧ bb ∈ st'.processed_bbs

/-- The loop over the successors of a visited block, the first `i` being visited. -/
structure VisitedSuccessors (st : State) (bb : BlockId) (i : Nat) (st' : State) : Prop where
  visits : Visits st st'
  done : ∀ j y, j < i → (st.F.succs bb)[j]? = some y → y ∈ st'.processed_bbs

theorem dfsSuccessors_spec {visit : BlockId → State → Option State}
    (hvisit : DfsSpec F visit n) (hrun : ∃ log, Replications F log st.F) (hs : Searched st)
    (hbb : bb ∈ st.processed_bbs) (hn : reachBound F < st.processed_bbs.length + n) :
    ∃ st', (List.range (st.F.succs bb).length).foldlM (dfsSuccessor visit bb) st = some st' ∧
      VisitedSuccessors st bb (st.F.succs bb).length st' := by
  refine foldlM_range (fun i hi st' h => ?_) ⟨.refl hs, fun _ _ hj => absurd hj (Nat.not_lt_zero _)⟩
  obtain ⟨log, hrun⟩ := hrun
  obtain ⟨log', hrun'⟩ := h.visits.run
  have hsucc := h.visits.succs bb hbb
  have hb : (st'.F.succs bb)[i]? = some (st.F.succs bb)[i] := by
    rw [hsucc, List.getElem?_eq_getElem hi]
  have hlen : st.processed_bbs.length ≤ st'.processed_bbs.length :=
    (hs.nodup.subperm fun v hv => h.visits.keep v hv).length_le
  obtain ⟨st'', hst'', hv, hmem⟩ := hvisit st' _ ⟨_, hrun.trans hrun'⟩ h.visits.searched
    (.inr ⟨bb, h.visits.keep bb hbb, List.mem_of_getElem? hb⟩) (by omega)
  refine ⟨st'', by rw [dfsSuccessor, hb]; exact hst'', h.visits.trans hv, fun j y hj hy => ?_⟩
  rcases Nat.lt_succ_iff_lt_or_eq.mp hj with hj | rfl
  · exact hv.keep y (h.done j y hj hy)
  · rw [List.getElem?_eq_getElem hi] at hy
    exact Option.some.inj hy ▸ hmem

theorem findBarriersDFS_spec (hF : WellFormed F) (hred : F.Reducible)
    (hfuel : F.layout.length < fuel) (n : Nat) :
    DfsSpec F (findBarriersDFS fuel n) n := by
  induction n with
  | zero =>
    rintro st bb ⟨log, hrun⟩ hs - hn
    have := hrun.length_le hF hred hs.nodup fun v hv => hs.reach hv
    omega
  | succ n ih =>
    rintro st bb ⟨log, hrun⟩ hs hen hn
    have he := hrun.evolves hF hred
    by_cases hbb : bb ∈ st.processed_bbs
    · exact ⟨st, by rw [findBarriersDFS, if_pos hbb], .refl hs, hbb⟩
    have hshort : Short st.F.Edge st.F.entry F.layout.length bb := by
      refine he.shortAll _ (fun x hx => ?_) bb (hen.reach hs)
      exact hred.short hF.closed (hF.closed.reachable_mem hx)
    obtain ⟨st₁, hst₁, hV, hrun₁, hsucc, hg⟩ :=
      replicateAt_spec hs hbb hen he.wellFormed he.reducible hshort hfuel
    have hs₁ := hs.insert hbb hen he.wellFormed he.reducible hV hrun₁ hsucc hg
    obtain ⟨log₁, hrun₁⟩ := hrun₁
    have hbb₁ : bb ∈ st₁.processed_bbs := by simp [hV]
    obtain ⟨st₂, hst₂, hloop⟩ := dfsSuccessors_spec ih ⟨_, hrun.trans hrun₁⟩ hs₁ hbb₁
      (by rw [hV, List.length_cons]; omega)
    obtain ⟨log₂, hrun₂⟩ := hloop.visits.run
    refine ⟨st₂, ?_, ⟨⟨_, hrun₁.trans hrun₂⟩, hloop.visits.searched, fun v hv => ?_,
      fun v hv => ?_, fun v hv => ?_⟩, hloop.visits.keep bb hbb₁⟩
    · rw [findBarriersDFS, if_neg hbb, hst₁]
      exact hst₂
    · exact hloop.visits.keep v (by simp [hV, hv])
    · exact (hloop.visits.succs v (by simp [hV, hv])).trans (hsucc v hv)
    · rcases hloop.visits.closed v hv with hv | hcl
      · rw [hV] at hv
        rcases List.mem_cons.mp hv with rfl | hv
        · refine .inr fun y hy => ?_
          rw [hloop.visits.succs v hbb₁] at hy
          obtain ⟨j, hj, rfl⟩ := List.mem_iff_getElem.mp hy
          exact hloop.done j _ hj (List.getElem?_eq_getElem hj)
        · exact .inl hv
      · exact .inr hcl

end

/-- The fuel with which the pass returns. -/
def enoughFuel (F : Function) : Nat := max F.layout.length (reachBound F) + 1

theorem processFunction_spec {F : Function} (hF : WellFormed F) (hred : F.Reducible) {fuel : Nat}
    (hfuel : enoughFuel F ≤ fuel) : ∃ st log, processFunction fuel F = some st ∧
      Replications F log st.F ∧ Searched st ∧ ∀ x, st.F.Reachable x → x ∈ st.processed_bbs := by
  have hmax := Nat.lt_of_succ_le hfuel
  obtain ⟨st, hst, hv, hent⟩ := findBarriersDFS_spec hF hred
    (Nat.lt_of_le_of_lt (Nat.le_max_left ..) hmax) fuel ⟨F, [], false⟩ F.entry ⟨[], .refl⟩
    ⟨List.nodup_nil, nofun, nofun⟩ (.inl ⟨rfl, rfl⟩)
    (by simpa using Nat.lt_of_le_of_lt (Nat.le_max_right ..) hmax)
  obtain ⟨log, hrun⟩ := hv.run
  refine ⟨st, log, hst, hrun, hv.searched, fun x hx => ?_⟩
  induction hx with
  | refl =>
    rw [(hrun.evolves hF hred).entry]
    exact hent
  | tail _ he ih => exact (hv.closed _ ih).elim nofun fun hcl => hcl _ he

/-! ### More fuel -/

section
variable {f g : BlockId → State → Option State} {h k : State → Nat → Option State}
  {st st' : State} {bb dominator : BlockId} {n m fuel fuel' : Nat}

theorem foldlM_extends (hk : ∀ st i st', h st i = some st' → k st i = some st') {is : List Nat}
    (hst : is.foldlM h st = some st') : is.foldlM k st = some st' := by
  induction is generalizing st with
  | nil => exact hst
  | cons i is ih =>
    obtain ⟨st₁, hi, hrest⟩ := Option.bind_eq_some_iff.mp hst
    exact Option.bind_eq_some_iff.mpr ⟨st₁, hk st i st₁ hi, ih hrest⟩

theorem joinedSuccessor_extends (hfg : ∀ b st st', f b st = some st' → g b st = some st') {i : Nat}
    (hst : joinedSuccessor f dominator bb st i = some st') :
    joinedSuccessor g dominator bb st i = some st' := by
  rw [joinedSuccessor] at hst ⊢
  cases hb : (st.F.succs bb)[i]? with
  | none =>
    rw [hb] at hst
    exact hst
  | some b =>
    simp only [hb] at hst ⊢
    split_ifs at hst ⊢
    · exact hst
    · exact hst
    · exact hfg b st st' hst
    · exact hst

theorem dfsSuccessor_extends (hfg : ∀ b st st', f b st = some st' → g b st = some st') {i : Nat}
    (hst : dfsSuccessor f bb st i = some st') : dfsSuccessor g bb st i = some st' := by
  rw [dfsSuccessor] at hst ⊢
  cases hb : (st.F.succs bb)[i]? with
  | none =>
    rw [hb] at hst
    exact hst
  | some b =>
    rw [hb] at hst
    exact hfg b st st' hst

theorem replicateJoinedSubgraphs_extends (hnm : n ≤ m)
    (hst : replicateJoinedSubgraphs dominator n bb st = some st') :
    replicateJoinedSubgraphs dominator m bb st = some st' := by
  induction n generalizing m bb st st' with
  | zero => nomatch hst
  | succ n ih =>
    obtain ⟨m, rfl⟩ : ∃ k, m = k + 1 := ⟨m - 1, by omega⟩
    rw [replicateJoinedSubgraphs] at hst ⊢
    split_ifs at hst ⊢
    obtain ⟨st₁, hst₁, hrest⟩ := Option.map_eq_some_iff.mp hst
    apply Option.map_eq_some_iff.mpr
    refine ⟨st₁, foldlM_extends (fun st i st' hi => ?_) hst₁, hrest⟩
    exact joinedSuccessor_extends (fun b st st' hb => ih (Nat.le_of_succ_le_succ hnm) hb) hi

theorem replicateAt_extends (hnm : n ≤ m) (hst : replicateAt n bb st = some st') :
    replicateAt m bb st = some st' := by
  rw [replicateAt] at hst ⊢
  split_ifs at hst ⊢
  · obtain ⟨st₁, hst₁, hrest⟩ := Option.map_eq_some_iff.mp hst
    exact Option.map_eq_some_iff.mpr ⟨st₁, replicateJoinedSubgraphs_extends hnm hst₁, hrest⟩
  · exact hst

theorem findBarriersDFS_extends (hfuel : fuel ≤ fuel') (hnm : n ≤ m)
    (hst : findBarriersDFS fuel n bb st = some st') :
    findBarriersDFS fuel' m bb st = some st' := by
  induction n generalizing m bb st st' with
  | zero => nomatch hst
  | succ n ih =>
    obtain ⟨m, rfl⟩ : ∃ k, m = k + 1 := ⟨m - 1, by omega⟩
    rw [findBarriersDFS] at hst ⊢
    split_ifs at hst ⊢
    · exact hst
    · obtain ⟨st₁, hst₁, hrest⟩ := Option.bind_eq_some_iff.mp hst
      apply Option.bind_eq_some_iff.mpr
      refine ⟨st₁, replicateAt_extends hfuel hst₁, foldlM_extends (fun st i st' hi => ?_) hrest⟩
      exact dfsSuccessor_extends (fun b st st' hb => ih (Nat.le_of_succ_le_succ hnm) hb) hi

end

/-- With any fuel from `enoughFuel` on the pass gives the same result. -/
theorem processFunction_terminates {F : Function} (hF : WellFormed F) (hred : F.Reducible) :
    ∃ st, ∀ fuel, enoughFuel F ≤ fuel → processFunction fuel F = some st := by
  obtain ⟨st, _, hst, -⟩ := processFunction_spec hF hred le_rfl
  exact ⟨st, fun fuel hfuel => findBarriersDFS_extends hfuel hfuel hst⟩

end VariOCL.IR.BarrierTailReplication
