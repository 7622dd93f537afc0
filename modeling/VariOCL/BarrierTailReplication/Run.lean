import VariOCL.BarrierTailReplication.Step

/-! Runs of replications, and what they keep of the function they start from. -/

namespace VariOCL.IR.BarrierTailReplication

open Relation (ReflTransGen TransGen)
open VariOCL.Graph (Guards Short)

/-- The replications made one after the other, each with the function it starts from and the entry
of the subgraph it copies. -/
inductive Replications (F : Function) : List (Function × BlockId) → Function → Prop
  | refl : Replications F [] F
  | step {log : List (Function × BlockId)} {G : Function} {d s b : BlockId} {i : Nat} :
      Replications F log G → Joined G d s i b →
      Replications F (log ++ [(G, b)]) (replicate G s i b)

theorem Replications.trans {F G H : Function} {log log' : List (Function × BlockId)}
    (h : Replications F log G) (h' : Replications G log' H) : Replications F (log ++ log') H := by
  induction h' with
  | refl => simpa using h
  | step _ hj ih => simpa using ih.step hj

/-- What a run of replications keeps. -/
structure Evolves (F G : Function) : Prop where
  wellFormed : WellFormed G
  reducible : G.Reducible
  entry : G.entry = F.entry
  layout : ∀ x ∈ F.layout, x ∈ G.layout
  dominates : ∀ x ∈ F.layout, ∀ d, F.Dominates d x → G.Dominates d x
  forward : ∀ x ∈ F.layout, ∀ y ∈ F.layout, G.ForwardEdge x y → F.ForwardEdge x y
  forwards : ∀ x ∈ F.layout, ∀ y ∈ F.layout, ReflTransGen G.ForwardEdge x y →
    ReflTransGen F.ForwardEdge x y
  guards : ∀ x ∈ F.layout, Guards F.Edge F.entry x → Guards G.Edge G.entry x
  reach : ∀ x, F.Reachable x → G.Reachable x
  short : ∀ x ∈ F.layout, ∀ n, Short F.Edge F.entry n x → Short G.Edge G.entry n x
  shortAll : ∀ n, (∀ x, F.Reachable x → Short F.Edge F.entry n x) →
    ∀ x, G.Reachable x → Short G.Edge G.entry n x
  barrier : ∀ x ∈ F.layout, hasBarrier (G.block x) = hasBarrier (F.block x)

theorem Evolves.refl {F : Function} (hF : WellFormed F) (hred : F.Reducible) : Evolves F F where
  wellFormed := hF
  reducible := hred
  entry := rfl
  layout _ h := h
  dominates _ _ _ h := h
  forward _ _ _ _ h := h
  forwards _ _ _ _ h := h
  guards _ _ h := h
  reach _ h := h
  short _ _ _ h := h
  shortAll _ h := h
  barrier _ _ := rfl

theorem Evolves.trans {F G H : Function} (h : Evolves F G) (h' : Evolves G H) : Evolves F H where
  wellFormed := h'.wellFormed
  reducible := h'.reducible
  entry := h'.entry.trans h.entry
  layout x hx := h'.layout x (h.layout x hx)
  dominates x hx d hd := h'.dominates x (h.layout x hx) d (h.dominates x hx d hd)
  forward x hx y hy hf := h.forward x hx y hy (h'.forward x (h.layout x hx) y (h.layout y hy) hf)
  forwards x hx y hy hf :=
    h.forwards x hx y hy (h'.forwards x (h.layout x hx) y (h.layout y hy) hf)
  guards x hx hg := h'.guards x (h.layout x hx) (h.guards x hx hg)
  reach x hx := h'.reach x (h.reach x hx)
  short x hx n hs := h'.short x (h.layout x hx) n (h.short x hx n hs)
  shortAll n hs := h'.shortAll n (h.shortAll n hs)
  barrier x hx := (h'.barrier x (h.layout x hx)).trans (h.barrier x hx)

theorem Joined.evolves {F : Function} {d s b : BlockId} {i : Nat} (hj : Joined F d s i b)
    (hF : WellFormed F) (hred : F.Reducible) : Evolves F (replicate F s i b) := by
  have h := hj.replicates hF hred
  have hr := h.replicated hj hF
  have hent := h.entry
  have hstep : ∀ x ∈ F.layout, ∀ y, (replicate F s i b).ForwardEdge x y →
      y ∈ F.layout ∧ F.ForwardEdge x y ∨ x = s ∧ y = F.cloneBlock b := by
    intro x hx y hf
    rw [Function.ForwardEdge, hent] at hf
    exact hr.forward_old hx hf
  refine ⟨h.wellFormed hj hF hred, h.reducible hj hF hred, hent, fun x hx => h.mem_of_old hx,
    fun x hx d hd => ?_, fun x hx y hy hf => ?_, fun x hx y hy hf => ?_, fun x hx hg => ?_,
    fun x hx => ?_, fun x hx n hs => ?_, fun n hs x hx => ?_, fun x hx => h.hasBarrier hx⟩
  · rw [Function.Dominates, hent]
    exact hr.dominates_old hx hd
  · rcases hstep x hx y hf with ⟨-, hf⟩ | ⟨-, rfl⟩
    · exact hf
    · exact absurd hy cloneBlock_not_mem
  · -- a forward walk that enters the copies stays there
    have key : y ∈ F.layout ∧ ReflTransGen F.ForwardEdge x y ∨
        ∃ u, Graph.Part F.Edge F.entry b u ∧ y = F.cloneBlock u := by
      clear hy
      induction hf with
      | refl => exact .inl ⟨hx, .refl⟩
      | @tail y z _ hyz ih =>
        rcases ih with ⟨hy, hw⟩ | ⟨u, hu, rfl⟩
        · rcases hstep y hy z hyz with ⟨hz, hf⟩ | ⟨-, rfl⟩
          · exact .inl ⟨hz, hw.tail hf⟩
          · exact .inr ⟨b, .refl, rfl⟩
        · rw [Function.ForwardEdge, hent] at hyz
          obtain ⟨v, hv, rfl, -⟩ := hr.forward_copy hred hu hyz
          exact .inr ⟨v, hv, rfl⟩
    rcases key with ⟨-, hw⟩ | ⟨u, -, rfl⟩
    · exact hw
    · exact absurd hy cloneBlock_not_mem
  · rw [hent]
    exact hr.guards hred hx hg
  · rw [Function.Reachable, hent]
    exact hr.reach_of_old hj.dom hj.notDom hx
  · rw [hent]
    exact hr.short hred (.inl ⟨hx, rfl⟩) hs
  · rw [hent]
    rw [Function.Reachable, hent] at hx
    obtain ⟨u, ho, hu⟩ := hr.reach_over hx
    exact hr.short hred ho (hs u hu)

theorem Replications.evolves {F G : Function} {log : List (Function × BlockId)}
    (h : Replications F log G) (hF : WellFormed F) (hred : F.Reducible) : Evolves F G := by
  induction h with
  | refl => exact .refl hF hred
  | step _ hj ih => exact ih.trans (hj.evolves ih.wellFormed ih.reducible)

/-- What one step of a loop keeps holds at its end. -/
theorem foldlM_range {σ : Type*} {f : σ → Nat → Option σ} {I : Nat → σ → Prop} {n : Nat}
    (hstep : ∀ i, i < n → ∀ s, I i s → ∃ s', f s i = some s' ∧ I (i + 1) s') {s : σ} (h : I 0 s) :
    ∃ s', (List.range n).foldlM f s = some s' ∧ I n s' := by
  induction n with
  | zero => exact ⟨s, rfl, h⟩
  | succ n ih =>
    obtain ⟨s', hs', hI⟩ := ih fun i hi => hstep i (Nat.lt_succ_of_lt hi)
    obtain ⟨s'', hs'', hI'⟩ := hstep n (Nat.lt_succ_self n) s' hI
    refine ⟨s'', ?_, hI'⟩
    rw [List.range_succ, List.foldlM_append, hs']
    simpa using hs''

/-! ### The subgraphs joined behind one barrier -/

/-- The blocks of `Q` are dominated by `d`, and the forward edges stay among them. -/
structure Covered (F : Function) (d : BlockId) (Q : BlockId → Prop) : Prop where
  layout : ∀ x, Q x → x ∈ F.layout
  dominates : ∀ x, Q x → F.Dominates d x
  forward : ∀ x, Q x → ∀ y, F.ForwardEdge x y → Q y

/-- A forward edge out of a block that is not processed yet. -/
def FreshEdge (F : Function) (P : List BlockId) (u v : BlockId) : Prop :=
  F.ForwardEdge u v ∧ u ∉ P

/-- What the call for `s` leaves: `F` and `P` are the function and the processed blocks before it. -/
structure JoinedSubgraphs (F : Function) (P : List BlockId) (Q : BlockId → Prop) (d s : BlockId)
    (st : State) : Prop where
  run : ∃ log, Replications F log st.F
  covered : ∃ Q', Covered st.F d Q' ∧ (∀ x, Q x → Q' x) ∧ (∀ x ∈ st.processed_bbs, Q' x)
  keep : ∀ x ∈ P, x ∈ st.processed_bbs
  entry : s ∈ st.processed_bbs
  fresh : ∀ x ∈ st.processed_bbs, x ∈ P ∨ ReflTransGen (FreshEdge F P) s x
  succs : ∀ x ∈ F.layout, x ∈ P ∨ x ∉ st.processed_bbs → st.F.succs x = F.succs x

/-- The state of the loop over the successors of `s`, the first `i` being done. -/
structure JoinedSuccessors (F : Function) (P : List BlockId) (Q : BlockId → Prop) (d s : BlockId)
    (i : Nat) (st : State) : Prop where
  run : ∃ log, Replications F log st.F
  covered : ∃ Q', Covered st.F d Q' ∧ (∀ x, Q x → Q' x) ∧ (∀ x ∈ st.processed_bbs, Q' x) ∧
    ∀ j y, j < i → (st.F.succs s)[j]? = some y → st.F.ForwardEdge s y → Q' y
  keep : ∀ x ∈ P, x ∈ st.processed_bbs
  fresh : ∀ x ∈ st.processed_bbs, x ∈ P ∨ TransGen (FreshEdge F P) s x
  succs : ∀ x ∈ F.layout, x ≠ s → x ∈ P ∨ x ∉ st.processed_bbs → st.F.succs x = F.succs x
  later : ∀ j, i ≤ j → (st.F.succs s)[j]? = (F.succs s)[j]?
  length : (st.F.succs s).length = (F.succs s).length

/-- The recursive call does its part for every block with short forward walks. -/
def RecurseSpec (recurse : BlockId → State → Option State) (d : BlockId) (n : Nat) : Prop :=
  ∀ (st : State) (Q : BlockId → Prop) (b : BlockId), WellFormed st.F → st.F.Reducible →
    st.F.Reachable b → st.F.Dominates d b → Short st.F.Edge st.F.entry n b →
    b ∉ st.processed_bbs → Covered st.F d Q → (∀ x ∈ st.processed_bbs, Q x) →
    ∃ st', recurse b st = some st' ∧ JoinedSubgraphs st.F st.processed_bbs Q d b st'

section
variable {F : Function} {P : List BlockId} {Q : BlockId → Prop} {d s : BlockId} {st : State}

theorem JoinedSuccessors.start (hcov : Covered st.F d Q) (hP : ∀ x ∈ st.processed_bbs, Q x) :
    JoinedSuccessors st.F st.processed_bbs Q d s 0 st where
  run := ⟨[], .refl⟩
  covered := ⟨Q, hcov, fun _ h => h, hP, fun _ _ hj => absurd hj (Nat.not_lt_zero _)⟩
  keep _ h := h
  fresh _ h := .inl h
  succs _ _ _ _ := rfl
  later _ _ := rfl
  length := rfl

theorem JoinedSuccessors.finish {n : Nat} (h : JoinedSuccessors F P Q d s n st)
    (hF : WellFormed F) (hred : F.Reducible) (hs : s ∈ F.layout) (hds : F.Dominates d s)
    (hsP : s ∉ P) (hn : (F.succs s).length ≤ n) : JoinedSubgraphs F P Q d s
      { st with processed_bbs := s :: st.processed_bbs } := by
  obtain ⟨log, hrun⟩ := h.run
  have he := hrun.evolves hF hred
  obtain ⟨Q', hcov, hQ, hP, hdone⟩ := h.covered
  refine ⟨⟨log, hrun⟩, ⟨fun x => x = s ∨ Q' x, ⟨?_, ?_, ?_⟩, fun x hx => .inr (hQ x hx), ?_⟩,
    fun x hx => List.mem_cons_of_mem _ (h.keep x hx), List.mem_cons_self, ?_, ?_⟩
  · rintro x (rfl | hx)
    · exact he.layout x hs
    · exact hcov.layout x hx
  · rintro x (rfl | hx)
    · exact he.dominates x hs d hds
    · exact hcov.dominates x hx
  · rintro x (rfl | hx) y hf
    · obtain ⟨j, hj, hjy⟩ := List.mem_iff_getElem.mp hf.1
      have hjn : j < n := Nat.lt_of_lt_of_le (h.length ▸ hj) hn
      exact .inr (hdone j y hjn (by rw [← hjy]; exact List.getElem?_eq_getElem hj) hf)
    · exact .inr (hcov.forward x hx y hf)
  · intro x hx
    exact (List.mem_cons.mp hx).imp_right (hP x)
  · intro x hx
    rcases List.mem_cons.mp hx with rfl | hx
    · exact .inr .refl
    · exact (h.fresh x hx).imp_right TransGen.to_reflTransGen
  · intro x hx hxP
    have hne : x ≠ s := by
      rintro rfl
      exact hxP.elim hsP fun h => h List.mem_cons_self
    exact h.succs x hx hne (hxP.imp_right fun h hm => h (List.mem_cons_of_mem _ hm))

theorem transGen_freshEdge {u v : BlockId} (h : TransGen (FreshEdge F P) u v) :
    TransGen F.ForwardEdge u v := TransGen.mono (fun _ _ h => h.1) _ _ h

/-- The block whose successors are visited is itself not processed. -/
theorem JoinedSuccessors.not_mem {i : Nat} (h : JoinedSuccessors F P Q d s i st)
    (hred : F.Reducible) (hsP : s ∉ P) : s ∉ st.processed_bbs := fun hm =>
  (h.fresh s hm).elim hsP fun hcyc => hred s (transGen_freshEdge hcyc)

/-- Where the recursion goes, the edges are those of the function before the loop. -/
theorem JoinedSuccessors.fresh_of_fresh {i : Nat} (h : JoinedSuccessors F P Q d s i st)
    (hF : WellFormed F) (hred : F.Reducible) {b x : BlockId} (hb : b ∈ F.layout)
    (hsb : st.F.ForwardEdge s b) (hw : ReflTransGen (FreshEdge st.F st.processed_bbs) b x) :
    x ∈ F.layout ∧ ReflTransGen (FreshEdge F P) b x := by
  obtain ⟨log, hrun⟩ := h.run
  have he := hrun.evolves hF hred
  induction hw with
  | refl => exact ⟨hb, .refl⟩
  | @tail u v hw huv ih =>
    obtain ⟨hu, hw'⟩ := ih
    have hus : u ≠ s := by
      rintro rfl
      exact he.reducible u (TransGen.head' hsb (ReflTransGen.mono (fun _ _ h => h.1) _ _ hw))
    have hsucc := h.succs u hu hus (.inr huv.2)
    have hv : v ∈ F.layout := hF.closed u hu v (hsucc ▸ huv.1.1)
    exact ⟨hv, hw'.tail ⟨he.forward u hu v hv huv.1, fun hP => huv.2 (h.keep u hP)⟩⟩

end

section
variable {F : Function} {P : List BlockId} {Q : BlockId → Prop} {d s b : BlockId} {st : State}
  {i n : Nat} {recurse : BlockId → State → Option State}

theorem JoinedSuccessors.skip (h : JoinedSuccessors F P Q d s i st)
    (hb : (st.F.succs s)[i]? = some b)
    (hskip : b ∈ st.processed_bbs ∨ ¬ st.F.ForwardEdge s b) :
    JoinedSuccessors F P Q d s (i + 1) st where
  run := h.run
  covered := by
    obtain ⟨Q', hcov, hQ, hP, hdone⟩ := h.covered
    refine ⟨Q', hcov, hQ, hP, fun j y hj hy hf => ?_⟩
    rcases Nat.lt_succ_iff_lt_or_eq.mp hj with hj | rfl
    · exact hdone j y hj hy hf
    · obtain rfl := Option.some.inj (hb.symm.trans hy)
      exact hskip.elim (hP b) fun hn => absurd hf hn
  keep := h.keep
  fresh := h.fresh
  succs := h.succs
  later j hj := h.later j (Nat.le_of_succ_le hj)
  length := h.length

theorem JoinedSuccessors.call (h : JoinedSuccessors F P Q d s i st) (hF : WellFormed F)
    (hred : F.Reducible) (hsr : F.Reachable s) (hsP : s ∉ P)
    (hb : (st.F.succs s)[i]? = some b) (hbl : b ∈ F.layout) (hf : st.F.ForwardEdge s b)
    (hbP : b ∉ st.processed_bbs) (hdb : st.F.Dominates d b)
    (hshort : Short st.F.Edge st.F.entry n b) (hrec : RecurseSpec recurse d n) :
    ∃ st', recurse b st = some st' ∧ JoinedSuccessors F P Q d s (i + 1) st' := by
  obtain ⟨log, hrun⟩ := h.run
  have he := hrun.evolves hF hred
  have hsl := hF.closed.reachable_mem hsr
  obtain ⟨Q', hcov, hQ, hP, hdone⟩ := h.covered
  obtain ⟨st', hst', hj⟩ := hrec st Q' b he.wellFormed he.reducible ((he.reach s hsr).tail hf.1) hdb
    hshort hbP hcov hP
  obtain ⟨log', hrun'⟩ := hj.run
  have he' := hrun'.evolves he.wellFormed he.reducible
  have hs' : s ∉ st'.processed_bbs := by
    intro hm
    rcases hj.fresh s hm with hm | hw
    · exact h.not_mem hred hsP hm
    · exact he.reducible s (TransGen.head' hf (ReflTransGen.mono (fun _ _ h => h.1) _ _ hw))
  have hsucc : st'.F.succs s = st.F.succs s := hj.succs s (he.layout s hsl) (.inr hs')
  obtain ⟨Q'', hcov', hQ', hP'⟩ := hj.covered
  refine ⟨st', hst', ⟨_, hrun.trans hrun'⟩, ⟨Q'', hcov', fun x hx => hQ' x (hQ x hx), hP',
    fun j y hjn hy hfy => ?_⟩, fun x hx => hj.keep x (h.keep x hx), fun x hx => ?_,
    fun x hx hne hxP => ?_, fun j hj => ?_, ?_⟩
  · rw [hsucc] at hy
    rcases Nat.lt_succ_iff_lt_or_eq.mp hjn with hjn | rfl
    · have hyl := he.wellFormed.closed s (he.layout s hsl) y (List.mem_of_getElem? hy)
      exact hQ' y (hdone j y hjn hy (he'.forward s (he.layout s hsl) y hyl hfy))
    · obtain rfl := Option.some.inj (hb.symm.trans hy)
      exact hP' b hj.entry
  · rcases hj.fresh x hx with hx | hw
    · exact h.fresh x hx
    · have hw := (h.fresh_of_fresh hF hred hbl hf hw).2
      exact .inr (TransGen.head' ⟨he.forward s hsl b hbl hf, hsP⟩ hw)
  · have hx' : x ∈ st.processed_bbs ∨ x ∉ st'.processed_bbs := hxP.imp_left (h.keep x)
    rw [hj.succs x (he.layout x hx) hx']
    exact h.succs x hx hne (hxP.imp_right fun hn hm => hn (hj.keep x hm))
  · rw [hsucc]
    exact h.later j (Nat.le_of_succ_le hj)
  · rw [hsucc]
    exact h.length

theorem JoinedSuccessors.replicate (h : JoinedSuccessors F P Q d s i st) (hF : WellFormed F)
    (hred : F.Reducible) (hj : Joined st.F d s i b) :
    JoinedSuccessors F P Q d s (i + 1)
      { st with F := replicate st.F s i b, changed := true } := by
  obtain ⟨log, hrun⟩ := h.run
  have he := hrun.evolves hF hred
  have hrep := hj.replicates he.wellFormed he.reducible
  have hr := hrep.replicated hj he.wellFormed
  have he' := hj.evolves he.wellFormed he.reducible
  have hbl := hj.mem_start he.wellFormed
  obtain ⟨Q', hcov, hQ, hP, hdone⟩ := h.covered
  have hent := hrep.entry
  refine ⟨⟨_, hrun.step hj⟩, ⟨fun x => Q' x ∨ ∃ u, Graph.Part st.F.Edge st.F.entry b u ∧
    x = st.F.cloneBlock u, ⟨?_, ?_, ?_⟩, fun x hx => .inl (hQ x hx), fun x hx => .inl (hP x hx),
    fun j y hjn hy hf => ?_⟩, h.keep, h.fresh, fun x hx hne hxP => ?_, fun j hjn => ?_, ?_⟩
  · rintro x (hx | ⟨u, hu, rfl⟩)
    · exact he'.layout x (hcov.layout x hx)
    · exact hrep.mem_layout.mpr (.inr ⟨u, (mem_findSubgraph he.wellFormed hbl).mpr hu, rfl⟩)
  · rintro x (hx | ⟨u, hu, rfl⟩)
    · exact he'.dominates x (hcov.layout x hx) d (hcov.dominates x hx)
    · rw [Function.Dominates, hent]
      exact hr.dominates_copy hu hj.dom
  · rintro x (hx | ⟨u, hu, rfl⟩) y hf
    · rw [Function.ForwardEdge, hent] at hf
      rcases hr.forward_old (hcov.layout x hx) hf with ⟨-, hf⟩ | ⟨-, rfl⟩
      · exact .inl (hcov.forward x hx y hf)
      · exact .inr ⟨b, .refl, rfl⟩
    · rw [Function.ForwardEdge, hent] at hf
      obtain ⟨v, hv, rfl, -⟩ := hr.forward_copy he.reducible hu hf
      exact .inr ⟨v, hv, rfl⟩
  · rw [Function.ForwardEdge, hent] at hf
    rcases hr.forward_old (hj.mem_source he.wellFormed) hf with ⟨hyl, hf⟩ | ⟨-, rfl⟩
    · simp only [hrep.succs_source, List.getElem?_set] at hy
      rcases Nat.lt_succ_iff_lt_or_eq.mp hjn with hjn | rfl
      · rw [if_neg (by omega)] at hy
        exact .inl (hdone j y hjn hy hf)
      · simp only [if_true] at hy
        split at hy
        · cases hy
          exact absurd hyl cloneBlock_not_mem
        · cases hy
    · exact .inr ⟨b, .refl, rfl⟩
  · refine (hrep.succs (he.layout x hx) hne).trans (h.succs x hx hne hxP)
  · simp only [hrep.succs_source, List.getElem?_set]
    rw [if_neg (by omega)]
    exact h.later j (Nat.le_of_succ_le hjn)
  · rw [hrep.succs_source, List.length_set]
    exact h.length

theorem joinedSuccessor_spec (h : JoinedSuccessors F P Q d s i st) (hF : WellFormed F)
    (hred : F.Reducible) (hsr : F.Reachable s) (hds : F.Dominates d s) (hsP : s ∉ P)
    (hshort : Short F.Edge F.entry n s) (hi : i < (F.succs s).length)
    (hrec : ∀ k, n = k + 1 → RecurseSpec recurse d k) :
    ∃ st', joinedSuccessor recurse d s st i = some st' ∧
      JoinedSuccessors F P Q d s (i + 1) st' := by
  obtain ⟨log, hrun⟩ := h.run
  have he := hrun.evolves hF hred
  have hsl := hF.closed.reachable_mem hsr
  have hclosed := he.wellFormed.closed
  obtain ⟨b, hb⟩ : ∃ b, (st.F.succs s)[i]? = some b :=
    ⟨_, List.getElem?_eq_getElem (h.length ▸ hi)⟩
  have hbl : b ∈ F.layout := by
    rw [h.later i le_rfl] at hb
    exact hF.closed s hsl b (List.mem_of_getElem? hb)
  have hedge : st.F.Edge s b := List.mem_of_getElem? hb
  simp only [joinedSuccessor, hb]
  by_cases hbP : b ∈ st.processed_bbs
  · exact ⟨st, if_pos hbP, h.skip hb (.inl hbP)⟩
  rw [if_neg hbP]
  by_cases hback : st.F.dominates b s = true
  · exact ⟨st, if_pos hback, h.skip hb
      (.inr fun hf => hf.2 ((Function.dominates_iff hclosed).mp hback))⟩
  rw [if_neg hback]
  have hf : st.F.ForwardEdge s b :=
    ⟨hedge, fun hd => hback ((Function.dominates_iff hclosed).mpr hd)⟩
  by_cases hdb : st.F.dominates d b = true
  · rw [if_pos hdb]
    obtain ⟨k, rfl, hk⟩ := (he.short s hsl n hshort).next hf
    exact h.call hF hred hsr hsP hb hbl hf hbP ((Function.dominates_iff hclosed).mp hdb) hk
      (hrec k rfl)
  · rw [if_neg hdb]
    exact ⟨_, rfl, h.replicate hF hred ⟨he.reach s hsr, hb, hf, he.dominates s hsl d hds,
      fun hd => hdb ((Function.dominates_iff hclosed).mpr hd)⟩⟩

end

theorem replicateJoinedSubgraphs_step {d : BlockId} {n : Nat}
    (hrec : ∀ k, n = k + 1 → RecurseSpec (replicateJoinedSubgraphs d n) d k) :
    RecurseSpec (replicateJoinedSubgraphs d (n + 1)) d n := by
  intro st Q b hF hred hr hdom hshort hbP hcov hP
  have hbl := hF.closed.reachable_mem hr
  obtain ⟨st', hst', hloop⟩ := foldlM_range
    (f := joinedSuccessor (replicateJoinedSubgraphs d n) d b)
    (I := JoinedSuccessors st.F st.processed_bbs Q d b) (n := (st.F.succs b).length)
    (fun i hi st' h => joinedSuccessor_spec h hF hred hr hdom hbP hshort hi hrec)
    (JoinedSuccessors.start hcov hP)
  rw [replicateJoinedSubgraphs, if_pos ((Function.dominates_iff hF.closed).mpr hdom), hst']
  exact ⟨_, rfl, hloop.finish hF hred hbl hdom hbP le_rfl⟩

/-- The call returns with more fuel than the longest forward walk, and its assertion holds. -/
theorem replicateJoinedSubgraphs_spec (d : BlockId) (n : Nat) :
    RecurseSpec (replicateJoinedSubgraphs d (n + 1)) d n := by
  induction n with
  | zero => exact replicateJoinedSubgraphs_step nofun
  | succ n ih => exact replicateJoinedSubgraphs_step fun k hk => by cases hk; exact ih

end VariOCL.IR.BarrierTailReplication
