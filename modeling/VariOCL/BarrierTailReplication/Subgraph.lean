import VariOCL.BarrierTailReplication.Basic
import VariOCL.Graph.Replicate

/-! What `ReplicateSubgraph` makes of the function. -/

namespace VariOCL.IR.BarrierTailReplication

open Relation (ReflTransGen)

/-- What the verifier asks of a function, as far as the replication depends on it. -/
structure WellFormed (F : Function) : Prop where
  nodup : F.layout.Nodup
  closed : F.Closed
  ids : F.instIds.Nodup
  operands : ∀ b ∈ F.layout, ∀ I ∈ (F.block b).insts, ∀ x, Value.inst x ∈ I.op.operands →
    x ∈ F.instIds
  termOperands : ∀ b ∈ F.layout, ∀ x, Value.inst x ∈ (F.block b).term.operands → x ∈ F.instIds
  incoming : ∀ b ∈ F.layout, ∀ I ∈ (F.block b).insts, ∀ p ∈ I.op.incomingBlocks, p ∈ F.layout
  /-- What comes in from `p` is defined on every path to the end of `p`. -/
  phiDefs : ∀ b ∈ F.layout, ∀ I ∈ (F.block b).insts, ∀ incoming, I.op = .phi incoming →
    ∀ x p, (Value.inst x, p) ∈ incoming → ∀ d ∈ F.layout, x ∈ (F.block d).instIds →
      F.Dominates d p

section
variable {F : Function} {e b d x : BlockId}

theorem mem_findSubgraph (hF : WellFormed F) (he : e ∈ F.layout) :
    b ∈ findSubgraph F e ↔ Graph.Part F.Edge F.entry e b := by
  rw [findSubgraph, Graph.mem_reachFrom (fun x hx y hy => hF.closed x hx y (List.mem_filter.mp hy).1)
    he, Graph.Reach, Graph.Part]
  have : (fun x y => y ∈ (F.succs x).filter fun s => !F.dominates s x) =
      Graph.ForwardEdge F.Edge F.entry := by
    funext x y
    simp only [List.mem_filter, Graph.ForwardEdge, Function.Edge, eq_iff_iff, Bool.not_eq_true',
      ← Bool.not_eq_true, Function.dominates_iff hF.closed]
    rfl
  rw [this]

theorem nodup_findSubgraph (hF : WellFormed F) (he : e ∈ F.layout) :
    (findSubgraph F e).Nodup :=
  (Graph.reachFrom_spec (fun x hx y hy => hF.closed x hx y (List.mem_filter.mp hy).1) he).nodup

theorem part_mem_layout (hF : WellFormed F) (he : e ∈ F.layout)
    (h : Graph.Part F.Edge F.entry e b) : b ∈ F.layout := by
  induction h with
  | refl => exact he
  | tail _ hf ih => exact hF.closed _ ih _ hf.1

theorem findSubgraph_subset (hF : WellFormed F) (he : e ∈ F.layout) :
    ∀ b ∈ findSubgraph F e, b ∈ F.layout := fun _ hb =>
  part_mem_layout hF he ((mem_findSubgraph hF he).mp hb)

/-- A block of the subgraph is found before the blocks of it that it dominates. -/
theorem found_before (hF : WellFormed F) (hred : F.Reducible) (he : F.Reachable e)
    {pre suf : List BlockId} (hsplit : findSubgraph F e = pre ++ b :: suf)
    (hd : d ∈ findSubgraph F e) (hdom : F.Dominates d b) : d ∈ pre ++ [b] := by
  have hel := hF.closed.reachable_mem he
  by_contra hn
  have htree : Graph.SearchTree (fun b => (F.succs b).filter fun s => !F.dominates s b) e
      (findSubgraph F e) := Graph.reachFrom_searchTree
    (fun x hx y hy => hF.closed x hx y (List.mem_filter.mp hy).1) hel
  obtain ⟨hroot, hpath⟩ := htree.path hsplit
  have hne : e ≠ d := fun h => hn (h ▸ hroot)
  have hav : Graph.Avoiding F.Edge d e b := by
    refine ⟨hne, ReflTransGen.mono (fun x y h => ⟨(List.mem_filter.mp h.1).1, ?_⟩) _ _ hpath⟩
    rintro rfl
    exact hn h.2.2
  have hde : F.Dominates d e := by
    by_contra hde
    exact Graph.dominates_iff.mp hdom ((Graph.not_dominates.mp hde).trans hav)
  exact hne (hred.eq_of_dominates he ((mem_findSubgraph hF hel).mp hd) hde).symm

end

/-! ### Fresh addresses -/

section
variable {F : Function} {b x y : BlockId} {i j : InstId}

theorem cloneBlock_not_mem : F.cloneBlock b ∉ F.layout := fun h =>
  Nat.not_lt.mpr (Nat.le_add_right F.freshBlock b) (F.lt_freshBlock h)

theorem cloneBlock_ne (hx : x ∈ F.layout) : F.cloneBlock b ≠ x :=
  fun h => cloneBlock_not_mem (h ▸ hx)

theorem cloneBlock_inj (h : F.cloneBlock x = F.cloneBlock y) : x = y := Nat.add_left_cancel h

theorem cloneInst_not_mem : F.cloneInst i ∉ F.instIds := fun h =>
  Nat.not_lt.mpr (Nat.le_add_right F.freshInst i) (F.lt_freshInst h)

theorem cloneInst_inj (h : F.cloneInst i = F.cloneInst j) : i = j := Nat.add_left_cancel h

end

/-- `x` is defined in one of the blocks. -/
def DefinedIn (F : Function) (graph : List BlockId) (x : InstId) : Prop :=
  ∃ b ∈ graph, x ∈ (F.block b).instIds

instance (F : Function) (graph : List BlockId) (x : InstId) : Decidable (DefinedIn F graph x) :=
  inferInstanceAs (Decidable (∃ b ∈ graph, x ∈ (F.block b).instIds))

/-- The copy's own copy of a value defined in the subgraph. -/
def ownCopy (F : Function) (graph : List BlockId) : Value → Value
  | .inst x => if DefinedIn F graph x then .inst (F.cloneInst x) else .inst x
  | v => v

def ownBlock (F : Function) (graph : List BlockId) (b : BlockId) : BlockId :=
  if b ∈ graph then F.cloneBlock b else b

/-- A PHI of an old block may have got the values that come in from the copies of its
predecessors. -/
inductive Extends (F : Function) (graph : List BlockId) : Instruction → Instruction → Prop
  | phi (id : InstId) (ty : Ty) {incoming extra : List (Value × BlockId)} :
      (∀ q ∈ extra, ∃ p ∈ graph, q = (ownCopy F graph (getIncomingValueForBlock incoming p),
        F.cloneBlock p)) →
      Extends F graph ⟨id, ty, .phi incoming⟩ ⟨id, ty, .phi (incoming ++ extra)⟩
  | other {I : Instruction} : I.op.isPhi = false → Extends F graph I I

section
variable {F : Function} {graph : List BlockId} {I J : Instruction}

theorem Extends.refl (I : Instruction) : Extends F graph I I := by
  cases hp : I.op with
  | phi incoming =>
    cases I with
    | mk id ty op =>
      cases hp
      have : Extends F graph ⟨id, ty, .phi incoming⟩ ⟨id, ty, .phi (incoming ++ [])⟩ :=
        .phi id ty nofun
      simpa using this
  | _ => exact .other (by rw [hp]; rfl)

theorem Extends.id_eq (h : Extends F graph I J) : J.id = I.id := by cases h <;> rfl

theorem Extends.ty_eq (h : Extends F graph I J) : J.ty = I.ty := by cases h <;> rfl

theorem Extends.isPhi_eq (h : Extends F graph I J) : J.op.isPhi = I.op.isPhi := by
  cases h <;> rfl

theorem Extends.op_eq (h : Extends F graph I J) (hI : I.op.isPhi = false) : J.op = I.op := by
  cases h with
  | phi => cases hI
  | other => rfl

theorem Extends.isBarrier_eq (h : Extends F graph I J) : J.isBarrier = I.isBarrier := by
  cases h <;> rfl

end

/-- The function with the blocks of `graph` copied, before the edge into it is redirected. -/
structure Copied (F : Function) (graph : List BlockId) (G : Function) : Prop where
  layout : G.layout = F.layout ++ graph.map F.cloneBlock
  entry : G.entry = F.entry
  term : ∀ b ∈ F.layout, (G.block b).term = (F.block b).term
  termId : ∀ b ∈ F.layout, (G.block b).termId = (F.block b).termId
  insts : ∀ b ∈ F.layout, List.Forall₂ (Extends F graph) (F.block b).insts (G.block b).insts
  same : ∀ b ∈ graph, G.block b = F.block b
  copies : ∀ b ∈ graph, G.block (F.cloneBlock b) =
    ⟨(F.block b).insts.map fun I =>
        ⟨F.cloneInst I.id, I.ty, (I.op.mapValues (ownCopy F graph)).mapBlocks (ownBlock F graph)⟩,
      F.cloneInst (F.block b).termId,
      ((F.block b).term.mapValues (ownCopy F graph)).mapBlocks (ownBlock F graph)⟩

/-! ### The loop over the blocks of the subgraph -/

/-- The reference map with the blocks of `pre` copied. -/
structure Mapped (F : Function) (graph pre : List BlockId) (m : ReferenceMap) : Prop where
  blocks : ∀ b, m.blocks b = if b ∈ pre then some (F.cloneBlock b) else none
  mapped : ∀ x, DefinedIn F pre x → m.values x = some (some (F.cloneInst x))
  unmapped : ∀ x, ¬ DefinedIn F pre x → (m.values x).getD none = none
  /-- No null entry stands where a later block is to put its own. -/
  free : ∀ x, DefinedIn F graph x → ¬ DefinedIn F pre x → m.values x = none

/-- The function before the references are updated, with the blocks of `pre` copied. -/
structure Copying (F : Function) (graph pre : List BlockId) (G : Function) : Prop where
  layout : G.layout = F.layout ++ pre.map F.cloneBlock
  entry : G.entry = F.entry
  term : ∀ b ∈ F.layout, (G.block b).term = (F.block b).term
  termId : ∀ b ∈ F.layout, (G.block b).termId = (F.block b).termId
  insts : ∀ b ∈ F.layout, List.Forall₂ (Extends F graph) (F.block b).insts (G.block b).insts
  same : ∀ b ∈ graph, G.block b = F.block b
  copies : ∀ b ∈ pre, G.block (F.cloneBlock b) = cloneInsts F (F.block b)

theorem forall₂_refl {α : Type*} {R : α → α → Prop} (h : ∀ x, R x x) (l : List α) :
    List.Forall₂ R l l := by
  induction l with
  | nil => exact .nil
  | cons x l ih => exact .cons (h x) ih

theorem mapped_nil (F : Function) (graph : List BlockId) : Mapped F graph [] .empty where
  blocks _ := rfl
  mapped _ h := by obtain ⟨_, h, _⟩ := h; cases h
  unmapped _ _ := rfl
  free _ _ _ := rfl

theorem copying_nil (F : Function) (graph : List BlockId) : Copying F graph [] F where
  layout := by simp
  entry := rfl
  term _ _ := rfl
  termId _ _ := rfl
  insts _ _ := forall₂_refl Extends.refl _
  same _ _ := rfl
  copies _ h := by cases h

theorem values_insertAll (F : Function) (ids : List InstId) (m : ReferenceMap) (x : InstId) :
    (ids.foldl (fun m i => m.insertValue i (some (F.cloneInst i))) m).values x =
      if x ∈ ids then (m.values x).or (some (some (F.cloneInst x))) else m.values x := by
  induction ids generalizing m with
  | nil => rfl
  | cons i ids ih =>
    rw [List.foldl_cons, ih]
    simp only [ReferenceMap.insertValue, List.mem_cons]
    by_cases hx : x = i
    · subst hx
      cases m.values x <;> simp
    · simp [hx]

theorem blocks_insertAll (F : Function) (ids : List InstId) (m : ReferenceMap) :
    (ids.foldl (fun m i => m.insertValue i (some (F.cloneInst i))) m).blocks = m.blocks := by
  induction ids generalizing m with
  | nil => rfl
  | cons i ids ih => rw [List.foldl_cons, ih]; rfl

@[simp] theorem layout_appendBlock (F : Function) (b : BlockId) (BB : BasicBlock) :
    (appendBlock F b BB).layout = F.layout ++ [b] := rfl

section
variable {F G : Function} {graph pre : List BlockId} {b : BlockId} {m : ReferenceMap}

theorem definedIn_append {x : InstId} :
    DefinedIn F (pre ++ [b]) x ↔ DefinedIn F pre x ∨ x ∈ (F.block b).instIds := by
  simp [DefinedIn, or_and_right, exists_or]

theorem DefinedIn.mono {pre' : List BlockId} {x : InstId} (h : DefinedIn F pre x)
    (hsub : pre ⊆ pre') : DefinedIn F pre' x := by
  obtain ⟨b, hb, hx⟩ := h
  exact ⟨b, hsub hb, hx⟩

theorem Mapped.create (h : Mapped F graph pre m) (hF : WellFormed F)
    (hgraph : ∀ x ∈ graph, x ∈ F.layout) (hpre : ∀ x ∈ pre, x ∈ graph) (hb : b ∈ graph)
    (hbp : b ∉ pre) : Mapped F graph (pre ++ [b])
      ((F.block b).instIds.foldl (fun m i => m.insertValue i (some (F.cloneInst i)))
        (m.insertBlock b (F.cloneBlock b))) := by
  have hnew : ∀ x ∈ (F.block b).instIds, ¬ DefinedIn F pre x := by
    rintro x hx ⟨p, hp, hxp⟩
    exact hbp (Function.eq_of_mem_instIds hF.ids (hgraph _ hb) (hgraph _ (hpre _ hp)) hx hxp ▸ hp)
  exact {
    blocks := fun x => by
      rw [blocks_insertAll]
      simp only [ReferenceMap.insertBlock, h.blocks, List.mem_append, List.mem_singleton]
      by_cases hxb : x = b
      · subst hxb
        simp [hbp]
      · simp [hxb]
    mapped := fun x hx => by
      rw [values_insertAll]
      rcases definedIn_append.mp hx with hx | hx
      · simp [ReferenceMap.insertBlock, h.mapped x hx]
      · simp [ReferenceMap.insertBlock, hx, h.free x ⟨b, hb, hx⟩ (hnew x hx)]
    unmapped := fun x hx => by
      obtain ⟨hxp, hxb⟩ := not_or.mp (mt definedIn_append.mpr hx)
      rw [values_insertAll, if_neg hxb]
      exact h.unmapped x hxp
    free := fun x hx hxp => by
      obtain ⟨hxp, hxb⟩ := not_or.mp (mt definedIn_append.mpr hxp)
      rw [values_insertAll, if_neg hxb]
      exact h.free x hx hxp }

theorem Copying.create (h : Copying F graph pre G) (hgraph : ∀ x ∈ graph, x ∈ F.layout) :
    Copying F graph (pre ++ [b])
      (appendBlock G (F.cloneBlock b) (cloneInsts F (F.block b))) := by
  have hold : ∀ x ∈ F.layout, ∀ BB, (appendBlock G (F.cloneBlock b) BB).block x = G.block x :=
    fun x hx BB => if_neg (Ne.symm (cloneBlock_ne hx))
  exact {
    layout := by
      rw [layout_appendBlock, h.layout, List.map_append, List.append_assoc]
      rfl
    entry := h.entry
    term := fun x hx => by rw [hold x hx]; exact h.term x hx
    termId := fun x hx => by rw [hold x hx]; exact h.termId x hx
    insts := fun x hx => by rw [hold x hx]; exact h.insts x hx
    same := fun x hx => by rw [hold x (hgraph x hx)]; exact h.same x hx
    copies := fun x hx => by
      by_cases hxb : x = b
      · subst hxb
        exact if_pos rfl
      · have hne : F.cloneBlock x ≠ F.cloneBlock b := fun he => hxb (cloneBlock_inj he)
        refine (if_neg hne).trans ?_
        exact h.copies x (by simpa [hxb] using hx) }

/-! ### The PHIs of the successors outside the subgraph -/

theorem Mapped.index (h : Mapped F graph pre m) (hpre : pre ⊆ graph) {v : Value}
    (hv : ∀ x, v = .inst x → DefinedIn F graph x → DefinedIn F pre x) :
    Mapped F graph pre (m.index v).1 ∧ (m.index v).2.getD v = ownCopy F graph v := by
  cases v with
  | inst x =>
    have hv := hv x rfl
    refine ⟨⟨h.blocks, fun y hy => ?_, fun y hy => ?_, fun y hy hyp => ?_⟩, ?_⟩
    · simp only [ReferenceMap.index, ReferenceMap.insertValue]
      split
      · rename_i hyx
        rw [← hyx, h.mapped y hy]
        rfl
      · exact h.mapped y hy
    · simp only [ReferenceMap.index, ReferenceMap.insertValue]
      split
      · rename_i hyx
        have := h.unmapped y hy
        rw [← hyx]
        cases hm : m.values y with
        | none => rfl
        | some w => simpa [hm] using this
      · exact h.unmapped y hy
    · have hyx : y ≠ x := fun he => hyp (he ▸ hv (he ▸ hy))
      simp only [ReferenceMap.index, ReferenceMap.insertValue, if_neg hyx]
      exact h.free y hy hyp
    · by_cases hx : DefinedIn F pre x
      · simp [ReferenceMap.index, ownCopy, h.mapped x hx, hx.mono hpre]
      · have hxg : ¬ DefinedIn F graph x := fun hg => hx (hv hg)
        simp [ReferenceMap.index, ownCopy, h.unmapped x hx, hxg]
  | _ => exact ⟨h, rfl⟩

theorem getIncomingValueForBlock_append {incoming extra : List (Value × BlockId)}
    (h : ∀ q ∈ extra, q.2 ≠ b) :
    getIncomingValueForBlock (incoming ++ extra) b = getIncomingValueForBlock incoming b := by
  have hnone : extra.find? (fun p => decide (p.2 = b)) = none :=
    List.find?_eq_none.mpr fun q hq => by simpa using h q hq
  simp [getIncomingValueForBlock, List.find?_append, hnone]

theorem getIncomingValueForBlock_inst {incoming : List (Value × BlockId)} {x : InstId}
    (h : getIncomingValueForBlock incoming b = .inst x) : (Value.inst x, b) ∈ incoming := by
  unfold getIncomingValueForBlock at h
  cases hf : incoming.find? fun p => decide (p.2 = b) with
  | none => simp [hf] at h
  | some p =>
    have hb := List.find?_some hf
    simp only [hf, Option.map_some, Option.getD_some] at h
    simp only [decide_eq_true_eq] at hb
    rw [← h, ← hb]
    exact List.mem_of_find?_eq_some hf

theorem extends_addIncoming (hb : b ∈ graph) (hbl : b ∈ F.layout) (hpre : pre ⊆ graph)
    {Is Js : List Instruction} (hext : List.Forall₂ (Extends F graph) Is Js)
    (hssa : ∀ I ∈ Is, ∀ incoming, I.op = .phi incoming → ∀ x, (Value.inst x, b) ∈ incoming →
      DefinedIn F graph x → DefinedIn F pre x) :
    ∀ {m}, Mapped F graph pre m → Mapped F graph pre (addIncoming b (F.cloneBlock b) m Js).1 ∧
      List.Forall₂ (Extends F graph) Is (addIncoming b (F.cloneBlock b) m Js).2 := by
  induction hext with
  | nil => exact fun h => ⟨h, .nil⟩
  | @cons I J Is Js hIJ hext ih =>
    intro m hm
    cases hIJ with
    | @phi id ty incoming extra hextra =>
      have hv : getIncomingValueForBlock (incoming ++ extra) b =
          getIncomingValueForBlock incoming b := by
        refine getIncomingValueForBlock_append fun q hq => ?_
        obtain ⟨p, -, rfl⟩ := hextra q hq
        exact cloneBlock_ne hbl
      obtain ⟨hm', hval⟩ := hm.index hpre (v := getIncomingValueForBlock incoming b) fun x hx =>
        hssa _ List.mem_cons_self incoming rfl x (getIncomingValueForBlock_inst hx)
      obtain ⟨hm'', hrest⟩ := ih (fun I hI => hssa I (List.mem_cons_of_mem _ hI)) hm'
      simp only [addIncoming, hv, hval, List.append_assoc]
      refine ⟨hm'', .cons (.phi id ty fun q hq => ?_) hrest⟩
      rcases List.mem_append.mp hq with hq | hq
      · exact hextra q hq
      · exact ⟨b, hb, List.mem_singleton.mp hq⟩
    | other hphi =>
      have : addIncoming b (F.cloneBlock b) m (I :: Js) = (m, I :: Js) := by
        cases I with
        | mk id ty op => cases op <;> first | rfl | cases hphi
      rw [this]
      exact ⟨hm, .cons (.other hphi) hext⟩

theorem Copying.addIncoming (h : Copying F graph pre G) (hm : Mapped F graph pre m)
    (hb : b ∈ graph) (hbl : b ∈ F.layout) (hpre : pre ⊆ graph) {s : BlockId} (hs : s ∈ F.layout)
    (hsg : s ∉ graph)
    (hssa : ∀ I ∈ (F.block s).insts, ∀ incoming, I.op = .phi incoming → ∀ x,
      (Value.inst x, b) ∈ incoming → DefinedIn F graph x → DefinedIn F pre x) :
    Copying F graph pre (addIncomingTo b (F.cloneBlock b) (G, m) s).1 ∧
      Mapped F graph pre (addIncomingTo b (F.cloneBlock b) (G, m) s).2 := by
  obtain ⟨hm', hext⟩ := extends_addIncoming hb hbl hpre (h.insts s hs) hssa hm
  have hne : ∀ x, x ≠ s → (addIncomingTo b (F.cloneBlock b) (G, m) s).1.block x = G.block x :=
    fun x hx => if_neg hx
  refine ⟨⟨h.layout, h.entry, fun x hx => ?_, fun x hx => ?_, fun x hx => ?_, fun x hx => ?_,
    fun x hx => ?_⟩, hm'⟩
  · by_cases hxs : x = s
    · subst hxs
      rw [addIncomingTo, Function.block_updateBlock]
      exact h.term x hx
    · rw [hne x hxs]
      exact h.term x hx
  · by_cases hxs : x = s
    · subst hxs
      rw [addIncomingTo, Function.block_updateBlock]
      exact h.termId x hx
    · rw [hne x hxs]
      exact h.termId x hx
  · by_cases hxs : x = s
    · subst hxs
      rw [addIncomingTo, Function.block_updateBlock]
      exact hext
    · rw [hne x hxs]
      exact h.insts x hx
  · rw [hne x fun he => hsg (he ▸ hx)]
    exact h.same x hx
  · rw [hne _ (cloneBlock_ne hs)]
    exact h.copies x hx

/-- The values that leave the subgraph at the end of `b` are defined in the blocks copied so far. -/
def CopiedInTime (F : Function) (graph pre : List BlockId) (b : BlockId) : Prop :=
  ∀ s ∈ F.succs b, s ∉ graph → ∀ I ∈ (F.block s).insts, ∀ incoming, I.op = .phi incoming →
    ∀ x, (Value.inst x, b) ∈ incoming → DefinedIn F graph x → DefinedIn F pre x

theorem Copying.addIncomings (hb : b ∈ graph) (hbl : b ∈ F.layout) (hpre : pre ⊆ graph)
    (hssa : CopiedInTime F graph pre b) {ss : List BlockId}
    (hss : ∀ s ∈ ss, s ∈ F.succs b ∧ s ∈ F.layout ∧ s ∉ graph) :
    ∀ {st : Function × ReferenceMap}, Copying F graph pre st.1 → Mapped F graph pre st.2 →
      Copying F graph pre (ss.foldl (addIncomingTo b (F.cloneBlock b)) st).1 ∧
        Mapped F graph pre (ss.foldl (addIncomingTo b (F.cloneBlock b)) st).2 := by
  induction ss with
  | nil => exact fun h hm => ⟨h, hm⟩
  | cons s ss ih =>
    intro st h hm
    obtain ⟨hs, hsl, hsg⟩ := hss s List.mem_cons_self
    obtain ⟨h', hm'⟩ := h.addIncoming hm hb hbl hpre hsl hsg (hssa s hs hsg)
    exact ih (fun s hs => hss s (List.mem_cons_of_mem _ hs)) h' hm'

theorem Copying.replicateBasicBlock {st : Function × ReferenceMap} (h : Copying F graph pre st.1)
    (hm : Mapped F graph pre st.2) (hF : WellFormed F) (hgraph : ∀ x ∈ graph, x ∈ F.layout)
    (hpre : ∀ x ∈ pre, x ∈ graph) (hb : b ∈ graph) (hbp : b ∉ pre)
    (hssa : CopiedInTime F graph (pre ++ [b]) b) :
    Copying F graph (pre ++ [b]) (replicateBasicBlock F graph st b).1 ∧
      Mapped F graph (pre ++ [b]) (replicateBasicBlock F graph st b).2 := by
  have hbl := hgraph b hb
  have hpre' : pre ++ [b] ⊆ graph := fun x hx => by
    rcases List.mem_append.mp hx with hx | hx
    · exact hpre x hx
    · exact List.mem_singleton.mp hx ▸ hb
  unfold BarrierTailReplication.replicateBasicBlock
  rw [h.same b hb]
  refine Copying.addIncomings hb hbl hpre' hssa (fun s hs => ?_) (h.create hgraph)
    (hm.create hF hgraph hpre hb hbp)
  obtain ⟨hs, hsg⟩ := List.mem_filter.mp hs
  exact ⟨hs, hF.closed b hbl s hs, by simpa using hsg⟩

theorem Copying.replicateBasicBlocks (hF : WellFormed F) (hgraph : ∀ x ∈ graph, x ∈ F.layout)
    (hn : graph.Nodup) (hssa : ∀ pre b suf, graph = pre ++ b :: suf →
      CopiedInTime F graph (pre ++ [b]) b) :
    Copying F graph graph (replicateBasicBlocks F graph).1 ∧
      Mapped F graph graph (replicateBasicBlocks F graph).2 := by
  have key : ∀ suf pre st, graph = pre ++ suf → Copying F graph pre st.1 →
      Mapped F graph pre st.2 →
      Copying F graph graph (suf.foldl (BarrierTailReplication.replicateBasicBlock F graph) st).1 ∧
        Mapped F graph graph
          (suf.foldl (BarrierTailReplication.replicateBasicBlock F graph) st).2 := by
    intro suf
    induction suf with
    | nil =>
      intro pre st hsplit h hm
      rw [List.append_nil] at hsplit
      subst hsplit
      exact ⟨h, hm⟩
    | cons b suf ih =>
      intro pre st hsplit h hm
      have hbp : b ∉ pre := fun hp =>
        (List.nodup_append.mp (hsplit ▸ hn)).2.2 b hp b List.mem_cons_self rfl
      obtain ⟨h', hm'⟩ := h.replicateBasicBlock hm hF hgraph
        (fun x hx => by rw [hsplit]; exact List.mem_append_left _ hx)
        (by rw [hsplit]; simp) hbp (hssa pre b suf hsplit)
      exact ih (pre ++ [b]) _ (by simp [hsplit]) h' hm'
  exact key graph [] _ rfl (copying_nil F graph) (mapped_nil F graph)

theorem CopiedInTime.of_wellFormed (hF : WellFormed F) (hred : F.Reducible) {e : BlockId}
    (he : F.Reachable e) {suf : List BlockId} (hsplit : findSubgraph F e = pre ++ b :: suf) :
    CopiedInTime F (findSubgraph F e) (pre ++ [b]) b := by
  have hel := hF.closed.reachable_mem he
  have hgraph := findSubgraph_subset hF hel
  have hbl : b ∈ F.layout := hgraph b (by simp [hsplit])
  rintro s hs - I hI incoming hop x hx ⟨d, hd, hxd⟩
  have hsl := hF.closed b hbl s hs
  have hdom := hF.phiDefs s hsl I hI incoming hop x b hx d (hgraph d hd) hxd
  exact ⟨d, found_before hF hred he hsplit hd hdom, hxd⟩

theorem Mapped.mapValue (hm : Mapped F graph graph m) : m.mapValue = ownCopy F graph := by
  funext v
  cases v with
  | inst x =>
    by_cases hx : DefinedIn F graph x
    · simp [ReferenceMap.mapValue, ownCopy, hm.mapped x hx, hx]
    · simp [ReferenceMap.mapValue, ownCopy, hm.unmapped x hx, hx]
  | _ => rfl

theorem Mapped.mapBlock (hm : Mapped F graph graph m) : m.mapBlock = ownBlock F graph := by
  funext x
  simp only [ReferenceMap.mapBlock, hm.blocks, ownBlock]
  split <;> rfl

theorem block_updateReferences (m : ReferenceMap) (x : BlockId) : ∀ {bs : List BlockId},
    bs.Nodup → ∀ G : Function, (updateReferences G bs m).block x =
      if x ∈ bs then remapBlock m (G.block x) else G.block x := by
  intro bs
  induction bs with
  | nil => exact fun _ _ => rfl
  | cons b bs ih =>
    intro hn G
    obtain ⟨hb, hn⟩ := List.nodup_cons.mp hn
    have := ih hn (G.updateBlock b (remapBlock m))
    rw [updateReferences] at this
    rw [updateReferences, List.foldl_cons, this]
    by_cases hxb : x = b
    · subst hxb
      simp [hb]
    · simp [hxb, G.block_updateBlock_ne _ hxb]

theorem layout_updateReferences (m : ReferenceMap) (bs : List BlockId) (G : Function) :
    (updateReferences G bs m).layout = G.layout ∧ (updateReferences G bs m).entry = G.entry := by
  induction bs generalizing G with
  | nil => exact ⟨rfl, rfl⟩
  | cons b bs ih => exact ih (G.updateBlock b (remapBlock m))

/-- `ReplicateSubgraph` copies the subgraph, every copy with its own copies of the values. -/
theorem copied_replicateSubgraph (hF : WellFormed F) (hred : F.Reducible) {e : BlockId}
    (he : F.Reachable e) : Copied F (findSubgraph F e) (replicateSubgraph F e).1 ∧
      (replicateSubgraph F e).2 = F.cloneBlock e := by
  have hel := hF.closed.reachable_mem he
  have hgraph := findSubgraph_subset hF hel
  have hn := nodup_findSubgraph hF hel
  obtain ⟨h, hm⟩ := Copying.replicateBasicBlocks hF hgraph hn fun pre b suf hsplit =>
    CopiedInTime.of_wellFormed hF hred he hsplit
  have heg : e ∈ findSubgraph F e := (mem_findSubgraph hF hel).mpr .refl
  have hnc : ((findSubgraph F e).map F.cloneBlock).Nodup :=
    hn.map fun _ _ hxy => cloneBlock_inj hxy
  have hblock := block_updateReferences (replicateBasicBlocks F (findSubgraph F e)).2
  obtain ⟨hlay, hent⟩ := layout_updateReferences (replicateBasicBlocks F (findSubgraph F e)).2
    ((findSubgraph F e).map F.cloneBlock) (replicateBasicBlocks F (findSubgraph F e)).1
  have hold : ∀ b ∈ F.layout, (replicateSubgraph F e).1.block b =
      (replicateBasicBlocks F (findSubgraph F e)).1.block b := by
    intro b hb
    refine (hblock b hnc _).trans (if_neg fun hmem => ?_)
    obtain ⟨x, -, hx⟩ := List.mem_map.mp hmem
    exact cloneBlock_ne hb hx
  refine ⟨⟨hlay.trans h.layout, hent.trans h.entry, fun b hb => ?_, fun b hb => ?_,
    fun b hb => ?_, fun b hb => ?_, fun b hb => ?_⟩, ?_⟩
  · rw [hold b hb]
    exact h.term b hb
  · rw [hold b hb]
    exact h.termId b hb
  · rw [hold b hb]
    exact h.insts b hb
  · rw [hold b (hgraph b hb)]
    exact h.same b hb
  · refine (hblock _ hnc _).trans ((if_pos (List.mem_map_of_mem hb)).trans ?_)
    rw [h.copies b hb, remapBlock, hm.mapValue, hm.mapBlock]
    simp [cloneInsts, remapInstruction, hm.mapValue, hm.mapBlock, Function.comp_def]
  · rw [replicateSubgraph, hm.mapBlock, ownBlock, if_pos heg]

end

end VariOCL.IR.BarrierTailReplication
