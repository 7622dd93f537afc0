import VariOCL.BarrierTailReplication.Run

/-! The function after a run of replications covers the function before it: its paths, branches and
instructions lie over those it was copied from. -/

namespace VariOCL.IR.BarrierTailReplication

def renameValue (ρ : InstId → InstId) : Value → Value
  | .inst x => .inst (ρ x)
  | v => v

/-- `J` is `I` up to the renaming; of a PHI only its place and type are compared. -/
structure Renamed (ρ : InstId → InstId) (J I : Instruction) : Prop where
  id : ρ J.id = I.id
  ty : J.ty = I.ty
  phi : J.op.isPhi = I.op.isPhi
  op : I.op.isPhi = false → J.op.mapValues (renameValue ρ) = I.op

structure Covers (F G : Function) (π : BlockId → BlockId) (ρ : InstId → InstId) : Prop where
  entry : G.entry = F.entry
  block : ∀ x ∈ F.layout, π x = x
  inst : ∀ j ∈ F.instIds, ρ j = j
  layout : ∀ x ∈ G.layout, π x ∈ F.layout
  insts : ∀ x ∈ G.layout, List.Forall₂ (Renamed ρ) (G.block x).insts (F.block (π x)).insts
  termId : ∀ x ∈ G.layout, ρ (G.block x).termId = (F.block (π x)).termId
  term : ∀ x ∈ G.layout,
    ((G.block x).term.mapValues (renameValue ρ)).mapBlocks π = (F.block (π x)).term

section
variable {F G H : Function} {π π' : BlockId → BlockId} {ρ ρ' : InstId → InstId}

theorem Covers.succs (h : Covers F G π ρ) {x : BlockId} (hx : x ∈ G.layout) :
    (G.succs x).map π = F.succs (π x) := by
  have := congrArg Terminator.successors (h.term x hx)
  rwa [Terminator.successors_mapBlocks, Terminator.successors_mapValues] at this

theorem renameValue_renameValue (v : Value) :
    renameValue ρ (renameValue ρ' v) = renameValue (ρ ∘ ρ') v := by
  cases v <;> rfl

theorem Renamed.trans {J I K : Instruction} (h : Renamed ρ I K) (h' : Renamed ρ' J I) :
    Renamed (ρ ∘ ρ') J K where
  id := by rw [Function.comp_apply, h'.id, h.id]
  ty := h'.ty.trans h.ty
  phi := h'.phi.trans h.phi
  op hK := by
    rw [← h.op hK, ← h'.op (h.phi.trans hK), Op.mapValues_mapValues]
    simp only [renameValue_renameValue]

theorem forall₂_trans {α : Type*} {R S T : α → α → Prop} (hRS : ∀ x y z, R x y → S y z → T x z)
    {xs ys zs : List α} (h : List.Forall₂ R xs ys) (h' : List.Forall₂ S ys zs) :
    List.Forall₂ T xs zs := by
  induction h generalizing zs with
  | nil => cases h'; exact .nil
  | cons hxy _ ih =>
    cases h' with
    | cons hyz h' => exact .cons (hRS _ _ _ hxy hyz) (ih h')

theorem Covers.refl (F : Function) : Covers F F (fun x => x) (fun j => j) where
  entry := rfl
  block _ _ := rfl
  inst _ _ := rfl
  layout _ h := h
  insts x hx := by
    refine forall₂_refl (fun I => ⟨rfl, rfl, rfl, fun _ => Op.mapValues_eq_self fun v _ => ?_⟩) _
    cases v <;> rfl
  termId _ _ := rfl
  term x hx := by
    rw [Terminator.mapValues_eq_self fun v _ => ?_, Terminator.mapBlocks_eq_self fun _ _ => rfl]
    cases v <;> rfl

/-- A run after a run; both maps fix what the earlier function has. -/
theorem Covers.trans (h : Covers F G π ρ) (h' : Covers G H π' ρ')
    (hlayout : ∀ x ∈ F.layout, x ∈ G.layout) (hids : ∀ j ∈ F.instIds, j ∈ G.instIds) :
    Covers F H (π ∘ π') (ρ ∘ ρ') where
  entry := h'.entry.trans h.entry
  block x hx := by rw [Function.comp_apply, h'.block x (hlayout x hx), h.block x hx]
  inst j hj := by rw [Function.comp_apply, h'.inst j (hids j hj), h.inst j hj]
  layout x hx := h.layout _ (h'.layout x hx)
  insts x hx := forall₂_trans (fun J I K (hJI : Renamed ρ' J I) (hIK : Renamed ρ I K) =>
    hIK.trans hJI) (h'.insts x hx) (h.insts _ (h'.layout x hx))
  termId x hx := by
    rw [Function.comp_apply, h'.termId x hx, h.termId _ (h'.layout x hx)]
    rfl
  term x hx := by
    have := h.term _ (h'.layout x hx)
    rw [← h'.term x hx, Terminator.mapValues_mapBlocks, Terminator.mapBlocks_mapBlocks,
      Terminator.mapValues_mapValues] at this
    simp only [renameValue_renameValue] at this
    exact this

/-! ### One replication -/

variable {d s b : BlockId} {i : Nat}

/-- The block a new block was copied from. -/
def copiedFrom (F : Function) (x : BlockId) : BlockId :=
  if x ∈ F.layout then x else x - F.freshBlock

def instCopiedFrom (F : Function) (j : InstId) : InstId :=
  if j ∈ F.instIds then j else j - F.freshInst

theorem copiedFrom_old {x : BlockId} (hx : x ∈ F.layout) : copiedFrom F x = x := if_pos hx

theorem copiedFrom_clone (u : BlockId) : copiedFrom F (F.cloneBlock u) = u := by
  rw [copiedFrom, if_neg cloneBlock_not_mem]
  exact Nat.add_sub_cancel_left ..

theorem instCopiedFrom_old {j : InstId} (hj : j ∈ F.instIds) : instCopiedFrom F j = j := if_pos hj

theorem instCopiedFrom_clone (j : InstId) : instCopiedFrom F (F.cloneInst j) = j := by
  rw [instCopiedFrom, if_neg cloneInst_not_mem]
  exact Nat.add_sub_cancel_left ..

theorem renameValue_old {v : Value} (hv : ∀ j, v = .inst j → j ∈ F.instIds) :
    renameValue (instCopiedFrom F) v = v := by
  cases v with
  | inst j => rw [renameValue, instCopiedFrom_old (hv j rfl)]
  | _ => rfl

theorem renameValue_ownCopy {graph : List BlockId} {v : Value}
    (hv : ∀ j, v = .inst j → j ∈ F.instIds) :
    renameValue (instCopiedFrom F) (ownCopy F graph v) = v := by
  cases v with
  | inst j =>
    rw [ownCopy]
    split
    · rw [renameValue, instCopiedFrom_clone]
    · exact renameValue_old hv
  | _ => rfl

theorem copiedFrom_ownBlock {graph : List BlockId} {x : BlockId} (hx : x ∈ F.layout) :
    copiedFrom F (ownBlock F graph x) = x := by
  rw [ownBlock]
  split
  · exact copiedFrom_clone x
  · exact copiedFrom_old hx

theorem renamed_of_extends {graph : List BlockId} {Is Js : List Instruction}
    (hids : ∀ I ∈ Is, I.id ∈ F.instIds)
    (hops : ∀ I ∈ Is, ∀ j, Value.inst j ∈ I.op.operands → j ∈ F.instIds)
    (h : List.Forall₂ (Extends F graph) Is Js) :
    List.Forall₂ (Renamed (instCopiedFrom F)) Js Is := by
  induction h with
  | nil => exact .nil
  | @cons I J Is Js hIJ _ ih =>
    refine .cons ⟨?_, hIJ.ty_eq, hIJ.isPhi_eq, fun hI => ?_⟩
      (ih (fun I hI => hids I (List.mem_cons_of_mem _ hI))
        fun I hI => hops I (List.mem_cons_of_mem _ hI))
    · rw [hIJ.id_eq]
      exact instCopiedFrom_old (hids I List.mem_cons_self)
    · rw [hIJ.op_eq hI]
      exact Op.mapValues_eq_self fun v hv => renameValue_old fun j hvj =>
        hops I List.mem_cons_self j (hvj ▸ hv)

theorem renamed_copy {graph : List BlockId} {g : BlockId → BlockId} {Is : List Instruction}
    (hops : ∀ I ∈ Is, ∀ j, Value.inst j ∈ I.op.operands → j ∈ F.instIds) :
    List.Forall₂ (Renamed (instCopiedFrom F))
      (Is.map fun I =>
        ⟨F.cloneInst I.id, I.ty, (I.op.mapValues (ownCopy F graph)).mapBlocks g⟩) Is := by
  induction Is with
  | nil => exact .nil
  | cons I Is ih =>
    refine .cons ⟨instCopiedFrom_clone _, rfl, ?_, fun hI => ?_⟩
      (ih fun I hI => hops I (List.mem_cons_of_mem _ hI))
    · rw [Op.isPhi_mapBlocks, Op.isPhi_mapValues]
    · simp only
      rw [Op.mapBlocks_of_not_phi ((Op.isPhi_mapValues _ _).trans hI), Op.mapValues_mapValues]
      exact Op.mapValues_eq_self fun v hv => renameValue_ownCopy fun j hvj =>
        hops I List.mem_cons_self j (hvj ▸ hv)

theorem Joined.covers (hj : Joined F d s i b) (hF : WellFormed F) (hred : F.Reducible) :
    Covers F (replicate F s i b) (copiedFrom F) (instCopiedFrom F) := by
  have h := hj.replicates hF hred
  have hgraph := findSubgraph_subset hF (hj.mem_start hF)
  have hterm : ∀ x ∈ F.layout, ∀ v ∈ (F.block x).term.operands,
      renameValue (instCopiedFrom F) v = v := fun x hx v hv =>
    renameValue_old fun j hvj => hF.termOperands x hx j (hvj ▸ hv)
  have hsucc : ∀ x ∈ F.layout, ∀ y ∈ (F.block x).term.successors, copiedFrom F y = y :=
    fun x hx y hy => copiedFrom_old (hF.closed x hx y hy)
  refine ⟨h.entry, fun x hx => copiedFrom_old hx, fun j hj => instCopiedFrom_old hj,
    fun x hx => ?_, fun x hx => ?_, fun x hx => ?_, fun x hx => ?_⟩
  all_goals rcases h.mem_layout.mp hx with hxl | ⟨u, hu, rfl⟩
  · rwa [copiedFrom_old hxl]
  · rw [copiedFrom_clone]
    exact hgraph u hu
  · rw [copiedFrom_old hxl]
    exact renamed_of_extends (fun I hI => F.instIds_of_mem hxl hI)
      (fun I hI j hj => hF.operands x hxl I hI j hj) (h.insts x hxl)
  · rw [copiedFrom_clone, h.copies u hu]
    refine renamed_copy fun I hI j hj => hF.operands u (hgraph u hu) I hI j hj
  · rw [copiedFrom_old hxl, h.termId x hxl]
    exact instCopiedFrom_old (Function.mem_instIds.mpr
      ⟨x, hxl, List.mem_append_right _ List.mem_cons_self⟩)
  · rw [copiedFrom_clone, h.copies u hu]
    exact instCopiedFrom_clone _
  · rw [copiedFrom_old hxl]
    by_cases hxs : x = s
    · subst hxs
      rw [h.source, Terminator.mapValues_eq_self, Terminator.mapBlocks_setSuccessor hj.succ
        (copiedFrom_clone b) (hsucc x hxl)]
      rw [Terminator.operands_setSuccessor]
      exact hterm x hxl
    · rw [h.term x hxl hxs, Terminator.mapValues_eq_self (hterm x hxl),
        Terminator.mapBlocks_eq_self (hsucc x hxl)]
  · have hul := hgraph u hu
    rw [copiedFrom_clone, h.copies u hu]
    simp only [Terminator.mapValues_mapBlocks, Terminator.mapBlocks_mapBlocks,
      Terminator.mapValues_mapValues]
    rw [Terminator.mapValues_eq_self fun v hv => renameValue_ownCopy fun j hvj =>
      hF.termOperands u hul j (hvj ▸ hv)]
    exact Terminator.mapBlocks_eq_self fun y hy => copiedFrom_ownBlock (hF.closed u hul y hy)

end

/-! ### A run of replications -/

/-- The block a block was copied from, through every replication of the log. -/
def originOf (log : List (Function × BlockId)) (x : BlockId) : BlockId :=
  log.foldr (fun p x => copiedFrom p.1 x) x

def instOriginOf (log : List (Function × BlockId)) (j : InstId) : InstId :=
  log.foldr (fun p j => instCopiedFrom p.1 j) j

theorem originOf_append (log : List (Function × BlockId)) (G : Function) (b : BlockId) :
    originOf (log ++ [(G, b)]) = originOf log ∘ copiedFrom G := by
  funext x
  simp [originOf]

theorem instOriginOf_append (log : List (Function × BlockId)) (G : Function) (b : BlockId) :
    instOriginOf (log ++ [(G, b)]) = instOriginOf log ∘ instCopiedFrom G := by
  funext x
  simp [instOriginOf]

/-- `J` is the clone of `I` made when `graph` was copied from `H`. -/
structure OwnCopy (H : Function) (graph : List BlockId) (I J : Instruction) : Prop where
  id : J.id = H.cloneInst I.id
  ty : J.ty = I.ty
  phi : J.op.isPhi = I.op.isPhi
  op : I.op.isPhi = false → J.op = I.op.mapValues (ownCopy H graph)

/-- The clones of the blocks of `graph` refer to their own clones of what `graph` defines. -/
structure OwnCopies (H : Function) (graph : List BlockId) (G : Function) : Prop where
  layout : ∀ u ∈ graph, H.cloneBlock u ∈ G.layout
  insts : ∀ u ∈ graph,
    List.Forall₂ (OwnCopy H graph) (H.block u).insts (G.block (H.cloneBlock u)).insts
  term : ∀ u ∈ graph, (G.block (H.cloneBlock u)).term.operands =
    (H.block u).term.operands.map (ownCopy H graph)

section
variable {F G H : Function} {log : List (Function × BlockId)} {d s b : BlockId} {i : Nat}

theorem Replications.covers (h : Replications F log G) (hF : WellFormed F) (hred : F.Reducible) :
    Covers F G (originOf log) (instOriginOf log) ∧ ∀ j ∈ F.instIds, j ∈ G.instIds := by
  induction h with
  | refl => exact ⟨.refl F, fun _ h => h⟩
  | step hrun hj ih =>
    have he := hrun.evolves hF hred
    rw [originOf_append, instOriginOf_append]
    refine ⟨ih.1.trans (hj.covers he.wellFormed he.reducible) he.layout ih.2, fun k hk => ?_⟩
    rw [(hj.replicates he.wellFormed he.reducible).instIds_eq]
    exact List.mem_append_left _ (ih.2 k hk)

theorem Extends.ownCopy {graph graph' : List BlockId} {I J K : Instruction}
    (h' : Extends G graph' J K) (h : OwnCopy H graph I J) : OwnCopy H graph I K where
  id := h'.id_eq.trans h.id
  ty := h'.ty_eq.trans h.ty
  phi := h'.isPhi_eq.trans h.phi
  op hI := (h'.op_eq (h.phi.trans hI)).trans (h.op hI)

theorem OwnCopies.step {graph : List BlockId} (h : OwnCopies H graph G) (hj : Joined G d s i b)
    (hG : WellFormed G) (hred : G.Reducible) : OwnCopies H graph (replicate G s i b) := by
  have hr := hj.replicates hG hred
  refine ⟨fun u hu => hr.mem_of_old (h.layout u hu), fun u hu => ?_, fun u hu => ?_⟩
  · exact forall₂_trans (fun I J K (hIJ : OwnCopy H graph I J)
      (hJK : Extends G (findSubgraph G b) J K) => hJK.ownCopy hIJ) (h.insts u hu)
      (hr.insts _ (h.layout u hu))
  · rw [hr.termOperands (h.layout u hu)]
    exact h.term u hu

end

/-! ### Paths -/

/-- A path from `b`: the successor index taken and the block it leads to, step by step. -/
def IsPath (F : Function) : BlockId → List (Nat × BlockId) → Prop
  | _, [] => True
  | b, (i, s) :: p => (F.succs b)[i]? = some s ∧ IsPath F s p

theorem Covers.path {F G : Function} {π : BlockId → BlockId} {ρ : InstId → InstId}
    (h : Covers F G π ρ) (hG : G.Closed) {p : List (Nat × BlockId)} :
    ∀ {b}, b ∈ G.layout → IsPath G b p → IsPath F (π b) (p.map (Prod.map id π)) := by
  induction p with
  | nil => exact fun _ _ => trivial
  | cons q p ih =>
    obtain ⟨i, s⟩ := q
    intro b hb hp
    refine ⟨?_, ih (hG b hb s (List.mem_of_getElem? hp.1)) hp.2⟩
    show (F.succs (π b))[i]? = some (π s)
    rw [← h.succs hb, List.getElem?_map, hp.1]
    rfl

theorem Covers.lift {F G : Function} {π : BlockId → BlockId} {ρ : InstId → InstId}
    (h : Covers F G π ρ) (hG : G.Closed) {q : List (Nat × BlockId)} :
    ∀ {b}, b ∈ G.layout → IsPath F (π b) q →
      ∃! p, IsPath G b p ∧ p.map (Prod.map id π) = q := by
  induction q with
  | nil =>
    intro b _ _
    exact ⟨[], ⟨trivial, rfl⟩, fun p hp => List.map_eq_nil_iff.mp hp.2⟩
  | cons e q ih =>
    obtain ⟨i, t⟩ := e
    intro b hb hq
    obtain ⟨hi, hq⟩ := hq
    rw [← h.succs hb, List.getElem?_map, Option.map_eq_some_iff] at hi
    obtain ⟨s, hs, rfl⟩ := hi
    obtain ⟨p, ⟨hp, hmap⟩, huniq⟩ := ih (hG b hb s (List.mem_of_getElem? hs)) hq
    refine ⟨(i, s) :: p, ⟨⟨hs, hp⟩, by simp [hmap]⟩, ?_⟩
    rintro (_ | ⟨⟨j, s'⟩, p'⟩) ⟨hp', hmap'⟩
    · cases hmap'
    · rw [List.map_cons, List.cons.injEq] at hmap'
      obtain ⟨he, hmap'⟩ := hmap'
      obtain rfl : j = i := congrArg Prod.fst he
      obtain rfl : s' = s := Option.some.inj (hp'.1.symm.trans hs)
      rw [huniq p' ⟨hp'.2, hmap'⟩]

end VariOCL.IR.BarrierTailReplication
