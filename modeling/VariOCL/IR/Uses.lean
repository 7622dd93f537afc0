import VariOCL.IR.Split

/-! Uses of values: their replacement, and the PHIs of a block with their entries. -/

namespace VariOCL.IR

def Op.incoming : Op → List (Value × BlockId)
  | .phi incoming => incoming
  | _ => []

def Instruction.mapValues (f : Value → Value) (I : Instruction) : Instruction :=
  { I with op := I.op.mapValues f }

def BasicBlock.mapValues (f : Value → Value) (BB : BasicBlock) : BasicBlock where
  insts := BB.insts.map (Instruction.mapValues f)
  termId := BB.termId
  term := BB.term.mapValues f

def Function.mapValues (F : Function) (f : Value → Value) : Function :=
  { F with block := fun b => (F.block b).mapValues f }

/-- The operands of the instructions and of the terminator. -/
def BasicBlock.values (BB : BasicBlock) : List Value :=
  (BB.insts.flatMap fun I => I.op.operands) ++ BB.term.operands

/-- `w` in the place of the value of instruction `i`. -/
def Value.replace (i : InstId) (w v : Value) : Value := if v = .inst i then w else v

def Function.replaceAllUsesWith (F : Function) (i : InstId) (w : Value) : Function :=
  F.mapValues (Value.replace i w)

def BasicBlock.insertFront (I : Instruction) (BB : BasicBlock) : BasicBlock :=
  { BB with insts := I :: BB.insts }

def BasicBlock.insertBefore (i : InstId) (I : Instruction) (BB : BasicBlock) : BasicBlock :=
  { BB with insts := BB.insts.takeWhile (·.id ≠ i) ++ I :: BB.insts.dropWhile (·.id ≠ i) }

def BasicBlock.erase (i : InstId) (BB : BasicBlock) : BasicBlock :=
  { BB with insts := BB.insts.filter (·.id ≠ i) }

def BasicBlock.find (BB : BasicBlock) (i : InstId) : Option Instruction :=
  BB.insts.find? (·.id = i)

/-- `Before` is an instruction or the terminator of the block. -/
def BasicBlock.insertAllBefore (Before : InstId) (Is : List Instruction) (BB : BasicBlock) :
    BasicBlock :=
  { BB with insts := BB.insts.takeWhile (·.id ≠ Before) ++ Is ++ BB.insts.dropWhile (·.id ≠ Before) }

theorem BasicBlock.perm_insertAllBefore (Before : InstId) (Is : List Instruction) (BB : BasicBlock) :
    (BB.insertAllBefore Before Is).insts.Perm (Is ++ BB.insts) := perm_takeWhile_insert ..

section
variable {F : Function} {f g : Value → Value} {b : BlockId} {BB : BasicBlock} {I : Instruction}

@[simp] theorem Instruction.id_mapValues : (I.mapValues f).id = I.id := rfl

@[simp] theorem Instruction.op_mapValues : (I.mapValues f).op = I.op.mapValues f := rfl

theorem Instruction.mapValues_mapValues :
    (I.mapValues f).mapValues g = I.mapValues fun v => g (f v) := by
  simp [Instruction.mapValues, Op.mapValues_mapValues]

@[simp] theorem BasicBlock.insts_mapValues :
    (BB.mapValues f).insts = BB.insts.map (Instruction.mapValues f) := rfl

@[simp] theorem BasicBlock.term_mapValues : (BB.mapValues f).term = BB.term.mapValues f := rfl

theorem BasicBlock.mapValues_mapValues :
    (BB.mapValues f).mapValues g = BB.mapValues fun v => g (f v) := by
  simp [BasicBlock.mapValues, Terminator.mapValues_mapValues, Instruction.mapValues_mapValues,
    Function.comp_def]

@[simp] theorem Function.block_mapValues : (F.mapValues f).block b = (F.block b).mapValues f := rfl

@[simp] theorem Function.succs_mapValues : (F.mapValues f).succs b = F.succs b := by
  simp [Function.succs]

theorem Function.mapValues_mapValues :
    (F.mapValues f).mapValues g = F.mapValues fun v => g (f v) := by
  simp [Function.mapValues, BasicBlock.mapValues_mapValues]

theorem BasicBlock.values_mapValues : (BB.mapValues f).values = BB.values.map f := by
  simp [BasicBlock.values, BasicBlock.mapValues, List.map_flatMap, List.flatMap_map]

theorem BasicBlock.mapValues_eq_self_iff : BB.mapValues f = BB ↔ ∀ v ∈ BB.values, f v = v := by
  constructor
  · intro h v hv
    have hmap : BB.values.map f = BB.values.map id := by
      rw [← BasicBlock.values_mapValues, h, List.map_id]
    exact List.map_inj_left.mp hmap v hv
  · intro h
    have hinsts : BB.insts.map (Instruction.mapValues f) = BB.insts := by
      conv => rhs; rw [← List.map_id' BB.insts]
      apply List.map_congr_left
      intro I hI
      have hop : I.op.mapValues f = I.op := Op.mapValues_eq_self fun v hv =>
        h v (List.mem_append_left _ (List.mem_flatMap.mpr ⟨I, hI, hv⟩))
      rw [Instruction.mapValues, hop]
    rw [BasicBlock.mapValues, hinsts,
      Terminator.mapValues_eq_self fun v hv => h v (List.mem_append_right _ hv)]

theorem Instruction.mapValues_id : I.mapValues (fun v => v) = I := by
  rw [Instruction.mapValues, Op.mapValues_eq_self fun _ _ => rfl]

theorem Instruction.mapBlocks_mapValues {g : BlockId → BlockId} :
    (I.mapValues f).mapBlocks g = (I.mapBlocks g).mapValues f := by
  obtain ⟨i, t, op⟩ := I
  cases op <;> simp [Instruction.mapBlocks, Instruction.mapValues, Op.mapBlocks, Op.mapValues]

theorem Instruction.mapBlocks_mapBlocks {g g' : BlockId → BlockId} :
    (I.mapBlocks g).mapBlocks g' = I.mapBlocks fun b => g' (g b) := by
  obtain ⟨i, t, op⟩ := I
  cases op <;> simp [Instruction.mapBlocks, Op.mapBlocks]

theorem Function.eq_of_block {G : Function} (hname : F.name = G.name) (hentry : F.entry = G.entry)
    (hrest : F.rest = G.rest) (h : ∀ b, F.block b = G.block b) : F = G := by
  obtain ⟨n, e, r, f⟩ := F
  obtain ⟨n', e', r', f'⟩ := G
  simp only at hname hentry hrest h
  subst hname hentry hrest
  rw [funext h]

/-- An instruction of a function is the only one with its id. -/
theorem Function.inst_eq_of_id (hn : F.instIds.Nodup) {c : BlockId} {J : Instruction}
    (hb : b ∈ F.layout) (hc : c ∈ F.layout) (hI : I ∈ (F.block b).insts)
    (hJ : J ∈ (F.block c).insts) (hid : I.id = J.id) : I = J := by
  have hmem : ∀ {x K}, K ∈ (F.block x).insts → K.id ∈ (F.block x).instIds := fun hK =>
    List.mem_append_left _ (List.mem_map_of_mem hK)
  obtain rfl := F.eq_of_mem_instIds hn hb hc (hmem hI) (hid ▸ hmem hJ)
  have hnodup := (List.nodup_append.mp ((List.nodup_flatMap.mp hn).1 b hb)).1
  exact List.inj_on_of_nodup_map hnodup hI hJ hid

@[simp] theorem Op.incoming_mapValues (op : Op) :
    (op.mapValues f).incoming = op.incoming.map fun p => (f p.1, p.2) := by
  cases op <;> simp [Op.mapValues, Op.incoming]

@[simp] theorem Op.incomingBlocks_mapValues (op : Op) :
    (op.mapValues f).incomingBlocks = op.incomingBlocks := by
  cases op <;> simp [Op.mapValues, Op.incomingBlocks]

@[simp] theorem BasicBlock.instIds_mapValues : (BB.mapValues f).instIds = BB.instIds := by
  simp [BasicBlock.instIds, BasicBlock.mapValues, Function.comp_def]

@[simp] theorem Function.instIds_mapValues : (F.mapValues f).instIds = F.instIds := by
  simp only [Function.instIds, Function.block_mapValues, BasicBlock.instIds_mapValues]
  rfl

end

/-! ### PHIs -/

structure PHINode where
  id : InstId
  ty : Ty
  incoming : List (Value × BlockId)
  deriving DecidableEq

def PHINode.inst (PN : PHINode) : Instruction := ⟨PN.id, PN.ty, .phi PN.incoming⟩

def Instruction.phi? (I : Instruction) : Option PHINode :=
  match I.op with
  | .phi incoming => some ⟨I.id, I.ty, incoming⟩
  | _ => none

/-- The PHIs at the front of the block. -/
def BasicBlock.phis (BB : BasicBlock) : List PHINode :=
  (BB.insts.takeWhile (·.op.isPhi)).filterMap Instruction.phi?

def BasicBlock.afterPhis (BB : BasicBlock) : List Instruction := BB.insts.dropWhile (·.op.isPhi)

theorem Instruction.phi?_eq_some {I : Instruction} {PN : PHINode} :
    I.phi? = some PN ↔ I = PN.inst := by
  obtain ⟨i, t, op⟩ := I
  obtain ⟨j, u, incoming⟩ := PN
  cases op <;> simp [Instruction.phi?, PHINode.inst]

theorem Instruction.phi?_eq_none {I : Instruction} : I.phi? = none ↔ I.op.isPhi = false := by
  obtain ⟨i, t, op⟩ := I
  cases op <;> simp [Instruction.phi?, Op.isPhi]

theorem map_inst_filterMap_phi? {Is : List Instruction} (h : ∀ I ∈ Is, I.op.isPhi) :
    (Is.filterMap Instruction.phi?).map PHINode.inst = Is := by
  induction Is with
  | nil => rfl
  | cons I Is ih =>
    cases hI : I.phi? with
    | none =>
      have hphi := h I List.mem_cons_self
      exact absurd ((Instruction.phi?_eq_none.mp hI).symm.trans hphi) Bool.false_ne_true
    | some PN =>
      rw [List.filterMap_cons, hI, List.map_cons, ih fun J hJ => h J (List.mem_cons_of_mem I hJ),
        ← Instruction.phi?_eq_some.mp hI]

theorem BasicBlock.phis_append_afterPhis (BB : BasicBlock) :
    BB.phis.map PHINode.inst ++ BB.afterPhis = BB.insts := by
  have htake : ∀ I ∈ BB.insts.takeWhile (·.op.isPhi), I.op.isPhi := fun I hI =>
    List.mem_takeWhile_imp (p := fun I : Instruction => I.op.isPhi) hI
  rw [phis, map_inst_filterMap_phi? htake, afterPhis, List.takeWhile_append_dropWhile]

theorem BasicBlock.head?_afterPhis {BB : BasicBlock} {I : Instruction}
    (h : BB.afterPhis.head? = some I) : I.op.isPhi = false := by
  have := List.head?_dropWhile_not (fun I : Instruction => I.op.isPhi) BB.insts
  rw [← afterPhis, h] at this
  exact Bool.eq_false_iff.mpr (by simpa using this)

theorem takeWhile_isPhi {P R : List Instruction} (hP : ∀ I ∈ P, I.op.isPhi)
    (hR : ∀ I ∈ R, I.op.isPhi = false) : (P ++ R).takeWhile (·.op.isPhi) = P := by
  rw [List.takeWhile_append_of_pos hP]
  cases R with
  | nil => simp
  | cons I R => simp [hR I List.mem_cons_self]

theorem dropWhile_isPhi {P R : List Instruction} (hP : ∀ I ∈ P, I.op.isPhi)
    (hR : ∀ I ∈ R, I.op.isPhi = false) : (P ++ R).dropWhile (·.op.isPhi) = R := by
  rw [List.dropWhile_append_of_pos hP]
  cases R with
  | nil => simp
  | cons I R => simp [hR I List.mem_cons_self]

end VariOCL.IR
