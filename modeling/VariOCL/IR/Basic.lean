import VariOCL.Graph.Dominance

/-! The part of LLVM IR the passes read and rewrite: functions of basic blocks, each a list of
instructions closed by one terminator.  An instruction's `id` is its address in the compiler. -/

namespace VariOCL.IR

abbrev BlockId := Nat
abbrev InstId := Nat

inductive Ty
  | void
  | int (width : Nat)
  | ptr
  | ptrVec
  | other
  deriving DecidableEq

inductive Value
  | constInt (width : Nat) (n : Nat)
  | undefValue
  | argument (index : Nat)
  | global (name : String)
  | inst (id : InstId)
  deriving DecidableEq

def Value.isConstant : Value → Bool
  | .constInt _ _ => true
  | .undefValue => true
  | .global _ => true
  | .argument _ => false
  | .inst _ => false

inductive Op
  | phi (incoming : List (Value × BlockId))
  | alloca (elem : Ty) (arraySize : Value)
  | load (ptr : Value)
  | store (val ptr : Value)
  | gep (ptrTy : Ty) (ptr : Value) (indices : List Value)
  | call (callee : Option String) (args : List Value)
  | trunc (v : Value)
  | other (opcode : String) (operands : List Value)
  deriving DecidableEq

def Op.operands : Op → List Value
  | .phi incoming => incoming.map Prod.fst
  | .alloca _ n => [n]
  | .load p => [p]
  | .store v p => [v, p]
  | .gep _ p is => p :: is
  | .call _ args => args
  | .trunc v => [v]
  | .other _ vs => vs

/-- `replaceUsesOfWith` and `RemapInstruction` on the value operands. -/
def Op.mapValues (f : Value → Value) : Op → Op
  | .phi incoming => .phi (incoming.map fun p => (f p.1, p.2))
  | .alloca t n => .alloca t (f n)
  | .load p => .load (f p)
  | .store v p => .store (f v) (f p)
  | .gep t p is => .gep t (f p) (is.map f)
  | .call c args => .call c (args.map f)
  | .trunc v => .trunc (f v)
  | .other o vs => .other o (vs.map f)

def Op.mapBlocks (g : BlockId → BlockId) : Op → Op
  | .phi incoming => .phi (incoming.map fun p => (p.1, g p.2))
  | op => op

def Op.isPhi : Op → Bool
  | .phi _ => true
  | _ => false

inductive Terminator
  | br (dest : BlockId)
  | condBr (cond : Value) (ifTrue ifFalse : BlockId)
  | switch (cond : Value) (default : BlockId) (cases : List (Nat × BlockId))
  | ret (v : Option Value)
  | unreachable
  deriving DecidableEq

def Terminator.successors : Terminator → List BlockId
  | .br d => [d]
  | .condBr _ t f => [t, f]
  | .switch _ d cs => d :: cs.map Prod.snd
  | .ret _ => []
  | .unreachable => []

def Terminator.operands : Terminator → List Value
  | .br _ => []
  | .condBr c _ _ => [c]
  | .switch c _ _ => [c]
  | .ret v => v.toList
  | .unreachable => []

def Terminator.mapValues (f : Value → Value) : Terminator → Terminator
  | .br d => .br d
  | .condBr c t e => .condBr (f c) t e
  | .switch c d cs => .switch (f c) d cs
  | .ret v => .ret (v.map f)
  | .unreachable => .unreachable

def Terminator.mapBlocks (g : BlockId → BlockId) : Terminator → Terminator
  | .br d => .br (g d)
  | .condBr c t e => .condBr c (g t) (g e)
  | .switch c d cs => .switch c (g d) (cs.map fun p => (p.1, g p.2))
  | .ret v => .ret v
  | .unreachable => .unreachable

/-- `TerminatorInst::setSuccessor(i, b)`. -/
def Terminator.setSuccessor : Terminator → Nat → BlockId → Terminator
  | .br _, 0, b => .br b
  | .condBr c _ f, 0, b => .condBr c b f
  | .condBr c t _, 1, b => .condBr c t b
  | .switch c _ cs, 0, b => .switch c b cs
  | .switch c d cs, n + 1, b => .switch c d (cs.modify n fun p => (p.1, b))
  | t, _, _ => t

@[simp] theorem Terminator.successors_mapValues (f : Value → Value) (t : Terminator) :
    (t.mapValues f).successors = t.successors := by cases t <;> rfl

@[simp] theorem Terminator.successors_mapBlocks (g : BlockId → BlockId) (t : Terminator) :
    (t.mapBlocks g).successors = t.successors.map g := by
  cases t <;> simp [mapBlocks, successors, Function.comp_def]

@[simp] theorem Terminator.successors_setSuccessor (t : Terminator) (i : Nat) (b : BlockId) :
    (t.setSuccessor i b).successors = t.successors.set i b := by
  cases t with
  | br d => cases i <;> rfl
  | condBr c t f =>
    match i with
    | 0 => rfl
    | 1 => rfl
    | _ + 2 => rfl
  | switch c d cs =>
    cases i with
    | zero => rfl
    | succ n =>
      simp only [setSuccessor, successors, List.set_cons_succ]
      congr 1
      apply List.ext_getElem?
      intro k
      simp only [List.getElem?_map, List.getElem?_modify, List.getElem?_set, List.length_map]
      by_cases h : n = k
      · subst h
        by_cases hl : n < cs.length <;> simp [hl]
      · simp [h]
  | ret v => rfl
  | unreachable => rfl

@[simp] theorem Terminator.operands_setSuccessor (t : Terminator) (i : Nat) (b : BlockId) :
    (t.setSuccessor i b).operands = t.operands := by
  cases t with
  | br d => cases i <;> rfl
  | condBr c t f =>
    match i with
    | 0 => rfl
    | 1 => rfl
    | _ + 2 => rfl
  | switch c d cs => cases i <;> rfl
  | ret v => rfl
  | unreachable => rfl

@[simp] theorem Terminator.operands_mapBlocks (g : BlockId → BlockId) (t : Terminator) :
    (t.mapBlocks g).operands = t.operands := by cases t <;> rfl

@[simp] theorem Terminator.operands_mapValues (f : Value → Value) (t : Terminator) :
    (t.mapValues f).operands = t.operands.map f := by
  cases t with
  | ret v => cases v <;> rfl
  | _ => rfl

theorem Terminator.mapBlocks_eq_self {g : BlockId → BlockId} {t : Terminator}
    (h : ∀ b ∈ t.successors, g b = b) : t.mapBlocks g = t := by
  cases t with
  | switch c d cs =>
    have hcs : cs.map (fun p => (p.1, g p.2)) = cs := by
      conv => rhs; rw [← List.map_id' cs]
      exact List.map_congr_left fun p hp =>
        Prod.ext rfl (h p.2 (List.mem_cons_of_mem _ (List.mem_map_of_mem hp)))
    rw [mapBlocks, hcs, h d List.mem_cons_self]
  | _ => simp_all [mapBlocks, successors]

theorem Terminator.mapBlocks_mapBlocks (f g : BlockId → BlockId) (t : Terminator) :
    (t.mapBlocks f).mapBlocks g = t.mapBlocks (g ∘ f) := by
  cases t <;> simp [mapBlocks]

theorem Terminator.mapValues_mapBlocks (f : Value → Value) (g : BlockId → BlockId)
    (t : Terminator) : (t.mapBlocks g).mapValues f = (t.mapValues f).mapBlocks g := by
  cases t <;> rfl

theorem Terminator.mapValues_mapValues (f g : Value → Value) (t : Terminator) :
    (t.mapValues f).mapValues g = t.mapValues fun v => g (f v) := by
  cases t with
  | ret v => cases v <;> rfl
  | _ => rfl

theorem Terminator.mapValues_eq_self {f : Value → Value} {t : Terminator}
    (h : ∀ v ∈ t.operands, f v = v) : t.mapValues f = t := by
  cases t with
  | ret v => cases v <;> simp_all [mapValues, operands]
  | _ => simp_all [mapValues, operands]

/-- A redirected branch is the old one again once its new target is taken for the old one. -/
theorem Terminator.mapBlocks_setSuccessor {g : BlockId → BlockId} {t : Terminator} {i : Nat}
    {b c : BlockId} (hb : t.successors[i]? = some b) (hc : g c = b)
    (h : ∀ s ∈ t.successors, g s = s) : (t.setSuccessor i c).mapBlocks g = t := by
  cases t with
  | br d =>
    cases i with
    | zero => simp_all [setSuccessor, mapBlocks, successors]
    | succ n => simp [successors] at hb
  | condBr v d e =>
    match i with
    | 0 => simp_all [setSuccessor, mapBlocks, successors]
    | 1 => simp_all [setSuccessor, mapBlocks, successors]
    | n + 2 => simp [successors] at hb
  | switch v d cs =>
    cases i with
    | zero =>
      have := Terminator.mapBlocks_eq_self (t := .switch v b cs) (g := g)
      simp_all [setSuccessor, mapBlocks, successors]
      exact this h.2
    | succ n =>
      simp only [successors, List.getElem?_cons_succ, List.getElem?_map] at hb
      simp only [setSuccessor, mapBlocks, h d List.mem_cons_self]
      congr 1
      apply List.ext_getElem?
      intro k
      simp only [List.getElem?_map, List.getElem?_modify]
      cases hk : cs[k]? with
      | none => simp
      | some p =>
        by_cases hnk : n = k
        · subst hnk
          simp_all
          rw [← hb]
        · have := h p.2 (List.mem_cons_of_mem _ (List.mem_map_of_mem (List.mem_of_getElem? hk)))
          simp [hnk, this]
  | ret v => simp [successors] at hb
  | unreachable => simp [successors] at hb

theorem Op.mapValues_mapValues (f g : Value → Value) (op : Op) :
    (op.mapValues f).mapValues g = op.mapValues fun v => g (f v) := by
  cases op <;> simp [mapValues]

theorem Op.mapValues_eq_self {f : Value → Value} {op : Op} (h : ∀ v ∈ op.operands, f v = v) :
    op.mapValues f = op := by
  have hmap : ∀ vs : List Value, (∀ v ∈ vs, f v = v) → vs.map f = vs := fun vs hvs =>
    (List.map_congr_left hvs).trans (List.map_id' vs)
  cases op with
  | phi incoming =>
    have : incoming.map (fun p => (f p.1, p.2)) = incoming := by
      conv => rhs; rw [← List.map_id' incoming]
      exact List.map_congr_left fun p hp => Prod.ext (h p.1 (List.mem_map_of_mem hp)) rfl
    rw [mapValues, this]
  | gep t p is =>
    rw [mapValues, h p List.mem_cons_self, hmap is fun v hv => h v (List.mem_cons_of_mem _ hv)]
  | call c args => rw [mapValues, hmap args h]
  | other o vs => rw [mapValues, hmap vs h]
  | _ => simp_all [mapValues, operands]

theorem Op.mapBlocks_of_not_phi {g : BlockId → BlockId} {op : Op} (h : op.isPhi = false) :
    op.mapBlocks g = op := by
  cases op <;> first | rfl | cases h

@[simp] theorem Op.operands_mapBlocks (g : BlockId → BlockId) (op : Op) :
    (op.mapBlocks g).operands = op.operands := by
  cases op <;> simp [Op.mapBlocks, Op.operands]

@[simp] theorem Op.operands_mapValues (f : Value → Value) (op : Op) :
    (op.mapValues f).operands = op.operands.map f := by
  cases op <;> simp [Op.mapValues, Op.operands]

@[simp] theorem Op.isPhi_mapValues (f : Value → Value) (op : Op) :
    (op.mapValues f).isPhi = op.isPhi := by cases op <;> rfl

structure Instruction where
  id : InstId
  ty : Ty
  op : Op
  deriving DecidableEq

structure BasicBlock where
  insts : List Instruction
  termId : InstId
  term : Terminator
  deriving DecidableEq

theorem BasicBlock.eq_of_insts {BB BB' : BasicBlock} (hinsts : BB.insts = BB'.insts)
    (hid : BB.termId = BB'.termId) (hterm : BB.term = BB'.term) : BB = BB' := by
  cases BB
  cases BB'
  rw [BasicBlock.mk.injEq]
  exact ⟨hinsts, hid, hterm⟩

/-- `BasicBlock::size` counts the terminator. -/
def BasicBlock.size (BB : BasicBlock) : Nat := BB.insts.length + 1

structure Function where
  name : String
  entry : BlockId
  rest : List BlockId
  block : BlockId → BasicBlock

/-- The blocks in the order of `F.begin() .. F.end()`. -/
def Function.layout (F : Function) : List BlockId := F.entry :: F.rest

def Function.succs (F : Function) (b : BlockId) : List BlockId := (F.block b).term.successors

def Function.Edge (F : Function) (u v : BlockId) : Prop := v ∈ F.succs u

/-- The predecessors of `b`, once for each edge, as `pred_begin(b)` lists them up to order. -/
def Function.predEdges (F : Function) (b : BlockId) : List BlockId :=
  F.layout.flatMap fun p => (F.succs p).filterMap fun s => if s = b then some p else none

/-- `isa<BarrierInst>`: a direct call to the function named `barrier`. -/
def Op.isBarrier : Op → Bool
  | .call (some callee) _ => callee == "barrier"
  | _ => false

@[simp] theorem Op.isBarrier_mapValues (f : Value → Value) (op : Op) :
    (op.mapValues f).isBarrier = op.isBarrier := by
  cases op with
  | call callee args => cases callee <;> rfl
  | _ => rfl

@[simp] theorem Op.isBarrier_mapBlocks (g : BlockId → BlockId) (op : Op) :
    (op.mapBlocks g).isBarrier = op.isBarrier := by cases op <;> rfl

def Instruction.isBarrier (I : Instruction) : Bool := I.op.isBarrier

def containsJustABarrier (BB : BasicBlock) : Bool :=
  BB.size == 2 && (BB.insts.head?.map Instruction.isBarrier).getD false

/-- `BarrierInst::hasBarrier`, `CondBarrier::containBarrierInBB`. -/
def hasBarrier (BB : BasicBlock) : Bool := BB.insts.any Instruction.isBarrier

def endsWithBarrier (BB : BasicBlock) : Bool :=
  decide (1 < BB.size) && (BB.insts.getLast?.map Instruction.isBarrier).getD false

theorem containsJustABarrier_iff {BB : BasicBlock} :
    containsJustABarrier BB ↔ ∃ I, BB.insts = [I] ∧ I.isBarrier := by
  simp only [containsJustABarrier, BasicBlock.size, Bool.and_eq_true, beq_iff_eq]
  constructor
  · rintro ⟨hlen, h⟩
    obtain ⟨I, hI⟩ := List.length_eq_one_iff.mp (Nat.succ.inj hlen)
    exact ⟨I, hI, by simpa [hI] using h⟩
  · rintro ⟨I, hI, h⟩
    simp [hI, h]

theorem hasBarrier_of_containsJustABarrier {BB : BasicBlock} (h : containsJustABarrier BB) :
    hasBarrier BB := by
  obtain ⟨I, hI, h⟩ := containsJustABarrier_iff.mp h
  simp [hasBarrier, hI, h]

/-! ### The control-flow graph -/

/-- Every branch of a block of the function goes to a block of the function. -/
def Function.Closed (F : Function) : Prop := ∀ b ∈ F.layout, ∀ s ∈ F.succs b, s ∈ F.layout

def Function.Reachable (F : Function) (b : BlockId) : Prop :=
  Relation.ReflTransGen F.Edge F.entry b

def Function.Dominates (F : Function) : BlockId → BlockId → Prop :=
  Graph.Dominates F.Edge F.entry

def Function.BackEdge (F : Function) : BlockId → BlockId → Prop := Graph.BackEdge F.Edge F.entry

def Function.ForwardEdge (F : Function) : BlockId → BlockId → Prop :=
  Graph.ForwardEdge F.Edge F.entry

def Function.Reducible (F : Function) : Prop := Graph.Reducible F.Edge F.entry

/-- `DT->dominates(d, b)` on an up-to-date dominator tree. -/
def Function.dominates (F : Function) (d b : BlockId) : Bool :=
  d == F.entry ||
    !(Graph.reachFrom (fun x => (F.succs x).filter (· ≠ d)) F.layout F.entry).contains b

theorem Function.entry_mem_layout (F : Function) : F.entry ∈ F.layout := List.mem_cons_self

theorem Function.mem_predEdges {F : Function} {p b : BlockId} :
    p ∈ F.predEdges b ↔ p ∈ F.layout ∧ F.Edge p b := by
  simp only [predEdges, List.mem_flatMap, List.mem_filterMap, Edge]
  constructor
  · rintro ⟨q, hq, s, hs, h⟩
    split at h
    · cases h
      subst s
      exact ⟨hq, hs⟩
    · cases h
  · rintro ⟨hp, hb⟩
    exact ⟨p, hp, b, hb, by simp⟩

theorem Function.Closed.reachable_mem {F : Function} (h : F.Closed) {b : BlockId}
    (hb : F.Reachable b) : b ∈ F.layout := by
  induction hb with
  | refl => exact F.entry_mem_layout
  | tail _ he ih => exact h _ ih _ he

theorem Function.dominates_iff {F : Function} (h : F.Closed) {d b : BlockId} :
    F.dominates d b = true ↔ F.Dominates d b := by
  have hclosed : ∀ x ∈ F.layout, ∀ y ∈ (F.succs x).filter (· ≠ d), y ∈ F.layout :=
    fun x hx y hy => h x hx y (List.mem_filter.mp hy).1
  have hav : Graph.Avoiding F.Edge d F.entry b ↔
      F.entry ≠ d ∧ Graph.Reach (fun x => (F.succs x).filter (· ≠ d)) F.entry b := by
    simp only [Graph.Avoiding, Graph.Reach, List.mem_filter, Edge, decide_eq_true_eq]
  rw [Function.Dominates, Graph.dominates_iff, hav,
    ← Graph.mem_reachFrom hclosed F.entry_mem_layout]
  by_cases hd : d = F.entry
  · simp [Function.dominates, hd]
  · simp [Function.dominates, hd, Ne.symm hd]

end VariOCL.IR
