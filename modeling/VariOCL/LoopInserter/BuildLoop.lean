import VariOCL.IR.Relabel
import VariOCL.LoopInserter.ReplaceIds

/-! `CondBarrier::buildDWLoopOverRegion`: a loop of one dimension around a region, or around the
loops built so far. -/

namespace VariOCL.IR

/-- `DT->dominates(A, B)`; a block without a node is dominated by every block. -/
structure DominatorTree where
  dominates : BlockId → BlockId → Bool

def Function.dominatorTree (F : Function) : DominatorTree := ⟨F.dominates⟩

/-- The new node is a leaf below `DomBB`. -/
def DominatorTree.addNewBlock (DT : DominatorTree) (BB DomBB : BlockId) : DominatorTree :=
  ⟨fun a b => if b = BB then a == BB || DT.dominates a DomBB else DT.dominates a b⟩

def insertBefore (InsertBefore New : BlockId) : List BlockId → List BlockId
  | [] => [New]
  | b :: bs => if b = InsertBefore then New :: b :: bs else b :: insertBefore InsertBefore New bs

/-- `BasicBlock::Create(LC, .., Fun, InsertBefore)`, filled with `BB`. -/
def Function.createBlock (F : Function) (New InsertBefore : BlockId) (BB : BasicBlock) : Function where
  name := F.name
  entry := if InsertBefore = F.entry then New else F.entry
  rest := if InsertBefore = F.entry then F.entry :: F.rest else insertBefore InsertBefore New F.rest
  block b := if b = New then BB else F.block b

/-- `getTerminator()->replaceUsesOfWith(Old, New)`. -/
def BasicBlock.replaceSuccessor (Old New : BlockId) (BB : BasicBlock) : BasicBlock :=
  { BB with term := BB.term.mapBlocks (rename Old New) }

/-- `setIncomingBlock(i, New)` where the incoming block is `Old`. -/
def BasicBlock.replaceIncoming (Old New : BlockId) (BB : BasicBlock) : BasicBlock :=
  { BB with insts := BB.insts.map (Instruction.mapBlocks (rename Old New)) }

namespace LoopInserter

/-- The blocks and instructions of one loop. -/
structure DWLoop where
  LatchBB : BlockId
  LoopPreheader : BlockId
  LoopHeader : BlockId
  LoopEnd : BlockId
  IV : InstId
  GLSCall : InstId
  IV_inc : InstId
  CmpResult : InstId
  termIds : InstId

def newLoop (F : Function) : DWLoop where
  LatchBB := F.freshBlock
  LoopPreheader := F.freshBlock + 1
  LoopHeader := F.freshBlock + 2
  LoopEnd := F.freshBlock + 3
  IV := F.freshInst
  GLSCall := F.freshInst + 1
  IV_inc := F.freshInst + 2
  CmpResult := F.freshInst + 3
  termIds := F.freshInst + 4

namespace DWLoop
variable (L : DWLoop)

def latch (DimensionKind : Nat) : BasicBlock where
  insts := [⟨L.GLSCall, .int 32, .call (some "get_local_size") [.constInt 32 DimensionKind]⟩,
    ⟨L.IV_inc, .int 32, .other "add" [.inst L.IV, .constInt 32 1]⟩,
    ⟨L.CmpResult, .int 1, .other "icmp ult" [.inst L.IV_inc, .inst L.GLSCall]⟩]
  termId := L.termIds
  term := .condBr (.inst L.CmpResult) L.LoopHeader L.LoopEnd

def preheader : BasicBlock := ⟨[], L.termIds + 1, .br L.LoopHeader⟩

def header (LoopBody : BlockId) : BasicBlock where
  insts := [⟨L.IV, .int 32,
    .phi [(.constInt 32 0, L.LoopPreheader), (.inst L.IV_inc, L.LatchBB)]⟩]
  termId := L.termIds + 2
  term := .br LoopBody

def loopEnd (TheSucc2Exit : BlockId) : BasicBlock := ⟨[], L.termIds + 3, .br TheSucc2Exit⟩

/-- The new blocks, where the source creates them. -/
def create (F : Function) (EntryBB ExitBB TheSucc2Exit : BlockId) (DimensionKind : Nat) : Function :=
  (((F.createBlock L.LatchBB TheSucc2Exit (L.latch DimensionKind)).createBlock
    L.LoopPreheader EntryBB L.preheader).createBlock
    L.LoopHeader EntryBB (L.header EntryBB)).createBlock
    L.LoopEnd ExitBB (L.loopEnd TheSucc2Exit)

def addToTree (DT : DominatorTree) (EntryBB : BlockId) : DominatorTree :=
  ((DT.addNewBlock L.LoopPreheader EntryBB).addNewBlock L.LoopHeader L.LoopPreheader).addNewBlock
    L.LoopEnd L.LoopHeader

end DWLoop

/-- `order` is that of the use list.  The walk over the predecessors ends with the first one it
redirects: its use is then the only one in the list of the preheader. -/
def outsidePred (order : Function → BlockId → List BlockId) (F : Function) (DT : DominatorTree)
    (EntryBB : BlockId) : Option BlockId :=
  (order F EntryBB).find? fun Pred => !DT.dominates EntryBB Pred

/-- The outside predecessor enters the loop at its preheader, and the PHIs are told. -/
def enterAtPreheader (L : DWLoop) (EntryBB : BlockId) (F : Function) (Pred : BlockId) : Function :=
  (F.updateBlock Pred (BasicBlock.replaceSuccessor EntryBB L.LoopPreheader)).updateBlock EntryBB
    (BasicBlock.replaceIncoming Pred L.LoopHeader)

def rewire (order : Function → BlockId → List BlockId) (L : DWLoop) (F : Function)
    (DT : DominatorTree) (EntryBB ExitBB TheSucc2Exit : BlockId) (DimensionKind : Nat) : Function :=
  let F₁ := L.create (F.updateBlock ExitBB (BasicBlock.replaceSuccessor TheSucc2Exit L.LatchBB))
    EntryBB ExitBB TheSucc2Exit DimensionKind
  ((outsidePred order F₁ DT EntryBB).toList.foldl (enterAtPreheader L EntryBB) F₁).updateBlock
    EntryBB (BasicBlock.replaceSuccessor TheSucc2Exit L.LatchBB)

/-- Returns the new preheader and end, the entry and the exit of the next loop. -/
def buildDWLoopOverRegion (order : Function → BlockId → List BlockId) (RN : MxPARegion)
    (F : Function) (DT : DominatorTree) (EntryBB ExitBB : BlockId) (DimensionKind : Nat) :
    Except Failure ((Function × DominatorTree) × BlockId × BlockId) :=
  match F.succs ExitBB with
  | [TheSucc2Exit] =>
    let L := newLoop F
    let DT' := L.addToTree DT EntryBB
    let F' := rewire order L F DT' EntryBB ExitBB TheSucc2Exit DimensionKind
    .ok ((replaceIdCalls F' RN DimensionKind L.IV, DT'), L.LoopPreheader, L.LoopEnd)
  | _ => .error (.assertion "ExitBB->getTerminator()->getNumSuccessors() <= 1")

end LoopInserter

/-! ### New blocks -/

section
variable {F : Function} {b x New InsertBefore : BlockId} {BB : BasicBlock}

theorem mem_insertBefore {bs : List BlockId} :
    x ∈ insertBefore InsertBefore New bs ↔ x = New ∨ x ∈ bs := by
  induction bs with
  | nil => simp [insertBefore]
  | cons b bs ih =>
    rw [insertBefore]
    split
    · rw [List.mem_cons]
    · rw [List.mem_cons, ih, List.mem_cons]
      tauto

theorem Function.mem_layout_createBlock :
    x ∈ (F.createBlock New InsertBefore BB).layout ↔ x = New ∨ x ∈ F.layout := by
  rw [Function.layout, Function.createBlock]
  split
  · rw [List.mem_cons]
    rfl
  · rw [List.mem_cons, mem_insertBefore, Function.layout, List.mem_cons]
    tauto

@[simp] theorem Function.block_createBlock :
    (F.createBlock New InsertBefore BB).block New = BB := if_pos rfl

theorem Function.block_createBlock_ne (h : b ≠ New) :
    (F.createBlock New InsertBefore BB).block b = F.block b := if_neg h

end

namespace LoopInserter

/-- The four blocks of a loop are new and distinct. -/
structure DWLoop.Fresh (L : DWLoop) (F : Function) : Prop where
  latch : L.LatchBB ∉ F.layout
  preheader : L.LoopPreheader ∉ F.layout
  header : L.LoopHeader ∉ F.layout
  loopEnd : L.LoopEnd ∉ F.layout
  distinct : [L.LatchBB, L.LoopPreheader, L.LoopHeader, L.LoopEnd].Nodup

def DWLoop.blocks (L : DWLoop) : List BlockId :=
  [L.LatchBB, L.LoopPreheader, L.LoopHeader, L.LoopEnd]

theorem newLoop_fresh (F : Function) : (newLoop F).Fresh F := by
  have hfresh : ∀ n, F.freshBlock + n ∉ F.layout := fun n h =>
    absurd (F.lt_freshBlock h) (Nat.not_lt.mpr (Nat.le_add_right _ n))
  refine ⟨hfresh 0, hfresh 1, hfresh 2, hfresh 3, ?_⟩
  simp [newLoop]

section
variable {F : Function} {L : DWLoop} {EntryBB ExitBB TheSucc2Exit b : BlockId} {d : Nat}

theorem DWLoop.mem_layout_create : b ∈ (L.create F EntryBB ExitBB TheSucc2Exit d).layout ↔
    b ∈ L.blocks ∨ b ∈ F.layout := by
  simp only [DWLoop.create, Function.mem_layout_createBlock, DWLoop.blocks, List.mem_cons,
    List.not_mem_nil, or_false]
  tauto

theorem DWLoop.block_create_of_not_mem (h : b ∉ L.blocks) :
    (L.create F EntryBB ExitBB TheSucc2Exit d).block b = F.block b := by
  simp only [DWLoop.blocks, List.mem_cons, List.not_mem_nil, or_false, not_or] at h
  obtain ⟨hlatch, hpreheader, hheader, hend⟩ := h
  rw [DWLoop.create, Function.block_createBlock_ne hend, Function.block_createBlock_ne hheader,
    Function.block_createBlock_ne hpreheader, Function.block_createBlock_ne hlatch]

/-- The blocks of a loop of dimension `d` around `LoopBody`, left to `next`. -/
structure DWLoop.Stands (L : DWLoop) (F : Function) (d : Nat) (LoopBody next : BlockId) : Prop where
  latch : F.block L.LatchBB = L.latch d
  preheader : F.block L.LoopPreheader = L.preheader
  header : F.block L.LoopHeader = L.header LoopBody
  loopEnd : F.block L.LoopEnd = L.loopEnd next

theorem DWLoop.Fresh.stands_create (h : L.Fresh F) {G : Function} :
    L.Stands (L.create G EntryBB ExitBB TheSucc2Exit d) d EntryBB TheSucc2Exit := by
  have hd := h.distinct
  simp only [List.nodup_cons, List.mem_cons, List.not_mem_nil, or_false, not_or] at hd
  obtain ⟨⟨hlp, hlh, hle⟩, ⟨hph, hpe⟩, hhe, -⟩ := hd
  constructor
  · rw [DWLoop.create, Function.block_createBlock_ne hle, Function.block_createBlock_ne hlh,
      Function.block_createBlock_ne hlp, Function.block_createBlock]
  · rw [DWLoop.create, Function.block_createBlock_ne hpe, Function.block_createBlock_ne hph,
      Function.block_createBlock]
  · rw [DWLoop.create, Function.block_createBlock_ne hhe, Function.block_createBlock]
  · rw [DWLoop.create, Function.block_createBlock]

end

/-- A place for a loop: `Pred` alone enters at `EntryBB`, and `ExitBB` goes on to `next`. -/
structure Place (F : Function) (DT : DominatorTree) (EntryBB ExitBB next Pred : BlockId) :
    Prop where
  closed : F.Closed
  entry_mem : EntryBB ∈ F.layout
  exit_mem : ExitBB ∈ F.layout
  next_mem : next ∈ F.layout
  pred_mem : Pred ∈ F.layout
  leaves : F.succs ExitBB = [next]
  next_ne : next ≠ EntryBB
  enters : EntryBB ∈ F.succs Pred
  outside : ∀ p ∈ F.layout, EntryBB ∈ F.succs p → (DT.dominates EntryBB p = false ↔ p = Pred)
  refl : DT.dominates EntryBB EntryBB = true

section
variable {F : Function} {DT : DominatorTree} {L : DWLoop} {EntryBB ExitBB next Pred a b : BlockId}
  {d : Nat} {order : Function → BlockId → List BlockId}

theorem Place.pred_ne_entry (h : Place F DT EntryBB ExitBB next Pred) : Pred ≠ EntryBB := by
  rintro rfl
  exact Bool.false_ne_true (((h.outside Pred h.pred_mem h.enters).mpr rfl).symm.trans h.refl)

theorem Place.pred_ne_exit (h : Place F DT EntryBB ExitBB next Pred) : Pred ≠ ExitBB := by
  rintro rfl
  have henters := h.enters
  rw [h.leaves, List.mem_singleton] at henters
  exact h.next_ne henters.symm

theorem DWLoop.dominates_addToTree (h : b ∉ L.blocks) :
    (L.addToTree DT EntryBB).dominates a b = DT.dominates a b := by
  simp only [DWLoop.blocks, List.mem_cons, List.not_mem_nil, or_false, not_or] at h
  simp only [DWLoop.addToTree, DominatorTree.addNewBlock, if_neg h.2.1, if_neg h.2.2.1,
    if_neg h.2.2.2]

theorem DWLoop.Fresh.dominates_header (hL : L.Fresh F) (h : DT.dominates EntryBB EntryBB = true) :
    (L.addToTree DT EntryBB).dominates EntryBB L.LoopHeader = true := by
  have hd := hL.distinct
  simp only [List.nodup_cons, List.mem_cons, List.not_mem_nil, or_false, not_or] at hd
  simp [DWLoop.addToTree, DominatorTree.addNewBlock, hd.2.2.1, h]

theorem DWLoop.Fresh.not_mem_blocks (hL : L.Fresh F) (hb : b ∈ F.layout) : b ∉ L.blocks := by
  simp only [DWLoop.blocks, List.mem_cons, List.not_mem_nil, or_false, not_or]
  exact ⟨fun h => hL.latch (h ▸ hb), fun h => hL.preheader (h ▸ hb),
    fun h => hL.header (h ▸ hb), fun h => hL.loopEnd (h ▸ hb)⟩

/-- The function with the new blocks, before the predecessor is redirected. -/
def DWLoop.created (L : DWLoop) (F : Function) (EntryBB ExitBB next : BlockId) (d : Nat) :
    Function :=
  L.create (F.updateBlock ExitBB (BasicBlock.replaceSuccessor next L.LatchBB)) EntryBB ExitBB next d

theorem DWLoop.mem_layout_created :
    b ∈ (L.created F EntryBB ExitBB next d).layout ↔ b ∈ L.blocks ∨ b ∈ F.layout := by
  rw [DWLoop.created, DWLoop.mem_layout_create, Function.layout_updateBlock]

theorem DWLoop.block_created_of_not_mem (h : b ∉ L.blocks) :
    (L.created F EntryBB ExitBB next d).block b =
      if b = ExitBB then (F.block b).replaceSuccessor next L.LatchBB else F.block b := by
  rw [DWLoop.created, DWLoop.block_create_of_not_mem h]
  split
  · subst b
    rw [Function.block_updateBlock]
  · rw [Function.block_updateBlock_ne _ ‹_›]

/-- The new header is the one new predecessor of `EntryBB`. -/
theorem Place.mem_succs_created (h : Place F DT EntryBB ExitBB next Pred) (hL : L.Fresh F)
    (hb : b ∈ (L.created F EntryBB ExitBB next d).layout) :
    EntryBB ∈ (L.created F EntryBB ExitBB next d).succs b ↔
      b = L.LoopHeader ∨ b ∈ F.layout ∧ EntryBB ∈ F.succs b := by
  have hstands : L.Stands (L.created F EntryBB ExitBB next d) d EntryBB next := hL.stands_create
  have hentry := hL.not_mem_blocks h.entry_mem
  simp only [DWLoop.blocks, List.mem_cons, List.not_mem_nil, or_false, not_or] at hentry
  rcases DWLoop.mem_layout_created.mp hb with hnew | hold
  · have hnot : b ∉ F.layout := fun hmem => hL.not_mem_blocks hmem hnew
    simp only [hnot, false_and, or_false]
    rw [Function.succs]
    simp only [DWLoop.blocks, List.mem_cons, List.not_mem_nil, or_false] at hnew
    have hd := hL.distinct
    simp only [List.nodup_cons, List.mem_cons, List.not_mem_nil, or_false, not_or] at hd
    rcases hnew with rfl | rfl | rfl | rfl
    · rw [hstands.latch]
      simp [DWLoop.latch, Terminator.successors, hentry, hd.1.2.1]
    · rw [hstands.preheader]
      simp [DWLoop.preheader, Terminator.successors, hentry, hd.2.1.1]
    · rw [hstands.header]
      simp [DWLoop.header, Terminator.successors]
    · rw [hstands.loopEnd]
      simp [DWLoop.loopEnd, Terminator.successors, Ne.symm h.next_ne, Ne.symm hd.2.2.1]
  · have hne : b ≠ L.LoopHeader := fun heq => hL.header (heq ▸ hold)
    rw [Function.succs, DWLoop.block_created_of_not_mem (hL.not_mem_blocks hold)]
    simp only [hne, hold, true_and, false_or]
    split
    · subst b
      rw [h.leaves]
      have hsucc : (F.block ExitBB).term.successors = [next] := h.leaves
      simp [BasicBlock.replaceSuccessor, hsucc, rename, hentry.1, Ne.symm h.next_ne]
    · rfl

theorem Place.outsidePred_eq (h : Place F DT EntryBB ExitBB next Pred) (hL : L.Fresh F)
    (horder : ∀ G b p, p ∈ order G b ↔ p ∈ G.predEdges b) :
    outsidePred order (L.created F EntryBB ExitBB next d) (L.addToTree DT EntryBB) EntryBB =
      some Pred := by
  have hpred := hL.not_mem_blocks h.pred_mem
  have hmem : ∀ p, p ∈ order (L.created F EntryBB ExitBB next d) EntryBB ↔
      p = L.LoopHeader ∨ p ∈ F.layout ∧ EntryBB ∈ F.succs p := by
    intro p
    rw [horder, Function.mem_predEdges]
    constructor
    · rintro ⟨hp, hedge⟩
      exact (h.mem_succs_created hL hp).mp hedge
    · intro hp
      have hlayout : p ∈ (L.created F EntryBB ExitBB next d).layout := by
        refine DWLoop.mem_layout_created.mpr (hp.imp ?_ And.left)
        rintro rfl
        simp [DWLoop.blocks]
      exact ⟨hlayout, (h.mem_succs_created hL hlayout).mpr hp⟩
  cases hfind : outsidePred order (L.created F EntryBB ExitBB next d) (L.addToTree DT EntryBB)
      EntryBB with
  | none =>
    have hnone := List.find?_eq_none.mp hfind Pred ((hmem Pred).mpr (.inr ⟨h.pred_mem, h.enters⟩))
    rw [DWLoop.dominates_addToTree hpred, (h.outside Pred h.pred_mem h.enters).mpr rfl] at hnone
    exact absurd rfl hnone
  | some p =>
    have hp := List.find?_some (p := fun Pred =>
      !(L.addToTree DT EntryBB).dominates EntryBB Pred) hfind
    rcases (hmem p).mp (List.mem_of_find?_eq_some hfind) with rfl | ⟨hlayout, hedge⟩
    · rw [hL.dominates_header h.refl] at hp
      cases hp
    · rw [DWLoop.dominates_addToTree (hL.not_mem_blocks hlayout), Bool.not_eq_true'] at hp
      rw [(h.outside p hlayout hedge).mp hp]

def DWLoop.rewiredTerm (L : DWLoop) (EntryBB ExitBB next Pred b : BlockId) (t : Terminator) :
    Terminator :=
  let t := if b = ExitBB then t.mapBlocks (rename next L.LatchBB) else t
  let t := if b = Pred then t.mapBlocks (rename EntryBB L.LoopPreheader) else t
  if b = EntryBB then t.mapBlocks (rename next L.LatchBB) else t

/-- What the rewiring makes of an old block. -/
def DWLoop.rewired (L : DWLoop) (EntryBB ExitBB next Pred b : BlockId) (BB : BasicBlock) :
    BasicBlock where
  insts := if b = EntryBB then BB.insts.map (Instruction.mapBlocks (rename Pred L.LoopHeader))
    else BB.insts
  termId := BB.termId
  term := L.rewiredTerm EntryBB ExitBB next Pred b BB.term

/-- The name that the PHIs of an old block have for a predecessor after the rewiring. -/
def DWLoop.incomingName (L : DWLoop) (EntryBB Pred b : BlockId) : BlockId → BlockId :=
  if b = EntryBB then rename Pred L.LoopHeader else fun x => x

/-- Where an old block branches to after the rewiring. -/
def DWLoop.target (L : DWLoop) (EntryBB ExitBB next Pred b x : BlockId) : BlockId :=
  let x := if b = ExitBB then rename next L.LatchBB x else x
  let x := if b = Pred then rename EntryBB L.LoopPreheader x else x
  if b = EntryBB then rename next L.LatchBB x else x

theorem DWLoop.incomingName_of_ne (hb : b ≠ EntryBB) :
    L.incomingName EntryBB Pred b = fun x => x := if_neg hb

theorem DWLoop.target_of_ne (hentry : b ≠ EntryBB) (hexit : b ≠ ExitBB) (hpred : b ≠ Pred) :
    L.target EntryBB ExitBB next Pred b = fun x => x := by
  funext x
  simp only [DWLoop.target, if_neg hentry, if_neg hexit, if_neg hpred]

theorem DWLoop.target_pred (hentry : Pred ≠ EntryBB) (hexit : Pred ≠ ExitBB) :
    L.target EntryBB ExitBB next Pred Pred = rename EntryBB L.LoopPreheader := by
  funext x
  simp only [DWLoop.target, if_neg hentry, if_neg hexit, if_true]

theorem DWLoop.target_region (hnext : L.LatchBB ≠ next) (hpred : b ≠ Pred) :
    L.target EntryBB ExitBB next Pred b =
      if b = EntryBB ∨ b = ExitBB then rename next L.LatchBB else fun x => x := by
  funext x
  have htwice : rename next L.LatchBB (rename next L.LatchBB x) = rename next L.LatchBB x := by
    by_cases hx : x = next <;> simp [rename, hx, hnext]
  simp only [DWLoop.target, if_neg hpred]
  by_cases hentry : b = EntryBB
  · have hor : b = EntryBB ∨ b = ExitBB := .inl hentry
    rw [if_pos hentry, if_pos hor]
    split
    · exact htwice
    · rfl
  · by_cases hexit : b = ExitBB
    · have hor : b = EntryBB ∨ b = ExitBB := .inr hexit
      rw [if_neg hentry, if_pos hexit, if_pos hor]
    · rw [if_neg hentry, if_neg hexit, if_neg (not_or.mpr ⟨hentry, hexit⟩)]

theorem DWLoop.rewired_eq {BB : BasicBlock} : L.rewired EntryBB ExitBB next Pred b BB =
    BB.relabel (L.incomingName EntryBB Pred b) (L.target EntryBB ExitBB next Pred b) := by
  have hterm : ∀ {c : Prop} [Decidable c] (g t : BlockId → BlockId) (T : Terminator),
      (if c then (T.mapBlocks t).mapBlocks g else T.mapBlocks t) =
        T.mapBlocks fun x => if c then g (t x) else t x := by
    intro c _ g t T
    split
    · rw [Terminator.mapBlocks_mapBlocks]
      rfl
    · rfl
  have hid : BB.term = BB.term.mapBlocks fun x => x :=
    (Terminator.mapBlocks_eq_self fun _ _ => rfl).symm
  simp only [DWLoop.rewired, DWLoop.rewiredTerm, BasicBlock.relabel, BasicBlock.mk.injEq, true_and]
  constructor
  · rw [DWLoop.incomingName]
    split
    · rfl
    · exact (Instruction.map_mapBlocks_id _).symm
  · rw [hid]
    simp only [hterm]
    rw [← hid]
    rfl

theorem Place.rewire_eq (h : Place F DT EntryBB ExitBB next Pred) (hL : L.Fresh F)
    (horder : ∀ G b p, p ∈ order G b ↔ p ∈ G.predEdges b) :
    rewire order L F (L.addToTree DT EntryBB) EntryBB ExitBB next d =
      (enterAtPreheader L EntryBB (L.created F EntryBB ExitBB next d) Pred).updateBlock EntryBB
        (BasicBlock.replaceSuccessor next L.LatchBB) := by
  have hpred := h.outsidePred_eq hL (d := d) horder
  rw [DWLoop.created] at hpred
  rw [rewire, hpred]
  rfl

theorem Place.mem_layout_rewire (h : Place F DT EntryBB ExitBB next Pred) (hL : L.Fresh F)
    (horder : ∀ G b p, p ∈ order G b ↔ p ∈ G.predEdges b) :
    b ∈ (rewire order L F (L.addToTree DT EntryBB) EntryBB ExitBB next d).layout ↔
      b ∈ L.blocks ∨ b ∈ F.layout := by
  rw [h.rewire_eq hL horder]
  exact DWLoop.mem_layout_created

theorem Place.block_rewire_old (h : Place F DT EntryBB ExitBB next Pred) (hL : L.Fresh F)
    (horder : ∀ G b p, p ∈ order G b ↔ p ∈ G.predEdges b) (hb : b ∉ L.blocks) :
    (rewire order L F (L.addToTree DT EntryBB) EntryBB ExitBB next d).block b =
      L.rewired EntryBB ExitBB next Pred b (F.block b) := by
  have hcreated : (L.created F EntryBB ExitBB next d).block b =
      if b = ExitBB then (F.block b).replaceSuccessor next L.LatchBB else F.block b :=
    DWLoop.block_created_of_not_mem hb
  rw [h.rewire_eq hL horder, enterAtPreheader, DWLoop.rewired, DWLoop.rewiredTerm]
  by_cases hentry : b = EntryBB
  · subst hentry
    rw [Function.block_updateBlock, Function.block_updateBlock,
      Function.block_updateBlock_ne _ (Ne.symm h.pred_ne_entry), hcreated,
      if_neg (Ne.symm h.pred_ne_entry), if_pos rfl, if_pos rfl]
    split <;> rfl
  · rw [Function.block_updateBlock_ne _ hentry, Function.block_updateBlock_ne _ hentry,
      if_neg hentry, if_neg hentry]
    by_cases hpred : b = Pred
    · subst hpred
      rw [Function.block_updateBlock, hcreated, if_pos rfl]
      split <;> rfl
    · rw [Function.block_updateBlock_ne _ hpred, hcreated, if_neg hpred]
      split <;> rfl

theorem Place.block_rewire_new (h : Place F DT EntryBB ExitBB next Pred) (hL : L.Fresh F)
    (horder : ∀ G b p, p ∈ order G b ↔ p ∈ G.predEdges b) (hb : b ∈ L.blocks) :
    (rewire order L F (L.addToTree DT EntryBB) EntryBB ExitBB next d).block b =
      (L.created F EntryBB ExitBB next d).block b := by
  have hentry : b ≠ EntryBB := fun heq => hL.not_mem_blocks h.entry_mem (heq ▸ hb)
  have hpred : b ≠ Pred := fun heq => hL.not_mem_blocks h.pred_mem (heq ▸ hb)
  rw [h.rewire_eq hL horder, enterAtPreheader, Function.block_updateBlock_ne _ hentry,
    Function.block_updateBlock_ne _ hentry, Function.block_updateBlock_ne _ hpred]

theorem Place.stands_rewire (h : Place F DT EntryBB ExitBB next Pred) (hL : L.Fresh F)
    (horder : ∀ G b p, p ∈ order G b ↔ p ∈ G.predEdges b) :
    L.Stands (rewire order L F (L.addToTree DT EntryBB) EntryBB ExitBB next d) d EntryBB next := by
  have hstands : L.Stands (L.created F EntryBB ExitBB next d) d EntryBB next := hL.stands_create
  constructor
  · rw [h.block_rewire_new hL horder (by simp [DWLoop.blocks])]
    exact hstands.latch
  · rw [h.block_rewire_new hL horder (by simp [DWLoop.blocks])]
    exact hstands.preheader
  · rw [h.block_rewire_new hL horder (by simp [DWLoop.blocks])]
    exact hstands.header
  · rw [h.block_rewire_new hL horder (by simp [DWLoop.blocks])]
    exact hstands.loopEnd

end

/-! ### One loop -/

/-- Names and values are changed in any order. -/
theorem Function.eraseInsts_mapValues_relabel {F G : Function} {g t : BlockId → BlockId}
    {f : Value → Value} {gone : List InstId} {b : BlockId}
    (h : G.block b = (F.block b).relabel g t) :
    ((G.mapValues f).eraseInsts gone).block b =
      (((F.mapValues f).eraseInsts gone).block b).relabel g t := by
  simp only [Function.eraseInsts, Function.block_mapValues, h, BasicBlock.mapValues_relabel]
  simp only [BasicBlock.relabel, List.filter_map, Function.comp_def, Instruction.id_mapBlocks]

theorem isLocalIdCall_mapBlocks {g : BlockId → BlockId} (d : Nat) (I : Instruction) :
    isLocalIdCall d (I.mapBlocks g) = isLocalIdCall d I := by
  obtain ⟨i, t, op⟩ := I
  cases op <;> rfl

theorem isTrunc_mapBlocks {g : BlockId → BlockId} (I : Instruction) :
    (I.mapBlocks g).op.isTrunc = I.op.isTrunc := by
  obtain ⟨i, t, op⟩ := I
  cases op <;> rfl

section
variable {F : Function} {RN : MxPARegion} {d : Nat} {IV i n : InstId} {b x : BlockId}
  {I : Instruction} {L : DWLoop} {EntryBB ExitBB next Pred : BlockId} {BB : BasicBlock}

theorem DWLoop.insts_rewired : ∃ g : BlockId → BlockId,
    (L.rewired EntryBB ExitBB next Pred b BB).insts = BB.insts.map (Instruction.mapBlocks g) := by
  rw [DWLoop.rewired]
  split
  · exact ⟨_, rfl⟩
  · exact ⟨fun b => b, (Instruction.map_mapBlocks_id _).symm⟩

theorem mem_successors_rename {Old New : BlockId} {t : Terminator}
    (hx : x ∈ (t.mapBlocks (rename Old New)).successors) : x ∈ t.successors ∨ x = New := by
  rw [Terminator.successors_mapBlocks] at hx
  obtain ⟨y, hy, rfl⟩ := List.mem_map.mp hx
  rw [rename]
  split
  · exact .inr rfl
  · exact .inl hy

theorem DWLoop.mem_succs_rewired {t : Terminator}
    (hx : x ∈ (L.rewiredTerm EntryBB ExitBB next Pred b t).successors) :
    x ∈ t.successors ∨ x = L.LatchBB ∨ x = L.LoopPreheader ∧ b = Pred := by
  have hexit : ∀ {x}, x ∈ (if b = ExitBB then t.mapBlocks (rename next L.LatchBB)
      else t).successors → x ∈ t.successors ∨ x = L.LatchBB := by
    intro x hx
    split at hx
    · exact mem_successors_rename hx
    · exact .inl hx
  have hpred : ∀ {x}, x ∈ (if b = Pred then (if b = ExitBB then t.mapBlocks (rename next L.LatchBB)
      else t).mapBlocks (rename EntryBB L.LoopPreheader) else if b = ExitBB then
      t.mapBlocks (rename next L.LatchBB) else t).successors →
      x ∈ t.successors ∨ x = L.LatchBB ∨ x = L.LoopPreheader ∧ b = Pred := by
    intro x hx
    split at hx
    · rcases mem_successors_rename hx with hx | rfl
      · exact (hexit hx).imp_right .inl
      · exact .inr (.inr ⟨rfl, ‹_›⟩)
    · exact (hexit hx).imp_right .inl
  simp only [DWLoop.rewiredTerm] at hx
  split at hx
  · rcases mem_successors_rename hx with hx | rfl
    · exact hpred hx
    · exact .inr (.inl rfl)
  · exact hpred hx

end

/-- The function that a successful `buildDWLoopOverRegion` returns. -/
def built (order : Function → BlockId → List BlockId) (RN : MxPARegion) (F : Function)
    (DT : DominatorTree) (EntryBB ExitBB next : BlockId) (d : Nat) : Function :=
  replaceIdCalls (rewire order (newLoop F) F ((newLoop F).addToTree DT EntryBB) EntryBB ExitBB next d)
    RN d (newLoop F).IV

/-- The instructions of a loop are new. -/
structure DWLoop.From (L : DWLoop) (n : InstId) : Prop where
  IV : n ≤ L.IV
  GLSCall : n ≤ L.GLSCall
  IV_inc : n ≤ L.IV_inc
  CmpResult : n ≤ L.CmpResult

section
variable {order : Function → BlockId → List BlockId} {RN : MxPARegion} {F : Function}
  {DT : DominatorTree} {EntryBB ExitBB next Pred b x LoopBody : BlockId} {d d' : Nat} {n : InstId}
  {I : Instruction} {L : DWLoop}

theorem Place.build_eq (h : Place F DT EntryBB ExitBB next Pred) :
    buildDWLoopOverRegion order RN F DT EntryBB ExitBB d =
      .ok ((built order RN F DT EntryBB ExitBB next d, (newLoop F).addToTree DT EntryBB),
        (newLoop F).LoopPreheader, (newLoop F).LoopEnd) := by
  rw [buildDWLoopOverRegion, h.leaves]
  rfl

theorem newLoop_from (hn : n ≤ F.freshInst) : (newLoop F).From n :=
  ⟨hn, Nat.le_add_right_of_le hn, Nat.le_add_right_of_le hn, Nat.le_add_right_of_le hn⟩

theorem DWLoop.Stands.plain (h : L.Stands F d LoopBody next) (hb : b ∈ L.blocks)
    (hI : I ∈ (F.block b).insts) :
    I.op.isTrunc = false ∧ ∀ d', isLocalIdCall d' I = false := by
  simp only [DWLoop.blocks, List.mem_cons, List.not_mem_nil, or_false] at hb
  rcases hb with rfl | rfl | rfl | rfl
  · rw [h.latch] at hI
    simp only [DWLoop.latch, List.mem_cons, List.not_mem_nil, or_false] at hI
    rcases hI with rfl | rfl | rfl <;> exact ⟨rfl, fun _ => rfl⟩
  · rw [h.preheader] at hI
    cases hI
  · rw [h.header] at hI
    obtain rfl := List.mem_singleton.mp hI
    exact ⟨rfl, fun _ => rfl⟩
  · rw [h.loopEnd] at hI
    cases hI

theorem DWLoop.Stands.from_ids (h : L.Stands F d LoopBody next) (hL : L.From n) (hb : b ∈ L.blocks) :
    (∀ I ∈ (F.block b).insts, n ≤ I.id) ∧ ∀ i, .inst i ∈ (F.block b).values → n ≤ i := by
  obtain ⟨hIV, hGLS, hinc, hcmp⟩ := hL
  simp only [DWLoop.blocks, List.mem_cons, List.not_mem_nil, or_false] at hb
  rcases hb with rfl | rfl | rfl | rfl
  · rw [h.latch]
    simp [DWLoop.latch, BasicBlock.values, Op.operands, Terminator.operands, *]
  · rw [h.preheader]
    simp [DWLoop.preheader, BasicBlock.values, Terminator.operands]
  · rw [h.header]
    simp [DWLoop.header, BasicBlock.values, Op.operands, Terminator.operands, *]
  · rw [h.loopEnd]
    simp [DWLoop.loopEnd, BasicBlock.values, Terminator.operands]

section
variable (h : Place F DT EntryBB ExitBB next Pred)
  (horder : ∀ G b p, p ∈ order G b ↔ p ∈ G.predEdges b)
include h horder

theorem Place.mem_layout_built : b ∈ (built order RN F DT EntryBB ExitBB next d).layout ↔
    b ∈ (newLoop F).blocks ∨ b ∈ F.layout := by
  rw [built, layout_replaceIdCalls]
  exact h.mem_layout_rewire (newLoop_fresh F) horder

theorem Place.succs_built (hb : b ∉ (newLoop F).blocks) :
    (built order RN F DT EntryBB ExitBB next d).succs b =
      ((newLoop F).rewiredTerm EntryBB ExitBB next Pred b (F.block b).term).successors := by
  rw [built, succs_replaceIdCalls, Function.succs,
    h.block_rewire_old (newLoop_fresh F) horder hb]
  rfl

/-- What an old block of the rewired function has of the old one. -/
theorem Place.rewire_old (hb : b ∈ F.layout) : ∃ g : BlockId → BlockId,
    ((rewire order (newLoop F) F ((newLoop F).addToTree DT EntryBB) EntryBB ExitBB next
      d).block b).insts = (F.block b).insts.map (Instruction.mapBlocks g) ∧
    ((rewire order (newLoop F) F ((newLoop F).addToTree DT EntryBB) EntryBB ExitBB next
      d).block b).term.operands = (F.block b).term.operands := by
  have hL := newLoop_fresh F
  obtain ⟨g, hg⟩ : ∃ g : BlockId → BlockId,
      ((newLoop F).rewired EntryBB ExitBB next Pred b (F.block b)).insts =
        (F.block b).insts.map (Instruction.mapBlocks g) := DWLoop.insts_rewired
  refine ⟨g, ?_, ?_⟩
  · rw [h.block_rewire_old hL horder (hL.not_mem_blocks hb), hg]
  · rw [h.block_rewire_old hL horder (hL.not_mem_blocks hb), DWLoop.rewired, DWLoop.rewiredTerm]
    simp only [apply_ite Terminator.operands, Terminator.operands_mapBlocks, ite_self]

theorem Place.callsBelow_rewire (hcalls : CallsBelow F n) :
    CallsBelow (rewire order (newLoop F) F ((newLoop F).addToTree DT EntryBB) EntryBB ExitBB
      next d) n := by
  intro b hb I hI hkind
  rcases (h.mem_layout_rewire (newLoop_fresh F) horder).mp hb with hnew | hold
  · obtain ⟨htrunc, hcall⟩ := (h.stands_rewire (newLoop_fresh F) horder).plain hnew hI
    rcases hkind with ht | ⟨d', hd'⟩
    · exact absurd (htrunc.symm.trans ht) Bool.false_ne_true
    · exact absurd ((hcall d').symm.trans hd') Bool.false_ne_true
  · obtain ⟨g, hinsts, -⟩ := h.rewire_old (d := d) horder hold
    rw [hinsts] at hI
    obtain ⟨J, hJ, rfl⟩ := List.mem_map.mp hI
    rw [isTrunc_mapBlocks] at hkind
    simp only [isLocalIdCall_mapBlocks] at hkind
    exact hcalls b hold J hJ hkind

theorem Place.callsBelow_built (hcalls : CallsBelow F n) :
    CallsBelow (built order RN F DT EntryBB ExitBB next d) n :=
  (h.callsBelow_rewire horder hcalls).replaceIdCalls

/-- An instruction of an old block is an old one. -/
theorem Place.mem_built (hb : b ∈ F.layout)
    (hI : I ∈ ((built order RN F DT EntryBB ExitBB next d).block b).insts) :
    ∃ J ∈ (F.block b).insts, J.id = I.id ∧ ∀ d', isLocalIdCall d' I = isLocalIdCall d' J := by
  obtain ⟨-, J, hJ, rfl⟩ := mem_replaceIdCalls hI
  obtain ⟨g, hinsts, -⟩ := h.rewire_old (d := d) horder hb
  rw [hinsts] at hJ
  obtain ⟨K, hK, rfl⟩ := List.mem_map.mp hJ
  refine ⟨K, hK, rfl, fun d' => ?_⟩
  rw [isLocalIdCall_mapValues fun v w c => toIV_eq_constInt, isLocalIdCall_mapBlocks]

theorem Place.localIdCalls_rewire (hRN : ∀ b ∈ RN.BBInvolved, b ∈ F.layout) :
    localIdCalls (rewire order (newLoop F) F ((newLoop F).addToTree DT EntryBB) EntryBB ExitBB
      next d) RN d' = localIdCalls F RN d' := by
  refine List.flatMap_congr fun b hb => ?_
  obtain ⟨g, hinsts, -⟩ := h.rewire_old (d := d) horder (hRN b hb)
  have hcall : (fun I => isLocalIdCall d' (Instruction.mapBlocks g I)) = isLocalIdCall d' :=
    funext fun I => isLocalIdCall_mapBlocks d' I
  rw [hinsts, List.filter_map, List.map_map]
  simp only [Function.comp_def, hcall, Instruction.id_mapBlocks]

theorem Place.truncOf_rewire {c t : InstId}
    (ht : TruncOf (rewire order (newLoop F) F ((newLoop F).addToTree DT EntryBB) EntryBB ExitBB
      next d) c t) : TruncOf F c t := by
  obtain ⟨b, hb, T, hT, hid, htrunc, hc⟩ := ht
  rcases (h.mem_layout_rewire (newLoop_fresh F) horder).mp hb with hnew | hold
  · have hplain := (h.stands_rewire (newLoop_fresh F) horder).plain hnew hT
    exact absurd (hplain.1.symm.trans htrunc) Bool.false_ne_true
  · obtain ⟨g, hinsts, -⟩ := h.rewire_old (d := d) horder hold
    rw [hinsts] at hT
    obtain ⟨S, hS, rfl⟩ := List.mem_map.mp hT
    rw [isTrunc_mapBlocks] at htrunc
    rw [Instruction.mapBlocks, Op.operands_mapBlocks] at hc
    exact ⟨b, hold, S, hS, hid, htrunc, hc⟩

/-- An old block has its old instructions but the calls and their truncations, and reads the induction
variable for these. -/
theorem Place.reads_built (hRN : ∀ b ∈ RN.BBInvolved, b ∈ F.layout) : ∃ f gone,
    PutsIV F RN d (newLoop F).IV f ∧ TakesOut F RN [(d, (newLoop F).IV)] f gone ∧
      ∀ b ∈ F.layout, (built order RN F DT EntryBB ExitBB next d).block b =
        (((F.mapValues f).eraseInsts gone).block b).relabel
          ((newLoop F).incomingName EntryBB Pred b)
          ((newLoop F).target EntryBB ExitBB next Pred b) := by
  have hcalls : localIdCalls (rewire order (newLoop F) F ((newLoop F).addToTree DT EntryBB) EntryBB
      ExitBB next d) RN d = localIdCalls F RN d := h.localIdCalls_rewire horder hRN
  have htrunc := fun c t => h.truncOf_rewire (d := d) horder (c := c) (t := t)
  have hblock : ∀ b ∈ F.layout, (rewire order (newLoop F) F ((newLoop F).addToTree DT EntryBB)
      EntryBB ExitBB next d).block b = (F.block b).relabel
        ((newLoop F).incomingName EntryBB Pred b) ((newLoop F).target EntryBB ExitBB next Pred b) :=
    fun b hb => (h.block_rewire_old (newLoop_fresh F) horder
      ((newLoop_fresh F).not_mem_blocks hb)).trans DWLoop.rewired_eq
  rw [built]
  generalize rewire order (newLoop F) F ((newLoop F).addToTree DT EntryBB) EntryBB ExitBB next d = R
    at hcalls htrunc hblock
  refine ⟨toIV (newLoop F).IV ((localIdCalls R RN d).map (replacedBy R)), erasedIds R RN d,
    fun v => ?_, ⟨fun p hp c hc => ?_, fun i hi => ?_, takesOut_erasedIds.reads⟩,
    fun b hb => Function.eraseInsts_mapValues_relabel (hblock b hb)⟩
  · refine (putsIV_toIV v).imp_right fun ⟨⟨c, hc, hstands⟩, hv⟩ => ⟨⟨c, hcalls ▸ hc, ?_⟩, hv⟩
    exact hstands.imp_right fun ⟨t, ht, hof⟩ => ⟨t, ht, htrunc c t hof⟩
  · obtain rfl := List.mem_singleton.mp hp
    exact List.mem_append_left _ (hcalls ▸ hc)
  · obtain ⟨p, hp, hi⟩ := takesOut_erasedIds.others i hi
    obtain rfl := List.mem_singleton.mp hp
    refine ⟨_, hp, hi.imp (fun hi => hcalls ▸ hi) fun ⟨c, hc, ht, hf⟩ => ⟨c, hcalls ▸ hc, ?_, hf⟩⟩
    exact htrunc c i ht

theorem Place.gone_built (hRN : ∀ b ∈ RN.BBInvolved, b ∈ F.layout) {c : InstId}
    (hc : c ∈ localIdCalls F RN d) (hIV : c ≠ (newLoop F).IV)
    (hb : b ∈ (built order RN F DT EntryBB ExitBB next d).layout) :
    .inst c ∉ ((built order RN F DT EntryBB ExitBB next d).block b).values := by
  refine not_mem_values_replaceIdCalls hb ?_ hIV
  rwa [h.localIdCalls_rewire horder hRN]

theorem Place.kept_built (hRN : ∀ b ∈ RN.BBInvolved, b ∈ F.layout) {c : InstId}
    (hc : c ∈ localIdCalls F RN d') (hd : c ∉ localIdCalls F RN d)
    (htrunc : ∀ a ∈ localIdCalls F RN d, ¬ TruncOf F a c) :
    c ∈ localIdCalls (built order RN F DT EntryBB ExitBB next d) RN d' := by
  apply mem_localIdCalls_replaceIdCalls
  · rwa [h.localIdCalls_rewire horder hRN]
  · rwa [h.localIdCalls_rewire horder hRN]
  · rw [h.localIdCalls_rewire horder hRN]
    exact fun a ha ht => htrunc a ha (h.truncOf_rewire horder ht)

variable (hcalls : CallsBelow F n) (hRN : ∀ b ∈ RN.BBInvolved, b ∈ F.layout)
include hcalls hRN

theorem Place.stands_built (hn : n ≤ F.freshInst) :
    (newLoop F).Stands (built order RN F DT EntryBB ExitBB next d) d EntryBB next := by
  have hstands := h.stands_rewire (d := d) (newLoop_fresh F) horder
  have hkeep : ∀ b ∈ (newLoop F).blocks,
      (built order RN F DT EntryBB ExitBB next d).block b =
        (rewire order (newLoop F) F ((newLoop F).addToTree DT EntryBB) EntryBB ExitBB next
          d).block b := by
    intro b hb
    obtain ⟨hids, hvalues⟩ := hstands.from_ids (newLoop_from hn) hb
    refine (h.callsBelow_rewire horder hcalls).block_replaceIdCalls (fun b hb => ?_) hids hvalues
    exact (h.mem_layout_rewire (newLoop_fresh F) horder).mpr (.inr (hRN b hb))
  constructor
  · rw [hkeep _ (by simp [DWLoop.blocks])]
    exact hstands.latch
  · rw [hkeep _ (by simp [DWLoop.blocks])]
    exact hstands.preheader
  · rw [hkeep _ (by simp [DWLoop.blocks])]
    exact hstands.header
  · rw [hkeep _ (by simp [DWLoop.blocks])]
    exact hstands.loopEnd

/-- A loop built before stands as it did; if it is the one wrapped, it is left to the new latch. -/
theorem Place.stands_frame (hL : L.From n) (hblocks : ∀ b ∈ L.blocks, b ∈ F.layout)
    (hpred : Pred ∉ L.blocks) (hnext : next ∉ L.blocks)
    (hentry : EntryBB ∈ L.blocks → EntryBB = L.LoopPreheader)
    (hexit : ExitBB ∈ L.blocks → ExitBB = L.LoopEnd)
    (hdistinct : [L.LatchBB, L.LoopPreheader, L.LoopHeader, L.LoopEnd].Nodup)
    (hstands : L.Stands F d' LoopBody x) :
    L.Stands (built order RN F DT EntryBB ExitBB next d) d' LoopBody
      (if L.LoopEnd = ExitBB then (newLoop F).LatchBB else x) := by
  have hfresh : ∀ b ∈ L.blocks, b ∉ (newLoop F).blocks := fun b hb =>
    (newLoop_fresh F).not_mem_blocks (hblocks b hb)
  have hkeep : ∀ b ∈ L.blocks, ∀ BB : BasicBlock,
      (newLoop F).rewired EntryBB ExitBB next Pred b (F.block b) = BB →
      (∀ I ∈ BB.insts, n ≤ I.id) → (∀ i, .inst i ∈ BB.values → n ≤ i) →
      (built order RN F DT EntryBB ExitBB next d).block b = BB := by
    intro b hb BB hBB hids hvalues
    have hrewire := (h.block_rewire_old (d := d) (newLoop_fresh F) horder (hfresh b hb)).trans hBB
    rw [← hrewire] at hids hvalues
    rw [← hrewire]
    refine (h.callsBelow_rewire horder hcalls).block_replaceIdCalls (fun b hb => ?_) hids hvalues
    exact (h.mem_layout_rewire (newLoop_fresh F) horder).mpr (.inr (hRN b hb))
  have hne : ∀ b ∈ L.blocks, b ≠ Pred := fun b hb heq => hpred (heq ▸ hb)
  have hlatch : L.LatchBB ∈ L.blocks := by simp [DWLoop.blocks]
  have hpreheader : L.LoopPreheader ∈ L.blocks := by simp [DWLoop.blocks]
  have hheader : L.LoopHeader ∈ L.blocks := by simp [DWLoop.blocks]
  have hend : L.LoopEnd ∈ L.blocks := by simp [DWLoop.blocks]
  simp only [List.nodup_cons, List.mem_cons, List.not_mem_nil, or_false, not_or] at hdistinct
  obtain ⟨⟨hlp, hlh, hle⟩, ⟨hph, hpe⟩, hhe, -⟩ := hdistinct
  have hplain : ∀ b ∈ L.blocks, b ≠ L.LoopPreheader → b ≠ L.LoopEnd →
      (newLoop F).rewired EntryBB ExitBB next Pred b (F.block b) = F.block b := by
    intro b hb hb1 hb2
    have hbE : b ≠ EntryBB := fun heq => hb1 (heq.trans (hentry (heq ▸ hb)))
    have hbX : b ≠ ExitBB := fun heq => hb2 (heq.trans (hexit (heq ▸ hb)))
    simp only [DWLoop.rewired, DWLoop.rewiredTerm, if_neg hbE, if_neg hbX, if_neg (hne b hb)]
  constructor
  · obtain ⟨hids, hvalues⟩ := hstands.from_ids hL hlatch
    rw [hkeep _ hlatch _ (hplain _ hlatch hlp hle) hids hvalues, hstands.latch]
  · refine hkeep _ hpreheader _ ?_ (by simp [DWLoop.preheader])
      (by simp [DWLoop.preheader, BasicBlock.values, Terminator.operands])
    have hX : L.LoopPreheader ≠ ExitBB := fun heq => hpe (heq.trans (hexit (heq ▸ hpreheader)))
    have hterm : L.LoopHeader ≠ next := fun heq => hnext (heq ▸ hheader)
    rw [hstands.preheader]
    simp only [DWLoop.rewired, DWLoop.rewiredTerm, DWLoop.preheader, if_neg hX,
      if_neg (hne _ hpreheader), Terminator.mapBlocks, rename, if_neg hterm, List.map_nil, ite_self]
  · obtain ⟨hids, hvalues⟩ := hstands.from_ids hL hheader
    rw [hkeep _ hheader _ (hplain _ hheader (Ne.symm hph) hhe) hids hvalues, hstands.header]
  · refine hkeep _ hend _ ?_ (by simp [DWLoop.loopEnd])
      (by simp [DWLoop.loopEnd, BasicBlock.values, Terminator.operands])
    have hE : L.LoopEnd ≠ EntryBB := fun heq => hpe (heq.trans (hentry (heq ▸ hend))).symm
    rw [hstands.loopEnd]
    simp only [DWLoop.rewired, DWLoop.rewiredTerm, DWLoop.loopEnd, if_neg hE,
      if_neg (hne _ hend)]
    split
    · have hleaves := h.leaves
      rw [← ‹L.LoopEnd = ExitBB›, Function.succs, hstands.loopEnd] at hleaves
      obtain rfl := (List.cons.inj hleaves).1
      simp [Terminator.mapBlocks, rename]
    · rfl

theorem Place.place_built (hn : n ≤ F.freshInst)
    (hfresh : DT.dominates (newLoop F).LoopPreheader Pred = false) :
    Place (built order RN F DT EntryBB ExitBB next d) ((newLoop F).addToTree DT EntryBB)
      (newLoop F).LoopPreheader (newLoop F).LoopEnd next Pred := by
  have hL := newLoop_fresh F
  have hstands := h.stands_built (d := d) horder hcalls hRN hn
  have hlayout : ∀ b, b ∈ (built order RN F DT EntryBB ExitBB next d).layout ↔
      b ∈ (newLoop F).blocks ∨ b ∈ F.layout := fun b => h.mem_layout_built horder
  have hdist := hL.distinct
  simp only [List.nodup_cons, List.mem_cons, List.not_mem_nil, or_false, not_or] at hdist
  obtain ⟨⟨hlp, hlh, hle⟩, ⟨hph, hpe⟩, hhe, -⟩ := hdist
  have hlatch : (newLoop F).LatchBB ∈ (newLoop F).blocks := by simp [DWLoop.blocks]
  have hpreheader : (newLoop F).LoopPreheader ∈ (newLoop F).blocks := by simp [DWLoop.blocks]
  have hheader : (newLoop F).LoopHeader ∈ (newLoop F).blocks := by simp [DWLoop.blocks]
  have hend : (newLoop F).LoopEnd ∈ (newLoop F).blocks := by simp [DWLoop.blocks]
  have hnew : ∀ b ∈ (newLoop F).blocks,
      ∀ s ∈ (built order RN F DT EntryBB ExitBB next d).succs b,
        s = (newLoop F).LoopHeader ∨ s = (newLoop F).LoopEnd ∨ s = EntryBB ∨ s = next := by
    intro b hb s hs
    simp only [DWLoop.blocks, List.mem_cons, List.not_mem_nil, or_false] at hb
    rw [Function.succs] at hs
    rcases hb with rfl | rfl | rfl | rfl
    · rw [hstands.latch] at hs
      simp only [DWLoop.latch, Terminator.successors, List.mem_cons, List.not_mem_nil,
        or_false] at hs
      exact hs.imp_right .inl
    · rw [hstands.preheader] at hs
      exact .inl (List.mem_singleton.mp hs)
    · rw [hstands.header] at hs
      exact .inr (.inr (.inl (List.mem_singleton.mp hs)))
    · rw [hstands.loopEnd] at hs
      exact .inr (.inr (.inr (List.mem_singleton.mp hs)))
  have hold : ∀ b ∈ F.layout, ∀ s ∈ (built order RN F DT EntryBB ExitBB next d).succs b,
      s ∈ F.layout ∨ s = (newLoop F).LatchBB ∨ s = (newLoop F).LoopPreheader ∧ b = Pred := by
    intro b hb s hs
    rw [h.succs_built horder (hL.not_mem_blocks hb)] at hs
    exact (DWLoop.mem_succs_rewired hs).imp_left (h.closed b hb s)
  have hpred := hL.not_mem_blocks h.pred_mem
  constructor
  · intro b hb s hs
    rw [hlayout]
    rcases (hlayout b).mp hb with hb | hb
    · rcases hnew b hb s hs with rfl | rfl | rfl | rfl
      · exact .inl hheader
      · exact .inl hend
      · exact .inr h.entry_mem
      · exact .inr h.next_mem
    · rcases hold b hb s hs with hs | rfl | ⟨rfl, -⟩
      · exact .inr hs
      · exact .inl hlatch
      · exact .inl hpreheader
  · exact (hlayout _).mpr (.inl hpreheader)
  · exact (hlayout _).mpr (.inl hend)
  · exact (hlayout _).mpr (.inr h.next_mem)
  · exact (hlayout _).mpr (.inr h.pred_mem)
  · rw [Function.succs, hstands.loopEnd]
    rfl
  · exact fun heq => hL.preheader (heq ▸ h.next_mem)
  · rw [h.succs_built horder hpred, DWLoop.rewiredTerm, if_neg h.pred_ne_exit,
      if_neg h.pred_ne_entry, if_pos rfl, Terminator.successors_mapBlocks]
    exact List.mem_map.mpr ⟨EntryBB, h.enters, if_pos rfl⟩
  · intro p hp hedge
    have hpp : p = Pred := by
      rcases (hlayout p).mp hp with hp | hp
      · rcases hnew p hp _ hedge with heq | heq | heq | heq
        · exact absurd heq hph
        · exact absurd heq hpe
        · exact absurd (heq ▸ h.entry_mem) hL.preheader
        · exact absurd (heq ▸ h.next_mem) hL.preheader
      · rcases hold p hp _ hedge with hs | heq | ⟨-, hp⟩
        · exact absurd hs hL.preheader
        · exact absurd heq.symm hlp
        · exact hp
    subst hpp
    rw [DWLoop.dominates_addToTree hpred, hfresh]
    exact iff_of_true rfl rfl
  · simp [DWLoop.addToTree, DominatorTree.addNewBlock, hph, hpe]

end

end

end LoopInserter

end VariOCL.IR
