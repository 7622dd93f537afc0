import Mathlib.Data.List.Find
import VariOCL.IR.Split
import VariOCL.Sim.Erasure

/-! The instructions a function executes along its paths, and the edits that only add to them. -/

namespace VariOCL.IR

open Sim

/-- One executed instruction; branch targets and incoming blocks are not part of it, the value a PHI
takes and the successor taken are. -/
inductive Event
  | inst (id : InstId) (ty : Ty) (op : Op)
  | phi (id : InstId) (ty : Ty) (v : Option Value)
  | branch (id : InstId) (term : Terminator) (taken : Option Nat)
  deriving DecidableEq

def Event.id : Event → InstId
  | .inst id _ _ => id
  | .phi id _ _ => id
  | .branch id _ _ => id

def Instruction.event (pred : Option BlockId) (I : Instruction) : Event :=
  match I.op with
  | .phi incoming => .phi I.id I.ty ((incoming.find? fun p => some p.2 = pred).map Prod.fst)
  | op => .inst I.id I.ty op

@[simp] theorem Instruction.id_event (pred : Option BlockId) (I : Instruction) :
    (I.event pred).id = I.id := by
  cases I with
  | mk id ty op => cases op <;> rfl

theorem Instruction.event_of_not_phi {I : Instruction} (h : I.op.isPhi = false)
    (pred pred' : Option BlockId) : I.event pred = I.event pred' := by
  cases I with
  | mk id ty op => cases op <;> first | rfl | cases h

theorem Instruction.event_mapBlocks {g : BlockId → BlockId} {I : Instruction}
    {pred pred' : Option BlockId}
    (h : ∀ p ∈ I.op.incomingBlocks, some (g p) = pred' ↔ some p = pred) :
    (I.mapBlocks g).event pred' = I.event pred := by
  cases I with
  | mk id ty op =>
    cases op with
    | phi incoming =>
      simp only [mapBlocks, Op.mapBlocks, event, Event.phi.injEq, true_and]
      rw [List.find?_map, Option.map_map]
      have : (incoming.find? fun p => decide (some (g p.2) = pred')) =
          incoming.find? fun p => decide (some p.2 = pred) :=
        List.find?_congr fun p hp => decide_eq_decide.mpr (h p.2 (List.mem_map_of_mem hp))
      simp only [Function.comp_def, this]
    | _ => rfl

/-- Control inside a block, with the instructions before the terminator still to execute. -/
inductive Point
  | inside (b : BlockId) (todo : List Event)
  | halted

def BasicBlock.events (BB : BasicBlock) (pred : Option BlockId) : List Event :=
  BB.insts.map (Instruction.event pred)

def Function.enter (F : Function) (pred : Option BlockId) (b : BlockId) : Point :=
  .inside b ((F.block b).events pred)

def BasicBlock.branch (BB : BasicBlock) (taken : Option Nat) : Event :=
  .branch BB.termId (BB.term.mapBlocks fun _ => 0) taken

inductive Function.Step (F : Function) : Point → List Event → Point → Prop
  | inst (b : BlockId) (e : Event) (es : List Event) : F.Step (.inside b (e :: es)) [e] (.inside b es)
  | jump {b : BlockId} {i : Nat} {s : BlockId} : (F.succs b)[i]? = some s →
      F.Step (.inside b []) [(F.block b).branch (some i)] (F.enter (some b) s)
  | halt {b : BlockId} : F.succs b = [] →
      F.Step (.inside b []) [(F.block b).branch none] .halted

/-- What the execution paths of `F` execute, prefixes included. -/
def Function.traces (F : Function) : Set (List Event) :=
  Sim.traces F.Step (F.enter none F.entry)

/-- The same with every instruction outside `ids` erased. -/
def Function.tracesOn (F : Function) (ids : List InstId) : Set (List Event) :=
  Sim.keptTraces (fun e => decide (e.id ∈ ids)) F.Step (F.enter none F.entry)

theorem Function.run_todo (F : Function) (b : BlockId) (es es' : List Event) :
    Run F.Step (.inside b (es ++ es')) es (.inside b es') := by
  induction es with
  | nil => exact .refl _
  | cons e es ih => exact .head (.inst b e (es ++ es')) ih

/-! ### Adding instructions inside blocks -/

/-- `F` and `G` have the same branches, and the same instructions up to those outside `keep`. -/
structure Function.SameOn (keep : Event → Bool) (F G : Function) : Prop where
  term : ∀ b, (G.block b).term = (F.block b).term
  termId : ∀ b, (G.block b).termId = (F.block b).termId
  events : ∀ b pred, ((G.block b).events pred).filter keep = ((F.block b).events pred).filter keep

theorem Function.SameOn.symm {keep : Event → Bool} {F G : Function} (h : F.SameOn keep G) :
    G.SameOn keep F where
  term b := (h.term b).symm
  termId b := (h.termId b).symm
  events b p := (h.events b p).symm

inductive AgreeOn (keep : Event → Bool) : Point → Point → Prop
  | inside (b : BlockId) {es es' : List Event} : es'.filter keep = es.filter keep →
      AgreeOn keep (.inside b es) (.inside b es')
  | halted : AgreeOn keep .halted .halted

theorem AgreeOn.symm {keep : Event → Bool} {p q : Point} (h : AgreeOn keep p q) :
    AgreeOn keep q p := by
  cases h with
  | inside b h => exact .inside b h.symm
  | halted => exact .halted

theorem Function.SameOn.simulates {keep : Event → Bool} {F G : Function} (h : F.SameOn keep G) :
    Simulates keep (AgreeOn keep) F.Step G.Step := by
  have hbranch : ∀ b i, (G.block b).branch i = (F.block b).branch i := by
    intro b i
    simp [BasicBlock.branch, h.term, h.termId]
  have hsuccs : ∀ b, G.succs b = F.succs b := fun b => by rw [succs, h.term, succs]
  intro p q es p' hR hs
  cases hs with
  | inst b e es =>
    cases hR with
    | @inside _ _ es' hes =>
      by_cases he : keep e
      · rw [List.filter_cons_of_pos he, List.filter_eq_cons_iff] at hes
        obtain ⟨pre, post, rfl, hpre, -, hpost⟩ := hes
        have hnil : pre.filter keep = [] := List.filter_eq_nil_iff.mpr hpre
        refine ⟨pre ++ [e], _, (G.run_todo b pre _).trans (.single (.inst b e post)), ?_,
          .inside b hpost⟩
        rw [List.filter_append, hnil, List.nil_append]
      · rw [List.filter_cons_of_neg he] at hes
        exact ⟨[], _, .refl _, by simp [he], .inside b hes⟩
  | @jump b i s hi =>
    cases hR with
    | @inside _ _ es' hes =>
      have hrun := G.run_todo b es' []
      rw [List.append_nil] at hrun
      have hjump : G.Step (.inside b []) _ _ := .jump (by rw [hsuccs]; exact hi)
      refine ⟨_, _, hrun.trans (.single hjump), ?_, .inside s (h.events s (some b))⟩
      rw [List.filter_append, hes, hbranch, List.filter_nil, List.nil_append]
  | @halt b hi =>
    cases hR with
    | @inside _ _ es' hes =>
      have hrun := G.run_todo b es' []
      rw [List.append_nil] at hrun
      have hhalt : G.Step (.inside b []) _ _ := .halt (by rw [hsuccs]; exact hi)
      refine ⟨_, _, hrun.trans (.single hhalt), ?_, .halted⟩
      rw [List.filter_append, hes, hbranch, List.filter_nil, List.nil_append]

theorem Function.SameOn.tracesOn_eq {F G : Function} {ids : List InstId}
    (h : F.SameOn (fun e => decide (e.id ∈ ids)) G) (he : G.entry = F.entry) :
    G.tracesOn ids = F.tracesOn ids := by
  refine (keptTraces_eq h.simulates ?_ ?_).symm
  · intro q p es q' hR hs
    obtain ⟨es', p', hr, hes, hR'⟩ := h.symm.simulates hR.symm hs
    exact ⟨es', p', hr, hes, hR'.symm⟩
  · rw [enter, enter, he]
    exact .inside _ (h.events _ _)

theorem Function.tracesOn_createBarrierBeforeTerminator {F : Function} {ids : List InstId}
    (h : F.freshInst ∉ ids) (b : BlockId) :
    (F.createBarrierBeforeTerminator b).tracesOn ids = F.tracesOn ids := by
  refine SameOn.tracesOn_eq ⟨fun x => ?_, fun x => ?_, fun x pred => ?_⟩ rfl
  all_goals
    by_cases hx : x = b
    · subst hx
      simp [createBarrierBeforeTerminator, BasicBlock.insertBeforeTerminator, BasicBlock.events,
        barrierCall, h]
    · rw [createBarrierBeforeTerminator, block_updateBlock_ne _ hx]

/-! ### Splitting a block -/

section
variable {F : Function} {Old : BlockId} {SplitPt : InstId}

/-- A point of `F` and the point of `F.splitBlock Old SplitPt` with the same instructions ahead. -/
inductive SplitPoint (F : Function) (Old : BlockId) (SplitPt : InstId) : Point → Point → Prop
  | other {b : BlockId} (es : List Event) : b ∈ F.layout → b ≠ Old →
      SplitPoint F Old SplitPt (.inside b es) (.inside b es)
  | before (es : List Event) : SplitPoint F Old SplitPt
      (.inside Old (es ++ ((F.block Old).afterSplit SplitPt).map (Instruction.event none)))
      (.inside Old es)
  | after (es : List Event) :
      SplitPoint F Old SplitPt (.inside Old es) (.inside F.freshBlock es)
  | halted : SplitPoint F Old SplitPt .halted .halted

theorem Function.Valid.map_event_afterSplit (hF : F.Valid) (ho : Old ∈ F.layout)
    (pred : Option BlockId) : ((F.block Old).afterSplit SplitPt).map (Instruction.event pred) =
      ((F.block Old).afterSplit SplitPt).map (Instruction.event none) :=
  List.map_congr_left fun _ hI =>
    Instruction.event_of_not_phi (hF.not_phi_afterSplit ho hI) pred none

theorem Function.Valid.event_splitRename (hF : F.Valid) {u s : BlockId}
    {I : Instruction} (hu : u ∈ F.layout) (hs : s ∈ F.succs u) (hI : I ∈ (F.block s).insts) :
    (I.mapBlocks (F.splitRename Old s)).event (some (rename Old F.freshBlock u)) =
      I.event (some u) := by
  have hsl := hF.closed u hu s hs
  refine Instruction.event_mapBlocks fun p hp => ?_
  have hp := hF.incoming s hsl I hI p hp
  have hun := F.ne_freshBlock hu
  have hpn := F.ne_freshBlock hp
  rw [Option.some.injEq, Option.some.injEq, splitRename]
  split
  · simp only [rename]
    grind
  · rename_i hold
    have : u ≠ Old := fun h => hold (h ▸ hs)
    simp [rename, this]

theorem Function.Valid.splitPoint_enter (hF : F.Valid) (Old : BlockId) (SplitPt : InstId)
    {u s : BlockId} (hu : u ∈ F.layout)
    (hs : s ∈ F.succs u) : SplitPoint F Old SplitPt (F.enter (some u) s)
      ((F.splitBlock Old SplitPt).enter (some (rename Old F.freshBlock u)) s) := by
  have hsl := hF.closed u hu s hs
  have hmap : ∀ Is : List Instruction, Is ⊆ (F.block s).insts →
      (Is.map (Instruction.mapBlocks (F.splitRename Old s))).map
        (Instruction.event (some (rename Old F.freshBlock u))) =
          Is.map (Instruction.event (some u)) := by
    intro Is hsub
    rw [List.map_map]
    exact List.map_congr_left fun I hI => hF.event_splitRename hu hs (hsub hI)
  by_cases h : s = Old
  · subst h
    rw [enter, enter, BasicBlock.events, BasicBlock.events, block_splitBlock_old hsl]
    simp only
    rw [hmap _ fun I hI => BasicBlock.mem_of_mem_beforeSplit hI,
      ← BasicBlock.beforeSplit_append_afterSplit _ SplitPt, List.map_append,
      hF.map_event_afterSplit hsl]
    exact .before _
  · rw [enter, enter, BasicBlock.events, BasicBlock.events, block_splitBlock hsl h]
    simp only
    rw [hmap _ (List.Subset.refl _)]
    exact .other _ hsl h

theorem Function.Valid.splitPoint_entry (hF : F.Valid) : SplitPoint F Old SplitPt
    (F.enter none F.entry) ((F.splitBlock Old SplitPt).enter none F.entry) := by
  have he := F.entry_mem_layout
  have hmap : ∀ (g : BlockId → BlockId) (Is : List Instruction), Is ⊆ (F.block F.entry).insts →
      Is.map (Instruction.mapBlocks g) = Is := fun g Is hsub =>
    (List.map_congr_left fun I hI =>
      Instruction.mapBlocks_of_not_phi (hF.entryPhis I (hsub hI))).trans (List.map_id' Is)
  by_cases h : F.entry = Old
  · subst h
    rw [enter, enter, BasicBlock.events, BasicBlock.events, block_splitBlock_old he]
    simp only
    rw [hmap _ _ fun I hI => BasicBlock.mem_of_mem_beforeSplit hI,
      ← BasicBlock.beforeSplit_append_afterSplit _ SplitPt, List.map_append]
    exact .before _
  · rw [enter, enter, BasicBlock.events, BasicBlock.events, block_splitBlock he h]
    simp only
    rw [hmap _ _ (List.Subset.refl _)]
    exact .other _ he h

@[simp] theorem Function.branch_splitBlock_new (taken : Option Nat) :
    ((F.splitBlock Old SplitPt).block F.freshBlock).branch taken = (F.block Old).branch taken := by
  rw [BasicBlock.branch, block_splitBlock_new, BasicBlock.branch]

theorem Function.branch_splitBlock {b : BlockId} (hb : b ∈ F.layout) (h : b ≠ Old)
    (taken : Option Nat) :
    ((F.splitBlock Old SplitPt).block b).branch taken = (F.block b).branch taken := by
  rw [BasicBlock.branch, block_splitBlock hb h, BasicBlock.branch]

/-- The added branch, from the end of the first half to the second. -/
theorem Function.Valid.run_addedBranch (hF : F.Valid) (ho : Old ∈ F.layout) :
    (F.splitBlock Old SplitPt).Step (.inside Old [])
      [((F.splitBlock Old SplitPt).block Old).branch (some 0)] (.inside F.freshBlock
        (((F.block Old).afterSplit SplitPt).map (Instruction.event none))) := by
  have hj := Step.jump (F := F.splitBlock Old SplitPt) (b := Old) (i := 0) (s := F.freshBlock)
    (by rw [succs_splitBlock_old ho]; rfl)
  rwa [enter, BasicBlock.events, block_splitBlock_new, hF.map_event_afterSplit ho] at hj

variable {ids : List InstId}

theorem Function.addedBranch_not_kept (ho : Old ∈ F.layout) (h : F.freshInst ∉ ids)
    (taken : Option Nat) :
    ([((F.splitBlock Old SplitPt).block Old).branch taken].filter
      fun e => decide (e.id ∈ ids)) = [] := by
  simp [BasicBlock.branch, block_splitBlock_old ho, Event.id, h]

theorem Function.Valid.simulates_splitBlock (hF : F.Valid) (ho : Old ∈ F.layout)
    (h : F.freshInst ∉ ids) : Simulates (fun e => decide (e.id ∈ ids))
      (SplitPoint F Old SplitPt) F.Step (F.splitBlock Old SplitPt).Step := by
  have hafter : ∀ {es₀ es p'}, F.Step (.inside Old es₀) es p' → ∃ q',
      (F.splitBlock Old SplitPt).Step (.inside F.freshBlock es₀) es q' ∧
        SplitPoint F Old SplitPt p' q' := by
    intro es₀ es p' hs
    cases hs with
    | inst b e es => exact ⟨_, .inst _ e es, .after es⟩
    | jump hi =>
      have hj := hF.splitPoint_enter Old SplitPt ho (List.mem_of_getElem? hi)
      rw [rename, if_pos rfl] at hj
      have := Step.jump (F := F.splitBlock Old SplitPt) (b := F.freshBlock)
        (by rw [succs_splitBlock_new]; exact hi)
      rw [branch_splitBlock_new] at this
      exact ⟨_, this, hj⟩
    | halt hi =>
      have := Step.halt (F := F.splitBlock Old SplitPt) (b := F.freshBlock)
        (by rw [succs_splitBlock_new]; exact hi)
      rw [branch_splitBlock_new] at this
      exact ⟨_, this, .halted⟩
  intro p q es p' hR hs
  cases hR with
  | after es₀ =>
    obtain ⟨q', hq, hR⟩ := hafter hs
    exact ⟨es, q', .single hq, rfl, hR⟩
  | before es₀ =>
    cases es₀ with
    | nil =>
      obtain ⟨q', hq, hR⟩ := hafter hs
      refine ⟨_, q', .head (hF.run_addedBranch ho) (.single hq), ?_, hR⟩
      rw [List.filter_append, addedBranch_not_kept ho h, List.nil_append]
    | cons e es₀ =>
      cases hs
      exact ⟨[e], _, .single (.inst Old e es₀), rfl, .before es₀⟩
  | other es₀ hb hne =>
    cases hs with
    | inst b e es => exact ⟨[e], _, .single (.inst _ e es), rfl, .other es hb hne⟩
    | jump hi =>
      have hj := hF.splitPoint_enter Old SplitPt hb (List.mem_of_getElem? hi)
      rw [rename, if_neg hne] at hj
      have := Step.jump (F := F.splitBlock Old SplitPt)
        (by rw [succs_splitBlock hb hne]; exact hi)
      rw [branch_splitBlock hb hne] at this
      exact ⟨_, _, .single this, rfl, hj⟩
    | halt hi =>
      have := Step.halt (F := F.splitBlock Old SplitPt)
        (by rw [succs_splitBlock hb hne]; exact hi)
      rw [branch_splitBlock hb hne] at this
      exact ⟨_, _, .single this, rfl, .halted⟩
  | halted => cases hs

theorem Function.Valid.splitBlock_simulates (hF : F.Valid) (ho : Old ∈ F.layout)
    (h : F.freshInst ∉ ids) : Simulates (fun e => decide (e.id ∈ ids))
      (fun q p => SplitPoint F Old SplitPt p q) (F.splitBlock Old SplitPt).Step F.Step := by
  intro q p es q' hR hs
  cases hR with
  | after es₀ =>
    cases hs with
    | inst b e es => exact ⟨[e], _, .single (.inst _ e es), rfl, .after es⟩
    | jump hi =>
      rw [succs_splitBlock_new] at hi
      have hj := hF.splitPoint_enter Old SplitPt ho (List.mem_of_getElem? hi)
      rw [rename, if_pos rfl] at hj
      rw [branch_splitBlock_new]
      exact ⟨_, _, .single (.jump hi), rfl, hj⟩
    | halt hi =>
      rw [succs_splitBlock_new] at hi
      rw [branch_splitBlock_new]
      exact ⟨_, _, .single (.halt hi), rfl, .halted⟩
  | before es₀ =>
    cases hs with
    | inst b e es => exact ⟨[e], _, .single (.inst _ e _), rfl, .before es⟩
    | @jump _ i s hi =>
      -- only the added branch leaves the first half
      have hs : s = F.freshBlock := by
        have := List.mem_of_getElem? hi
        rwa [succs_splitBlock_old ho, List.mem_singleton] at this
      subst hs
      refine ⟨[], _, .refl _, (addedBranch_not_kept ho h _).symm, ?_⟩
      rw [enter, BasicBlock.events, block_splitBlock_new, hF.map_event_afterSplit ho]
      exact .after _
    | halt hi => simp [succs_splitBlock_old ho] at hi
  | other es₀ hb hne =>
    cases hs with
    | inst b e es => exact ⟨[e], _, .single (.inst _ e es), rfl, .other es hb hne⟩
    | jump hi =>
      rw [succs_splitBlock hb hne] at hi
      have hj := hF.splitPoint_enter Old SplitPt hb (List.mem_of_getElem? hi)
      rw [rename, if_neg hne] at hj
      rw [branch_splitBlock hb hne]
      exact ⟨_, _, .single (.jump hi), rfl, hj⟩
    | halt hi =>
      rw [succs_splitBlock hb hne] at hi
      rw [branch_splitBlock hb hne]
      exact ⟨_, _, .single (.halt hi), rfl, .halted⟩
  | halted => cases hs

theorem Function.Valid.tracesOn_splitBlock (hF : F.Valid) (ho : Old ∈ F.layout)
    (h : F.freshInst ∉ ids) : (F.splitBlock Old SplitPt).tracesOn ids = F.tracesOn ids :=
  (keptTraces_eq (hF.simulates_splitBlock ho h) (hF.splitBlock_simulates ho h)
    hF.splitPoint_entry).symm

end

/-- Nothing is erased when every instruction is kept. -/
theorem Function.Valid.tracesOn_instIds {F : Function} (hF : F.Valid) :
    F.tracesOn F.instIds = F.traces := by
  refine keptTraces_of_forall (I := fun p => ∀ b es, p = .inside b es →
    b ∈ F.layout ∧ ∀ e ∈ es, e.id ∈ F.instIds) ?_ ?_
  · rintro b es h
    cases h
    refine ⟨F.entry_mem_layout, fun e he => ?_⟩
    obtain ⟨I, hI, rfl⟩ := List.mem_map.mp he
    rw [Instruction.id_event]
    exact F.instIds_of_mem F.entry_mem_layout hI
  · intro p es p' hp hs
    have hterm : ∀ b ∈ F.layout, (F.block b).termId ∈ F.instIds := fun b hb =>
      mem_instIds.mpr ⟨b, hb, List.mem_append_right _ List.mem_cons_self⟩
    cases hs with
    | inst b e es =>
      obtain ⟨hb, he⟩ := hp b _ rfl
      refine ⟨?_, by simpa using he e List.mem_cons_self⟩
      rintro _ _ h
      cases h
      exact ⟨hb, fun e' he' => he e' (List.mem_cons_of_mem _ he')⟩
    | jump hi =>
      obtain ⟨hb, -⟩ := hp _ _ rfl
      have hs := hF.closed _ hb _ (List.mem_of_getElem? hi)
      refine ⟨?_, List.forall_mem_singleton.mpr (decide_eq_true (hterm _ hb))⟩
      rintro _ _ h
      cases h
      refine ⟨hs, fun e he => ?_⟩
      obtain ⟨I, hI, rfl⟩ := List.mem_map.mp he
      rw [Instruction.id_event]
      exact F.instIds_of_mem hs hI
    | halt hi =>
      obtain ⟨hb, -⟩ := hp _ _ rfl
      refine ⟨nofun, List.forall_mem_singleton.mpr (decide_eq_true (hterm _ hb))⟩

end VariOCL.IR
