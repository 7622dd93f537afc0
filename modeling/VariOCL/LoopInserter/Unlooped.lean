import VariOCL.LoopInserter.Filter
import VariOCL.LoopInserter.WorkItems
import Mathlib.Algebra.Ring.Nat

/-! A region without loops is run once for the whole group: when this is what running it for each
work-item would do. -/

namespace VariOCL.IR

theorem Function.Valid.node_eq {F : Function} (hF : F.Valid) {b : BlockId} {I : Instruction}
    (hb : b ∈ F.layout) (hI : I ∈ (F.block b).insts) : F.node I.id = some (.inst I) := by
  have hid : I.id ∈ (F.block b).instIds := List.mem_append_left _ (List.mem_map_of_mem hI)
  have hnd := hF.instIds_nodup hb
  have hblock : (F.block b).node I.id = some (.inst I) := by
    obtain ⟨hnd, -, hne⟩ := List.nodup_append.mp hnd
    have hterm : (F.block b).termId ≠ I.id := fun h =>
      hne _ (List.mem_map_of_mem hI) _ List.mem_cons_self h.symm
    rw [BasicBlock.node, if_neg hterm]
    cases hf : (F.block b).insts.find? (·.id = I.id) with
    | none =>
      have := List.find?_eq_none.mp hf I hI
      simp at this
    | some J =>
      have hJ : J.id = I.id := by simpa using List.find?_some hf
      rw [Option.map_some, List.inj_on_of_nodup_map hnd (List.mem_of_find?_eq_some hf) hI hJ]
  cases hn : F.node I.id with
  | none => exact absurd (hblock.symm.trans (List.findSome?_eq_none_iff.mp hn b hb)) nofun
  | some nd =>
    obtain ⟨b', hb', hnd'⟩ := List.exists_of_findSome?_eq_some hn
    have hid' : I.id ∈ (F.block b').instIds := by
      rw [BasicBlock.node] at hnd'
      split at hnd'
      · exact List.mem_append_right _ (List.mem_singleton.mpr (Eq.symm ‹_›))
      · obtain ⟨J, hJ, -⟩ := Option.map_eq_some_iff.mp hnd'
        have hJI : J.id = I.id := by simpa using List.find?_some hJ
        exact List.mem_append_left _ (hJI ▸ List.mem_map_of_mem (List.mem_of_find?_eq_some hJ))
    rw [Function.eq_of_mem_instIds hF.ids hb' hb hid' hid] at hnd'
    exact hnd'.symm.trans hblock

/-- An atomic access leaves a shared cell as it was. -/
def Act.Silent {Val : Type} (isShared : Val → Bool) : Act Val → Prop
  | .access _ (.atomic a old new) => isShared a → new = old
  | _ => True

def State.Le {Val : Type} (s r : State Val) : Prop := s.env.Le r.env ∧ s.mem.Le r.mem

theorem State.Le.onto_eq {Val : Type} {s r : State Val} (h : s.Le r) : s.onto r = r := by
  rw [State.onto, h.1.onto_eq, h.2.onto_eq]

theorem Act.quiet_of_silent {Val : Type} {isShared : Val → Bool} {e : Act Val}
    (h : e.Silent isShared) (hstore : ∀ k a v, isShared a → e ≠ .access k (.store a v)) :
    e.Quiet (fun a => isShared a) := by
  cases e with
  | access k x =>
    cases x with
    | load a v => trivial
    | store a v => exact fun ha => hstore k a v ha rfl
    | atomic a old new => exact h
    | sync args => trivial
  | value i v => trivial
  | branch i t => trivial

namespace LoopInserter

open Sim
open TripletInvarianceAnalysis (Triplets Loop IsIdCall Marked idTriplet noTriplets runOnFunction
  idsVary_runOnFunction idsVary_noTriplets)

section
variable {Val ι : Type} [DecidableEq Val] (isShared : Val → Bool) (F : Function) (M : Machine Val)
  (items : ι → WorkItem Val) (preds : BlockId → List BlockId) (LI : List Loop) (PR : MxPARegion)
  (pred : BlockId) (g : Group Val ι)

/-- What the filter takes for granted of a region it leaves out: of each call that asks for an id it
looks at the block, no loop's mark stands for the call and the dimension is one it knows; the
work-items agree on what the region reads; and no called function has an effect. -/
structure RunsAlike (i : ι) : Prop where
  seen : ∀ b ∈ PR.BBSet, ∀ I ∈ (F.block b).insts, ∀ name args,
    I.op = .call (some name) args → name ∈ idBuiltins →
      b ∈ PR.checked ∧ ¬ Marked F preds LI I.id ∧ (idTriplet (args.headD .undefValue)).isSome
  agree : ∃ c es q b c', (∀ j, State.Le c (g.view isShared j)) ∧
    RunsRegion F M (items i) PR.BBSet (some pred) PR.Entry c es q b c' ∧
      ∀ e ∈ es, e.Silent isShared

end

section
variable {Val ι : Type} [DecidableEq Val] [DecidableEq ι] {isShared : Val → Bool} {F : Function}
  {M : Machine Val} {items : ι → WorkItem Val} {preds : BlockId → List BlockId}
  {users : InstId → List InstId} {LI : List Loop} {PR : MxPARegion} {pred : BlockId}
  {g : Group Val ι} {i : ι} {fuel : Nat}

/-- A region of branches runs from any state, and leaves it. -/
theorem RunsRegion.trivial (isShared : Val → Bool) {w : WorkItem Val} {p q : Option BlockId}
    {b e : BlockId} {s s' : State Val} {es : List (Act Val)}
    (htriv : ∀ b ∈ PR.BBSet, (F.block b).insts = [] ∧ ∃ d, (F.block b).term = .br d)
    (h : RunsRegion F M w PR.BBSet p b s es q e s') (w' : WorkItem Val) (r : State Val) :
    RunsRegion F M w' PR.BBSet p b r es q e r ∧ ∀ x ∈ es, x.Quiet (fun a => isShared a) := by
  induction h with
  | leave s hb => exact ⟨.leave r hb, fun x hx => absurd hx List.not_mem_nil⟩
  | @step p q b d e s s₁ s' es es' hb hx _ ih =>
    obtain ⟨hnil, t, hterm⟩ := htriv b hb
    have hblock : ∀ (w : WorkItem Val) s, M.execBlock w (F.block b) p s =
        some (some 0, s, [.branch (F.block b).termId (some 0)]) := by
      intro w s
      simp [Machine.execBlock, hnil, hterm, Machine.execPhis, Machine.execInsts, Machine.taken]
    cases hx with
    | branch hx hd =>
      cases (hblock w s).symm.trans hx
      refine ⟨.step hb (.branch (hblock w' r) hd) ih.1, fun x hx => ?_⟩
      rcases List.mem_append.mp hx with hx | hx
      · cases List.mem_singleton.mp hx
        trivial
      · exact ih.2 x hx

omit [DecidableEq ι] in
/-- What a work-item does on a part of the state that all of them share, all of them do. -/
theorem executes_of_common {c c' : State Val} {es : List (Act Val)} {q : Option BlockId}
    {b : BlockId} (hle : ∀ j, State.Le c (g.view isShared j))
    (hrun : ∀ j, RunsRegion F M (items j) PR.BBSet (some pred) PR.Entry c es q b c') (j : ι) :
    Executes isShared F M items PR pred g j es q b (c'.onto (g.view isShared j)) := by
  have h := (hrun j).onto (fun _ _ _ h => h) (g.view isShared j)
  rw [(hle j).onto_eq] at h
  exact h

omit [DecidableEq ι] in
/-- The filter leaves out no region that asks for an id, what it takes for granted given. -/
theorem RunsAlike.not_callsIdBuiltin (h : RunsAlike isShared F M items preds LI PR pred g i)
    (hF : F.Valid) (hPR : PR.BBSet ⊆ F.layout) {s s' : Triplets}
    (hs : TripletInvarianceAnalysis.IdsVary F (Marked F preds LI) s)
    (hleft : isRegionTrivial F preds PR = .ok true ∨
      isRegionUniform F users fuel PR s = .ok (true, s')) :
    ∀ b ∈ PR.BBSet, ∀ I ∈ (F.block b).insts, ¬ callsIdBuiltin I.op := by
  rintro b hb I hI ⟨name, args, hop, hname⟩
  obtain ⟨hchecked, hmark, hdim⟩ := h.seen b hb I hI name args hop hname
  rcases hleft with htriv | hu
  · rw [(isRegionTrivial_spec htriv b hchecked).1] at hI
    cases hI
  · have hid : I.id ∈ (F.block b).instIds := List.mem_append_left _ (List.mem_map_of_mem hI)
    refine hmark ((isRegionUniform_spec hs hu).2 rfl b hchecked I.id hid ?_)
    obtain ⟨id, ty, op⟩ := I
    cases hop
    refine ⟨ty, name, args, hF.node_eq (hPR hb) hI, ?_, hdim⟩
    simpa [idBuiltins] using hname

/-- All work-items, in this order, leave what the one run of work-item `i` does. -/
def OnceIsEnough (isShared : Val → Bool) (F : Function) (M : Machine Val)
    (items : ι → WorkItem Val) (PR : MxPARegion) (pred : BlockId) (g : Group Val ι)
    (es : List (Act Val)) (s : State Val) (order : List ι) : Prop :=
  ∃ g', RunsInOrder isShared F M items PR pred g order g' ∧
    (∀ g'', RunsInOrder isShared F M items PR pred g order g'' → g'' = g') ∧
    SameAsOnce isShared es s g g'

theorem onceIsEnough_of_common {c c' s : State Val} {es es' : List (Act Val)}
    {q q' : Option BlockId} {b b' : BlockId} (hle : ∀ j, State.Le c (g.view isShared j))
    (hrun : ∀ j, RunsRegion F M (items j) PR.BBSet (some pred) PR.Entry c es' q' b' c')
    (hquiet : ∀ x ∈ es', x.Quiet (fun a => isShared a))
    (hone : Executes isShared F M items PR pred g i es q b s) {order : List ι}
    (hnd : order.Nodup) (hall : ∀ j, j ∈ order) :
    OnceIsEnough isShared F M items PR pred g es s order := by
  have halike := executes_of_common hle hrun
  obtain ⟨rfl, rfl, rfl, rfl⟩ := RunsRegion.unique (halike i) hone
  have hshared : ∀ j a, isShared a → (c'.onto (g.view isShared j)).mem a = g.shared a :=
    fun j a ha => (replay_quiet (halike j).replay hquiet ha).trans (view_mem_shared ha)
  obtain ⟨g', hr, hs, hitem⟩ := runsInOrder_of_alike halike hshared hnd (h := g)
    (fun _ _ => rfl) fun _ _ => rfl
  refine ⟨g', hr, fun g'' h => hr.unique h, sameAsOnce_of_alike i halike
    (fun a ha => (hs a ha).trans (hshared i a ha).symm) fun j => ?_⟩
  rw [hitem, if_pos (hall j)]

theorem onceIsEnough_of_single (hone_item : ∀ j k : ι, j = k) {es : List (Act Val)}
    {q : Option BlockId} {b : BlockId} {s : State Val}
    (hone : Executes isShared F M items PR pred g i es q b s) {order : List ι}
    (hnd : order.Nodup) (hall : ∀ j, j ∈ order) :
    OnceIsEnough isShared F M items PR pred g es s order := by
  have horder : order = [i] := by
    cases order with
    | nil => exact absurd (hall i) List.not_mem_nil
    | cons j js =>
      cases js with
      | nil => rw [hone_item j i]
      | cons k ks =>
        exact absurd (hone_item j k ▸ List.mem_cons_self) (List.nodup_cons.mp hnd).1
  subst horder
  have hr : RunsInOrder isShared F M items PR pred g [i] (g.finish i s) := .cons hone (.nil _)
  refine ⟨_, hr, fun g'' h => hr.unique h, sameAsOnce_of_alike i (f := fun _ => s)
    (fun j => hone_item i j ▸ hone) (fun a ha => rfl) fun j => ?_⟩
  rw [hone_item j i]
  exact Function.update_self ..

theorem onceIsEnough_of_trivial
    (htriv : ∀ b ∈ PR.BBSet, (F.block b).insts = [] ∧ ∃ d, (F.block b).term = .br d)
    {es : List (Act Val)} {q : Option BlockId} {b : BlockId} {s : State Val}
    (hone : Executes isShared F M items PR pred g i es q b s) {order : List ι}
    (hnd : order.Nodup) (hall : ∀ j, j ∈ order) :
    OnceIsEnough isShared F M items PR pred g es s order :=
  onceIsEnough_of_common (c := ⟨fun _ => none, fun _ => none⟩) (fun _ => ⟨nofun, nofun⟩)
    (fun j => (RunsRegion.trivial isShared htriv hone (items j) _).1)
    (RunsRegion.trivial isShared htriv hone (items i) ⟨fun _ => none, fun _ => none⟩).2 hone hnd hall

/-- Every run of the region adds to the shared memory, as one that calls `atomic_add(p, 1)` does. -/
def Raises (isShared : Val → Bool) (F : Function) (M : Machine Val) (items : ι → WorkItem Val)
    (PR : MxPARegion) (pred : BlockId) (μ : Cells Val Val → Nat) : Prop :=
  (∀ m m', (∀ a, isShared a → m a = m' a) → μ m = μ m') ∧
    ∀ g i es q b s, Executes isShared F M items PR pred g i es q b s → μ g.shared < μ s.mem

theorem Raises.le {μ : Cells Val Val → Nat} (h : Raises isShared F M items PR pred μ)
    {g g' : Group Val ι} {order : List ι}
    (hr : RunsInOrder isShared F M items PR pred g order g') : μ g.shared ≤ μ g'.shared := by
  induction hr with
  | nil => exact le_rfl
  | cons hx _ ih => exact (h.2 _ _ _ _ _ _ hx).le.trans ih

theorem Raises.not_onceIsEnough {μ : Cells Val Val → Nat}
    (h : Raises isShared F M items PR pred μ) {es : List (Act Val)} {q : Option BlockId}
    {b : BlockId} {s : State Val} (hone : Executes isShared F M items PR pred g i es q b s)
    (j : ι) (is : List ι) : ¬ OnceIsEnough isShared F M items PR pred g es s (i :: j :: is) := by
  rintro ⟨g', hr, -, hsame⟩
  cases hr with
  | cons hx hr =>
    obtain ⟨rfl, rfl, rfl, rfl⟩ := RunsRegion.unique hone hx
    cases hr with
    | cons hx' hr =>
      have hlt := (h.2 _ _ _ _ _ _ hx').trans_le (h.le hr)
      exact hlt.ne (h.1 _ _ hsame.shared).symm

/-- A region that gets no loops: running it once is running it for each work-item, in any order, if
there is one work-item, if the region holds nothing but branches, or if what the filter takes for
granted is so; it is not if each run adds to the memory. -/
theorem leftOut_onceIsEnough {globals : List String} {RD kept : List MxPARegion}
    {s₁ s₂ s₃ : Triplets} {es : List (Act Val)} {q : Option BlockId} {b : BlockId} {s : State Val}
    (hF : F.Valid) (hPR : PR.BBSet ⊆ F.layout)
    (hanalysis : runOnFunction F users fuel preds LI globals noTriplets = .ok ((), s₁))
    (hbefore : filterRegions F preds users fuel RD s₁ = .ok (kept, s₂))
    (hleft : needsLoops F preds users fuel PR s₂ = .ok (false, s₃))
    (hrace : RaceFree isShared F M items PR pred g)
    (hone : Executes isShared F M items PR pred g i es q b s) :
    ((∀ j k : ι, j = k) ∨
      (∀ b ∈ PR.BBSet, (F.block b).insts = [] ∧ ∃ d, (F.block b).term = .br d) ∨
      RunsAlike isShared F M items preds LI PR pred g i →
        ∀ order : List ι, order.Nodup → (∀ j, j ∈ order) →
          OnceIsEnough isShared F M items PR pred g es s order) ∧
    ∀ μ, Raises isShared F M items PR pred μ →
      ∀ j is, ¬ OnceIsEnough isShared F M items PR pred g es s (i :: j :: is) := by
  refine ⟨fun hcond order hnd hall => ?_, fun μ hμ j is => hμ.not_onceIsEnough hone j is⟩
  by_cases hsingle : ∀ j k : ι, j = k
  · exact onceIsEnough_of_single hsingle hone hnd hall
  rcases hcond.resolve_left hsingle with htriv | hcond
  · exact onceIsEnough_of_trivial htriv hone hnd hall
  have hs : TripletInvarianceAnalysis.IdsVary F (Marked F preds LI) s₂ :=
    idsVary_filterRegions (idsVary_runOnFunction idsVary_noTriplets hanalysis) hbefore
  obtain ⟨c, es', q', b', c', hle, hrun, hsilent⟩ := hcond.agree
  have hrun : ∀ j, RunsRegion F M (items j) PR.BBSet (some pred) PR.Entry c es' q' b' c' :=
    fun j => hrun.anyItem (items j) (hcond.not_callsIdBuiltin hF hPR hs (needsLoops_false hleft))
  refine onceIsEnough_of_common hle hrun (fun x hx => ?_) hone hnd hall
  refine Act.quiet_of_silent (hsilent x hx) ?_
  rintro l a v ha rfl
  -- two work-items that store to one shared cell are a race
  obtain ⟨j, hj⟩ := not_forall.mp hsingle
  obtain ⟨k, hjk⟩ := not_forall.mp hj
  exact hrace j k _ _ _ _ _ _ _ _ hjk (executes_of_common hle hrun j)
    (executes_of_common hle hrun k) l l a v ha hx _ hx rfl

end

/-- Numbers as values; those from 1000 on are shared addresses. -/
def numbers : Machine Nat where
  atom
    | .constInt _ n => n
    | .argument k => 1000 + k
    | _ => 0
  eval _ _ vs := vs.sum
  truth v := v != 0
  caseOf := id
  alloca i _ _ := .ret i
  call
    | some "atomic_add", [p, v] => .atomic p (· + v) .ret
    | _, _ => .ret 0

def numbers_isShared (a : Nat) : Bool := 1000 ≤ a

def twoItems (i : Bool) : WorkItem Nat := fun _ _ => some i.toNat

/-- The region adds one to what an argument points to, and keeps the sum in private memory. -/
def sumInPrivate : Function where
  name := "sum_in_private"
  entry := 0
  rest := [1, 2, 3]
  block
    | 0 => ⟨[⟨0, .ptr, .alloca (.int 32) (.constInt 32 1)⟩], 1, .br 1⟩
    | 1 => ⟨[barrierCall 2], 3, .br 2⟩
    | 2 => ⟨[⟨4, .int 32, .load (.argument 0)⟩,
        ⟨5, .int 32, .other "add" [.inst 4, .constInt 32 1]⟩,
        ⟨6, .void, .store (.inst 5) (.inst 0)⟩], 7, .br 3⟩
    | _ => ⟨[barrierCall 8], 9, .ret none⟩

def sumInPrivate_users (i : InstId) : List InstId :=
  if i = 0 then [6] else if i = 4 then [5] else if i = 5 then [6] else []

def sumInPrivate_group : Group Nat Bool where
  shared a := if a = 1000 then some 41 else none
  item _ := ⟨fun x => if x = 0 then some 0 else none, fun _ => none⟩

def sumInPrivate_acts : List (Act Nat) :=
  [.access 4 (.load 1000 41), .value 4 41, .value 5 42, .access 6 (.store 0 42), .value 6 42,
    .branch 7 (some 0)]

theorem sumInPrivate_valid : sumInPrivate.Valid where
  nodup := by decide
  closed := by unfold Function.Closed; decide
  entryPreds := by decide
  ids := by decide
  phisFirst := by decide
  entryPhis := by decide
  incoming := by decide

theorem sumInPrivate_runs (w : WorkItem Nat) : ∃ s, RunsRegion sumInPrivate numbers w [2] (some 1) 2
    (sumInPrivate_group.view numbers_isShared true) sumInPrivate_acts (some 2) 3 s :=
  ⟨_, .single (by decide) (.branch rfl rfl) (by decide)⟩

theorem sumInPrivate_raceFree : RaceFree numbers_isShared sumInPrivate numbers twoItems
    ⟨[2], 2, some 2⟩ 1 sumInPrivate_group := by
  intro i j es es' q q' b b' s s' _ hi _ k l a v ha hmem
  obtain ⟨t, ht⟩ := sumInPrivate_runs (twoItems i)
  obtain ⟨rfl, -⟩ := ht.unique hi
  have hstore : Act.access k (.store a v) ∈ sumInPrivate_acts → numbers_isShared a = false := by
    intro h
    simp only [sumInPrivate_acts, List.mem_cons, List.not_mem_nil, or_false] at h
    rcases h with h | h | h | h | h | h <;> cases h
    rfl
  exact absurd (ha.symm.trans (hstore hmem)) nofun

theorem leftOut_onceIsEnough_sumInPrivate : ∃ s, OnceIsEnough numbers_isShared sumInPrivate numbers
    twoItems ⟨[2], 2, some 2⟩ 1 sumInPrivate_group sumInPrivate_acts s [false, true] := by
  obtain ⟨s, hs⟩ := sumInPrivate_runs (twoItems true)
  have hanalysis : runOnFunction sumInPrivate sumInPrivate_users 9 sumInPrivate.predEdges [] []
      noTriplets = .ok ((), _) := rfl
  refine ⟨s, (leftOut_onceIsEnough (i := true) sumInPrivate_valid (by decide) hanalysis
    (show filterRegions _ _ _ _ [] _ = .ok ([], _) from rfl) rfl sumInPrivate_raceFree hs).1
    (.inr (.inr ?_)) [false, true] (by decide) (by decide)⟩
  refine ⟨?_, sumInPrivate_group.view numbers_isShared true, _, _, _, s,
    fun j => ⟨fun _ _ h => h, fun _ _ h => h⟩, hs, ?_⟩
  · intro b hb I hI name args hop hname
    rw [List.mem_singleton] at hb
    subst hb
    simp only [sumInPrivate, List.mem_cons, List.not_mem_nil, or_false] at hI
    rcases hI with rfl | rfl | rfl <;> cases hop
  · intro e he
    simp only [sumInPrivate_acts, List.mem_cons, List.not_mem_nil, or_false] at he
    rcases he with rfl | rfl | rfl | rfl | rfl | rfl <;> trivial

/-- The region adds one to a counter of the group. -/
def countOnce : Function where
  name := "count_once"
  entry := 0
  rest := [1, 2, 3]
  block
    | 0 => ⟨[], 0, .br 1⟩
    | 1 => ⟨[barrierCall 1], 2, .br 2⟩
    | 2 => ⟨[⟨3, .int 32, .call (some "atomic_add") [.argument 0, .constInt 32 1]⟩], 4, .br 3⟩
    | _ => ⟨[barrierCall 5], 6, .ret none⟩

theorem countOnce_valid : countOnce.Valid where
  nodup := by decide
  closed := by unfold Function.Closed; decide
  entryPreds := by decide
  ids := by decide
  phisFirst := by decide
  entryPhis := by decide
  incoming := by decide

def countOnce_group : Group Nat Bool where
  shared a := if a = 1000 then some 0 else none
  item _ := ⟨fun _ => none, fun _ => none⟩

def countOnce_acts (n : Nat) : List (Act Nat) :=
  [.access 3 (.atomic 1000 n (n + 1)), .value 3 n, .branch 4 (some 0)]

theorem countOnce_runs (w : WorkItem Nat) : ∃ s, s.mem 1000 = some 1 ∧
    RunsRegion countOnce numbers w [2] (some 1) 2 (countOnce_group.view numbers_isShared true)
      (countOnce_acts 0) (some 2) 3 s :=
  ⟨_, rfl, .single (by decide) (.branch rfl rfl) (by decide)⟩

/-- Two work-items add two to the counter, and the region that is run once adds one. -/
theorem leftOut_counts_once :
    (countOnce.Valid ∧ gatherParallelRegions (fun _ => none) countOnce countOnce.predEdges 20 20 =
        .ok [⟨[2], 2, some 2⟩] ∧
      (∃ s₁ s₂, runOnFunction countOnce (fun _ => []) 9 countOnce.predEdges [] [] noTriplets =
          .ok ((), s₁) ∧
        filterRegions countOnce countOnce.predEdges (fun _ => []) 9 [⟨[2], 2, some 2⟩] s₁ =
          .ok ([], s₂)) ∧
      RaceFree numbers_isShared countOnce numbers twoItems ⟨[2], 2, some 2⟩ 1 countOnce_group) ∧
    ∃ s, Executes numbers_isShared countOnce numbers twoItems ⟨[2], 2, some 2⟩ 1 countOnce_group
        true (countOnce_acts 0) (some 2) 3 s ∧
      ¬ OnceIsEnough numbers_isShared countOnce numbers twoItems ⟨[2], 2, some 2⟩ 1 countOnce_group
        (countOnce_acts 0) s [false, true] := by
  refine ⟨⟨countOnce_valid, by rfl, ⟨_, _, rfl, rfl⟩, ?_⟩, ?_⟩
  · intro i j es es' q q' b b' s s' _ hi _ k l a v _ hmem
    obtain ⟨t, -, ht⟩ := countOnce_runs (twoItems i)
    obtain ⟨rfl, -⟩ := ht.unique hi
    simp only [countOnce_acts, List.mem_cons, List.not_mem_nil, or_false] at hmem
    rcases hmem with h | h | h <;> cases h
  · obtain ⟨s, hs, hrun⟩ := countOnce_runs (twoItems true)
    refine ⟨s, hrun, ?_⟩
    rintro ⟨g', hr, -, hsame⟩
    have hboth : ∃ g'', g''.shared 1000 = some 2 ∧ RunsInOrder numbers_isShared countOnce numbers
        twoItems ⟨[2], 2, some 2⟩ 1 countOnce_group [false, true] g'' :=
      ⟨_, rfl, .cons (.single (by decide) (.branch rfl rfl) (by decide))
        (.cons (.single (by decide) (.branch rfl rfl) (by decide)) (.nil _))⟩
    obtain ⟨g'', htwo, hr'⟩ := hboth
    have hone := hsame.shared 1000 rfl
    rw [← hr.unique hr', htwo, hs] at hone
    cases hone

end LoopInserter

end VariOCL.IR
