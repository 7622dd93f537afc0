import Mathlib.Logic.Function.Basic
import VariOCL.IR.Exec
import VariOCL.LoopInserter.Regions

/-! The work-items of a group run the code of one region, one after the other. -/

namespace VariOCL.IR.LoopInserter

open Sim

section
variable {Val : Type} [DecidableEq Val] (F : Function) (M : Machine Val)

/-- From a block of the region until control leaves it. -/
inductive RunsRegion (w : WorkItem Val) (BBSet : List BlockId) :
    Option BlockId → BlockId → State Val → List (Act Val) → Option BlockId → BlockId →
      State Val → Prop
  | leave {p : Option BlockId} {b : BlockId} (s : State Val) : b ∉ BBSet →
      RunsRegion w BBSet p b s [] p b s
  | step {p q : Option BlockId} {b d e : BlockId} {s s' s'' : State Val} {es es' : List (Act Val)} :
      b ∈ BBSet → F.Exec M w (.inside p b s) es (.inside (some b) d s') →
      RunsRegion w BBSet (some b) d s' es' q e s'' →
      RunsRegion w BBSet p b s (es ++ es') q e s''

end

section
variable {Val : Type} [DecidableEq Val] {F : Function} {M : Machine Val} {w w' : WorkItem Val}
  {BBSet : List BlockId} {p q : Option BlockId} {b e : BlockId} {s s' : State Val}
  {es : List (Act Val)}

theorem RunsRegion.single {d : BlockId} (hb : b ∈ BBSet)
    (hx : F.Exec M w (.inside p b s) es (.inside (some b) d s')) (hd : d ∉ BBSet) :
    RunsRegion F M w BBSet p b s es (some b) d s' := by
  simpa using RunsRegion.step hb hx (.leave s' hd)

theorem RunsRegion.onto (hw : w.Le w') (h : RunsRegion F M w BBSet p b s es q e s') (r : State Val) :
    RunsRegion F M w' BBSet p b (s.onto r) es q e (s'.onto r) := by
  induction h with
  | leave s hb => exact .leave _ hb
  | step hb hx _ ih =>
    cases hx with
    | branch hx hd => exact .step hb (.branch (Machine.execBlock_onto hw hx r) hd) ih

theorem RunsRegion.replay (h : RunsRegion F M w BBSet p b s es q e s') :
    Replay Act.Acts s es s' := by
  induction h with
  | leave s hb => exact .nil s
  | step hb hx _ ih =>
    cases hx with
    | branch hx hd => exact (Machine.replay_execBlock hx).append ih

/-- A run of a region is determined by where and how it starts. -/
theorem RunsRegion.unique {q' : Option BlockId} {e' : BlockId} {t : State Val}
    {es' : List (Act Val)} (h : RunsRegion F M w BBSet p b s es q e s')
    (h' : RunsRegion F M w BBSet p b s es' q' e' t) : es' = es ∧ q' = q ∧ e' = e ∧ t = s' := by
  induction h generalizing es' with
  | leave s hb =>
    cases h' with
    | leave _ _ => exact ⟨rfl, rfl, rfl, rfl⟩
    | step hb' _ _ => exact absurd hb' hb
  | step hb hx _ ih =>
    cases h' with
    | leave _ hb' => exact absurd hb hb'
    | step _ hx' h' =>
      cases hx with
      | branch hx hd =>
        cases hx' with
        | branch hx' hd' =>
          cases hx.symm.trans hx'
          cases hd.symm.trans hd'
          obtain ⟨rfl, rfl, rfl, rfl⟩ := ih h'
          exact ⟨rfl, rfl, rfl, rfl⟩

/-- An instruction that asks which work-item it runs in. -/
def callsIdBuiltin (op : Op) : Prop := ∃ name args, op = .call (some name) args ∧ name ∈ idBuiltins

omit [DecidableEq Val] in
theorem perform_of_not_callsIdBuiltin {id : InstId} {ty : Ty} {op : Op} (h : ¬ callsIdBuiltin op)
    (w w' : WorkItem Val) (vs : List Val) :
    M.perform w id ty op vs = M.perform w' id ty op vs := by
  cases op with
  | call callee args =>
    cases callee with
    | none => rfl
    | some name =>
      have hname : name ∉ idBuiltins := fun hn => h ⟨name, args, rfl, hn⟩
      simp only [Machine.perform, if_neg hname]
  | _ => rfl

omit [DecidableEq Val] in
theorem length_readAll {e : Cells InstId Val} {vs : List Value} {xs : List Val}
    (h : M.readAll e vs = some xs) : xs.length = vs.length := by
  induction vs generalizing xs with
  | nil =>
    cases h
    rfl
  | cons v vs ih =>
    obtain ⟨x, -, h⟩ := Option.bind_eq_some_iff.mp h
    obtain ⟨ys, hys, rfl⟩ := Option.map_eq_some_iff.mp h
    rw [List.length_cons, List.length_cons, ih hys]

theorem execInsts_congr {Is : List Instruction}
    (h : ∀ I ∈ Is, ∀ vs, vs.length = I.op.operands.length →
      M.perform w I.id I.ty I.op vs = M.perform w' I.id I.ty I.op vs)
    (s : State Val) : M.execInsts w Is s = M.execInsts w' Is s := by
  induction Is generalizing s with
  | nil => rfl
  | cons I Is ih =>
    have hI : M.execInst w I s = M.execInst w' I s := by
      rw [Machine.execInst, Machine.execInst]
      cases hvs : M.readAll s.env I.op.operands with
      | none => rfl
      | some vs => simp only [Option.bind_some, h I List.mem_cons_self vs (length_readAll hvs)]
    have hIs := ih fun J hJ => h J (List.mem_cons_of_mem _ hJ)
    simp only [Machine.execInsts, hI, hIs]

/-- A block runs alike in two work-items whose answers to its calls are the same. -/
theorem execBlock_congr {BB : BasicBlock}
    (h : ∀ I ∈ BB.insts, ∀ vs, vs.length = I.op.operands.length →
      M.perform w I.id I.ty I.op vs = M.perform w' I.id I.ty I.op vs) :
    M.execBlock w BB p s = M.execBlock w' BB p s := by
  have hinsts := execInsts_congr (M := M) fun I hI =>
    h I ((List.dropWhile_sublist fun I : Instruction => I.op.isPhi).subset hI)
  simp only [Machine.execBlock, hinsts]

theorem RunsRegion.congr {F' : Function}
    (hblock : ∀ b ∈ BBSet, ∀ p s, M.execBlock w (F.block b) p s = M.execBlock w' (F'.block b) p s)
    (hsuccs : ∀ b ∈ BBSet, F.succs b = F'.succs b) (h : RunsRegion F M w BBSet p b s es q e s') :
    RunsRegion F' M w' BBSet p b s es q e s' := by
  induction h with
  | leave s hb => exact .leave s hb
  | step hb hx _ ih =>
    cases hx with
    | branch hx hd =>
      rw [hblock _ hb] at hx
      rw [hsuccs _ hb] at hd
      exact .step hb (.branch hx hd) ih

/-- A region that asks for no id runs alike in all work-items. -/
theorem RunsRegion.anyItem (w' : WorkItem Val)
    (hid : ∀ b ∈ BBSet, ∀ I ∈ (F.block b).insts, ¬ callsIdBuiltin I.op)
    (h : RunsRegion F M w BBSet p b s es q e s') : RunsRegion F M w' BBSet p b s es q e s' :=
  h.congr (fun b hb _ _ => execBlock_congr fun I hI vs _ =>
    perform_of_not_callsIdBuiltin (hid b hb I hI) w w' vs) fun _ _ => rfl

end

/-! ### A work-group -/

/-- The shared memory, and the registers and private memory of each work-item. -/
structure Group (Val ι : Type) where
  shared : Cells Val Val
  item : ι → State Val

section
variable {Val ι : Type} (isShared : Val → Bool)

/-- The state as one work-item sees it. -/
def Group.view (g : Group Val ι) (i : ι) : State Val :=
  ⟨(g.item i).env, fun a => if isShared a then g.shared a else (g.item i).mem a⟩

/-- Work-item `i` has run and ended in state `s`. -/
def Group.finish [DecidableEq ι] (g : Group Val ι) (i : ι) (s : State Val) : Group Val ι :=
  ⟨s.mem, Function.update g.item i s⟩

variable [DecidableEq Val] [DecidableEq ι] (F : Function) (M : Machine Val)
  (items : ι → WorkItem Val) (PR : MxPARegion) (pred : BlockId)

/-- Work-item `i` runs the code of the region, entered from the block `pred`. -/
def Executes (g : Group Val ι) (i : ι) (es : List (Act Val)) (q : Option BlockId) (b : BlockId)
    (s : State Val) : Prop :=
  RunsRegion F M (items i) PR.BBSet (some pred) PR.Entry (g.view isShared i) es q b s

inductive RunsInOrder : Group Val ι → List ι → Group Val ι → Prop
  | nil (g : Group Val ι) : RunsInOrder g [] g
  | cons {g g' : Group Val ι} {i : ι} {is : List ι} {es : List (Act Val)} {q : Option BlockId}
      {b : BlockId} {s : State Val} : Executes isShared F M items PR pred g i es q b s →
      RunsInOrder (g.finish i s) is g' → RunsInOrder g (i :: is) g'

/-- No work-item stores to a shared cell that another one accesses. -/
def RaceFree (g : Group Val ι) : Prop :=
  ∀ i j es es' q q' b b' s s', i ≠ j → Executes isShared F M items PR pred g i es q b s →
    Executes isShared F M items PR pred g j es' q' b' s' →
    ∀ k l a v, isShared a → Act.access k (.store a v) ∈ es →
      ∀ x, Act.access l x ∈ es' → x.address ≠ some a

end

/-- Group `g'` came of `g` as if the one run from `g` that did `es` and ended in `s` were that of
each work-item. -/
structure SameAsOnce {Val ι : Type} (isShared : Val → Bool) (es : List (Act Val)) (s : State Val)
    (g g' : Group Val ι) : Prop where
  shared : ∀ a, isShared a → g'.shared a = s.mem a
  value : ∀ i x, (∃ e ∈ es, e.defines = some x) → (g'.item i).env x = s.env x
  cell : ∀ i a, isShared a = false → (∃ e ∈ es, e.writes = some a) →
    (g'.item i).mem a = s.mem a
  otherValue : ∀ i x, (∀ e ∈ es, e.defines ≠ some x) → (g'.item i).env x = (g.item i).env x
  otherCell : ∀ i a, isShared a = false → (∀ e ∈ es, e.writes ≠ some a) →
    (g'.item i).mem a = (g.item i).mem a

section
variable {Val ι : Type} {isShared : Val → Bool}

theorem view_congr {g g' : Group Val ι} {i : ι} (hitem : g'.item i = g.item i)
    (hshared : ∀ a, isShared a → g'.shared a = g.shared a) :
    g'.view isShared i = g.view isShared i := by
  have hmem : (g'.view isShared i).mem = (g.view isShared i).mem := by
    funext a
    simp only [Group.view, hitem]
    split
    · exact hshared a ‹_›
    · rfl
  rw [Group.view, Group.view, State.mk.injEq]
  exact ⟨by rw [hitem], hmem⟩

theorem view_mem_shared {g : Group Val ι} {i : ι} {a : Val} (ha : isShared a) :
    (g.view isShared i).mem a = g.shared a := if_pos ha

theorem view_mem_private {g : Group Val ι} {i : ι} {a : Val} (ha : isShared a = false) :
    (g.view isShared i).mem a = (g.item i).mem a := if_neg (Bool.eq_false_iff.mp ha)

variable [DecidableEq Val] [DecidableEq ι] {F : Function} {M : Machine Val}
  {items : ι → WorkItem Val} {PR : MxPARegion} {pred : BlockId}

theorem RunsInOrder.unique {g g' g'' : Group Val ι} {order : List ι}
    (h : RunsInOrder isShared F M items PR pred g order g')
    (h' : RunsInOrder isShared F M items PR pred g order g'') : g'' = g' := by
  induction h with
  | nil g =>
    cases h'
    rfl
  | cons hx _ ih =>
    cases h' with
    | cons hx' h' =>
      obtain ⟨rfl, rfl, rfl, rfl⟩ := RunsRegion.unique hx hx'
      exact ih h'

/-- If each work-item, on its own, does `es` and leaves the shared memory alone, then all of them
do, in any order. -/
theorem runsInOrder_of_alike {g : Group Val ι} {es : List (Act Val)} {q : Option BlockId}
    {b : BlockId} {f : ι → State Val}
    (hrun : ∀ i, Executes isShared F M items PR pred g i es q b (f i))
    (hquiet : ∀ i a, isShared a → (f i).mem a = g.shared a) {order : List ι} (hnd : order.Nodup)
    {h : Group Val ι} (hitem : ∀ i ∈ order, h.item i = g.item i)
    (hshared : ∀ a, isShared a → h.shared a = g.shared a) :
    ∃ h', RunsInOrder isShared F M items PR pred h order h' ∧
      (∀ a, isShared a → h'.shared a = g.shared a) ∧
      ∀ i, h'.item i = if i ∈ order then f i else h.item i := by
  induction order generalizing h with
  | nil => exact ⟨h, .nil h, hshared, fun i => rfl⟩
  | cons i is ih =>
    obtain ⟨hi, hnd⟩ := List.nodup_cons.mp hnd
    have hview := view_congr (hitem i List.mem_cons_self) hshared
    have hx : Executes isShared F M items PR pred h i es q b (f i) := by
      rw [Executes, hview]
      exact hrun i
    have hnext : ∀ j ∈ is, (h.finish i (f i)).item j = g.item j := by
      intro j hj
      have hij : j ≠ i := fun h => hi (h ▸ hj)
      exact (Function.update_of_ne hij ..).trans (hitem j (List.mem_cons_of_mem _ hj))
    obtain ⟨h', hr, hs, hit⟩ := ih hnd hnext fun a ha => hquiet i a ha
    refine ⟨h', .cons hx hr, hs, fun j => ?_⟩
    rw [hit j]
    by_cases hj : j ∈ is
    · rw [if_pos hj, if_pos (List.mem_cons_of_mem _ hj)]
    · rw [if_neg hj]
      by_cases hij : j = i
      · subst hij
        rw [if_pos List.mem_cons_self]
        exact Function.update_self ..
      · rw [if_neg fun h => (List.mem_cons.mp h).elim hij hj]
        exact Function.update_of_ne hij ..

omit [DecidableEq ι] in
theorem sameAsOnce_of_alike {g g' : Group Val ι} {es : List (Act Val)} {q : Option BlockId}
    {b : BlockId} {f : ι → State Val} (i₀ : ι)
    (hrun : ∀ i, Executes isShared F M items PR pred g i es q b (f i))
    (hshared : ∀ a, isShared a → g'.shared a = (f i₀).mem a)
    (hitem : ∀ i, g'.item i = f i) : SameAsOnce isShared es (f i₀) g g' where
  shared := hshared
  value i x hx := by
    rw [hitem]
    exact replay_env_agree (hrun i).replay (hrun i₀).replay hx
  cell i a _ hx := by
    rw [hitem]
    exact replay_mem_agree (hrun i).replay (hrun i₀).replay hx
  otherValue i x hx := by
    rw [hitem]
    exact replay_env_eq (hrun i).replay hx
  otherCell i a ha hx := by
    rw [hitem]
    exact (replay_mem_eq (hrun i).replay hx).trans (view_mem_private ha)

end

end VariOCL.IR.LoopInserter
