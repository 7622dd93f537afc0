import VariOCL.IR.Exec
import VariOCL.IR.Uses

/-! Definitions and their uses: on which paths a value is defined, and the states in which the
instructions of a function are executed. -/

namespace VariOCL.IR

open Sim

/-- `j` is executed on every path to the instruction or terminator `u` of `b`. -/
def Function.DefinedAbove (F : Function) (b : BlockId) (u j : InstId) : Prop :=
  [j, u].Sublist (F.block b).instIds ∨
    ∃ d ∈ F.layout, d ≠ b ∧ F.Dominates d b ∧ j ∈ (F.block d).insts.map Instruction.id

/-- Values are defined where they are used; a PHI uses its values at the ends of the blocks it takes
them from. -/
structure Function.DefinesBeforeUse (F : Function) : Prop where
  inst : ∀ b ∈ F.layout, F.Reachable b → ∀ I ∈ (F.block b).insts, I.op.isPhi = false →
    ∀ j, .inst j ∈ I.op.operands → F.DefinedAbove b I.id j
  term : ∀ b ∈ F.layout, F.Reachable b → ∀ j, .inst j ∈ (F.block b).term.operands →
    F.DefinedAbove b (F.block b).termId j
  phi : ∀ b ∈ F.layout, F.Reachable b → ∀ I ∈ (F.block b).insts, ∀ p ∈ I.op.incoming,
    F.Reachable p.2 → ∀ j, p.1 = .inst j → F.DefinedAbove p.2 (F.block p.2).termId j

/-- The entry, before anything is executed. -/
def Function.start {Val : Type} (F : Function) (m : Cells Val Val) : Config Val :=
  .inside none F.entry ⟨fun _ => none, m⟩

section
variable {Val : Type} [DecidableEq Val] (M : Machine Val) (w : WorkItem Val)

/-- The PHIs of the block, and the first of its other instructions. -/
def Machine.execUpTo (BB : BasicBlock) (pred : Option BlockId) (pre : List Instruction)
    (s : State Val) : Option (State Val × List (Act Val)) :=
  (M.execPhis s.env pred (BB.insts.takeWhile (·.op.isPhi)) s.env).bind fun r =>
    (M.execInsts w pre ⟨r.1, s.mem⟩).map fun t => (t.1, r.2 ++ t.2)

theorem Machine.execBlock_eq (BB : BasicBlock) (pred : Option BlockId) (s : State Val) :
    M.execBlock w BB pred s = (M.execUpTo w BB pred (BB.insts.dropWhile (·.op.isPhi)) s).bind
      fun t => (M.taken t.1.env BB.term).map fun i => (i, t.1, t.2 ++ [.branch BB.termId i]) := by
  simp only [execBlock, execUpTo, Option.bind_assoc, Option.bind_map]
  rfl

/-- From `c`, `F` does `es` and is about to execute `u` in the state `t`. -/
inductive Function.Arrives (F : Function) (c : Config Val) :
    List (Act Val) → InstId → State Val → Prop
  | intro {pred : Option BlockId} {b : BlockId} {s t : State Val} {es es' : List (Act Val)}
      {pre post : List Instruction} : Run (F.Exec M w) c es (.inside pred b s) →
      (F.block b).insts.dropWhile (·.op.isPhi) = pre ++ post →
      M.execUpTo w (F.block b) pred pre s = some (t, es') →
      F.Arrives c (es ++ es') ((post.head?.map Instruction.id).getD (F.block b).termId) t

end

section
variable {F : Function} {b : BlockId} {u j : InstId}

/-- Before an instruction of the entry there is only what stands above it. -/
theorem Function.DefinedAbove.of_entry (h : F.DefinedAbove F.entry u j) :
    [j, u].Sublist (F.block F.entry).instIds := by
  rcases h with h | ⟨d, -, hne, hdom, -⟩
  · exact h
  · exact absurd (.refl (Ne.symm hne)) (Graph.dominates_iff.mp hdom)

end

def Value.inst? : Value → Option InstId
  | .inst i => some i
  | _ => none

/-- Code that uses values only below their definitions in the same block. -/
theorem Function.definesBeforeUse_of_local {F : Function}
    (hphi : ∀ b ∈ F.layout, ∀ I ∈ (F.block b).insts, ∀ p ∈ I.op.incoming, p.1.inst? = none)
    (hinst : ∀ b ∈ F.layout, ∀ I ∈ (F.block b).insts, ∀ j ∈ I.op.operands.filterMap Value.inst?,
      [j, I.id].Sublist (F.block b).instIds)
    (hterm : ∀ b ∈ F.layout, ∀ j ∈ (F.block b).term.operands.filterMap Value.inst?,
      [j, (F.block b).termId].Sublist (F.block b).instIds) : F.DefinesBeforeUse where
  inst b hb _ I hI _ j hj := .inl (hinst b hb I hI j (List.mem_filterMap.mpr ⟨_, hj, rfl⟩))
  term b hb _ j hj := .inl (hterm b hb j (List.mem_filterMap.mpr ⟨_, hj, rfl⟩))
  phi b hb _ I hI p hp _ j hj := by
    have hnone := hphi b hb I hI p hp
    rw [hj] at hnone
    cases hnone

/-- Where `x` occurs once, what is above it is in front of it. -/
theorem mem_of_sublist_pair {α : Type} {x j : α} {as bs : List α} (hn : (as ++ x :: bs).Nodup)
    (h : [j, x].Sublist (as ++ x :: bs)) : j ∈ as := by
  obtain ⟨hnot, -⟩ := List.nodup_cons.mp (List.nodup_middle.mp hn)
  rw [List.mem_append, not_or] at hnot
  obtain ⟨l₁, l₂, heq, hl₁, hl₂⟩ := List.sublist_append_iff.mp h
  match l₁ with
  | [] =>
    rw [List.nil_append] at heq
    subst heq
    cases hl₂ with
    | cons _ h => exact absurd (h.subset (by simp)) hnot.2
    | cons_cons _ h => exact absurd (h.subset (by simp)) hnot.2
  | a :: l₁ =>
    obtain ⟨rfl, -⟩ := List.cons.inj heq
    exact hl₁.subset List.mem_cons_self

/-! ### What is defined has a value -/

section
variable {Val : Type} [DecidableEq Val] {F : Function} {M : Machine Val} {w : WorkItem Val}
  {pred : Option BlockId} {b : BlockId} {u j : InstId} {s t : State Val} {c c' : Config Val}
  {es : List (Act Val)} {pre post : List Instruction}

/-- Control can be in `b` and come from `pred`. -/
def Function.Entered (F : Function) : Option BlockId → BlockId → Prop
  | none, b => b = F.entry
  | some p, b => p ∈ F.layout ∧ F.Reachable p ∧ F.Edge p b

theorem Function.Entered.reachable (h : F.Entered pred b) : F.Reachable b := by
  cases pred with
  | none =>
    rw [show b = F.entry from h]
    exact .refl
  | some p => exact h.2.1.tail h.2.2

theorem Function.Entered.mem (h : F.Entered pred b) (hF : F.Valid) : b ∈ F.layout :=
  hF.closed.reachable_mem h.reachable

/-- What is defined in a block above `b` is defined at the end of the predecessor. -/
theorem Function.Entered.definedAbove (h : F.Entered pred b) {d : BlockId} (hd : d ∈ F.layout)
    (hne : d ≠ b) (hdom : F.Dominates d b) (hj : j ∈ (F.block d).insts.map Instruction.id) :
    ∃ p, pred = some p ∧ F.DefinedAbove p (F.block p).termId j := by
  cases pred with
  | none =>
    rw [show b = F.entry from h] at hne hdom
    exact absurd (.refl (Ne.symm hne)) (Graph.dominates_iff.mp hdom)
  | some p =>
    refine ⟨p, rfl, ?_⟩
    by_cases hdp : d = p
    · subst hdp
      exact .inl ((List.singleton_sublist.mpr hj).append (.refl _))
    · exact .inr ⟨d, hd, hdp, hdom.pred (Ne.symm hne) h.2.2, hj⟩

theorem Function.entered_of_branch (hb : b ∈ F.layout) (hr : F.Reachable b) {d : BlockId} {i : Nat}
    (hd : (F.succs b)[i]? = some d) : F.Entered (some b) d :=
  ⟨hb, hr, List.mem_of_getElem? hd⟩

/-- What is defined at the end of the predecessor has a value. -/
def Function.Holds (F : Function) : Config Val → Prop
  | .inside pred b s => F.Entered pred b ∧
      ∀ p, pred = some p → ∀ j, F.DefinedAbove p (F.block p).termId j → (s.env j).isSome
  | .returned _ => True

/-- Where `u` is next, what is defined above it has a value. -/
theorem Function.Holds.above (h : F.Holds (.inside pred b s)) (hF : F.Valid)
    (hsplit : (F.block b).insts.dropWhile (·.op.isPhi) = pre ++ post)
    (hpre : M.execUpTo w (F.block b) pred pre s = some (t, es))
    (hu : u = (post.head?.map Instruction.id).getD (F.block b).termId)
    (hj : F.DefinedAbove b u j) : (t.env j).isSome := by
  obtain ⟨⟨e, es₁⟩, hphis, hpre⟩ := Option.bind_eq_some_iff.mp hpre
  obtain ⟨⟨t, es₂⟩, hinsts, heq⟩ := Option.map_eq_some_iff.mp hpre
  obtain ⟨rfl, -⟩ := Prod.mk.inj heq
  have hlater : j ∈ pre.map Instruction.id ∨
      j ∈ ((F.block b).insts.takeWhile (·.op.isPhi)).map Instruction.id ∨ (s.env j).isSome →
        (t.env j).isSome := fun hj =>
    Machine.isSome_execInsts hinsts (hj.imp_right (Machine.isSome_execPhis hphis))
  rcases hj with hj | ⟨d, hd, hne, hdom, hj⟩
  · have hinsts : (F.block b).insts =
        (F.block b).insts.takeWhile (·.op.isPhi) ++ (pre ++ post) := by
      rw [← hsplit, List.takeWhile_append_dropWhile]
    have hids : ∃ rest, (F.block b).instIds =
        (((F.block b).insts.takeWhile (·.op.isPhi)).map Instruction.id ++ pre.map Instruction.id) ++
          u :: rest := by
      rw [BasicBlock.instIds, hu]
      nth_rewrite 1 [hinsts]
      cases post with
      | nil => exact ⟨[], by simp⟩
      | cons I post => exact ⟨post.map Instruction.id ++ [(F.block b).termId], by simp⟩
    obtain ⟨rest, hids⟩ := hids
    rw [hids] at hj
    have hmem := mem_of_sublist_pair (hids ▸ hF.instIds_nodup (h.1.mem hF)) hj
    rcases List.mem_append.mp hmem with hmem | hmem
    · exact hlater (.inr (.inl hmem))
    · exact hlater (.inl hmem)
  · obtain ⟨p, hp, habove⟩ := h.1.definedAbove hd hne hdom hj
    exact hlater (.inr (.inr (h.2 p hp j habove)))

theorem Function.Holds.step (h : F.Holds c) (hF : F.Valid) (hx : F.Exec M w c es c') :
    F.Holds c' := by
  cases hx with
  | ret _ => trivial
  | @branch pred b d i s s' _ hx hd =>
    refine ⟨F.entered_of_branch (h.1.mem hF) h.1.reachable hd, fun p hp j hj => ?_⟩
    cases hp
    rw [Machine.execBlock_eq] at hx
    obtain ⟨⟨t, es'⟩, hup, hx⟩ := Option.bind_eq_some_iff.mp hx
    obtain ⟨i, -, heq⟩ := Option.map_eq_some_iff.mp hx
    cases heq
    exact h.above hF (List.append_nil _).symm hup rfl hj

theorem Function.Holds.run (hF : F.Valid) (hr : Run (F.Exec M w) c es c') (h : F.Holds c) :
    F.Holds c' := by
  induction hr with
  | refl => exact h
  | head hx _ ih => exact ih (h.step hF hx)

theorem Function.Arrives.isSome (hx : F.Arrives M w c es u t) (h : F.Holds c) (hF : F.Valid)
    (hb : b ∈ F.layout) (hu : u ∈ (F.block b).instIds) (hj : F.DefinedAbove b u j) :
    (t.env j).isSome := by
  obtain ⟨hrun, hsplit, hup⟩ := hx
  rename_i q d s es es' pre post
  have h := Function.Holds.run hF hrun h
  have hd := h.1.mem hF
  have hmem : (post.head?.map Instruction.id).getD (F.block d).termId ∈ (F.block d).instIds := by
    cases post with
    | nil => exact List.mem_append_right _ List.mem_cons_self
    | cons I post =>
      have hI : I ∈ (F.block d).insts.dropWhile (·.op.isPhi) :=
        hsplit ▸ List.mem_append_right pre List.mem_cons_self
      exact List.mem_append_left _ (List.mem_map_of_mem ((List.dropWhile_sublist _).subset hI))
  obtain rfl := F.eq_of_mem_instIds hF.ids hd hb hmem hu
  exact h.above hF hsplit hup rfl hj

omit [DecidableEq Val] in
/-- The values a PHI takes are there. -/
theorem Function.Holds.incoming (h : F.Holds (.inside pred b s)) (hF : F.Valid)
    (hssa : F.DefinesBeforeUse) {I : Instruction} (hI : I ∈ (F.block b).insts) {v : Value}
    (hv : I.op.incomingFor pred = some v) : (M.read s.env v).isSome := by
  refine Machine.isSome_read fun j hj => ?_
  subst hj
  obtain ⟨i, ty, op⟩ := I
  cases op with
  | phi incoming =>
    obtain ⟨p, hp, hval⟩ := Option.map_eq_some_iff.mp hv
    have hpred : some p.2 = pred := by simpa using List.find?_some hp
    subst hpred
    exact h.2 _ rfl j (hssa.phi b (h.1.mem hF) h.1.reachable _ hI p
      (List.mem_of_find?_eq_some hp) h.1.2.1 j hval)
  | _ => cases hv

/-- So are the operands of the next instruction. -/
theorem Function.Holds.operands (h : F.Holds (.inside pred b s)) (hF : F.Valid)
    (hssa : F.DefinesBeforeUse) {I : Instruction}
    (hsplit : (F.block b).insts.dropWhile (·.op.isPhi) = pre ++ I :: post)
    (hpre : M.execUpTo w (F.block b) pred pre s = some (t, es)) :
    ∀ j, .inst j ∈ I.op.operands → (t.env j).isSome := by
  have hI : I ∈ (F.block b).insts.dropWhile (·.op.isPhi) :=
    hsplit ▸ List.mem_append_right _ List.mem_cons_self
  exact fun j hj => h.above hF hsplit hpre rfl (hssa.inst b (h.1.mem hF) h.1.reachable I
    ((List.dropWhile_sublist _).subset hI) (hF.phisFirst b (h.1.mem hF) I hI) j hj)

theorem Function.Holds.terminator (h : F.Holds (.inside pred b s)) (hF : F.Valid)
    (hssa : F.DefinesBeforeUse)
    (hinsts : M.execUpTo w (F.block b) pred ((F.block b).insts.dropWhile (·.op.isPhi)) s =
      some (t, es)) :
    ∀ j, .inst j ∈ (F.block b).term.operands → (t.env j).isSome := fun j hj =>
  h.above hF (List.append_nil _).symm hinsts rfl (hssa.term b (h.1.mem hF) h.1.reachable j hj)

end

end VariOCL.IR
