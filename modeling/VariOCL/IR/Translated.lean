import VariOCL.IR.Sound

/-! Functions that are translated instruction by instruction, and read other values for the old
ones. -/

namespace VariOCL.IR

open Sim

/-- `G` is `F` with `tr I` in the place of `I`, where `f` says what is read. -/
structure Function.Translated (F G : Function) (f : Value → Value)
    (tr : Instruction → List Instruction) : Prop where
  entry : G.entry = F.entry
  layout : G.layout = F.layout
  insts : ∀ b ∈ F.layout, (G.block b).insts = (F.block b).insts.flatMap tr
  termId : ∀ b ∈ F.layout, (G.block b).termId = (F.block b).termId
  term : ∀ b ∈ F.layout, (G.block b).term = (F.block b).term.mapValues f
  phi : ∀ b ∈ F.layout, ∀ I ∈ (F.block b).insts, I.op.isPhi → tr I = [I.mapValues f]
  other : ∀ b ∈ F.layout, ∀ I ∈ (F.block b).insts, I.op.isPhi = false →
    ∀ J ∈ tr I, J.op.isPhi = false

/-- What the PHIs of the successors take from `b`. -/
def Function.edgeUses (F : Function) (b : BlockId) : List Value :=
  (F.succs b).flatMap fun d => (F.block d).insts.flatMap fun I =>
    (I.op.incoming.filter (·.2 = b)).map Prod.fst

/-- What is read when `u` is executed, after a terminator by PHIs too. -/
def Function.usesAt (F : Function) (b : BlockId) (u : InstId) : List Value :=
  ((F.block b).insts.filter fun I => I.id = u ∧ I.op.isPhi = false).flatMap (·.op.operands) ++
    if u = (F.block b).termId then (F.block b).term.operands ++ F.edgeUses b else []

theorem Function.termId_ne {F : Function} {b d : BlockId} {I : Instruction} (hF : F.Valid)
    (hb : b ∈ F.layout) (hd : d ∈ F.layout) (hI : I ∈ (F.block d).insts) :
    I.id ≠ (F.block b).termId := by
  intro heq
  have hmem : I.id ∈ (F.block d).insts.map Instruction.id := List.mem_map_of_mem hI
  obtain rfl := F.eq_of_mem_instIds hF.ids hd hb (List.mem_append_left _ hmem)
    (heq ▸ List.mem_append_right _ List.mem_cons_self)
  exact (List.nodup_append.mp (hF.instIds_nodup hd)).2.2 _ hmem _ List.mem_cons_self heq

theorem Function.mem_usesAt {F : Function} {b : BlockId} {I : Instruction} {v : Value}
    (hI : I ∈ (F.block b).insts) (hphi : I.op.isPhi = false) (hv : v ∈ I.op.operands) :
    v ∈ F.usesAt b I.id :=
  List.mem_append_left _ (List.mem_flatMap.mpr
    ⟨I, List.mem_filter.mpr ⟨hI, decide_eq_true ⟨rfl, hphi⟩⟩, hv⟩)

theorem Function.definedAbove_of_usesAt {F : Function} {b : BlockId} {u j : InstId} (hF : F.Valid)
    (hssa : F.DefinesBeforeUse) (hb : b ∈ F.layout) (hr : F.Reachable b)
    (h : .inst j ∈ F.usesAt b u) : F.DefinedAbove b u j := by
  rcases List.mem_append.mp h with hin | hend
  · obtain ⟨I, hI, hj⟩ := List.mem_flatMap.mp hin
    obtain ⟨hmem, hu⟩ := List.mem_filter.mp hI
    obtain ⟨rfl, hphi⟩ := of_decide_eq_true hu
    exact hssa.inst b hb hr I hmem hphi j hj
  · by_cases hu : u = (F.block b).termId
    · rw [if_pos hu, List.mem_append] at hend
      subst hu
      rcases hend with hterm | hedge
      · exact hssa.term b hb hr j hterm
      · obtain ⟨d, hd, hedge⟩ := List.mem_flatMap.mp hedge
        obtain ⟨I, hI, hedge⟩ := List.mem_flatMap.mp hedge
        obtain ⟨p, hp, hv⟩ := List.mem_map.mp hedge
        obtain ⟨hin, hpb⟩ := List.mem_filter.mp hp
        obtain rfl := of_decide_eq_true hpb
        exact hssa.phi d (hF.closed _ hb d hd) (hr.tail hd) I hI p hin hr j hv
    · rw [if_neg hu] at hend
      exact absurd hend List.not_mem_nil

/-- What holds of the states of the two functions, and what carries it over each instruction. -/
structure Function.Simulated {Val : Type} [DecidableEq Val] (F : Function) (M : Machine Val)
    (w : WorkItem Val) (Q : Instruction → Prop) (f : Value → Value)
    (tr : Instruction → List Instruction) (ok : Act Val → Prop) (keep : Act Val → Bool)
    (Rel : State Val → State Val → Prop) : Prop where
  pure : ∀ I, Q I → M.Pure w I ∧ I.op.isPhi = false
  mem : ∀ s s', Rel s s' → s'.mem = s.mem
  read : ∀ b ∈ F.layout, F.Reachable b → ∀ s s', Rel s s' →
    F.SoundAt M w Q b (F.block b).termId s → ∀ v ∈ F.usesAt b (F.block b).termId,
      M.read s'.env (f v) = M.read s.env v
  phi : ∀ b ∈ F.layout, ∀ I ∈ (F.block b).insts, I.op.isPhi → ∀ s s' v, Rel s s' →
    ok (.value I.id v) → Rel (s.define I.id v) (s'.define I.id v)
  inst : ∀ b ∈ F.layout, F.Reachable b → ∀ I ∈ (F.block b).insts, I.op.isPhi = false →
    ∀ s s' t es, Rel s s' → F.SoundAt M w Q b I.id s → M.execInst w I s = some (t, es) →
      (∀ x ∈ es, ok x) → ∃ t' es', M.execInsts w (tr I) s' = some (t', es') ∧
        es'.filter keep = es.filter keep ∧ Rel t t'

section
variable {Val : Type} {M : Machine Val} {e e' : Cells InstId Val} {f : Value → Value}
  {vs : List Value}

theorem Machine.readAll_map (h : ∀ v ∈ vs, M.read e' (f v) = M.read e v) :
    M.readAll e' (vs.map f) = M.readAll e vs := by
  induction vs with
  | nil => rfl
  | cons v vs ih =>
    obtain ⟨hv, hvs⟩ := List.forall_mem_cons.mp h
    rw [List.map_cons, readAll, readAll, hv, ih hvs]

theorem Machine.taken_mapValues {t : Terminator}
    (h : ∀ v ∈ t.operands, M.read e' (f v) = M.read e v) :
    M.taken e' (t.mapValues f) = M.taken e t := by
  cases t with
  | br d => rfl
  | unreachable => rfl
  | condBr c d d' => rw [Terminator.mapValues, taken, taken, h c List.mem_cons_self]
  | switch c d cs => rw [Terminator.mapValues, taken, taken, h c List.mem_cons_self]
  | ret v =>
    have hv : (v.map f).toList = v.toList.map f := by cases v <;> rfl
    rw [Terminator.mapValues, taken, taken, hv]
    exact congrArg _ (readAll_map h)

end

section
variable {Val : Type} [DecidableEq Val] {F G : Function} {M : Machine Val} {w : WorkItem Val}
  {Q : Instruction → Prop} {f : Value → Value} {tr : Instruction → List Instruction}
  {ok : Act Val → Prop} {keep : Act Val → Bool} {Rel : State Val → State Val → Prop}
  {pred : Option BlockId} {b : BlockId} {u : InstId} {s s' t : State Val} {c c' d : Config Val}
  {es : List (Act Val)} {pre post Is : List Instruction}

theorem Machine.execUpTo_append {BB : BasicBlock} :
    M.execUpTo w BB pred (pre ++ Is) s = (M.execUpTo w BB pred pre s).bind fun r =>
      (M.execInsts w Is r.1).map fun t => (t.1, r.2 ++ t.2) := by
  rw [execUpTo, execUpTo, Option.bind_assoc]
  congr 1
  funext r
  rw [Machine.execInsts_append, Option.bind_map, Option.map_bind]
  congr 1
  funext t
  simp [Function.comp_def]

/-- An instruction that reads the same values does the same. -/
theorem Machine.execInst_mapValues {I : Instruction}
    (h : ∀ v ∈ I.op.operands, M.read s'.env (f v) = M.read s.env v) (hmem : s'.mem = s.mem)
    (hx : M.execInst w I s = some (t, es)) : ∃ v, t = ⟨s.env.set I.id v, t.mem⟩ ∧
      M.execInst w (I.mapValues f) s' = some (⟨s'.env.set I.id v, t.mem⟩, es) := by
  obtain ⟨vs, hvs, hx⟩ := Option.bind_eq_some_iff.mp hx
  obtain ⟨p, hp, hx⟩ := Option.bind_eq_some_iff.mp hx
  obtain ⟨r, hr, heq⟩ := Option.map_eq_some_iff.mp hx
  cases heq
  refine ⟨r.1, rfl, ?_⟩
  have hid : (I.mapValues f).id = I.id := rfl
  have hty : (I.mapValues f).ty = I.ty := rfl
  rw [execInst, Instruction.op_mapValues, Op.operands_mapValues, readAll_map h, hvs,
    Option.bind_some, perform_mapValues, hid, hty, hp, Option.bind_some, hmem, hr, Option.map_some]

/-- A pure instruction leaves the memory alone. -/
theorem Machine.Pure.execInst {I : Instruction} (h : M.Pure w I)
    (hx : M.execInst w I s = some (t, es)) : ∃ vs v, M.readAll s.env I.op.operands = some vs ∧
      M.perform w I.id I.ty I.op vs = some (.ret v) ∧ t = s.define I.id v := by
  obtain ⟨vs, hvs, hx⟩ := Option.bind_eq_some_iff.mp hx
  obtain ⟨p, hp, hx⟩ := Option.bind_eq_some_iff.mp hx
  obtain ⟨v, rfl⟩ := h vs p hp
  cases hx
  exact ⟨vs, v, hvs, hp, rfl⟩

theorem Function.Translated.phis (h : F.Translated G f tr) (hF : F.Valid) (hb : b ∈ F.layout) :
    (G.block b).insts.takeWhile (·.op.isPhi) =
        ((F.block b).insts.takeWhile (·.op.isPhi)).map (Instruction.mapValues f) ∧
      (G.block b).insts.dropWhile (·.op.isPhi) =
        ((F.block b).insts.dropWhile (·.op.isPhi)).flatMap tr := by
  have hP : ∀ I ∈ (F.block b).insts.takeWhile (·.op.isPhi), tr I = [I.mapValues f] := fun I hI =>
    h.phi b hb I ((List.takeWhile_sublist _).subset hI)
      (List.mem_takeWhile_imp (p := fun I : Instruction => I.op.isPhi) hI)
  have hfront : ((F.block b).insts.takeWhile (·.op.isPhi)).flatMap tr =
      ((F.block b).insts.takeWhile (·.op.isPhi)).map (Instruction.mapValues f) := by
    rw [List.map_eq_flatMap]
    exact List.flatMap_congr hP
  have hinsts : (G.block b).insts =
      ((F.block b).insts.takeWhile (·.op.isPhi)).map (Instruction.mapValues f) ++
        ((F.block b).insts.dropWhile (·.op.isPhi)).flatMap tr := by
    rw [h.insts b hb, ← hfront, ← List.flatMap_append, List.takeWhile_append_dropWhile]
  have hphi : ∀ I ∈ ((F.block b).insts.takeWhile (·.op.isPhi)).map (Instruction.mapValues f),
      I.op.isPhi := by
    intro I hI
    obtain ⟨J, hJ, rfl⟩ := List.mem_map.mp hI
    rw [Instruction.op_mapValues, Op.isPhi_mapValues]
    exact List.mem_takeWhile_imp (p := fun I : Instruction => I.op.isPhi) hJ
  have hother : ∀ I ∈ ((F.block b).insts.dropWhile (·.op.isPhi)).flatMap tr, I.op.isPhi = false := by
    intro I hI
    obtain ⟨J, hJ, hI⟩ := List.mem_flatMap.mp hI
    exact h.other b hb J ((List.dropWhile_sublist _).subset hJ) (hF.phisFirst b hb J hJ) I hI
  rw [hinsts]
  exact ⟨takeWhile_isPhi hphi hother, dropWhile_isPhi hphi hother⟩

omit [DecidableEq Val] in
theorem Op.incoming_of_not_phi {op : Op} (h : op.isPhi = false) : op.incoming = [] := by
  cases op with
  | phi incoming => cases h
  | _ => rfl

theorem Function.Translated.edgeUses (h : F.Translated G f tr) (hF : F.Valid) (hb : b ∈ F.layout) :
    G.edgeUses b = (F.edgeUses b).map f := by
  have hsuccs : G.succs b = F.succs b := by
    rw [Function.succs, h.term b hb, Terminator.successors_mapValues]
    rfl
  rw [Function.edgeUses, Function.edgeUses, hsuccs, List.map_flatMap]
  refine List.flatMap_congr fun d hd => ?_
  have hd := hF.closed b hb d hd
  rw [h.insts d hd, List.flatMap_assoc, List.map_flatMap]
  refine List.flatMap_congr fun I hI => ?_
  cases hphi : I.op.isPhi with
  | true =>
    rw [h.phi d hd I hI hphi, List.flatMap_singleton, Instruction.op_mapValues,
      Op.incoming_mapValues, List.filter_map, List.map_map, List.map_map]
    rfl
  | false =>
    rw [Op.incoming_of_not_phi hphi]
    refine List.flatMap_eq_nil_iff.mpr fun J hJ => ?_
    rw [Op.incoming_of_not_phi (h.other d hd I hI hphi J hJ)]
    rfl

/-- What is left as it was reads `f v` for `v`. -/
theorem Function.Translated.usesAt (h : F.Translated G f tr) (hF : F.Valid) (hb : b ∈ F.layout)
    (hone : ∀ I ∈ (F.block b).insts, I.id = u → tr I = [I.mapValues f])
    (hoff : ∀ I ∈ (F.block b).insts, I.id ≠ u → ∀ J ∈ tr I, J.id ≠ u) :
    G.usesAt b u = (F.usesAt b u).map f := by
  rw [Function.usesAt, Function.usesAt, List.map_append, h.termId b hb, h.term b hb,
    h.edgeUses hF hb, Terminator.operands_mapValues, h.insts b hb]
  congr 1
  · rw [List.filter_flatMap, List.flatMap_assoc]
    have hfilter : ∀ I ∈ (F.block b).insts,
        ((tr I).filter fun J => J.id = u ∧ J.op.isPhi = false).flatMap (·.op.operands) =
          if I.id = u ∧ I.op.isPhi = false then I.op.operands.map f else [] := by
      intro I hI
      by_cases hid : I.id = u
      · rw [hone I hI hid]
        by_cases hphi : I.op.isPhi = false <;> simp [hid, hphi]
      · rw [if_neg fun hand => hid hand.1]
        refine List.flatMap_eq_nil_iff.mpr fun J hJ => ?_
        obtain ⟨hJ, hand⟩ := List.mem_filter.mp hJ
        exact absurd (of_decide_eq_true hand).1 (hoff I hI hid J hJ)
    rw [List.flatMap_congr hfilter, List.map_flatMap]
    generalize (F.block b).insts = Is
    induction Is with
    | nil => rfl
    | cons I Is ih =>
      rw [List.flatMap_cons, ih, List.filter_cons]
      by_cases hand : I.id = u ∧ I.op.isPhi = false
      · rw [if_pos hand, if_pos (decide_eq_true hand), List.flatMap_cons]
      · rw [if_neg hand, if_neg (by simpa using hand), List.nil_append]
  · split
    · rw [List.map_append]
    · rfl

variable (hsim : F.Simulated M w Q f tr ok keep Rel)

include hsim in
/-- PHIs take the same values. -/
theorem Function.Simulated.execPhis {e e' e'' f₁ : Cells InstId Val} {m : Cells Val Val}
    (hb : b ∈ F.layout) (hIs : ∀ I ∈ Is, I ∈ (F.block b).insts ∧ I.op.isPhi)
    (hread : ∀ I ∈ Is, ∀ v, I.op.incomingFor pred = some v → M.read f₁ (f v) = M.read e v)
    (hrel : Rel ⟨e', m⟩ s') (hx : M.execPhis e pred Is e' = some (e'', es)) (hok : ∀ x ∈ es, ok x) :
    ∃ t', M.execPhis f₁ pred (Is.map (Instruction.mapValues f)) s'.env = some (t'.env, es) ∧
      Rel ⟨e'', m⟩ t' := by
  induction Is generalizing e' s' es with
  | nil =>
    cases hx
    exact ⟨s', rfl, hrel⟩
  | cons I Is ih =>
    obtain ⟨⟨hI, hphi⟩, hIs⟩ := List.forall_mem_cons.mp hIs
    obtain ⟨hreadI, hread⟩ := List.forall_mem_cons.mp hread
    obtain ⟨x, hv, hx⟩ := Option.bind_eq_some_iff.mp hx
    obtain ⟨⟨e₁, es₁⟩, hxs, heq⟩ := Option.map_eq_some_iff.mp hx
    cases heq
    obtain ⟨hokI, hok⟩ := List.forall_mem_cons.mp hok
    obtain ⟨v, hinc, hv⟩ := Option.bind_eq_some_iff.mp hv
    obtain ⟨t', hys, hend⟩ := ih hIs hread (hsim.phi b hb I hI hphi _ _ x hrel hokI) hxs hok
    refine ⟨t', ?_, hend⟩
    rw [List.map_cons, Machine.execPhis, Instruction.op_mapValues, Op.incomingFor_mapValues, hinc,
      Option.map_some, Option.bind_some, hreadI v hinc, hv, Option.bind_some]
    exact Option.map_eq_some_iff.mpr ⟨_, hys, rfl⟩

theorem Function.mem_edgeUses {p : BlockId} (hp : F.Edge p b) {I : Instruction}
    (hI : I ∈ (F.block b).insts) {v : Value} (hv : I.op.incomingFor (some p) = some v) :
    v ∈ F.edgeUses p := by
  obtain ⟨i, ty, op⟩ := I
  cases op with
  | phi incoming =>
    obtain ⟨q, hq, rfl⟩ := Option.map_eq_some_iff.mp hv
    have hqp : q.2 = p := by simpa using List.find?_some hq
    refine List.mem_flatMap.mpr ⟨b, hp, List.mem_flatMap.mpr ⟨_, hI, List.mem_map_of_mem ?_⟩⟩
    exact List.mem_filter.mpr ⟨List.mem_of_find?_eq_some hq, decide_eq_true hqp⟩
  | _ => cases hv

/-- The part of a block before an instruction does the same. -/
theorem Function.Simulated.execUpTo (h : F.Translated G f tr)
    (hsim : F.Simulated M w Q f tr ok keep Rel) (hF : F.Valid) (hssa : F.DefinesBeforeUse)
    (hsound : F.Sound M w Q (.inside pred b s)) (hrel : Rel s s')
    (hsplit : (F.block b).insts.dropWhile (·.op.isPhi) = pre ++ post)
    (hx : M.execUpTo w (F.block b) pred pre s = some (t, es)) (hok : ∀ x ∈ es, ok x) :
    ∃ t' es', M.execUpTo w (G.block b) pred (pre.flatMap tr) s' = some (t', es') ∧
      es'.filter keep = es.filter keep ∧ Rel t t' := by
  have hb := hsound.1.mem hF
  induction pre using List.reverseRecOn generalizing post t es with
  | nil =>
    obtain ⟨⟨e, es₁⟩, hphis, hx⟩ := Option.bind_eq_some_iff.mp hx
    cases hx
    have hread : ∀ I ∈ (F.block b).insts.takeWhile (·.op.isPhi), ∀ v,
        I.op.incomingFor pred = some v → M.read s'.env (f v) = M.read s.env v := by
      intro I hI v hv
      cases pred with
      | none =>
        obtain ⟨i, ty, op⟩ := I
        cases op with
        | phi incoming =>
          obtain ⟨q, hq, -⟩ := Option.map_eq_some_iff.mp hv
          have := List.find?_some hq
          simp at this
        | _ => cases hv
      | some p =>
        refine hsim.read p hsound.1.1 hsound.1.2.1 s s' hrel (hsound.2 p rfl) v ?_
        refine List.mem_append_right _ ?_
        rw [if_pos rfl]
        exact List.mem_append_right _
          (F.mem_edgeUses hsound.1.2.2 ((List.takeWhile_sublist _).subset hI) hv)
    obtain ⟨t', hys, hend⟩ := hsim.execPhis hb (fun I hI =>
      ⟨(List.takeWhile_sublist _).subset hI,
        List.mem_takeWhile_imp (p := fun I : Instruction => I.op.isPhi) hI⟩) hread hrel hphis
      (by simpa using hok)
    have hmem : t'.mem = s'.mem := (hsim.mem _ _ hend).trans (hsim.mem _ _ hrel).symm
    refine ⟨t', es₁, ?_, by simp, hend⟩
    rw [Machine.execUpTo, (h.phis hF hb).1, hys, Option.bind_some, ← hmem]
    simp [Machine.execInsts]
  | append_singleton pre I ih =>
    rw [Machine.execUpTo_append] at hx
    obtain ⟨⟨s₁, es₁⟩, hpre, hx⟩ := Option.bind_eq_some_iff.mp hx
    obtain ⟨⟨t, es₂⟩, hI, heq⟩ := Option.map_eq_some_iff.mp hx
    cases heq
    obtain ⟨hok₁, hok₂⟩ := List.forall_mem_append.mp hok
    rw [List.append_assoc, List.singleton_append] at hsplit
    obtain ⟨s₁', es₁', hpre', hes₁, hrel₁⟩ := ih hsplit hpre hok₁
    have hIb : I ∈ (F.block b).insts.dropWhile (·.op.isPhi) :=
      hsplit ▸ List.mem_append_right pre List.mem_cons_self
    obtain ⟨⟨t₁, es₃⟩, hexec, hnil⟩ := Option.bind_eq_some_iff.mp hI
    cases hnil
    have hok₃ : ∀ x ∈ es₃, ok x := by simpa using hok₂
    obtain ⟨t', es', hx', hes', hrel'⟩ := hsim.inst b hb hsound.1.reachable I
      ((List.dropWhile_sublist _).subset hIb) (hF.phisFirst b hb I hIb) s₁ s₁' t₁ es₃ hrel₁
      (hsound.above hF hssa hsim.pure hsplit hpre rfl) hexec hok₃
    refine ⟨t', es₁' ++ es', ?_, by simp [hes₁, hes'], hrel'⟩
    rw [List.flatMap_append, Machine.execUpTo_append, hpre', Option.bind_some,
      List.flatMap_singleton, hx', Option.map_some]

inductive Config.Related (Rel : State Val → State Val → Prop) : Config Val → Config Val → Prop
  | inside {pred : Option BlockId} {b : BlockId} {s s' : State Val} : Rel s s' →
      Related Rel (.inside pred b s) (.inside pred b s')
  | returned {s s' : State Val} : Rel s s' → Related Rel (.returned s) (.returned s')

theorem Function.Simulated.step (h : F.Translated G f tr)
    (hsim : F.Simulated M w Q f tr ok keep Rel) (hF : F.Valid) (hssa : F.DefinesBeforeUse)
    (hsound : F.Sound M w Q c) (hc : Config.Related Rel c c') (hx : F.Exec M w c es d)
    (hok : ∀ x ∈ es, ok x) : ∃ es' d', G.Exec M w c' es' d' ∧
      es'.filter keep = es.filter keep ∧ Config.Related Rel d d' := by
  have hblock : ∀ {pred b s s' i t es}, F.Sound M w Q (.inside pred b s) → Rel s s' →
      M.execBlock w (F.block b) pred s = some (i, t, es) → (∀ x ∈ es, ok x) →
        ∃ t' es', M.execBlock w (G.block b) pred s' = some (i, t', es') ∧
          es'.filter keep = es.filter keep ∧ Rel t t' := by
    intro pred b s s' i t es hsound hrel hx hok
    have hb := hsound.1.mem hF
    rw [Machine.execBlock_eq] at hx
    obtain ⟨⟨t, es₁⟩, hup, hx⟩ := Option.bind_eq_some_iff.mp hx
    obtain ⟨k, hk, heq⟩ := Option.map_eq_some_iff.mp hx
    cases heq
    obtain ⟨t', es', hup', hes, hrel'⟩ := hsim.execUpTo h hF hssa hsound hrel
      (List.append_nil _).symm hup fun x hx => hok x (List.mem_append_left _ hx)
    have hread : ∀ v ∈ (F.block b).term.operands, M.read t'.env (f v) = M.read t.env v := by
      intro v hv
      refine hsim.read b hb hsound.1.reachable t t' hrel'
        (hsound.above hF hssa hsim.pure (List.append_nil _).symm hup rfl) v ?_
      refine List.mem_append_right _ ?_
      rw [if_pos rfl]
      exact List.mem_append_left _ hv
    refine ⟨t', es' ++ [.branch (F.block b).termId i], ?_, by simp [hes], hrel'⟩
    rw [Machine.execBlock_eq, (h.phis hF hb).2, hup', Option.bind_some, h.term b hb, h.termId b hb,
      Machine.taken_mapValues hread, hk, Option.map_some]
  cases hx with
  | @branch pred b d i s t _ hx hd =>
    cases hc with
    | inside hrel =>
      obtain ⟨t', es', hx', hes, hrel'⟩ := hblock hsound hrel hx hok
      refine ⟨es', _, .branch hx' ?_, hes, .inside hrel'⟩
      rwa [Function.succs, h.term b (hsound.1.mem hF), Terminator.successors_mapValues]
  | @ret pred b s t _ hx =>
    cases hc with
    | inside hrel =>
      obtain ⟨t', es', hx', hes, hrel'⟩ := hblock hsound hrel hx hok
      exact ⟨es', _, .ret hx', hes, .returned hrel'⟩

theorem Function.Simulated.run (h : F.Translated G f tr)
    (hsim : F.Simulated M w Q f tr ok keep Rel) (hF : F.Valid) (hssa : F.DefinesBeforeUse)
    (hsound : F.Sound M w Q c) (hc : Config.Related Rel c c') (hr : Run (F.Exec M w) c es d)
    (hok : ∀ x ∈ es, ok x) : ∃ es' d', Run (G.Exec M w) c' es' d' ∧
      es'.filter keep = es.filter keep ∧ Config.Related Rel d d' := by
  induction hr generalizing c' with
  | refl c => exact ⟨[], c', .refl c', rfl, hc⟩
  | head hx _ ih =>
    obtain ⟨hok₁, hok₂⟩ := List.forall_mem_append.mp hok
    obtain ⟨es₁, d₁, hx', hes₁, hd₁⟩ := hsim.step h hF hssa hsound hc hx hok₁
    obtain ⟨es₂, d₂, hr', hes₂, hd₂⟩ := ih (hsound.step hF hssa hsim.pure hx) hd₁ hok₂
    exact ⟨es₁ ++ es₂, d₂, .head hx' hr', by simp [hes₁, hes₂], hd₂⟩

end

end VariOCL.IR
