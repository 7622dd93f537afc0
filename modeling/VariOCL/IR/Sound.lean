import VariOCL.IR.Arrives

/-! Values that depend on the values of operands alone keep to them wherever they are defined: what is
above a block in a function in SSA form is not executed again before the block is. -/

namespace VariOCL.IR

open Sim

/-- The value of `I` in `e` is the one it has on the operands' values in `e`. -/
def Machine.Computed {Val : Type} (M : Machine Val) (w : WorkItem Val) (e : Cells InstId Val)
    (I : Instruction) : Prop :=
  ∃ vs v, M.readAll e I.op.operands = some vs ∧ M.perform w I.id I.ty I.op vs = some (.ret v) ∧
    e I.id = some v

/-- It computes its value without a memory access. -/
def Machine.Pure {Val : Type} (M : Machine Val) (w : WorkItem Val) (I : Instruction) : Prop :=
  ∀ vs p, M.perform w I.id I.ty I.op vs = some p → ∃ v, p = .ret v

section
variable {Val : Type} {M : Machine Val} {w : WorkItem Val} {F : Function} {I : Instruction}
  {e e' : Cells InstId Val} {b : BlockId} {u j : InstId}

theorem Machine.Computed.mono (h : M.Computed w e I) (ho : ∀ j, .inst j ∈ I.op.operands → e' j = e j)
    (hI : e' I.id = e I.id) : M.Computed w e' I := by
  obtain ⟨vs, v, hvs, hv, hid⟩ := h
  exact ⟨vs, v, (Machine.readAll_congr ho).trans hvs, hv, hI.trans hid⟩

/-- What is above `u` is neither `u` nor below it. -/
theorem Function.DefinedAbove.not_below (h : F.DefinedAbove b u j) (hF : F.Valid) (hb : b ∈ F.layout)
    {as bs : List InstId} (hids : (F.block b).instIds = as ++ u :: bs) : j ∉ u :: bs := by
  intro hj
  have hn := hids ▸ hF.instIds_nodup hb
  rcases h with h | ⟨d, hd, hne, -, hjd⟩
  · rw [hids] at h
    exact (List.nodup_append.mp hn).2.2 j (mem_of_sublist_pair hn h) j hj rfl
  · exact hne (F.eq_of_mem_instIds hF.ids hd hb (List.mem_append_left _ hjd)
      (hids ▸ List.mem_append_right as hj))

/-- A block above another one uses nothing of the other one. -/
theorem Function.DefinedAbove.not_mem (h : F.DefinedAbove b u j) (hF : F.Valid) {d : BlockId}
    (hb : b ∈ F.layout) (hd : d ∈ F.layout) (hne : b ≠ d) (hdom : F.Dominates b d)
    (hr : F.Reachable d) : j ∉ (F.block d).insts.map Instruction.id := by
  intro hj
  have hjd : j ∈ (F.block d).instIds := List.mem_append_left _ hj
  rcases h with h | ⟨x, hx, hxb, hxdom, hjx⟩
  · exact hne (F.eq_of_mem_instIds hF.ids hb hd (h.subset List.mem_cons_self) hjd)
  · obtain rfl := F.eq_of_mem_instIds hF.ids hx hd (List.mem_append_left _ hjx) hjd
    exact hne (Graph.Dominates.antisymm hdom hxdom (hdom.reach hr))

theorem Function.DefinedAbove.reachable {d : BlockId} (h : F.DefinedAbove b u I.id) (hF : F.Valid)
    (hb : b ∈ F.layout) (hr : F.Reachable b) (hd : d ∈ F.layout) (hI : I ∈ (F.block d).insts) :
    F.Reachable d := by
  have hId : I.id ∈ (F.block d).instIds := List.mem_append_left _ (List.mem_map_of_mem hI)
  rcases h with h | ⟨x, hx, -, hdom, hIx⟩
  · rwa [F.eq_of_mem_instIds hF.ids hd hb hId (h.subset List.mem_cons_self)]
  · rw [F.eq_of_mem_instIds hF.ids hd hx hId (List.mem_append_left _ hIx)]
    exact hdom.reach hr

/-- What is above an instruction above `u` is above `u`. -/
theorem Function.DefinedAbove.trans {d : BlockId} (h : F.DefinedAbove d I.id j)
    (h' : F.DefinedAbove b u I.id) (hF : F.Valid) (hb : b ∈ F.layout) (hr : F.Reachable b)
    (hu : u ∈ (F.block b).instIds) (hd : d ∈ F.layout) (hI : I ∈ (F.block d).insts) :
    F.DefinedAbove b u j := by
  have hId : I.id ∈ (F.block d).instIds := List.mem_append_left _ (List.mem_map_of_mem hI)
  rcases h' with h' | ⟨x, hx, hxb, hxdom, hIx⟩
  · obtain rfl := F.eq_of_mem_instIds hF.ids hd hb hId (h'.subset List.mem_cons_self)
    rcases h with h | h
    · left
      obtain ⟨as, bs, hids⟩ := List.append_of_mem hu
      have hn := hids ▸ hF.instIds_nodup hb
      rw [hids] at h h' ⊢
      obtain ⟨as₁, as₂, rfl⟩ := List.append_of_mem (mem_of_sublist_pair hn h')
      rw [List.append_assoc, List.cons_append] at h hn
      have hj := mem_of_sublist_pair hn h
      exact (List.singleton_sublist.mpr (List.mem_append_left _ hj)).append
        (List.singleton_sublist.mpr List.mem_cons_self)
    · exact .inr h
  · obtain rfl := F.eq_of_mem_instIds hF.ids hd hx hId (List.mem_append_left _ hIx)
    rcases h with h | ⟨y, hy, hyd, hydom, hjy⟩
    · refine .inr ⟨d, hx, hxb, hxdom, ?_⟩
      obtain ⟨pre, post, hinsts⟩ := List.append_of_mem hI
      have hids : (F.block d).instIds = pre.map Instruction.id ++
          I.id :: (post.map Instruction.id ++ [(F.block d).termId]) := by
        rw [BasicBlock.instIds, hinsts]
        simp
      rw [hids] at h
      rw [hinsts, List.map_append]
      exact List.mem_append_left _ (mem_of_sublist_pair (hids ▸ hF.instIds_nodup hd) h)
    · refine .inr ⟨y, hy, ?_, hydom.trans hxdom, hjy⟩
      rintro rfl
      exact hyd (Graph.Dominates.antisymm hydom hxdom hr)

end

section
variable {Val : Type} [DecidableEq Val] {F : Function} {M : Machine Val} {w : WorkItem Val}
  {pred : Option BlockId} {b d : BlockId} {u : InstId} {I : Instruction} {s t : State Val}
  {c c' : Config Val} {es : List (Act Val)} {pre post : List Instruction} {Q : Instruction → Prop}

/-- The values of `Q` above `u` are computed from their operands. -/
def Function.SoundAt (F : Function) (M : Machine Val) (w : WorkItem Val) (Q : Instruction → Prop)
    (b : BlockId) (u : InstId) (s : State Val) : Prop :=
  ∀ d ∈ F.layout, ∀ I ∈ (F.block d).insts, Q I → F.DefinedAbove b u I.id → M.Computed w s.env I

/-- They are at the end of the predecessor. -/
def Function.Sound (F : Function) (M : Machine Val) (w : WorkItem Val) (Q : Instruction → Prop) :
    Config Val → Prop
  | .inside pred b s => F.Entered pred b ∧
      ∀ p, pred = some p → F.SoundAt M w Q p (F.block p).termId s
  | .returned _ => True

theorem Machine.env_execUpTo {BB : BasicBlock} {i : InstId}
    (h : M.execUpTo w BB pred pre s = some (t, es))
    (hphis : i ∉ (BB.insts.takeWhile (·.op.isPhi)).map Instruction.id)
    (hpre : i ∉ pre.map Instruction.id) : t.env i = s.env i := by
  obtain ⟨⟨e, es₁⟩, hp, h⟩ := Option.bind_eq_some_iff.mp h
  obtain ⟨⟨t', es₂⟩, hx, heq⟩ := Option.map_eq_some_iff.mp h
  cases heq
  exact (Machine.env_execInsts hx hpre).trans (Machine.env_execPhis hp hphis)

/-- Just executed, and with what follows it executed too. -/
theorem Machine.computed_of_execInsts {s₁ : State Val} {pre post : List Instruction}
    (hx : M.execInsts w (pre ++ I :: post) s₁ = some (t, es)) (hpure : M.Pure w I)
    (hops : ∀ j, .inst j ∈ I.op.operands → j ∉ (I :: post).map Instruction.id)
    (hid : I.id ∉ post.map Instruction.id) : M.Computed w t.env I := by
  rw [Machine.execInsts_append] at hx
  obtain ⟨⟨s₂, es₁⟩, -, hx⟩ := Option.bind_eq_some_iff.mp hx
  obtain ⟨⟨t', es₂⟩, hrest, heq⟩ := Option.map_eq_some_iff.mp hx
  cases heq
  obtain ⟨⟨s₃, es₃⟩, hI, hrest⟩ := Option.bind_eq_some_iff.mp hrest
  obtain ⟨⟨t', es₄⟩, hpost, heq⟩ := Option.map_eq_some_iff.mp hrest
  cases heq
  obtain ⟨vs, hvs, hI⟩ := Option.bind_eq_some_iff.mp hI
  obtain ⟨p, hp, hI⟩ := Option.bind_eq_some_iff.mp hI
  obtain ⟨v, rfl⟩ := hpure vs p hp
  obtain ⟨r, hr, heq⟩ := Option.map_eq_some_iff.mp hI
  cases hr
  cases heq
  refine ⟨vs, v, ?_, hp, ?_⟩
  · refine (Machine.readAll_congr fun j hj => ?_).trans hvs
    have hnot := hops j hj
    rw [List.map_cons, List.mem_cons, not_or] at hnot
    exact (Machine.env_execInsts hpost hnot.2).trans (Cells.set_ne _ _ hnot.1)
  · exact (Machine.env_execInsts hpost hid).trans (Cells.set_self ..)

/-- Where `u` is next, the values of `Q` above it are computed from their operands. -/
theorem Function.Sound.above (h : F.Sound M w Q (.inside pred b s)) (hF : F.Valid)
    (hssa : F.DefinesBeforeUse) (hQ : ∀ I, Q I → M.Pure w I ∧ I.op.isPhi = false)
    (hsplit : (F.block b).insts.dropWhile (·.op.isPhi) = pre ++ post)
    (hpre : M.execUpTo w (F.block b) pred pre s = some (t, es))
    (hu : u = (post.head?.map Instruction.id).getD (F.block b).termId) :
    F.SoundAt M w Q b u t := by
  intro d hd I hI hQI hj
  have hb := h.1.mem hF
  have hinsts : (F.block b).insts = (F.block b).insts.takeWhile (·.op.isPhi) ++ (pre ++ post) := by
    rw [← hsplit, List.takeWhile_append_dropWhile]
  have hpost : ∃ rest, post.map Instruction.id ++ [(F.block b).termId] = u :: rest := by
    cases post with
    | nil => exact ⟨[], by rw [hu]; rfl⟩
    | cons I post => exact ⟨post.map Instruction.id ++ [(F.block b).termId], by rw [hu]; rfl⟩
  rcases hj with hj | ⟨x, hx, hne, hdom, hjx⟩
  · obtain ⟨rest, hrest⟩ := hpost
    have hids : (F.block b).instIds = (((F.block b).insts.takeWhile (·.op.isPhi)).map Instruction.id ++
        pre.map Instruction.id) ++ u :: rest := by
      rw [BasicBlock.instIds, ← hrest]
      nth_rewrite 1 [hinsts]
      simp
    obtain rfl := F.eq_of_mem_instIds hF.ids hd hb (List.mem_append_left _ (List.mem_map_of_mem hI))
      (hj.subset List.mem_cons_self)
    rw [hids] at hj
    have hmem := mem_of_sublist_pair (hids ▸ hF.instIds_nodup hb) hj
    have hIpre : I ∈ pre := by
      rcases List.mem_append.mp hmem with hmem | hmem
      · obtain ⟨J, hJ, hid⟩ := List.mem_map.mp hmem
        have hphi := List.mem_takeWhile_imp (p := fun I : Instruction => I.op.isPhi) hJ
        rw [F.inst_eq_of_id hF.ids hb hb ((List.takeWhile_sublist _).subset hJ) hI hid] at hphi
        exact absurd ((hQ I hQI).2.symm.trans hphi) Bool.false_ne_true
      · obtain ⟨J, hJ, hid⟩ := List.mem_map.mp hmem
        have hJd : J ∈ (F.block d).insts := (List.dropWhile_sublist _).subset
          (hsplit ▸ List.mem_append_left post hJ)
        rwa [← F.inst_eq_of_id hF.ids hb hb hJd hI hid]
    obtain ⟨pre₁, pre₂, rfl⟩ := List.append_of_mem hIpre
    have hids : (F.block d).instIds =
        (((F.block d).insts.takeWhile (·.op.isPhi)).map Instruction.id ++ pre₁.map Instruction.id) ++
          I.id :: (pre₂.map Instruction.id ++ u :: rest) := by
      rw [hids]
      simp
    obtain ⟨⟨e, es₁⟩, -, hpre⟩ := Option.bind_eq_some_iff.mp hpre
    obtain ⟨⟨t, es₂⟩, hx, heq⟩ := Option.map_eq_some_iff.mp hpre
    cases heq
    refine Machine.computed_of_execInsts hx (hQ I hQI).1 (fun j hj hmem => ?_) fun hmem => ?_
    · have habove := hssa.inst d hb h.1.reachable I hI (hQ I hQI).2 j hj
      refine habove.not_below hF hb hids ?_
      rw [List.map_cons] at hmem
      rcases List.mem_cons.mp hmem with rfl | hmem
      · exact List.mem_cons_self
      · exact List.mem_cons_of_mem _ (List.mem_append_left _ hmem)
    · have hn := (List.nodup_append.mp (hids ▸ hF.instIds_nodup hb)).2.1
      exact (List.nodup_cons.mp hn).1 (List.mem_append_left _ hmem)
  · obtain rfl := F.eq_of_mem_instIds hF.ids hd hx (List.mem_append_left _ (List.mem_map_of_mem hI))
      (List.mem_append_left _ hjx)
    have hoff : ∀ j, j ∉ (F.block b).insts.map Instruction.id → t.env j = s.env j := by
      intro j hj
      refine Machine.env_execUpTo hpre (fun hmem => hj ?_) fun hmem => hj ?_
      · exact List.map_subset _ (List.takeWhile_sublist _).subset hmem
      · exact List.map_subset _ (fun J hJ => (List.dropWhile_sublist _).subset
          (hsplit ▸ List.mem_append_left post hJ)) hmem
    have hreach := hdom.reach h.1.reachable
    obtain ⟨p, hp, habove⟩ := h.1.definedAbove hd hne hdom (List.mem_map_of_mem hI)
    refine (h.2 p hp d hd I hI hQI habove).mono (fun j hj => hoff j ?_) (hoff _ fun hmem => ?_)
    · exact (hssa.inst d hd hreach I hI (hQ I hQI).2 j hj).not_mem hF hd hb hne hdom h.1.reachable
    · exact hne (F.eq_of_mem_instIds hF.ids hd hb
        (List.mem_append_left _ (List.mem_map_of_mem hI)) (List.mem_append_left _ hmem))

theorem Function.Sound.step (h : F.Sound M w Q c) (hF : F.Valid) (hssa : F.DefinesBeforeUse)
    (hQ : ∀ I, Q I → M.Pure w I ∧ I.op.isPhi = false) (hx : F.Exec M w c es c') :
    F.Sound M w Q c' := by
  cases hx with
  | ret _ => trivial
  | @branch pred b d i s s' _ hx hd =>
    refine ⟨F.entered_of_branch (h.1.mem hF) h.1.reachable hd, fun p hp => ?_⟩
    cases hp
    rw [Machine.execBlock_eq] at hx
    obtain ⟨⟨t, es'⟩, hup, hx⟩ := Option.bind_eq_some_iff.mp hx
    obtain ⟨i, -, heq⟩ := Option.map_eq_some_iff.mp hx
    cases heq
    exact h.above hF hssa hQ (List.append_nil _).symm hup rfl

theorem Function.Sound.run (h : F.Sound M w Q c) (hF : F.Valid) (hssa : F.DefinesBeforeUse)
    (hQ : ∀ I, Q I → M.Pure w I ∧ I.op.isPhi = false) (hr : Run (F.Exec M w) c es c') :
    F.Sound M w Q c' := by
  induction hr with
  | refl => exact h
  | head hx _ ih => exact ih (h.step hF hssa hQ hx)

end

end VariOCL.IR
