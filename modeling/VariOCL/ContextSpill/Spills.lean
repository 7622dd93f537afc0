import VariOCL.ContextSpill.Ready
import VariOCL.IR.Items
import VariOCL.LoopInserter.ExpandedForm

/-! Functions that do what another one does, apart from slots. -/

namespace VariOCL

namespace IR

open Sim

/-- The same places, with the same values of the instructions of `X` and the same cells of `P`. -/
structure SameUpTo {ι Val : Type} (X : InstId → Prop) (P : Val → Prop) (c c' : Items ι Val) :
    Prop where
  place : ∀ i, (c'.own i).1 = (c.own i).1
  env : ∀ i j, X j → (c'.own i).2 j = (c.own i).2 j
  mem : c.shared.AgreeOn P c'.shared

/-- What it accesses is no cell of a slot that an instruction from `n` on allocates. -/
def Act.KeepsOff {ι Val : Type} (cell : ι → InstId → Val) (n : InstId) (x : Act Val) : Prop :=
  ∀ a, x.address = some a → ∀ i k, n ≤ k → a ≠ cell i k

/-- Each run of the work-items through `F` is one through `G`, where the slots that are new in `G` are
not those to come. -/
def Function.Spills {ι Val : Type} [DecidableEq ι] [DecidableEq Val] (M : ι → Machine Val)
    (w : ι → WorkItem Val) (cell : ι → InstId → Val) (keep : Act Val → Bool) (X : InstId → Prop)
    (P : Val → Prop) (F G : Function) : Prop :=
  ∀ m ts c, Replay (Turn (F.ExecOwn M w)) (F.items ι m) ts c →
    (∀ x ∈ ts, ∀ y ∈ x.2, y.KeepsOff cell F.freshInst) →
    ∃ ts' c', Replay (Turn (G.ExecOwn M w)) (G.items ι m) ts' c' ∧
      keptTurns keep ts' = keptTurns keep ts ∧
      (∀ x ∈ ts', ∀ y ∈ x.2, y.KeepsOff cell G.freshInst) ∧ SameUpTo X P c c'

/-- What holds of the states of one work-item holds whatever the others do to the cells of `P`, and as
long as they leave those of `C` alone. -/
structure Steady {Val : Type} (P C : Val → Prop) (R : State Val → State Val → Prop) : Prop where
  agree : ∀ s t, R s t → s.mem.AgreeOn P t.mem
  frame : ∀ s t m m', R s t → m.AgreeOn P m' → (∀ a, C a → m' a = t.mem a) →
    R ⟨s.env, m⟩ ⟨t.env, m'⟩

section
variable {ι Val : Type} {cell : ι → InstId → Val} {keep : Act Val → Bool} {X : InstId → Prop}
  {P : Val → Prop} {F G H : Function} {c c' c'' : Items ι Val} {m n : InstId} {x : Act Val}

theorem SameUpTo.trans (h : SameUpTo X P c c') (h' : SameUpTo X P c' c'') :
    SameUpTo X P c c'' where
  place i := (h'.place i).trans (h.place i)
  env i j hj := (h'.env i j hj).trans (h.env i j hj)
  mem a ha := (h'.mem a ha).trans (h.mem a ha)

theorem Act.KeepsOff.mono (h : x.KeepsOff cell m) (hmn : m ≤ n) : x.KeepsOff cell n :=
  fun a ha i k hk => h a ha i k (hmn.trans hk)

variable [DecidableEq ι] [DecidableEq Val] {M : ι → Machine Val} {w : ι → WorkItem Val}

theorem Function.Spills.trans (h : F.Spills M w cell keep X P G) (h' : G.Spills M w cell keep X P H) :
    F.Spills M w cell keep X P H := by
  intro m ts c hr hoff
  obtain ⟨ts₁, c₁, hr₁, hkept₁, hoff₁, hsame₁⟩ := h m ts c hr hoff
  obtain ⟨ts₂, c₂, hr₂, hkept₂, hoff₂, hsame₂⟩ := h' m ts₁ c₁ hr₁ hoff₁
  exact ⟨ts₂, c₂, hr₂, hkept₂.trans hkept₁, hoff₂, hsame₁.trans hsame₂⟩

end

/-! ### From one work-item to all of them -/

section
variable {Val : Type} {P C : Val → Prop} {F : Function}
  {Before : Option BlockId → BlockId → State Val → State Val → Prop}
  {Rel : State Val → State Val → Prop} {c c' : Config Val} {p p' : Place} {e e' : Cells InstId Val}
  {m m' m₁ m₁' : Cells Val Val}

theorem Function.Holds.frame (h : F.Holds (p.config ⟨e, m⟩)) : F.Holds (p.config ⟨e, m₁⟩) := by
  cases p with
  | inside pred b => exact h
  | returned => trivial

theorem Config.Placed.same_place (h : c.Placed Before Rel c') : c'.place = c.place := by
  cases h <;> rfl

variable (hBefore : ∀ pred b, Steady P C (Before pred b)) (hRel : Steady P C Rel)
include hBefore hRel

theorem Config.Placed.agree (h : c.Placed Before Rel c') : c.state.mem.AgreeOn P c'.state.mem := by
  cases h with
  | inside h => exact (hBefore _ _).agree _ _ h
  | returned h => exact hRel.agree _ _ h

theorem Config.Placed.frame (h : (p.config ⟨e, m⟩).Placed Before Rel (p'.config ⟨e', m'⟩))
    (hm : m₁.AgreeOn P m₁') (hC : ∀ a, C a → m₁' a = m' a) :
    (p.config ⟨e, m₁⟩).Placed Before Rel (p'.config ⟨e', m₁'⟩) := by
  cases p with
  | inside pred b =>
    cases p' with
    | inside pred' b' =>
      cases h with
      | inside h => exact .inside ((hBefore _ _).frame _ _ _ _ h hm hC)
    | returned => cases h
  | returned =>
    cases p' with
    | inside pred' b' => cases h
    | returned =>
      cases h with
      | returned h => exact .returned (hRel.frame _ _ _ _ h hm hC)

end

section
variable {ι Val : Type} [DecidableEq ι] [DecidableEq Val] {M : ι → Machine Val}
  {w : ι → WorkItem Val} {cell : ι → InstId → Val} {keep : Act Val → Bool} {X : InstId → Prop}
  {P P₀ : Val → Prop} {C : ι → Val → Prop} {F G : Function} {sp : Splice}
  {head body : BlockId → List Instruction}
  {Before : ι → Option BlockId → BlockId → State Val → State Val → Prop}
  {Rel : ι → State Val → State Val → Prop}
  (hBefore : ∀ i pred b, Steady P₀ (C i) (Before i pred b)) (hRel : ∀ i, Steady P₀ (C i) (Rel i))
  (h : ∀ i, sp.Simulated F (M i) (w i) (fun x => ∀ a, x.address = some a → P₀ a) keep
    (fun x => ∀ a, x.address = some a → C i a) head body (Before i) (Rel i))
  (hsp : F.Spliced sp G) (hF : F.Valid) (hP₀ : ∀ i a, C i a → ¬ P₀ a)
  (hC : ∀ i j a, C i a → C j a → i = j)
include hBefore hRel h hsp hF hP₀ hC

omit [DecidableEq ι] in
/-- No work-item accesses the cells of another one. -/
theorem Splice.Simulated.together :
    Together (F.ExecOwn M w) (G.ExecOwn M w) (fun x => ∀ a, x.address = some a → P₀ a) keep
      (fun i x => ∀ a, x.address = some a → C i a) fun i c c' =>
        F.Holds (c.1.1.config ⟨c.1.2, c.2⟩) ∧
          (c.1.1.config ⟨c.1.2, c.2⟩).Placed (Before i) (Rel i) (c'.1.1.config ⟨c'.1.2, c'.2⟩) := by
  intro i c c' es d hR hx hok
  obtain ⟨es', d', hx', hf, hplaced⟩ := (h i).step hsp hF hR.1 hR.2 hx hok
  have hd' : d'.place.config ⟨d'.state.env, d'.state.mem⟩ = d' := d'.config_place
  refine ⟨es', _, hx'.own, hf,
    ⟨hR.1.step hF hx, hd'.symm ▸ hplaced⟩, fun j hji l l' hj => ⟨hj.1.frame, ?_⟩⟩
  refine hj.2.frame (hBefore j) (hRel j) ?_ fun a ha => ?_
  · have hagree := hplaced.agree (hBefore i) (hRel i)
    rwa [Place.state_config] at hagree
  · refine (hx'.mem_eq fun x hx hxa => ?_).trans ?_
    · rcases hf.2 x hx with hx | hx
      · exact hP₀ j a ha (hok x hx a hxa)
      · exact hji (hC j i a ha (hx a hxa))
    · rw [Place.state_config]

theorem Splice.Simulated.spills [Nonempty ι]
    (hstart : ∀ i m, Before i none F.entry ⟨fun _ => none, m⟩ ⟨fun _ => none, m⟩)
    (hok : ∀ a, (∀ i k, F.freshInst ≤ k → a ≠ cell i k) → P₀ a)
    (hQ : ∀ i a, C i a → ∀ j k, G.freshInst ≤ k → a ≠ cell j k) (hfresh : F.freshInst ≤ G.freshInst)
    (hP : ∀ a, P a → P₀ a)
    (henv : ∀ i pred b s t, Before i pred b s t → ∀ j, X j → t.env j = s.env j)
    (henv' : ∀ i s t, Rel i s t → ∀ j, X j → t.env j = s.env j) :
    F.Spills M w cell keep X P G := by
  intro m ts c hr hoff
  obtain ⟨ts', c', hr', hf, hR⟩ := (Splice.Simulated.together hBefore hRel h hsp hF hP₀ hC).run
    (t := F.items ι m) hr (fun x hx y hy a ha => hok a (hoff x hx y hy a ha)) fun i =>
      ⟨⟨rfl, fun p hp => by cases hp⟩, .inside (hstart i m)⟩
  have henvs : ∀ c c' : Config Val, ∀ i, c.Placed (Before i) (Rel i) c' → ∀ j, X j →
      c'.state.env j = c.state.env j := by
    intro c c' i hc
    cases hc with
    | inside hb => exact henv i _ _ _ _ hb
    | returned hb => exact henv' i _ _ hb
  refine ⟨ts', c', ?_, hf.keptTurns, fun x hx y hy => ?_,
    ⟨fun i => ?_, fun i j hj => ?_, fun a ha => ?_⟩⟩
  · rw [Function.items, hsp.entry]
    exact hr'
  · obtain ⟨x₀, hx₀, hf⟩ := hf.of_mem hx
    rcases hf.2 y hy with hy | hy
    · exact (hoff x₀ hx₀ y hy).mono hfresh
    · exact fun a ha => hQ x₀.1 a (hy a ha)
  · simpa using (hR i).2.same_place
  · simpa using henvs _ _ i (hR i).2 j hj
  · obtain ⟨i⟩ := ‹Nonempty ι›
    simpa using (hR i).2.agree (hBefore i) (hRel i) a (hP a ha)

end

/-! ### What is used -/

/-- Some instruction or terminator reads `i`. -/
def Function.Uses (F : Function) (i : InstId) : Prop := ∃ b ∈ F.layout, .inst i ∈ (F.block b).values

section
variable {F G : Function} {sp : Splice} {i u : InstId}

theorem Function.mem_useList_of_inst {b : BlockId} {I : Instruction} (hb : b ∈ F.layout)
    (hI : I ∈ (F.block b).insts) (hi : .inst i ∈ I.op.operands) : I.id ∈ F.useList i :=
  List.mem_flatMap.mpr ⟨b, hb, List.mem_append_left _ (List.mem_flatMap.mpr ⟨I, hI,
    List.mem_map.mpr ⟨_, List.mem_filter.mpr ⟨hi, decide_eq_true rfl⟩, rfl⟩⟩)⟩

theorem Function.mem_useList_of_term {b : BlockId} (hb : b ∈ F.layout)
    (hi : .inst i ∈ (F.block b).term.operands) : (F.block b).termId ∈ F.useList i :=
  List.mem_flatMap.mpr ⟨b, hb, List.mem_append_right _
    (List.mem_map.mpr ⟨_, List.mem_filter.mpr ⟨hi, decide_eq_true rfl⟩, rfl⟩)⟩

theorem Function.exists_mem_useList : (∃ u, u ∈ F.useList i) ↔ F.Uses i := by
  constructor
  · rintro ⟨u, hu⟩
    obtain ⟨b, hb, hu⟩ := List.mem_flatMap.mp hu
    refine ⟨b, hb, BasicBlock.mem_values.mpr ?_⟩
    refine (List.mem_append.mp hu).imp (fun hu => ?_) fun hu => ?_
    · obtain ⟨I, hI, hu⟩ := List.mem_flatMap.mp hu
      obtain ⟨v, hv, -⟩ := List.mem_map.mp hu
      obtain ⟨hv, hvi⟩ := List.mem_filter.mp hv
      exact ⟨I, hI, of_decide_eq_true hvi ▸ hv⟩
    · obtain ⟨v, hv, -⟩ := List.mem_map.mp hu
      obtain ⟨hv, hvi⟩ := List.mem_filter.mp hv
      exact of_decide_eq_true hvi ▸ hv
  · rintro ⟨b, hb, hi⟩
    rcases BasicBlock.mem_values.mp hi with ⟨I, hI, hi⟩ | hi
    · exact ⟨I.id, F.mem_useList_of_inst hb hI hi⟩
    · exact ⟨(F.block b).termId, F.mem_useList_of_term hb hi⟩

/-- Who still reads it. -/
theorem Function.Spliced.uses (h : F.Spliced sp G) (hgone : sp.gone = [])
    (huse : ∀ u q, F.ReadsAt u q → sp.use u q (.inst i) = .inst i) (hi : F.Uses i) : G.Uses i := by
  obtain ⟨b, hb, hi⟩ := hi
  refine ⟨b, h.mem_layout hb, BasicBlock.mem_values.mpr ?_⟩
  rcases BasicBlock.mem_values.mp hi with ⟨I, hI, hi⟩ | hi
  · refine .inl ⟨sp.inst I, h.mem_of_mem hb hI (hgone ▸ List.not_mem_nil), ?_⟩
    cases hphi : I.op.isPhi with
    | false =>
      rw [Splice.inst, Op.mapUses_of_not_phi hphi, Op.operands_mapValues]
      exact List.mem_map.mpr ⟨_, hi, huse I.id none (.inl rfl)⟩
    | true =>
      obtain ⟨id, ty, op⟩ := I
      cases op with
      | phi incoming =>
        obtain ⟨p, hp, heq⟩ := List.mem_map.mp hi
        refine List.mem_map.mpr ⟨_, List.mem_map_of_mem hp, ?_⟩
        rw [heq]
        exact huse id (some p.2) (.inr ⟨b, hb, _, hI, rfl, rfl⟩)
      | _ => cases hphi
  · refine .inr ?_
    rw [h.block b hb, Splice.block, Terminator.operands_mapValues]
    exact List.mem_map.mpr ⟨_, hi, huse _ none (.inl rfl)⟩

end

/-! ### Splices that change no instruction -/

theorem Op.mem_operands_of_incomingFor {op : Op} {q : Option BlockId} {v : Value}
    (h : op.incomingFor q = some v) : v ∈ op.operands := by
  cases op with
  | phi incoming =>
    obtain ⟨p, hfind, rfl⟩ := Option.map_eq_some_iff.mp h
    exact List.mem_map_of_mem (List.mem_of_find?_eq_some hfind)
  | _ => cases h

section
variable {F G : Function} {sp : Splice} {i : InstId}

theorem Function.Spliced.mem_instIds (h : F.Spliced sp G) (hi : i ∈ F.instIds) (hgone : i ∉ sp.gone) :
    i ∈ G.instIds := by
  obtain ⟨b, hb, hi⟩ := Function.mem_instIds.mp hi
  refine Function.mem_instIds.mpr ⟨b, h.mem_layout hb, ?_⟩
  rcases List.mem_append.mp hi with hi | hi
  · obtain ⟨I, hI, rfl⟩ := List.mem_map.mp hi
    exact List.mem_append_left _ (List.mem_map.mpr ⟨_, h.mem_of_mem hb hI hgone, rfl⟩)
  · rw [BasicBlock.instIds, h.termId hb]
    exact List.mem_append_right _ hi

/-- Only PHIs go, and code is put behind the PHIs. -/
structure Splice.Plain (sp : Splice) : Prop where
  before : ∀ j, sp.before j = []
  after : ∀ j, sp.after j = []
  use : ∀ u q v, sp.use u q v = v

theorem Splice.Plain.around {I : Instruction} (h : sp.Plain) : sp.around I = [I] := by
  have hop : I.op.mapUses (sp.use I.id) = I.op := Op.mapUses_eq_self fun q v => h.use I.id q v
  rw [Splice.around, h.before, h.after, Splice.inst, hop]
  rfl

theorem Function.Matched.steady {Val : Type} {gone : List InstId} {P C : Val → Prop} :
    Steady P C (F.Matched gone P) :=
  ⟨fun _ _ h => h.mem, fun _ _ _ _ h hm _ => ⟨h.known, h.env, hm⟩⟩

section
variable {Val : Type} [DecidableEq Val] {M : Machine Val} {w : WorkItem Val} {keep : Act Val → Bool}
  {Q : Act Val → Prop}

/-- The rest does the same. -/
theorem Splice.Plain.simulated (h : sp.Plain) (hF : F.Valid) (hnone : ∀ i ∈ sp.gone, ¬ F.Uses i)
    (hkeep : ∀ x : Act Val, x.id ∈ sp.gone → keep x = false)
    (htop : ∀ b ∈ F.layout, ∀ t, ∃ t' ls, M.execInsts w (sp.top b) t = some (t', ls) ∧
      (∀ j ∈ F.instIds, t'.env j = t.env j) ∧ t'.mem = t.mem ∧ ∀ x ∈ ls, keep x = false ∧ Q x) :
    sp.Simulated F M w (fun x => ∀ a, x.address = some a → True) keep Q (fun _ => [])
      (fun b => (F.block b).insts.dropWhile (·.op.isPhi))
      (fun _ _ => F.Matched sp.gone fun _ => True) (F.Matched sp.gone fun _ => True) where
  split _ _ := rfl
  enter pred b s t e es s₁ es₁ hholds hmatched hphis hx _ := by
    cases hx
    have hb := hholds.1.mem hF
    have hread : ∀ J ∈ (F.block b).insts.takeWhile (·.op.isPhi), J.id ∉ sp.gone → ∀ v,
        J.op.incomingFor pred = some v → ∀ x, M.read s.env v = some x →
          M.read t.env (sp.use J.id pred v) = some x := by
      intro J hJ _ v hv x hx
      rw [h.use]
      refine hmatched.read hx fun j hj hvj => hnone j hj ⟨b, hb, BasicBlock.mem_values.mpr
        (.inl ⟨J, (List.takeWhile_sublist _).subset hJ, hvj ▸ Op.mem_operands_of_incomingFor hv⟩)⟩
    obtain ⟨g, ps, hyphis, henv, -, rfl⟩ :=
      Function.Matched.execPhis (F := F) hphis hread hmatched.env
    obtain ⟨t', ls, hexec, hold, hmem, hls⟩ := htop b hb ⟨g, t.mem⟩
    refine ⟨g, _, t', ls, hyphis, ?_, ?_, (hmatched.phis hb hphis henv).frame hold fun a _ =>
      congrFun hmem a⟩
    · rw [List.flatMap_nil, List.append_nil]
      exact hexec
    · exact (follows_filter es fun x hx => hkeep x (by simpa using hx)).append (follows_nil hls)
  inst b hb J hJ s t s' es hmatched hx _ := by
    have hmem := (List.dropWhile_sublist _).subset hJ
    obtain ⟨t', hy, hmatched', -⟩ := hmatched.execInst (f := fun v => v) (F.instIds_of_mem hb hmem) hx
      (fun _ _ _ _ => trivial) fun v hv x hx => hmatched.read hx fun j hj hvj =>
        hnone j hj ⟨b, hb, BasicBlock.mem_values.mpr (.inl ⟨J, hmem, hvj ▸ hv⟩)⟩
    refine ⟨t', es ++ [], ?_, ?_, hmatched'⟩
    · rw [h.around, Machine.execInsts, ← @Instruction.mapValues_id J, hy]
      rfl
    · rw [List.append_nil]
      exact .refl es
  leave b hb _ s t a hmatched _ htaken := by
    have hsame : sp.use (F.block b).termId none = fun v => v := funext fun v => h.use _ _ v
    rw [h.before, hsame]
    exact ⟨t, [], rfl, .refl [], Machine.Reads.taken (fun v hv x hx => hmatched.read hx fun j hj hvj =>
      hnone j hj ⟨b, hb, BasicBlock.mem_values.mpr (.inr (hvj ▸ hv))⟩) htaken, hmatched,
      fun _ _ => hmatched⟩

end

theorem Splice.Plain.spills {ι Val : Type} [DecidableEq ι] [Nonempty ι] [DecidableEq Val]
    {M : ι → Machine Val} {w : ι → WorkItem Val} {cell : ι → InstId → Val} {keep : Act Val → Bool}
    {X : InstId → Prop} {P : Val → Prop} (h : sp.Plain) (hsp : F.Spliced sp G) (hF : F.Valid)
    (hnone : ∀ i ∈ sp.gone, ¬ F.Uses i) (hkeep : ∀ x : Act Val, x.id ∈ sp.gone → keep x = false)
    (htop : ∀ i, ∀ b ∈ F.layout, ∀ t, ∃ t' ls, (M i).execInsts (w i) (sp.top b) t = some (t', ls) ∧
      (∀ j ∈ F.instIds, t'.env j = t.env j) ∧ t'.mem = t.mem ∧
      ∀ x ∈ ls, keep x = false ∧ ∀ a, x.address = some a → False)
    (hfresh : F.freshInst ≤ G.freshInst) (hX : ∀ j, X j → j ∈ F.instIds ∧ j ∉ sp.gone) :
    F.Spills M w cell keep X P G := by
  have hsame : ∀ s t : State Val, F.Matched sp.gone (fun _ => True) s t → ∀ j, X j →
      t.env j = s.env j := fun s t h j hj => h.env j (hX j hj).1 (hX j hj).2
  exact Splice.Simulated.spills (C := fun _ _ => False) (fun _ _ _ => Function.Matched.steady)
    (fun _ => Function.Matched.steady) (fun i => h.simulated hF hnone hkeep (htop i)) hsp hF
    (fun _ _ ha => ha.elim) (fun _ _ _ ha => ha.elim)
    (fun _ _ => ContextSpill.Blank.matched ⟨rfl, fun _ => rfl, fun _ _ => rfl⟩) (fun _ _ => trivial)
    (fun _ _ ha => ha.elim) hfresh (fun _ _ => trivial) (fun _ _ _ => hsame) fun _ => hsame

end

end IR

end VariOCL
