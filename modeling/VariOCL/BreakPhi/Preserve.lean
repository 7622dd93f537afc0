import Mathlib.Data.List.Flatten
import VariOCL.BreakPhi.Step

/-! `BreakPhi2Alloca` keeps what a function computes, when it breaks all or none of the PHIs of each
block. -/

namespace VariOCL.IR.BreakPhi

open Sim

/-- The PHIs `BreakPhi2Alloca` breaks, with their blocks. -/
def breakable (F : Function) (UnbreakablePHIs : List InstId) : List (BlockId × PHINode) :=
  F.layout.flatMap fun b => (((F.block b).insts.filter fun I =>
    I.op.isPhi && !UnbreakablePHIs.contains I.id).filterMap Instruction.phi?).map fun PN => (b, PN)

/-- What an execution does, without the PHIs that are broken. -/
def remains {Val : Type} (F : Function) (UnbreakablePHIs : List InstId) (x : Act Val) : Bool :=
  F.instIds.contains x.id && !(breakable F UnbreakablePHIs).any (·.2.id = x.id)

/-- The instructions `BreakPhi2Alloca` creates. -/
def created (F : Function) (UnbreakablePHIs : List InstId) : List InstId :=
  (breakPhi2Alloca F UnbreakablePHIs).instIds.filter (F.freshInst ≤ ·)

/-- The same place, with the same values of the instructions that remain, and the same memory apart
from the slots. -/
inductive Agree {Val : Type} (F : Function) (UnbreakablePHIs : List InstId)
    (addr : InstId → Val) : Config Val → Config Val → Prop
  | inside (pred : Option BlockId) (b : BlockId) {s t : State Val} :
      (∀ i ∈ F.instIds, (∀ p ∈ breakable F UnbreakablePHIs, p.2.id ≠ i) → t.env i = s.env i) →
      (∀ a, (∀ i ∈ created F UnbreakablePHIs, a ≠ addr i) → t.mem a = s.mem a) →
      Agree F UnbreakablePHIs addr (.inside pred b s) (.inside pred b t)
  | returned {s t : State Val} :
      (∀ i ∈ F.instIds, (∀ p ∈ breakable F UnbreakablePHIs, p.2.id ≠ i) → t.env i = s.env i) →
      (∀ a, (∀ i ∈ created F UnbreakablePHIs, a ≠ addr i) → t.mem a = s.mem a) →
      Agree F UnbreakablePHIs addr (.returned s) (.returned t)

/-! ### The PHIs that are broken -/

section
variable {F : Function} {U : List InstId} {b : BlockId} {PN : PHINode}

theorem mem_breakable : (b, PN) ∈ breakable F U ↔
    b ∈ F.layout ∧ PN.inst ∈ (F.block b).insts ∧ PN.id ∉ U := by
  simp only [breakable, List.mem_flatMap, List.mem_map, List.mem_filterMap, List.mem_filter,
    Instruction.phi?_eq_some]
  constructor
  · rintro ⟨c, hc, PN', ⟨I, ⟨hI, hU⟩, rfl⟩, heq⟩
    cases heq
    exact ⟨hc, hI, by simpa [PHINode.inst, Op.isPhi] using hU⟩
  · rintro ⟨hb, hPN, hU⟩
    exact ⟨b, hb, PN, ⟨_, ⟨hPN, by simpa [PHINode.inst, Op.isPhi] using hU⟩, rfl⟩, rfl⟩

theorem map_breakable : (breakable F U).map (fun p => (p.1, p.2.id)) = F.layout.flatMap fun b =>
    ((F.block b).insts.filter fun I => I.op.isPhi && !U.contains I.id).map fun I => (b, I.id) := by
  rw [breakable, List.map_flatMap]
  congr 1
  funext b
  have hphi : ∀ I ∈ (F.block b).insts.filter fun I => I.op.isPhi && !U.contains I.id,
      I.op.isPhi := fun I hI => (Bool.and_eq_true _ _ ▸ (List.mem_filter.mp hI).2).1
  conv => rhs; rw [← map_inst_filterMap_phi? hphi]
  simp only [List.map_map]
  rfl

theorem breakPhi2Alloca_eq :
    breakPhi2Alloca F U = ((breakable F U).map fun p => (p.1, p.2.id)).foldl breakPhi2AllocaAt F := by
  rw [breakPhi2Alloca, map_breakable]

theorem nodup_breakable (hF : F.Valid) : ((breakable F U).map fun p => p.2.id).Nodup := by
  have hsnd : (breakable F U).map (fun p => p.2.id) = F.layout.flatMap fun b =>
      ((F.block b).insts.filter fun I => I.op.isPhi && !U.contains I.id).map Instruction.id := by
    have := congrArg (List.map Prod.snd) (map_breakable (F := F) (U := U))
    simpa [List.map_flatMap, Function.comp_def] using this
  rw [hsnd]
  refine List.Sublist.nodup (List.Sublist.flatMap_right _ fun b _ => ?_) hF.ids
  exact (List.filter_sublist.map Instruction.id).trans (List.sublist_append_left _ _)

/-- The PHIs are broken into fresh slots. -/
theorem breakPhi2Alloca_broken (hF : F.Valid) : ∃ slots : List Slot,
    slots.map (fun s => (s.block, s.PN)) = breakable F U ∧ Fresh F slots ∧
      breakPhi2Alloca F U = broken slots F ∧ ∀ s ∈ slots, s.alloca ∈ created F U := by
  have hmem : ∀ p ∈ breakable F U, p.1 ∈ F.layout ∧ p.2.inst ∈ (F.block p.1).insts := fun p hp =>
    ⟨(mem_breakable.mp hp).1, (mem_breakable.mp hp).2.1⟩
  obtain ⟨slots, hmap, hfresh, heq⟩ :=
    foldl_breakPhi2AllocaAt hF Fresh.nil hmem (nodup_breakable hF) (by simp)
  rw [broken_nil, List.nil_append, ← breakPhi2Alloca_eq] at heq
  rw [List.nil_append] at hfresh
  have hincoming : ∀ s ∈ slots, ∀ p ∈ s.PN.incoming, p.2 ∈ F.layout := fun s hs p hp =>
    hF.incoming _ (hfresh.mem s hs).1 _ (hfresh.mem s hs).2 _ (List.mem_map_of_mem hp)
  refine ⟨slots, hmap, hfresh, heq, fun s hs => List.mem_filter.mpr ⟨?_, ?_⟩⟩
  · rw [heq]
    exact hfresh.mem_instIds hincoming hs List.mem_cons_self
  · exact decide_eq_true (hfresh.new s hs _ List.mem_cons_self)

end

/-! ### Runs -/

section
variable {Val : Type} {F : Function} {U : List InstId} {slots : List Slot} {addr : InstId → Val}
  {M : Machine Val} {w : WorkItem Val}

/-- What relates the executions of the two functions between blocks. -/
inductive Alongside (M : Machine Val) (F : Function) (slots : List Slot) (addr : InstId → Val) :
    Config Val → Config Val → Prop
  | inside {pred : Option BlockId} {b : BlockId} {s t : State Val} :
      Matches M F slots addr pred b s t →
      Alongside M F slots addr (.inside pred b s) (.inside pred b t)
  | returned {s t : State Val} : Alike F slots addr s t →
      Alongside M F slots addr (.returned s) (.returned t)

theorem succs_broken (b : BlockId) : (broken slots F).succs b = F.succs b := by
  rw [Function.succs, block_broken, brokenBlock, Terminator.successors_mapValues, Function.succs]

variable [DecidableEq Val]

/-- An execution of `F` that does not touch the slots. -/
def ExecOff (M : Machine Val) (w : WorkItem Val) (F : Function) (slots : List Slot)
    (addr : InstId → Val) (c : Config Val) (es : List (Act Val)) (c' : Config Val) : Prop :=
  F.Exec M w c es c' ∧ ∀ x ∈ es, ∀ a, x.address = some a → OffSlots slots addr a

theorem Slotted.simulates (h : Slotted M F slots addr) :
    Simulates (kept F slots) (Alongside M F slots addr) (ExecOff M w F slots addr)
      ((broken slots F).Exec M w) := by
  intro c d es c' hcd ⟨hx, hoff⟩
  cases hx with
  | @branch pred b n i s s' es hx hn =>
    cases hcd with
    | @inside _ _ _ t hm =>
      obtain ⟨t', es', hx', hkept, halike, halloc, hholds⟩ := h.execBlock hm hx hoff
      have hedge : F.Edge b n := List.mem_of_getElem? hn
      refine ⟨es', .inside (some b) n t', .single (.branch hx' ((succs_broken b).symm ▸ hn)), hkept,
        .inside ⟨hm.reachable.tail hedge, halike, fun _ => halloc, hholds n, ?_⟩⟩
      intro d hd hdom hne j hj
      apply Machine.isSome_execBlock hx
      by_cases hdb : d = b
      · exact .inl (hdb ▸ hj)
      · exact .inr (hm.defined d hd (hdom.pred (Ne.symm hne) hedge) hdb j hj)
  | @ret pred b s s' es hx =>
    cases hcd with
    | @inside _ _ _ t hm =>
      obtain ⟨t', es', hx', hkept, halike, -, -⟩ := h.execBlock hm hx hoff
      exact ⟨es', .returned t', .single (.ret hx'), hkept, .returned halike⟩

theorem run_execOff {c c' : Config Val} {es : List (Act Val)} (hr : Run (F.Exec M w) c es c')
    (hoff : ∀ x ∈ es, ∀ a, x.address = some a → OffSlots slots addr a) :
    Run (ExecOff M w F slots addr) c es c' := by
  induction hr with
  | refl c => exact .refl c
  | head hx _ ih =>
    obtain ⟨hoff₁, hoff₂⟩ := List.forall_mem_append.mp hoff
    exact .head ⟨hx, hoff₁⟩ (ih hoff₂)

end

section
variable {Val : Type} {F : Function} {U : List InstId} {slots : List Slot} {addr : InstId → Val}
  {M : Machine Val}

theorem Slotted.matches_entry (h : Slotted M F slots addr) (m : Cells Val Val) :
    Matches M F slots addr none F.entry ⟨fun _ => none, m⟩ ⟨fun _ => none, m⟩ where
  reachable := .refl
  alike := ⟨fun _ _ _ => rfl, fun _ _ => rfl, fun _ _ => rfl, fun _ _ => rfl⟩
  allocated hne := absurd rfl hne
  holds sl hsl hb := by
    obtain ⟨-, hPN⟩ := h.fresh.mem sl hsl
    have hphi := h.ssa.valid.entryPhis _ (hb ▸ hPN)
    exact absurd hphi.symm Bool.false_ne_true
  defined d _ hdom hne := by
    exact absurd (.refl (Ne.symm hne)) (Graph.dominates_iff.mp hdom)

/-- All or none of the PHIs of each block are broken. -/
theorem whole_of_breakable (hmap : slots.map (fun s => (s.block, s.PN)) = breakable F U)
    (hfresh : Fresh F slots) (hF : F.Valid) {b : BlockId} (hb : b ∈ F.layout)
    (hU : (∀ I ∈ (F.block b).insts, I.op.isPhi → I.id ∈ U) ∨
      ∀ I ∈ (F.block b).insts, I.op.isPhi → I.id ∉ U) : Whole F slots b := by
  rcases hU with hU | hU
  · refine .inr fun I hI sl hsl hid => ?_
    obtain ⟨hc, hPN⟩ := hfresh.mem sl hsl
    have hnot := (mem_breakable.mp (hmap ▸ List.mem_map_of_mem hsl)).2.2
    obtain rfl := F.inst_eq_of_id hF.ids hc hb hPN hI hid
    exact hnot (hU _ hI rfl)
  · refine .inl fun I hI hphi => ?_
    cases heq : I.phi? with
    | none => exact absurd ((Instruction.phi?_eq_none.mp heq).symm.trans hphi) Bool.false_ne_true
    | some PN =>
      obtain rfl := Instruction.phi?_eq_some.mp heq
      have hmem := mem_breakable.mpr ⟨hb, hI, hU _ hI hphi⟩
      rw [← hmap] at hmem
      obtain ⟨sl, hsl, heq⟩ := List.mem_map.mp hmem
      obtain ⟨rfl, rfl⟩ := Prod.mk.inj heq
      exact ⟨sl, hsl, rfl, rfl⟩

theorem kept_eq_remains (hmap : slots.map (fun s => (s.block, s.PN)) = breakable F U) :
    @kept Val F slots = remains F U := by
  funext x
  rw [kept, remains, ← hmap, List.any_map]
  rfl

theorem Alongside.agree (hmap : slots.map (fun s => (s.block, s.PN)) = breakable F U)
    (hnew : ∀ sl ∈ slots, sl.alloca ∈ created F U) {c d : Config Val}
    (h : Alongside M F slots addr c d) : Agree F U addr c d := by
  have hvalues : ∀ {s t : State Val}, Alike F slots addr s t → ∀ i ∈ F.instIds,
      (∀ p ∈ breakable F U, p.2.id ≠ i) → t.env i = s.env i := fun halike i hi hne =>
    halike.old i (F.lt_freshInst hi) fun sl hsl =>
      hne (sl.block, sl.PN) (hmap ▸ List.mem_map_of_mem hsl)
  have hcells : ∀ {s t : State Val}, Alike F slots addr s t → ∀ a,
      (∀ i ∈ created F U, a ≠ addr i) → t.mem a = s.mem a := fun halike a ha =>
    halike.mem a fun sl hsl => ha _ (hnew sl hsl)
  cases h with
  | inside hm => exact .inside _ _ (hvalues hm.alike) (hcells hm.alike)
  | returned halike => exact .returned (hvalues halike) (hcells halike)

variable [DecidableEq Val]

/-- An `alloca` that is new returns a cell of its own, which the function does not access. -/
theorem breakPhi2Alloca_preserves (hF : SSA F)
    (hU : ∀ b ∈ F.layout, (∀ I ∈ (F.block b).insts, I.op.isPhi → I.id ∈ U) ∨
      ∀ I ∈ (F.block b).insts, I.op.isPhi → I.id ∉ U)
    (halloca : ∀ i ∈ created F U, ∀ ty v, M.alloca i ty v = .ret (addr i))
    (hinj : ∀ i ∈ created F U, ∀ j ∈ created F U, addr i = addr j → i = j)
    (w : WorkItem Val) (m : Cells Val Val) {es : List (Act Val)} {c : Config Val}
    (hr : Run (F.Exec M w) (.inside none F.entry ⟨fun _ => none, m⟩) es c)
    (hoff : ∀ x ∈ es, ∀ a, x.address = some a → ∀ i ∈ created F U, a ≠ addr i) : ∃ es' c',
      Run ((breakPhi2Alloca F U).Exec M w) (.inside none F.entry ⟨fun _ => none, m⟩) es' c' ∧
      es'.filter (remains F U) = es.filter (remains F U) ∧ Agree F U addr c c' := by
  obtain ⟨slots, hmap, hfresh, heq, hnew⟩ := breakPhi2Alloca_broken (U := U) hF.valid
  have h : Slotted M F slots addr := by
    constructor
    · exact hF
    · exact hfresh
    · exact fun b hb => whole_of_breakable hmap hfresh hF.valid hb (hU b hb)
    · exact fun sl hsl => halloca _ (hnew sl hsl)
    · exact fun sl hsl sl' hsl' => hinj _ (hnew sl hsl) _ (hnew sl' hsl')
  have hoff' : ∀ x ∈ es, ∀ a, x.address = some a → OffSlots slots addr a := fun x hx a ha sl hsl =>
    hoff x hx a ha _ (hnew sl hsl)
  obtain ⟨es', c', hr', hkept, hend⟩ :=
    h.simulates.run (run_execOff hr hoff') (.inside (h.matches_entry m))
  rw [heq]
  exact ⟨es', c', hr', kept_eq_remains hmap ▸ hkept, hend.agree hmap hnew⟩

end

/-- Two PHIs that exchange their values. -/
def swap : Function where
  name := "swap"
  entry := 0
  rest := [1, 2]
  block
    | 0 => ⟨[], 0, .br 1⟩
    | 1 => ⟨[⟨1, .int 32, .phi [(.constInt 32 1, 0), (.inst 2, 1)]⟩,
        ⟨2, .int 32, .phi [(.constInt 32 0, 0), (.inst 1, 1)]⟩], 3, .condBr (.inst 1) 1 2⟩
    | _ => ⟨[], 4, .ret (some (.inst 2))⟩

def swapMachine : Machine Nat where
  atom
    | .constInt _ n => n
    | _ => 0
  eval _ _ _ := 0
  truth v := v != 0
  caseOf v := v
  alloca i _ _ := .ret i
  call _ _ := .ret 0

theorem swap_ssa : SSA swap where
  valid :=
    { nodup := by decide
      closed := by unfold Function.Closed; decide
      entryPreds := by decide
      ids := by decide
      phisFirst := by decide
      entryPhis := by decide
      incoming := by decide }
  defined b hb I hI p hp i hi := by
    have hphi : ∀ b ∈ swap.layout, ∀ I ∈ (swap.block b).insts, ∀ p ∈ I.op.incoming,
        p.1.isConstant = true ∨ p.2 = 1 ∧ (p.1 = .inst 1 ∨ p.1 = .inst 2) := by decide
    rcases hphi b hb I hI p hp with hconst | ⟨hp1, hinst⟩
    · rw [hi] at hconst
      cases hconst
    · rw [hp1]
      refine ⟨1, by decide, .refl, ?_⟩
      rw [hi] at hinst
      rcases hinst with heq | heq
      · cases heq
        decide
      · cases heq
        decide
  unique := by decide

theorem breakPhi2Alloca_preserves_swap : ∃ es c,
    Run ((breakPhi2Alloca swap []).Exec swapMachine fun _ _ => none)
      (.inside none 0 ⟨fun _ => none, fun _ => none⟩) es (.returned c) ∧
    es.filter (remains swap []) =
      [.branch 0 (some 0), .branch 3 (some 0), .branch 3 (some 1), .branch 4 none] := by
  have hr : Run (swap.Exec swapMachine fun _ _ => none)
      (.inside none 0 ⟨fun _ => none, fun _ => none⟩)
      ([.branch 0 (some 0)] ++ ([.value 1 1, .value 2 0, .branch 3 (some 0)] ++
        ([.value 1 0, .value 2 1, .branch 3 (some 1)] ++ [.branch 4 none])))
      (.returned _) :=
    .head (.branch rfl rfl) (.head (.branch rfl rfl) (.head (.branch rfl rfl) (.single (.ret rfl))))
  have hoff : ∀ x ∈ ([.branch 0 (some 0)] ++ ([.value 1 1, .value 2 0, .branch 3 (some 0)] ++
      ([.value 1 0, .value 2 1, .branch 3 (some 1)] ++ [.branch 4 none])) : List (Act Nat)),
      x.address = none := by decide
  obtain ⟨es, c, hr', hkept, hend⟩ := breakPhi2Alloca_preserves (U := [])
    swap_ssa (fun _ _ => .inr fun _ _ _ => List.not_mem_nil) (fun _ _ _ _ => rfl)
    (fun _ _ _ _ h => h) (fun _ _ => none) (fun _ => none) hr
    fun x hx a ha => absurd ((hoff x hx).symm.trans ha) nofun
  cases hend with
  | returned _ _ => exact ⟨es, _, hr', hkept.trans (by decide)⟩

end VariOCL.IR.BreakPhi
