import VariOCL.BreakPhi.SlotMemory

/-! One block of a broken function beside the block it came of. -/

namespace VariOCL.IR.BreakPhi

open Sim

/-- Each PHI takes one value from a block, and that value is defined where the block ends. -/
structure SSA (F : Function) : Prop where
  valid : F.Valid
  defined : ∀ b ∈ F.layout, ∀ I ∈ (F.block b).insts, ∀ p ∈ I.op.incoming, ∀ i, p.1 = .inst i →
    ∃ d ∈ F.layout, F.Dominates d p.2 ∧ i ∈ (F.block d).insts.map Instruction.id
  unique : ∀ b ∈ F.layout, ∀ I ∈ (F.block b).insts, ∀ p ∈ I.op.incoming, ∀ p' ∈ I.op.incoming,
    p.2 = p'.2 → p.1 = p'.1

/-- All or none of the PHIs of block `b` have slots. -/
def Whole (F : Function) (slots : List Slot) (b : BlockId) : Prop :=
  (∀ I ∈ (F.block b).insts, I.op.isPhi → ∃ sl ∈ slots, sl.block = b ∧ sl.PN.inst = I) ∨
    ∀ I ∈ (F.block b).insts, ∀ sl ∈ slots, sl.PN.id ≠ I.id

/-- The slots of whole blocks, at cells of their own. -/
structure Slotted {Val : Type} (M : Machine Val) (F : Function) (slots : List Slot)
    (addr : InstId → Val) : Prop where
  ssa : SSA F
  fresh : Fresh F slots
  whole : ∀ b ∈ F.layout, Whole F slots b
  alloca : ∀ sl ∈ slots, ∀ ty v, M.alloca sl.alloca ty v = .ret (addr sl.alloca)
  inj : ∀ sl ∈ slots, ∀ sl' ∈ slots, addr sl.alloca = addr sl'.alloca → sl.alloca = sl'.alloca

section
variable {F : Function} {slots : List Slot} {b : BlockId}

theorem Fresh.not_phi (h : Fresh F slots) (hF : F.Valid) (hb : b ∈ F.layout) {I : Instruction}
    (hI : I ∈ (F.block b).insts) (hphi : I.op.isPhi = false) : ∀ sl ∈ slots, sl.PN.id ≠ I.id := by
  intro sl hsl hid
  obtain ⟨hc, hPN⟩ := h.mem sl hsl
  obtain rfl := F.inst_eq_of_id hF.ids hc hb hPN hI hid
  exact Bool.false_ne_true (hphi.symm.trans rfl)

theorem Fresh.not_phi_rest (h : Fresh F slots) (hF : F.Valid) (hb : b ∈ F.layout) :
    ∀ I ∈ (F.block b).insts.dropWhile (·.op.isPhi), ∀ sl ∈ slots, sl.PN.id ≠ I.id := fun I hI =>
  h.not_phi hF hb ((List.dropWhile_sublist _).subset hI) (hF.phisFirst b hb I hI)

theorem Fresh.map_brokenInst_rest (h : Fresh F slots) (hF : F.Valid) (hb : b ∈ F.layout) :
    ((F.block b).insts.dropWhile (·.op.isPhi)).map (brokenInst slots b) =
      ((F.block b).insts.dropWhile (·.op.isPhi)).map (Instruction.mapValues (brokenValue slots)) :=
  List.map_congr_left fun I hI => brokenInst_of_not_phi fun sl hsl _ =>
    h.not_phi_rest hF hb I hI sl hsl

theorem insts_block_broken (slots : List Slot) : ((broken slots F).block b).insts =
    (if b = F.entry then slots.reverse.map Slot.allocaInst else []) ++
      (((F.block b).insts.takeWhile (·.op.isPhi)).map (brokenInst slots b) ++
        (((F.block b).insts.dropWhile (·.op.isPhi)).map (brokenInst slots b) ++
          (storesAt slots (brokenValue slots) b).map storeOf)) := by
  rw [block_broken, brokenBlock, flatMap_storeInsts, List.map_reverse, List.append_assoc,
    ← List.append_assoc (List.map (brokenInst slots b) (List.takeWhile _ _)), ← List.map_append,
    List.takeWhile_append_dropWhile]

theorem lt_freshInst_of_mem (hb : b ∈ F.layout) {I : Instruction} (hI : I ∈ (F.block b).insts) :
    I.id < F.freshInst := F.lt_freshInst (F.instIds_of_mem hb hI)

end

/-! ### The end of a block -/

section
variable {Val : Type} {F : Function} {slots : List Slot} {addr : InstId → Val} {M : Machine Val}
  {w : WorkItem Val} {s s' t t' : State Val} {b : BlockId} {i : Option Nat} {es : List (Act Val)}

theorem Alike.taken (h : Alike F slots addr s t) {term : Terminator}
    (hi : M.taken s.env term = some i) :
    M.taken t.env (term.mapValues (brokenValue slots)) = some i := by
  cases term with
  | br d => exact hi
  | condBr c d d' =>
    obtain ⟨x, hx, rfl⟩ := Option.map_eq_some_iff.mp hi
    rw [Terminator.mapValues, Machine.taken, h.read hx, Option.map_some]
  | switch c d cs =>
    obtain ⟨x, hx, rfl⟩ := Option.map_eq_some_iff.mp hi
    rw [Terminator.mapValues, Machine.taken, h.read hx, Option.map_some]
  | ret v =>
    obtain ⟨xs, hxs, rfl⟩ := Option.map_eq_some_iff.mp hi
    have hys := h.readAll hxs
    rw [Terminator.mapValues, Machine.taken]
    cases v with
    | none => rw [Option.map_none, Option.toList_none, Machine.readAll, Option.map_some]
    | some v =>
      rw [Option.toList_some, List.map_singleton] at hys
      rw [Option.map_some, Option.toList_some, hys, Option.map_some]
  | unreachable => cases hi

theorem mem_of_incomingFor {incoming : List (Value × BlockId)} {v : Value}
    (h : (Op.phi incoming).incomingFor (some b) = some v) : (v, b) ∈ incoming := by
  obtain ⟨⟨u, c⟩, hfind, rfl⟩ := Option.map_eq_some_iff.mp h
  have hc := List.find?_some hfind
  simp only [decide_eq_true_eq, Option.some.injEq] at hc
  exact hc ▸ List.mem_of_find?_eq_some hfind

theorem Fresh.store_ne (h : Fresh F slots) {sl sl' : Slot} {j : InstId} (hsl : sl ∈ slots)
    (hsl' : sl' ∈ slots) (hj : j ∈ sl.stores) : sl'.alloca ≠ j ∧ sl'.loadedValue ≠ j := by
  have hmem : j ∈ sl.ids := List.mem_cons_of_mem _ (List.mem_cons_of_mem _ hj)
  have hnodup := (List.nodup_flatMap.mp h.nodup).1 sl hsl
  obtain ⟨halloca, hnodup⟩ := List.nodup_cons.mp hnodup
  constructor
  · rintro rfl
    obtain rfl := h.eq_of_mem_ids hsl hsl' hmem List.mem_cons_self
    exact halloca (List.mem_cons_of_mem _ hj)
  · rintro rfl
    obtain rfl := h.eq_of_mem_ids hsl hsl' hmem (List.mem_cons_of_mem _ List.mem_cons_self)
    exact (List.nodup_cons.mp hnodup).1 hj

theorem Fresh.brokenValue_ne_store (h : Fresh F slots) {sl : Slot} {j : InstId} {v : Value}
    (hsl : sl ∈ slots) (hj : j ∈ sl.stores) (hv : v ≠ .inst j) :
    brokenValue slots v ≠ .inst j := by
  cases v with
  | inst k =>
    rw [brokenValue]
    cases hfind : slots.find? (·.PN.id = k) with
    | none => exact hv
    | some sl' => 
      have hne := (h.store_ne hsl (List.mem_of_find?_eq_some hfind) hj).2
      exact fun heq => hne (Value.inst.inj heq)
  | _ => exact hv

variable [DecidableEq Val]

/-- The stores at the end of a block fill the slots of every block it may go on to. -/
theorem Slotted.execStores (h : Slotted M F slots addr) (halike : Alike F slots addr s t)
    (halloc : Allocated slots addr t)
    (hread : ∀ sl ∈ slots, ∀ v, (v, b) ∈ sl.PN.incoming → ∃ x, M.read s.env v = some x) :
    ∃ t' es', M.execInsts w ((storesAt slots (brokenValue slots) b).map storeOf) t = some (t', es') ∧
      Alike F slots addr s t' ∧ Allocated slots addr t' ∧
      (∀ d, Holds slots addr M (some b) d s t') ∧ ∀ x ∈ es', F.freshInst ≤ x.id := by
  have hmem : ∀ p ∈ storesAt slots (brokenValue slots) b, ∃ sl ∈ slots, ∃ v,
      (v, b) ∈ sl.PN.incoming ∧ p.1 ∈ sl.stores ∧ p.2 = (brokenValue slots v, sl.alloca) := by
    intro p hp
    obtain ⟨sl, hsl, j, v, hzip, rfl⟩ := mem_storesAt.mp hp
    exact ⟨sl, hsl, v, (List.of_mem_zip hzip).2, (List.of_mem_zip hzip).1, rfl⟩
  have hnew : ∀ sl ∈ slots, ∀ j ∈ sl.stores, F.freshInst ≤ j := fun sl hsl j hj =>
    h.fresh.new sl hsl j (List.mem_cons_of_mem _ (List.mem_cons_of_mem _ hj))
  have hread' : ∀ p ∈ storesAt slots (brokenValue slots) b,
      M.read t.env p.2.1 = some ((M.read t.env p.2.1).getD (M.atom .undefValue)) := by
    intro p hp
    obtain ⟨sl, hsl, v, hin, -, heq⟩ := hmem p hp
    obtain ⟨x, hx⟩ := hread sl hsl v hin
    rw [heq, halike.read hx, Option.getD_some]
  have halloc' : ∀ p ∈ storesAt slots (brokenValue slots) b, t.env p.2.2 = some (addr p.2.2) := by
    intro p hp
    obtain ⟨sl, hsl, v, -, -, heq⟩ := hmem p hp
    rw [heq]
    exact halloc sl hsl
  have hne : ∀ p ∈ storesAt slots (brokenValue slots) b,
      ∀ p' ∈ storesAt slots (brokenValue slots) b, p'.2.1 ≠ .inst p.1 ∧ p'.2.2 ≠ p.1 := by
    intro p hp p' hp'
    obtain ⟨sl, hsl, v, -, hj, -⟩ := hmem p hp
    obtain ⟨sl', hsl', v', hin', -, heq'⟩ := hmem p' hp'
    rw [heq']
    refine ⟨h.fresh.brokenValue_ne_store hsl hj ?_, (h.fresh.store_ne hsl hsl' hj).1⟩
    rintro rfl
    obtain ⟨x, hx⟩ := hread sl' hsl' _ hin'
    exact Option.some_ne_none x (hx.symm.trans (halike.unset _ (hnew sl hsl _ hj)))
  have hsame : ∀ p ∈ storesAt slots (brokenValue slots) b,
      ∀ p' ∈ storesAt slots (brokenValue slots) b, addr p.2.2 = addr p'.2.2 →
      (M.read t.env p.2.1).getD (M.atom .undefValue) =
        (M.read t.env p'.2.1).getD (M.atom .undefValue) := by
    intro p hp p' hp' haddr
    obtain ⟨sl, hsl, v, hin, -, heq⟩ := hmem p hp
    obtain ⟨sl', hsl', v', hin', -, heq'⟩ := hmem p' hp'
    rw [heq, heq'] at haddr
    have halloca : sl.alloca = sl'.alloca := h.inj sl hsl sl' hsl' haddr
    have hids : sl.alloca ∈ sl'.ids := by
      rw [halloca]
      exact List.mem_cons_self
    obtain rfl := h.fresh.eq_of_mem_ids hsl hsl' List.mem_cons_self hids
    obtain ⟨hb, hPN⟩ := h.fresh.mem sl hsl
    have hv : v = v' := h.ssa.unique _ hb _ hPN _ hin _ hin' rfl
    rw [heq, heq', hv]
  obtain ⟨t', es', hx, hcells, hframe, henv, hids⟩ :=
    execInsts_stores (w := w) (x := fun v => (M.read t.env v).getD (M.atom .undefValue)) hread'
      halloc' hne hsame
  refine ⟨t', es', hx, halike.extend ?_ ?_, ?_, ?_, ?_⟩
  · intro j hj
    refine henv j fun p hp heq => ?_
    obtain ⟨sl, hsl, v, -, hj', -⟩ := hmem p hp
    rw [← heq] at hj'
    rcases hj with hlt | ⟨sl', hsl', heq'⟩
    · exact Nat.not_lt.mpr (hnew sl hsl j hj') hlt
    · exact (h.fresh.store_ne hsl hsl' hj').2 heq'
  · intro a ha
    refine hframe a fun p hp => ?_
    obtain ⟨sl, hsl, v, -, -, heq⟩ := hmem p hp
    rw [heq]
    exact ha sl hsl
  · intro sl' hsl'
    have hstores : ∀ p ∈ storesAt slots (brokenValue slots) b, sl'.alloca ≠ p.1 := by
      intro p hp
      obtain ⟨sl, hsl, v, -, hj, -⟩ := hmem p hp
      exact (h.fresh.store_ne hsl hsl' hj).1
    rw [henv _ hstores, halloc sl' hsl']
  · intro d sl hsl _ v hv x hx
    have hin := mem_of_incomingFor hv
    obtain ⟨j, hj⟩ := h.fresh.exists_store (f := brokenValue slots) hsl hin
    rw [hcells _ hj, halike.read hx, Option.getD_some]
  · intro e he
    obtain ⟨p, hp, heq⟩ := hids e he
    obtain ⟨sl, hsl, v, -, hj, -⟩ := hmem p hp
    exact heq ▸ hnew sl hsl _ hj

end

/-! ### A whole block -/

/-- What the instructions other than the PHIs of the slots do. -/
def kept {Val : Type} (F : Function) (slots : List Slot) (x : Act Val) : Bool :=
  F.instIds.contains x.id && !slots.any (·.PN.id = x.id)

/-- The two functions are about to execute block `b`, coming from `pred`. -/
structure Matches {Val : Type} (M : Machine Val) (F : Function) (slots : List Slot)
    (addr : InstId → Val) (pred : Option BlockId) (b : BlockId) (s t : State Val) : Prop where
  reachable : F.Reachable b
  alike : Alike F slots addr s t
  allocated : b ≠ F.entry → Allocated slots addr t
  holds : Holds slots addr M pred b s t
  defined : ∀ d ∈ F.layout, F.Dominates d b → d ≠ b →
    ∀ i ∈ (F.block d).insts.map Instruction.id, (s.env i).isSome

section
variable {Val : Type} {F : Function} {slots : List Slot} {addr : InstId → Val} {M : Machine Val}
  {w : WorkItem Val} {s s' t t' : State Val} {pred : Option BlockId} {b : BlockId}
  {i : Option Nat} {es : List (Act Val)} {e : Cells InstId Val}

theorem filter_kept_of_new (hes : ∀ x ∈ es, F.freshInst ≤ x.id) :
    es.filter (kept F slots) = [] := by
  refine List.filter_eq_nil_iff.mpr fun x hx hkept => ?_
  rw [kept, Bool.and_eq_true, List.contains_iff_mem] at hkept
  exact Nat.not_lt.mpr (hes x hx) (F.lt_freshInst hkept.1)

theorem filter_kept_of_phi (hes : ∀ x ∈ es, ∃ sl ∈ slots, x.id = sl.PN.id) :
    es.filter (kept F slots) = [] := by
  refine List.filter_eq_nil_iff.mpr fun x hx hkept => ?_
  obtain ⟨sl, hsl, heq⟩ := hes x hx
  have hany : slots.any (·.PN.id = x.id) := List.any_eq_true.mpr ⟨sl, hsl, by simp [heq]⟩
  rw [kept, hany] at hkept
  simp at hkept

theorem Slotted.enter_kept (h : Slotted M F slots addr) (hm : Matches M F slots addr pred b s t)
    (hentry : b ≠ F.entry) {Is : List Instruction} (hIs : ∀ I ∈ Is, I ∈ (F.block b).insts)
    (hphi : ∀ I ∈ Is, ∀ sl ∈ slots, sl.PN.id ≠ I.id)
    (hx : M.execPhis s.env pred Is s.env = some (e, es)) : ∃ f,
      M.execPhis t.env pred (Is.map (brokenInst slots b)) t.env = some (f, es) ∧
      Alike F slots addr ⟨e, s.mem⟩ ⟨f, t.mem⟩ ∧ Allocated slots addr ⟨f, t.mem⟩ := by
  have hb := h.ssa.valid.closed.reachable_mem hm.reachable
  have hlt : ∀ I ∈ Is, I.id < F.freshInst := fun I hI => lt_freshInst_of_mem hb (hIs I hI)
  obtain ⟨f, hf, halike, henv⟩ := hm.alike.execPhis hm.alike h.fresh hlt hphi hx
  have hmap : Is.map (brokenInst slots b) = Is.map (Instruction.mapValues (brokenValue slots)) :=
    List.map_congr_left fun I hI => brokenInst_of_not_phi fun sl hsl _ => hphi I hI sl hsl
  refine ⟨f, by rw [hmap, hf], halike, fun sl hsl => ?_⟩
  have hne : ∀ I ∈ Is, sl.alloca ≠ I.id := fun I hI heq =>
    Nat.not_lt.mpr (h.fresh.new sl hsl _ List.mem_cons_self) (heq ▸ hlt I hI)
  exact (henv _ hne).trans (hm.allocated hentry sl hsl)

variable [DecidableEq Val]

/-- At the end of a block the values its successors take are defined. -/
theorem Slotted.exists_read (h : Slotted M F slots addr) (hm : Matches M F slots addr pred b s t)
    (hx : M.execBlock w (F.block b) pred s = some (i, s', es)) :
    ∀ sl ∈ slots, ∀ v, (v, b) ∈ sl.PN.incoming → ∃ x, M.read s'.env v = some x := by
  intro sl hsl v hv
  cases v with
  | inst j =>
    obtain ⟨hc, hPN⟩ := h.fresh.mem sl hsl
    obtain ⟨d, hd, hdom, hj⟩ := h.ssa.defined _ hc _ hPN _ hv j rfl
    apply Option.isSome_iff_exists.mp
    apply Machine.isSome_execBlock hx
    by_cases hdb : d = b
    · exact .inl (hdb ▸ hj)
    · exact .inr (hm.defined d hd hdom hdb j hj)
  | _ => exact ⟨_, rfl⟩

/-- The front of the entry block has the allocas, that of any other block nothing. -/
theorem Slotted.execFront (h : Slotted M F slots addr) (hm : Matches M F slots addr pred b s t) :
    ∃ t' es', M.execInsts w (if b = F.entry then slots.reverse.map Slot.allocaInst else []) t =
      some (t', es') ∧ Alike F slots addr s t' ∧ t'.mem = t.mem ∧ Allocated slots addr t' ∧
      ∀ x ∈ es', F.freshInst ≤ x.id := by
  by_cases hb : b = F.entry
  · have hallocas : ∀ sl ∈ slots.reverse, ∀ ty v, M.alloca sl.alloca ty v = .ret (addr sl.alloca) :=
      fun sl hsl => h.alloca sl (List.mem_reverse.mp hsl)
    obtain ⟨t', es', hx, hmem, halloc, henv, hids⟩ := execInsts_allocas (w := w) hallocas t
    have hnew : ∀ sl ∈ slots, F.freshInst ≤ sl.alloca := fun sl hsl =>
      h.fresh.new sl hsl _ List.mem_cons_self
    rw [if_pos hb]
    refine ⟨t', es', hx, hm.alike.extend ?_ fun a _ => congrFun hmem a, hmem, ?_, ?_⟩
    · intro j hj
      refine henv j fun sl hsl heq => ?_
      rw [List.mem_reverse] at hsl
      rcases hj with hlt | ⟨sl', hsl', heq'⟩
      · exact Nat.not_lt.mpr (hnew sl hsl) (heq ▸ hlt)
      · exact h.fresh.loadedValue_ne_alloca hsl' hsl (heq'.trans heq)
    · exact fun sl hsl => halloc sl (List.mem_reverse.mpr hsl)
    · intro x hx
      obtain ⟨sl, hsl, heq⟩ := hids x hx
      exact heq ▸ hnew sl (List.mem_reverse.mp hsl)
  · rw [if_neg hb]
    exact ⟨t, [], rfl, hm.alike, rfl, hm.allocated hb, by simp⟩

theorem Slotted.enter_broken (h : Slotted M F slots addr)
    (hm : Matches M F slots addr pred b s t) {Is : List Instruction}
    (hIs : ∀ I ∈ Is, ∃ sl ∈ slots, sl.block = b ∧ sl.PN.inst = I)
    (hx : M.execPhis s.env pred Is s.env = some (e, es)) : ∃ t' ls,
      M.execInsts w ((if b = F.entry then slots.reverse.map Slot.allocaInst else []) ++
        Is.map (brokenInst slots b)) t = some (t', ls) ∧
      ls.filter (kept F slots) = es.filter (kept F slots) ∧
      Alike F slots addr ⟨e, s.mem⟩ t' ∧ Allocated slots addr t' := by
  obtain ⟨t₁, es₁, hfront, halike, hmem, halloc, hnew₁⟩ := h.execFront (w := w) hm
  have hholds : Holds slots addr M pred b s t₁ := by
    intro sl hsl hb v hv x hx
    rw [hmem]
    exact hm.holds sl hsl hb v hv x hx
  obtain ⟨t₂, es₂, hloads, halike₂, -, halloc₂, hphi, hnew₂⟩ :=
    halike.execLoads (w := w) (m := s.mem) h.fresh halloc hholds hIs hx
  refine ⟨t₂, es₁ ++ es₂, Machine.execInsts_append_of_some hfront hloads, ?_, halike₂, halloc₂⟩
  rw [filter_kept_of_phi hphi, filter_kept_of_new (List.forall_mem_append.mpr ⟨hnew₁, hnew₂⟩)]

/-- The PHIs of a block, and the instructions in the place of those broken. -/
theorem Slotted.enter (h : Slotted M F slots addr) (hm : Matches M F slots addr pred b s t)
    (hx : M.execPhis s.env pred ((F.block b).insts.takeWhile (·.op.isPhi)) s.env = some (e, es)) :
    ∃ P R f ps t' ls, ((broken slots F).block b).insts = P ++ (R ++
        (((F.block b).insts.dropWhile (·.op.isPhi)).map (Instruction.mapValues (brokenValue slots)) ++
          (storesAt slots (brokenValue slots) b).map storeOf)) ∧
      (∀ I ∈ P, I.op.isPhi) ∧ (∀ I ∈ R, I.op.isPhi = false) ∧
      M.execPhis t.env pred P t.env = some (f, ps) ∧
      M.execInsts w R ⟨f, t.mem⟩ = some (t', ls) ∧
      (ps ++ ls).filter (kept F slots) = es.filter (kept F slots) ∧
      Alike F slots addr ⟨e, s.mem⟩ t' ∧ Allocated slots addr t' := by
  have hF := h.ssa.valid
  have hb := hF.closed.reachable_mem hm.reachable
  have hphis : ∀ I ∈ (F.block b).insts.takeWhile (·.op.isPhi), I ∈ (F.block b).insts ∧ I.op.isPhi :=
    fun I hI => ⟨(List.takeWhile_sublist _).subset hI,
      List.mem_takeWhile_imp (p := fun I : Instruction => I.op.isPhi) hI⟩
  have hinsts := insts_block_broken (F := F) (b := b) slots
  rw [h.fresh.map_brokenInst_rest hF hb] at hinsts
  have hbroken : (∀ I ∈ (F.block b).insts.takeWhile (·.op.isPhi),
      ∃ sl ∈ slots, sl.block = b ∧ sl.PN.inst = I) ∨
      b ≠ F.entry ∧ ∀ I ∈ (F.block b).insts, ∀ sl ∈ slots, sl.PN.id ≠ I.id := by
    by_cases hentry : b = F.entry
    · refine .inl fun I hI => ?_
      have hnone := hF.entryPhis I (hentry ▸ (hphis I hI).1)
      exact absurd (hnone.symm.trans (hphis I hI).2) Bool.false_ne_true
    · exact (h.whole b hb).imp (fun hall I hI => hall I (hphis I hI).1 (hphis I hI).2)
        fun hnone => ⟨hentry, hnone⟩
  rcases hbroken with hall | ⟨hentry, hnone⟩
  · obtain ⟨t', ls, hls, hkept, halike, halloc⟩ := h.enter_broken (w := w) hm hall hx
    refine ⟨[], _, t.env, [], t', ls, ?_, by simp, ?_, rfl, hls, hkept, halike, halloc⟩
    · rw [hinsts, List.nil_append, List.append_assoc]
    · intro I hI
      rcases List.mem_append.mp hI with hI | hI
      · split at hI
        · obtain ⟨sl, -, rfl⟩ := List.mem_map.mp hI
          rfl
        · cases hI
      · obtain ⟨J, hJ, rfl⟩ := List.mem_map.mp hI
        obtain ⟨sl, hsl, rfl, rfl⟩ := hall J hJ
        rw [h.fresh.brokenInst_phi hsl]
        rfl
  · obtain ⟨f, hf, halike, halloc⟩ := h.enter_kept hm hentry (fun I hI => (hphis I hI).1)
      (fun I hI => hnone I (hphis I hI).1) hx
    refine ⟨_, [], f, es, ⟨f, t.mem⟩, [], ?_, ?_, by simp, hf, rfl, by simp, halike, halloc⟩
    · rw [hinsts, if_neg hentry, List.nil_append, List.nil_append]
    · intro I hI
      obtain ⟨J, hJ, rfl⟩ := List.mem_map.mp hI
      rw [brokenInst_of_not_phi fun sl hsl _ => hnone J (hphis J hJ).1 sl hsl,
        Instruction.op_mapValues, Op.isPhi_mapValues]
      exact (hphis J hJ).2

/-- A block of the broken function goes the way the old one goes. -/
theorem Slotted.execBlock (h : Slotted M F slots addr) (hm : Matches M F slots addr pred b s t)
    (hx : M.execBlock w (F.block b) pred s = some (i, s', es))
    (hoff : ∀ x ∈ es, ∀ c, x.address = some c → OffSlots slots addr c) : ∃ t' es',
      M.execBlock w ((broken slots F).block b) pred t = some (i, t', es') ∧
      es'.filter (kept F slots) = es.filter (kept F slots) ∧ Alike F slots addr s' t' ∧
      Allocated slots addr t' ∧ ∀ d, Holds slots addr M (some b) d s' t' := by
  have hread := h.exists_read hm hx
  have hF := h.ssa.valid
  have hb := hF.closed.reachable_mem hm.reachable
  obtain ⟨⟨e, es₁⟩, hphis, hx⟩ := Option.bind_eq_some_iff.mp hx
  obtain ⟨⟨s₂, es₂⟩, hrest, hx⟩ := Option.bind_eq_some_iff.mp hx
  obtain ⟨k, htaken, heq⟩ := Option.map_eq_some_iff.mp hx
  cases heq
  have hoff₂ : ∀ x ∈ es₂, ∀ c, x.address = some c → OffSlots slots addr c := fun x hx =>
    hoff x (List.mem_append_left _ (List.mem_append_right _ hx))
  have hlt : ∀ I ∈ (F.block b).insts.dropWhile (·.op.isPhi), I.id < F.freshInst := fun I hI =>
    lt_freshInst_of_mem hb ((List.dropWhile_sublist _).subset hI)
  obtain ⟨P, R, f, ps, t₁, ls, hinsts, hP, hR, hps, hls, hkept, halike₁, halloc₁⟩ :=
    h.enter (w := w) hm hphis
  obtain ⟨t₂, hrest', halike₂, henv₂⟩ :=
    halike₁.execInsts h.fresh hlt (h.fresh.not_phi_rest hF hb) hrest hoff₂
  have halloc₂ : Allocated slots addr t₂ := fun sl hsl => by
    have hne : ∀ I ∈ (F.block b).insts.dropWhile (·.op.isPhi), sl.alloca ≠ I.id := fun I hI heq =>
      Nat.not_lt.mpr (h.fresh.new sl hsl _ List.mem_cons_self) (heq ▸ hlt I hI)
    rw [henv₂ _ hne, halloc₁ sl hsl]
  obtain ⟨t₃, es₃, hstores, halike₃, halloc₃, hholds, hnew⟩ := h.execStores (w := w) halike₂ halloc₂ hread
  refine ⟨t₃, ps ++ (ls ++ (es₂ ++ es₃)) ++ [.branch (F.block b).termId i], ?_, ?_, halike₃,
    halloc₃, hholds⟩
  · have hrestPhi : ∀ I ∈ R ++ (((F.block b).insts.dropWhile (·.op.isPhi)).map
        (Instruction.mapValues (brokenValue slots)) ++
          (storesAt slots (brokenValue slots) b).map storeOf), I.op.isPhi = false := by
      intro I hI
      simp only [List.mem_append, List.mem_map] at hI
      rcases hI with hI | ⟨J, hJ, rfl⟩ | ⟨p, -, rfl⟩
      · exact hR I hI
      · rw [Instruction.op_mapValues, Op.isPhi_mapValues, hF.phisFirst b hb J hJ]
      · rfl
    have hexec := Machine.execInsts_append_of_some hls (Machine.execInsts_append_of_some hrest' hstores)
    rw [Machine.execBlock, hinsts, takeWhile_isPhi hP hrestPhi, dropWhile_isPhi hP hrestPhi, hps,
      Option.bind_some, hexec, Option.bind_some]
    exact Option.map_eq_some_iff.mpr ⟨i, halike₃.taken htaken, rfl⟩
  · simp only [List.filter_append, filter_kept_of_new hnew] at hkept ⊢
    rw [← List.append_assoc, ← List.append_assoc, hkept, List.append_nil]

end

end VariOCL.IR.BreakPhi
