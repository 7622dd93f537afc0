import VariOCL.BreakPhi.Alike

/-! The allocas at the front of the entry block and the stores at the end of a block. -/

namespace VariOCL.IR.BreakPhi

open Sim

/-- The stores at the end of block `b`, each with its value and the slot it goes to. -/
def storesAt (slots : List Slot) (f : Value → Value) (b : BlockId) :
    List (InstId × Value × InstId) :=
  slots.flatMap fun sl =>
    ((sl.stores.zip sl.PN.incoming).filter (·.2.2 = b)).map fun p => (p.1, f p.2.1, sl.alloca)

def storeOf (p : InstId × Value × InstId) : Instruction :=
  ⟨p.1, .void, .store p.2.1 (.inst p.2.2)⟩

section
variable {slots : List Slot} {f : Value → Value} {b : BlockId} {F : Function}

theorem flatMap_storeInsts :
    slots.flatMap (fun sl => sl.storeInsts f b) = (storesAt slots f b).map storeOf := by
  rw [storesAt, List.map_flatMap]
  congr 1
  funext sl
  rw [Slot.storeInsts, List.map_map]
  rfl

theorem mem_storesAt {p : InstId × Value × InstId} : p ∈ storesAt slots f b ↔
    ∃ sl ∈ slots, ∃ i v, (i, v, b) ∈ sl.stores.zip sl.PN.incoming ∧ p = (i, f v, sl.alloca) := by
  simp only [storesAt, List.mem_flatMap, List.mem_map, List.mem_filter, decide_eq_true_eq]
  constructor
  · rintro ⟨sl, hsl, ⟨i, v, c⟩, ⟨hmem, rfl⟩, rfl⟩
    exact ⟨sl, hsl, i, v, hmem, rfl⟩
  · rintro ⟨sl, hsl, i, v, hmem, rfl⟩
    exact ⟨sl, hsl, (i, v, b), ⟨hmem, rfl⟩, rfl⟩

/-- Every incoming value is stored. -/
theorem Fresh.exists_store (h : Fresh F slots) {sl : Slot} (hsl : sl ∈ slots) {v : Value}
    (hv : (v, b) ∈ sl.PN.incoming) : ∃ i, (i, f v, sl.alloca) ∈ storesAt slots f b := by
  obtain ⟨n, hn, heq⟩ := List.mem_iff_getElem.mp hv
  have hlen : n < (sl.stores.zip sl.PN.incoming).length := by
    rwa [List.length_zip, h.lengths sl hsl, Nat.min_self]
  have hmem := List.getElem_mem hlen
  rw [List.getElem_zip, heq] at hmem
  exact ⟨_, mem_storesAt.mpr ⟨sl, hsl, _, v, hmem, rfl⟩⟩

end

section
variable {Val : Type} {F : Function} {slots : List Slot} {addr : InstId → Val} {M : Machine Val}
  {w : WorkItem Val} [DecidableEq Val]

theorem execInst_allocaInst {sl : Slot} (hM : ∀ ty v, M.alloca sl.alloca ty v = .ret (addr sl.alloca))
    (t : State Val) : M.execInst w sl.allocaInst t =
      some (t.define sl.alloca (addr sl.alloca), [.value sl.alloca (addr sl.alloca)]) :=
  Machine.execInst_of_ret [M.atom (.constInt 32 1)] rfl
    (by simp [Slot.allocaInst, Machine.perform, hM])

theorem execInsts_allocas {sls : List Slot}
    (hM : ∀ sl ∈ sls, ∀ ty v, M.alloca sl.alloca ty v = .ret (addr sl.alloca)) (t : State Val) :
    ∃ t' es, M.execInsts w (sls.map Slot.allocaInst) t = some (t', es) ∧ t'.mem = t.mem ∧
      Allocated sls addr t' ∧ (∀ j, (∀ sl ∈ sls, j ≠ sl.alloca) → t'.env j = t.env j) ∧
      ∀ x ∈ es, ∃ sl ∈ sls, x.id = sl.alloca := by
  induction sls generalizing t with
  | nil => exact ⟨t, [], rfl, rfl, by simp [Allocated], fun _ _ => rfl, by simp⟩
  | cons sl sls ih =>
    obtain ⟨hsl, hsls⟩ := List.forall_mem_cons.mp hM
    obtain ⟨t', es, hx, hmem, halloc, henv, hids⟩ := ih hsls (t.define sl.alloca (addr sl.alloca))
    refine ⟨t', [.value sl.alloca (addr sl.alloca)] ++ es, ?_, hmem, ?_, ?_, ?_⟩
    · rw [List.map_cons, Machine.execInsts, execInst_allocaInst hsl, Option.bind_some, hx,
        Option.map_some]
    · refine List.forall_mem_cons.mpr ⟨?_, halloc⟩
      by_cases hdup : ∃ sl' ∈ sls, sl.alloca = sl'.alloca
      · obtain ⟨sl', hsl', heq⟩ := hdup
        rw [heq, halloc sl' hsl']
      · rw [henv _ fun sl' hsl' heq => hdup ⟨sl', hsl', heq⟩, State.define_self]
    · intro j hj
      obtain ⟨hjsl, hj⟩ := List.forall_mem_cons.mp hj
      rw [henv j hj, State.define_ne _ hjsl]
    · refine List.forall_mem_append.mpr ⟨?_, fun x hx => ?_⟩
      · simp [Act.id]
      · obtain ⟨sl', hsl', heq⟩ := hids x hx
        exact ⟨sl', List.mem_cons_of_mem _ hsl', heq⟩

theorem execInst_storeOf {p : InstId × Value × InstId} {t : State Val} {x a : Val}
    (hx : M.read t.env p.2.1 = some x) (ha : t.env p.2.2 = some a) :
    M.execInst w (storeOf p) t = some (⟨t.env.set p.1 x, t.mem.set a x⟩,
      [.access p.1 (.store a x), .value p.1 x]) := by
  have hread : M.readAll t.env (storeOf p).op.operands = some [x, a] := by
    have ha' : M.read t.env (.inst p.2.2) = some a := ha
    simp [storeOf, Op.operands, Machine.readAll, hx, ha']
  rw [Machine.execInst, hread]
  simp [storeOf, Machine.perform, Proc.run]

/-- After the stores a slot holds the value stored there, when no two differ. -/
theorem execInsts_stores {L : List (InstId × Value × InstId)} {x : Value → Val} {t : State Val}
    (hread : ∀ p ∈ L, M.read t.env p.2.1 = some (x p.2.1))
    (halloc : ∀ p ∈ L, t.env p.2.2 = some (addr p.2.2))
    (hids : ∀ p ∈ L, ∀ p' ∈ L, p'.2.1 ≠ .inst p.1 ∧ p'.2.2 ≠ p.1)
    (hsame : ∀ p ∈ L, ∀ p' ∈ L, addr p.2.2 = addr p'.2.2 → x p.2.1 = x p'.2.1) :
    ∃ t' es, M.execInsts w (L.map storeOf) t = some (t', es) ∧
      (∀ p ∈ L, t'.mem (addr p.2.2) = some (x p.2.1)) ∧
      (∀ a, (∀ p ∈ L, a ≠ addr p.2.2) → t'.mem a = t.mem a) ∧
      (∀ j, (∀ p ∈ L, j ≠ p.1) → t'.env j = t.env j) ∧ ∀ e ∈ es, ∃ p ∈ L, e.id = p.1 := by
  induction L generalizing t with
  | nil => exact ⟨t, [], rfl, by simp, fun _ _ => rfl, fun _ _ => rfl, by simp⟩
  | cons p L ih =>
    obtain ⟨hp, hread⟩ := List.forall_mem_cons.mp hread
    obtain ⟨ha, halloc⟩ := List.forall_mem_cons.mp halloc
    have hstore := execInst_storeOf (w := w) hp ha
    have hne : ∀ p' ∈ L, p'.2.1 ≠ .inst p.1 ∧ p'.2.2 ≠ p.1 := fun p' hp' =>
      hids p List.mem_cons_self p' (List.mem_cons_of_mem _ hp')
    have hread' : ∀ p' ∈ L, M.read (t.env.set p.1 (x p.2.1)) p'.2.1 = some (x p'.2.1) := by
      intro p' hp'
      rw [← hread p' hp']
      cases hv : p'.2.1 with
      | inst i =>
        refine Cells.set_ne _ _ fun heq => (hne p' hp').1 ?_
        rw [hv, heq]
      | _ => rfl
    have halloc' : ∀ p' ∈ L, t.env.set p.1 (x p.2.1) p'.2.2 = some (addr p'.2.2) := by
      intro p' hp'
      rw [← halloc p' hp']
      exact Cells.set_ne _ _ (hne p' hp').2
    obtain ⟨t', es, hx, hmem, hframe, henv, hes⟩ :=
      ih (t := ⟨t.env.set p.1 (x p.2.1), t.mem.set (addr p.2.2) (x p.2.1)⟩) hread' halloc'
      (fun p' hp' p'' hp'' => hids p' (List.mem_cons_of_mem _ hp') p'' (List.mem_cons_of_mem _ hp''))
      (fun p' hp' p'' hp'' => hsame p' (List.mem_cons_of_mem _ hp') p'' (List.mem_cons_of_mem _ hp''))
    refine ⟨t', [.access p.1 (.store (addr p.2.2) (x p.2.1)), .value p.1 (x p.2.1)] ++ es,
      ?_, ?_, ?_, ?_, ?_⟩
    · rw [List.map_cons, Machine.execInsts, hstore, Option.bind_some, hx, Option.map_some]
    · refine List.forall_mem_cons.mpr ⟨?_, hmem⟩
      by_cases hdup : ∃ p' ∈ L, addr p.2.2 = addr p'.2.2
      · obtain ⟨p', hp', heq⟩ := hdup
        rw [heq, hmem p' hp', hsame p List.mem_cons_self p' (List.mem_cons_of_mem _ hp') heq]
      · rw [hframe _ fun p' hp' heq => hdup ⟨p', hp', heq⟩]
        exact Cells.set_self ..
    · intro a ha
      obtain ⟨hap, ha⟩ := List.forall_mem_cons.mp ha
      rw [hframe a ha]
      exact Cells.set_ne _ _ hap
    · intro j hj
      obtain ⟨hjp, hj⟩ := List.forall_mem_cons.mp hj
      rw [henv j hj]
      exact Cells.set_ne _ _ hjp
    · refine List.forall_mem_append.mpr ⟨?_, fun e he => ?_⟩
      · simp [Act.id]
      · obtain ⟨p', hp', heq⟩ := hes e he
        exact ⟨p', List.mem_cons_of_mem _ hp', heq⟩

end

end VariOCL.IR.BreakPhi
