import VariOCL.LoopInserter.Regions
import Mathlib.Data.List.Perm.Subperm
import Mathlib.Algebra.Order.BigOperators.Group.List
import Mathlib.Algebra.Order.Ring.Nat

/-! The flooding above a barrier: it ends, and its set is what lies above the barrier without a
barrier in between. -/

namespace VariOCL.IR

open Relation (ReflTransGen)

/-- Hived-off form, with any block at the entry. -/
structure Function.HivedOffBelow (F : Function) : Prop where
  alone : ∀ b ∈ F.layout, hasBarrier (F.block b) → containsJustABarrier (F.block b)
  exits : ∀ b ∈ F.layout, F.succs b = [] → containsJustABarrier (F.block b)
  pred : ∀ b ∈ F.layout, b ≠ F.entry → hasBarrier (F.block b) →
    ∃ p, F.predEdges b = [p] ∧ (F.block p).term = .br b

theorem Function.HivedOff.below {F : Function} (h : F.HivedOff) : F.HivedOffBelow :=
  ⟨h.alone, h.exits, h.pred⟩

/-- An edge that does not lead out of a barrier into the code below it. -/
def Function.RegionEdge (F : Function) (x y : BlockId) : Prop :=
  x ∈ F.predEdges y ∧ (hasBarrier (F.block x) → hasBarrier (F.block y))

/-- `x` lies in the region before the barrier block `B`. -/
def Function.Above (F : Function) (B x : BlockId) : Prop :=
  hasBarrier (F.block x) = false ∧ ReflTransGen F.RegionEdge x B

/-- A barrier block that no barrier block follows. -/
def Function.EndsRegion (F : Function) (B : BlockId) : Prop :=
  B ∈ F.layout ∧ hasBarrier (F.block B) ∧ ∀ y, F.Edge B y → hasBarrier (F.block y) = false

theorem Function.RegionEdge.mem {F : Function} {x y : BlockId} (h : F.RegionEdge x y) :
    x ∈ F.layout := (F.mem_predEdges.mp h.1).1

theorem Function.Above.mem {F : Function} {B x : BlockId} (h : F.Above B x)
    (hB : hasBarrier (F.block B)) : x ∈ F.layout := by
  rcases ReflTransGen.cases_head h.2 with rfl | ⟨y, hxy, -⟩
  · rw [h.1] at hB
    cases hB
  · exact hxy.mem

namespace LoopInserter

/-- What the recursion of `addPredecessors` through barrier blocks ends with. -/
inductive Tops (F : Function) (preds : BlockId → List BlockId) : BlockId → List BlockId → Prop
  | root {b : BlockId} : preds b = [] → Tops F preds b []
  | code {b p : BlockId} : preds b = [p] → hasBarrier (F.block p) = false → Tops F preds b [p]
  | barrier {b p : BlockId} {l : List BlockId} : preds b = [p] → hasBarrier (F.block p) →
      Tops F preds p l → Tops F preds b l

section
variable {F : Function} {preds : BlockId → List BlockId} {B b x : BlockId} {n fuel : Nat}
  {v w l : List BlockId}

theorem Tops.above (h : Tops F preds b l) (hperm : ∀ b, (preds b).Perm (F.predEdges b))
    (hb : hasBarrier (F.block b)) : ∀ x ∈ l, F.Above b x := by
  induction h with
  | root _ => exact fun x hx => absurd hx List.not_mem_nil
  | @code b p hp hcode =>
    intro x hx
    cases List.mem_singleton.mp hx
    exact ⟨hcode, .single ⟨(hperm b).subset (hp ▸ List.mem_cons_self), fun _ => hb⟩⟩
  | @barrier b p l hp hbar _ ih =>
    intro x hx
    obtain ⟨hx, hw⟩ := ih hbar x hx
    exact ⟨hx, hw.tail ⟨(hperm b).subset (hp ▸ List.mem_cons_self), fun _ => hb⟩⟩

theorem Tops.length_le (h : Tops F preds b l) : l.length ≤ 1 := by
  induction h with
  | root _ => exact Nat.zero_le 1
  | code _ _ => exact le_rfl
  | barrier _ _ _ ih => exact ih

/-- The blocks the recursion meets on the way up have the same tops. -/
theorem Tops.pred (h : Tops F preds b l) (hx : x ∈ preds b) :
    (hasBarrier (F.block x) → Tops F preds x l) ∧
      (hasBarrier (F.block x) = false → x ∈ l) := by
  cases h with
  | root hp => simp [hp] at hx
  | @code _ p hp hcode =>
    simp only [hp, List.mem_singleton] at hx
    subst hx
    exact ⟨fun h => absurd (hcode.symm.trans h) Bool.false_ne_true, fun _ => List.mem_cons_self⟩
  | barrier hp hbar ht =>
    simp only [hp, List.mem_singleton] at hx
    subst hx
    exact ⟨fun _ => ht, fun h => absurd (h.symm.trans hbar) Bool.false_ne_true⟩

theorem preds_eq (hperm : ∀ b, (preds b).Perm (F.predEdges b)) (hF : F.Valid)
    (hH : F.HivedOffBelow) (hb : b ∈ F.layout) (hbar : hasBarrier (F.block b)) :
    preds b = [] ∨ ∃ p, preds b = [p] ∧ (F.block p).term = .br b := by
  by_cases he : b = F.entry
  · refine .inl (List.eq_nil_iff_forall_not_mem.mpr fun p hp => ?_)
    obtain ⟨hp, hedge⟩ := F.mem_predEdges.mp ((hperm b).subset hp)
    exact hF.entryPreds p hp (he ▸ hedge)
  · obtain ⟨p, hp, hterm⟩ := hH.pred b hb he hbar
    exact .inr ⟨p, List.perm_singleton.mp (hp ▸ hperm b), hterm⟩

theorem hasBarrier_iff_just (hH : F.HivedOffBelow) (hb : b ∈ F.layout) :
    containsJustABarrier (F.block b) = hasBarrier (F.block b) :=
  Bool.eq_iff_iff.mpr ⟨hasBarrier_of_containsJustABarrier, hH.alone b hb⟩

theorem mem_layout_of_mem_preds (hperm : ∀ b, (preds b).Perm (F.predEdges b))
    (hx : x ∈ preds b) : x ∈ F.layout := (F.mem_predEdges.mp ((hperm b).subset hx)).1

theorem addPredecessors_code (hH : F.HivedOffBelow) (hb : b ∈ F.layout)
    (hcode : hasBarrier (F.block b) = false) :
    addPredecessors F preds (n + 1) v b = .ok ((preds b).reverse ++ v) := by
  have hjust := (hasBarrier_iff_just hH hb).trans hcode
  simp only [addPredecessors, hjust, Bool.and_false, Bool.false_eq_true, if_false]
  induction preds b generalizing v with
  | nil => rfl
  | cons p ps ih =>
    have hstep : List.foldlM (fun v i => Except.ok (i :: v)) v (p :: ps) =
        List.foldlM (fun v i => (Except.ok (i :: v) : Except Failure _)) (p :: v) ps := rfl
    rw [hstep, ih, List.reverse_cons, List.append_assoc]
    rfl

/-- Above a barrier block there is one block to push, or to climb to. -/
theorem addPredecessors_single (hperm : ∀ b, (preds b).Perm (F.predEdges b))
    (hH : F.HivedOffBelow) (hb : b ∈ F.layout) (hbar : hasBarrier (F.block b)) {p : BlockId}
    (hp : preds b = [p]) : addPredecessors F preds (n + 1) v b =
      if hasBarrier (F.block p) then addPredecessors F preds n v p else .ok (p :: v) := by
  have hpmem : p ∈ F.layout := mem_layout_of_mem_preds hperm (b := b) (hp ▸ List.mem_cons_self)
  rw [addPredecessors, hp, hasBarrier_iff_just hH hb, hbar]
  simp only [List.foldlM_cons, List.foldlM_nil, bind_pure, Bool.and_true,
    hasBarrier_iff_just hH hpmem]

/-- The recursion climbs along blocks it has not met: each has one successor, the block below. -/
theorem addPredecessors_climb (hperm : ∀ b, (preds b).Perm (F.predEdges b)) (hF : F.Valid)
    (hH : F.HivedOffBelow) {c : List BlockId} (hnd : (b :: c).Nodup) (hsub : b :: c ⊆ F.layout)
    (hbar : hasBarrier (F.block b))
    (hsucc : ∀ x ∈ b :: c, ∀ y, F.Edge x y → hasBarrier (F.block y) → y ∈ c)
    (hn : F.layout.length < n + (b :: c).length) :
    ∃ l, addPredecessors F preds n v b = .ok (l ++ v) ∧ Tops F preds b l := by
  induction n generalizing b c with
  | zero =>
    have hle := (hnd.subperm hsub).length_le
    rw [Nat.zero_add] at hn
    exact absurd (Nat.lt_of_lt_of_le hn hle) (Nat.lt_irrefl _)
  | succ n ih =>
    have hb : b ∈ F.layout := hsub List.mem_cons_self
    rcases preds_eq hperm hF hH hb hbar with hp | ⟨p, hp, hterm⟩
    · exact ⟨[], by rw [addPredecessors, hp]; rfl, .root hp⟩
    have hpmem : p ∈ F.layout := mem_layout_of_mem_preds hperm (b := b) (hp ▸ List.mem_cons_self)
    have hsuccs : F.succs p = [b] := by rw [Function.succs, hterm]; rfl
    rw [addPredecessors_single hperm hH hb hbar hp]
    cases hbp : hasBarrier (F.block p) with
    | false => exact ⟨[p], by simp, .code hp hbp⟩
    | true =>
      have hfresh : p ∉ b :: c := by
        intro hmem
        have hedge : F.Edge p b := by rw [Function.Edge, hsuccs]; exact List.mem_singleton_self b
        exact (List.nodup_cons.mp hnd).1 (hsucc p hmem b hedge hbar)
      obtain ⟨l, hl, ht⟩ := ih (b := p) (c := b :: c) (List.nodup_cons.mpr ⟨hfresh, hnd⟩)
        (List.cons_subset.mpr ⟨hpmem, hsub⟩) hbp
        (by
          intro x hx y hxy hy
          rcases List.mem_cons.mp hx with rfl | hx
          · rw [Function.Edge, hsuccs, List.mem_singleton] at hxy
            exact hxy ▸ List.mem_cons_self
          · exact List.mem_cons_of_mem _ (hsucc x hx y hxy hy))
        (by simp only [List.length_cons] at hn ⊢; omega)
      exact ⟨l, by simpa using hl, .barrier hp hbp ht⟩

theorem addPredecessors_barrier (hperm : ∀ b, (preds b).Perm (F.predEdges b)) (hF : F.Valid)
    (hH : F.HivedOffBelow) (hB : F.EndsRegion B) (hn : F.layout.length ≤ n) :
    ∃ l, addPredecessors F preds n v B = .ok (l ++ v) ∧ Tops F preds B l := by
  obtain ⟨hmem, hbar, hsucc⟩ := hB
  refine addPredecessors_climb hperm hF hH (c := []) (List.nodup_singleton B) (by simpa using hmem)
    hbar ?_ (by simpa using Nat.lt_succ_of_le hn)
  intro x hx y hxy hy
  cases List.mem_singleton.mp hx
  exact absurd ((hsucc y hxy).symm.trans hy) Bool.false_ne_true

theorem addPredecessors_tops (hperm : ∀ b, (preds b).Perm (F.predEdges b)) (hF : F.Valid)
    (hH : F.HivedOffBelow) (hb : b ∈ F.layout) (hbar : hasBarrier (F.block b))
    (h : addPredecessors F preds n v b = .ok w) : ∃ l, w = l ++ v ∧ Tops F preds b l := by
  induction n generalizing b with
  | zero => cases h
  | succ n ih =>
    rcases preds_eq hperm hF hH hb hbar with hp | ⟨p, hp, -⟩
    · rw [addPredecessors, hp] at h
      cases h
      exact ⟨[], rfl, .root hp⟩
    · rw [addPredecessors_single hperm hH hb hbar hp] at h
      cases hbp : hasBarrier (F.block p) with
      | false =>
        rw [hbp, if_neg Bool.false_ne_true] at h
        cases h
        exact ⟨[p], rfl, .code hp hbp⟩
      | true =>
        rw [hbp, if_pos rfl] at h
        have hpmem := mem_layout_of_mem_preds hperm (b := b) (hp ▸ List.mem_cons_self)
        obtain ⟨l, hl, ht⟩ := ih hpmem hbp h
        exact ⟨l, hl, .barrier hp hbp ht⟩

theorem Tops.addPredecessors (hperm : ∀ b, (preds b).Perm (F.predEdges b))
    (hH : F.HivedOffBelow) (hb : b ∈ F.layout) (hbar : hasBarrier (F.block b))
    (h : Tops F preds b l) :
    ∃ m, ∀ n, m ≤ n → LoopInserter.addPredecessors F preds n v b = .ok (l ++ v) := by
  induction h with
  | root hp =>
    refine ⟨1, fun n hn => ?_⟩
    obtain ⟨k, rfl⟩ := Nat.exists_eq_add_of_le' hn
    rw [LoopInserter.addPredecessors, hp]
    rfl
  | @code b p hp hcode =>
    refine ⟨1, fun n hn => ?_⟩
    obtain ⟨k, rfl⟩ := Nat.exists_eq_add_of_le' hn
    rw [addPredecessors_single hperm hH hb hbar hp, hcode, if_neg Bool.false_ne_true]
    rfl
  | @barrier b p l hp hbp _ ih =>
    obtain ⟨m, hm⟩ := ih (mem_layout_of_mem_preds hperm (b := b) (hp ▸ List.mem_cons_self)) hbp
    refine ⟨m + 1, fun n hn => ?_⟩
    obtain ⟨k, rfl⟩ := Nat.exists_eq_add_of_le' hn
    rw [← Nat.add_assoc, addPredecessors_single hperm hH hb hbar hp, hbp, if_pos rfl]
    exact hm _ (Nat.le_add_left m k)

end

/-! ### The worklist loop -/

def edgeCount (F : Function) : Nat := (F.layout.map fun b => (F.predEdges b).length).sum

/-- The predecessors that the blocks outside `S` may still push. -/
def pending (F : Function) (preds : BlockId → List BlockId) (S : List BlockId) : Nat :=
  ((F.layout.filter (· ∉ S)).map fun b => (preds b).length).sum

section
variable {F : Function} {preds : BlockId → List BlockId} {B b x : BlockId} {fuel : Nat}
  {l S : List BlockId} {s t : Flooding}

theorem pending_nil (hperm : ∀ b, (preds b).Perm (F.predEdges b)) :
    pending F preds [] = edgeCount F := by
  simp [pending, edgeCount, fun b => (hperm b).length_eq]

theorem sum_filter_ne_add_le {α : Type*} [DecidableEq α] {f : α → Nat} {a : α} {xs : List α}
    (h : a ∈ xs) : ((xs.filter (· ≠ a)).map f).sum + f a ≤ (xs.map f).sum := by
  induction xs with
  | nil => cases h
  | cons x xs ih =>
    by_cases hx : x = a
    · subst hx
      have hle : ((xs.filter (· ≠ x)).map f).sum ≤ (xs.map f).sum :=
        (List.filter_sublist.map f).sum_le_sum fun _ _ => Nat.zero_le _
      simpa [Nat.add_comm] using hle
    · have := ih ((List.mem_cons.mp h).resolve_left (Ne.symm hx))
      simpa [hx, Nat.add_assoc] using this

theorem pending_cons (hb : b ∈ F.layout) (hS : b ∉ S) :
    pending F preds (b :: S) + (preds b).length ≤ pending F preds S := by
  have hfilter : F.layout.filter (· ∉ b :: S) = (F.layout.filter (· ∉ S)).filter (· ≠ b) := by
    rw [List.filter_filter]
    exact List.filter_congr fun x _ => by simp [not_or]
  rw [pending, hfilter]
  exact sum_filter_ne_add_le (f := fun b => (preds b).length) (List.mem_filter.mpr ⟨hb, by simpa⟩)

/-- What the flooding from the tops `l` of the barrier `B` keeps. -/
structure FloodInv (F : Function) (preds : BlockId → List BlockId) (B : BlockId)
    (l : List BlockId) (s : Flooding) : Prop where
  above : ∀ x ∈ s.RegionBBSet, F.Above B x
  work : ∀ x ∈ s.BBWorkList, F.Above B x ∨
    hasBarrier (F.block x) ∧ ∃ z ∈ s.RegionBBSet, x ∈ preds z
  tops : ∀ x ∈ l, F.Above B x ∧ (x ∈ s.RegionBBSet ∨ x ∈ s.BBWorkList)
  closed : ∀ z ∈ s.RegionBBSet, ∀ p ∈ preds z, p ∈ s.RegionBBSet ∨ p ∈ s.BBWorkList ∨
    hasBarrier (F.block p) ∧ s.RegionEntryBarrier.isSome
  entry : ∀ r, s.RegionEntryBarrier = some r →
    hasBarrier (F.block r) ∧ ∃ z ∈ s.RegionBBSet, r ∈ preds z

variable {rest : List BlockId} {r : Option BlockId}

theorem FloodInv.skip (h : FloodInv F preds B l ⟨x :: rest, S, r⟩) (hS : x ∈ S) :
    FloodInv F preds B l ⟨rest, S, r⟩ where
  above := h.above
  work y hy := h.work y (List.mem_cons_of_mem x hy)
  tops y hy := by
    refine (h.tops y hy).imp_right fun h => ?_
    rcases h with h | h
    · exact .inl h
    · exact (List.mem_cons.mp h).imp (fun (hyx : y = x) => hyx.symm ▸ hS) id
  closed z hz p hp := by
    rcases h.closed z hz p hp with h | h | h
    · exact .inl h
    · exact (List.mem_cons.mp h).imp (fun (hpx : p = x) => hpx.symm ▸ hS) .inl
    · exact .inr (.inr h)
  entry := h.entry

theorem FloodInv.meetBarrier (h : FloodInv F preds B l ⟨x :: rest, S, r⟩)
    (hx : hasBarrier (F.block x)) : FloodInv F preds B l ⟨rest, S, r.or (some x)⟩ where
  above := h.above
  work y hy := h.work y (List.mem_cons_of_mem x hy)
  tops y hy := by
    refine (h.tops y hy).imp_right fun hmem => hmem.imp_right fun hmem => ?_
    rcases List.mem_cons.mp hmem with rfl | hmem
    · exact absurd ((h.tops y hy).1.1.symm.trans hx) Bool.false_ne_true
    · exact hmem
  closed z hz p hp := by
    rcases h.closed z hz p hp with h | h | h
    · exact .inl h
    · rcases List.mem_cons.mp h with rfl | h
      · exact .inr (.inr ⟨hx, by cases r <;> rfl⟩)
      · exact .inr (.inl h)
    · exact .inr (.inr ⟨h.1, by cases r <;> rfl⟩)
  entry := by
    cases r with
    | some r => exact h.entry
    | none =>
      intro y hy
      cases hy
      rcases h.work x List.mem_cons_self with ha | ha
      · exact absurd (ha.1.symm.trans hx) Bool.false_ne_true
      · exact ha

theorem FloodInv.grow (hperm : ∀ b, (preds b).Perm (F.predEdges b))
    (h : FloodInv F preds B l ⟨x :: rest, S, r⟩) (hx : hasBarrier (F.block x) = false) :
    FloodInv F preds B l ⟨(preds x).reverse ++ rest, x :: S, r⟩ := by
  have hax : F.Above B x := by
    rcases h.work x List.mem_cons_self with ha | ha
    · exact ha
    · exact absurd (hx.symm.trans ha.1) Bool.false_ne_true
  constructor
  · intro y hy
    rcases List.mem_cons.mp hy with rfl | hy
    · exact hax
    · exact h.above y hy
  · intro y hy
    rcases List.mem_append.mp hy with hy | hy
    · rw [List.mem_reverse] at hy
      cases hbar : hasBarrier (F.block y) with
      | true => exact .inr ⟨rfl, x, List.mem_cons_self, hy⟩
      | false =>
        refine .inl ⟨hbar, hax.2.head ⟨(hperm x).subset hy, fun h => ?_⟩⟩
        exact absurd (hbar.symm.trans h) Bool.false_ne_true
    · refine (h.work y (List.mem_cons_of_mem x hy)).imp_right fun ⟨hb, z, hz, hyz⟩ => ?_
      exact ⟨hb, z, List.mem_cons_of_mem x hz, hyz⟩
  · intro y hy
    refine (h.tops y hy).imp_right fun h => ?_
    rcases h with h | h
    · exact .inl (List.mem_cons_of_mem x h)
    · rcases List.mem_cons.mp h with rfl | h
      · exact .inl List.mem_cons_self
      · exact .inr (List.mem_append_right _ h)
  · intro z hz p hp
    rcases List.mem_cons.mp hz with rfl | hz
    · exact .inr (.inl (List.mem_append_left _ (List.mem_reverse.mpr hp)))
    · rcases h.closed z hz p hp with h | h | h
      · exact .inl (List.mem_cons_of_mem x h)
      · rcases List.mem_cons.mp h with rfl | h
        · exact .inl List.mem_cons_self
        · exact .inr (.inl (List.mem_append_right _ h))
      · exact .inr (.inr h)
  · intro y hy
    obtain ⟨hb, z, hz, hyz⟩ := h.entry y hy
    exact ⟨hb, z, List.mem_cons_of_mem x hz, hyz⟩

def floodMeasure (F : Function) (preds : BlockId → List BlockId) (s : Flooding) : Nat :=
  s.BBWorkList.length + pending F preds s.RegionBBSet

theorem FloodInv.step (hperm : ∀ b, (preds b).Perm (F.predEdges b)) (hH : F.HivedOffBelow)
    (hB : hasBarrier (F.block B)) (hfuel : 0 < fuel) (h : FloodInv F preds B l s) :
    floodStep F preds fuel s = .ok none ∧ s.BBWorkList = [] ∨
      ∃ t, floodStep F preds fuel s = .ok (some t) ∧ FloodInv F preds B l t ∧
        floodMeasure F preds t < floodMeasure F preds s := by
  obtain ⟨work, S, r⟩ := s
  cases work with
  | nil => exact .inl ⟨rfl, rfl⟩
  | cons x rest =>
    right
    by_cases hS : x ∈ S
    · exact ⟨_, by simp only [floodStep, hS, if_true], h.skip hS, by simp [floodMeasure]⟩
    cases hbar : hasBarrier (F.block x) with
    | true =>
      exact ⟨_, by simp only [floodStep, hS, if_false, hbar, if_true], h.meetBarrier hbar,
        by simp [floodMeasure]⟩
    | false =>
      have hx : x ∈ F.layout := by
        rcases h.work x List.mem_cons_self with ha | ha
        · exact ha.mem hB
        · exact absurd (hbar.symm.trans ha.1) Bool.false_ne_true
      obtain ⟨n, rfl⟩ := Nat.exists_eq_succ_of_ne_zero (Nat.ne_of_gt hfuel)
      refine ⟨_, ?_, h.grow hperm hbar, ?_⟩
      · simp only [floodStep, hS, if_false, hbar, addPredecessors_code hH hx hbar]
        rfl
      · have : pending F preds (x :: S) + (preds x).length ≤ pending F preds S := pending_cons hx hS
        simp only [floodMeasure, List.length_append, List.length_reverse, List.length_cons]
        omega

/-- A finished flooding has collected all that lies above the barrier. -/
theorem FloodInv.complete (hperm : ∀ b, (preds b).Perm (F.predEdges b))
    (h : FloodInv F preds B l ⟨[], S, r⟩) (hl : Tops F preds B l)
    (hB : hasBarrier (F.block B)) : x ∈ S ↔ F.Above B x := by
  refine ⟨h.above x, fun ⟨hcode, hw⟩ => ?_⟩
  have key : ∀ x, ReflTransGen F.RegionEdge x B → (hasBarrier (F.block x) → Tops F preds x l) ∧
      (hasBarrier (F.block x) = false → x ∈ S) := by
    intro x hw
    induction hw using Relation.ReflTransGen.head_induction_on with
    | refl => exact ⟨fun _ => hl, fun h => absurd (h.symm.trans hB) Bool.false_ne_true⟩
    | @head x y hxy _ ih =>
      have hmem : x ∈ preds y := (hperm y).symm.subset hxy.1
      cases hy : hasBarrier (F.block y) with
      | true =>
        obtain ⟨hbar, hcode⟩ := (ih.1 hy).pred hmem
        exact ⟨hbar, fun hx => ((h.tops x (hcode hx)).2).resolve_right List.not_mem_nil⟩
      | false =>
        refine ⟨fun hx => absurd (hy.symm.trans (hxy.2 hx)) Bool.false_ne_true, fun hx => ?_⟩
        rcases h.closed y (ih.2 hy) x hmem with h | h | h
        · exact h
        · exact absurd h List.not_mem_nil
        · exact absurd (hx.symm.trans h.1) Bool.false_ne_true
  exact (key x hw).2 hcode

/-- What `createRegionBeforeBarrier` returns for the barrier block `B`. -/
def IsRegionBefore (F : Function) (preds : BlockId → List BlockId) (B : BlockId) :
    Option MxPARegion → Prop
  | none => ∀ x, F.Above B x → ∀ p ∈ preds x, hasBarrier (F.block p) = false
  | some PR => (∀ x, x ∈ PR.BBSet ↔ F.Above B x) ∧ F.Above B PR.Entry ∧
      (∃ p ∈ preds PR.Entry, hasBarrier (F.block p)) ∧ PR.Exit = getSinglePredecessor preds B

def floodFuel (F : Function) : Nat := F.layout.length + edgeCount F + 2

theorem regionOf_spec (hperm : ∀ b, (preds b).Perm (F.predEdges b))
    (h : FloodInv F preds B l ⟨[], S, r⟩) (hl : Tops F preds B l) (hB : hasBarrier (F.block B)) :
    ∃ R, regionOf F preds B ⟨[], S, r⟩ = .ok R ∧ IsRegionBefore F preds B R := by
  have hS : ∀ x, x ∈ S ↔ F.Above B x := fun x => h.complete hperm hl hB
  cases S with
  | nil => exact ⟨none, rfl, fun x hx => absurd ((hS x).mpr hx) List.not_mem_nil⟩
  | cons z S =>
    cases r with
    | none =>
      refine ⟨none, rfl, fun x hx p hp => ?_⟩
      rcases h.closed x ((hS x).mpr hx) p hp with h | h | h
      · exact ((hS p).mp h).1
      · exact absurd h List.not_mem_nil
      · exact absurd h.2 Bool.false_ne_true
    | some r =>
      obtain ⟨hr, y, hy, hry⟩ := h.entry r rfl
      have hedge : y ∈ F.succs r := (F.mem_predEdges.mp ((hperm y).subset hry)).2
      cases hfind : (F.succs r).find? (· ∈ z :: S) with
      | none => simpa [hy] using List.find?_eq_none.mp hfind y hedge
      | some E =>
        have hE : E ∈ z :: S := by simpa using List.find?_some hfind
        have hrE : r ∈ preds E := by
          refine (hperm E).symm.subset (F.mem_predEdges.mpr ⟨?_, List.mem_of_find?_eq_some hfind⟩)
          exact mem_layout_of_mem_preds hperm hry
        refine ⟨some ⟨z :: S, E, getSinglePredecessor preds B⟩, ?_, hS, (hS E).mp hE,
          ⟨r, hrE, hr⟩, rfl⟩
        simp only [regionOf, List.isEmpty_cons, Bool.false_eq_true, if_false, hfind]

theorem Tops.floodInv (hl : Tops F preds B l) (hperm : ∀ b, (preds b).Perm (F.predEdges b))
    (hB : hasBarrier (F.block B)) : FloodInv F preds B l ⟨l, [], none⟩ :=
  ⟨fun _ hx => absurd hx List.not_mem_nil, fun x hx => .inl (hl.above hperm hB x hx),
    fun x hx => ⟨hl.above hperm hB x hx, .inr hx⟩,
    fun _ hz => absurd hz List.not_mem_nil, fun _ hr => nomatch hr⟩

/-- A flooding that stops has an empty worklist. -/
theorem FloodInv.done (hperm : ∀ b, (preds b).Perm (F.predEdges b)) (hH : F.HivedOffBelow)
    (hB : hasBarrier (F.block B)) (hfuel : 0 < fuel) (h : FloodInv F preds B l s)
    (hs : floodStep F preds fuel s = .ok none) : FloodInv F preds B l ⟨[], s.RegionBBSet,
      s.RegionEntryBarrier⟩ ∧ s = ⟨[], s.RegionBBSet, s.RegionEntryBarrier⟩ := by
  obtain ⟨work, S, r⟩ := s
  rcases h.step hperm hH hB hfuel with ⟨-, rfl⟩ | ⟨t, ht, -⟩
  · exact ⟨h, rfl⟩
  · cases hs.symm.trans ht

theorem createRegionBeforeBarrier_of_tops (hperm : ∀ b, (preds b).Perm (F.predEdges b))
    (hH : F.HivedOffBelow) (hB : hasBarrier (F.block B)) (hl : Tops F preds B l)
    (hw : addPredecessors F preds fuel [] B = .ok l) (hfuel : floodFuel F ≤ fuel) :
    ∃ R, createRegionBeforeBarrier F preds fuel B = .ok R ∧ IsRegionBefore F preds B R := by
  have hmeasure : floodMeasure F preds ⟨l, [], none⟩ < fuel := by
    have := hl.length_le
    unfold floodFuel at hfuel
    simp only [floodMeasure, pending_nil hperm]
    omega
  have hpos : 0 < fuel := by unfold floodFuel at hfuel; omega
  obtain ⟨s, hloop, hInv⟩ := Sim.loop_ends Failure.outOfFuel
    (fun s (h : FloodInv F preds B l s) => (h.step hperm hH hB hpos).imp_left And.left)
    (hl.floodInv hperm hB) hmeasure
  obtain ⟨hInv, hs⟩ := hInv.done hperm hH hB hpos (Sim.loop_reaches hloop).2
  obtain ⟨R, hR, hspec⟩ := regionOf_spec hperm hInv hl hB
  refine ⟨R, ?_, hspec⟩
  calc createRegionBeforeBarrier F preds fuel B
      = Sim.loop (floodStep F preds fuel) .outOfFuel fuel ⟨l, [], none⟩ >>=
          regionOf F preds B := by rw [createRegionBeforeBarrier, hw]; rfl
    _ = regionOf F preds B s := by rw [hloop]; rfl
    _ = .ok R := hs ▸ hR

theorem createRegionBeforeBarrier_spec (hperm : ∀ b, (preds b).Perm (F.predEdges b))
    (hF : F.Valid) (hH : F.HivedOffBelow) (hB : F.EndsRegion B) (hfuel : floodFuel F ≤ fuel) :
    ∃ R, createRegionBeforeBarrier F preds fuel B = .ok R ∧ IsRegionBefore F preds B R := by
  have hlen : F.layout.length ≤ fuel := by unfold floodFuel at hfuel; omega
  obtain ⟨l, hw, hl⟩ := addPredecessors_barrier (v := []) hperm hF hH hB hlen
  rw [List.append_nil] at hw
  exact createRegionBeforeBarrier_of_tops hperm hH hB.2.1 hl hw hfuel

/-- Whatever the bound on the loops: what is returned is the region. -/
theorem createRegionBeforeBarrier_sound (hperm : ∀ b, (preds b).Perm (F.predEdges b))
    (hF : F.Valid) (hH : F.HivedOffBelow) (hmem : B ∈ F.layout) (hB : hasBarrier (F.block B))
    {R : Option MxPARegion} (h : createRegionBeforeBarrier F preds fuel B = .ok R) :
    (∃ l, Tops F preds B l) ∧ IsRegionBefore F preds B R := by
  rw [createRegionBeforeBarrier] at h
  cases hw : addPredecessors F preds fuel [] B with
  | error e =>
    rw [hw] at h
    cases h
  | ok w =>
    have hpos : 0 < fuel := by
      cases fuel with
      | zero => cases hw
      | succ n => exact Nat.succ_pos n
    obtain ⟨l, hwl, hl⟩ := addPredecessors_tops hperm hF hH hmem hB hw
    rw [List.append_nil] at hwl
    subst hwl
    cases hloop : Sim.loop (floodStep F preds fuel) .outOfFuel fuel ⟨w, [], none⟩ with
    | error e =>
      simp only [hw, bind, Except.bind, hloop] at h
      cases h
    | ok s =>
      simp only [hw, bind, Except.bind, hloop] at h
      obtain ⟨hreach, hdone⟩ := Sim.loop_reaches hloop
      have hInv : FloodInv F preds B w s := by
        refine hreach.inv (hl.floodInv hperm hB) fun s t hs hst => ?_
        rcases hs.step hperm hH hB hpos with ⟨hnone, -⟩ | ⟨u, hu, hInv, -⟩
        · cases hnone.symm.trans hst
        · cases hu.symm.trans hst
          exact hInv
      obtain ⟨hInv, hs⟩ := hInv.done hperm hH hB hpos hdone
      obtain ⟨R', hR', hspec⟩ := regionOf_spec hperm hInv hl hB
      rw [hs, hR'] at h
      cases h
      exact ⟨⟨w, hl⟩, hspec⟩

end

end LoopInserter

end VariOCL.IR
