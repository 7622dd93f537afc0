import VariOCL.ControlDep.Basic
import VariOCL.Graph.Frontier

/-! `ControlDep::calculate` computes control dependence: the frontiers it leaves are the dominance
frontiers of the reversed control-flow graph. -/

namespace VariOCL.IR

open Relation (ReflTransGen)
open VariOCL.Graph (Avoiding StrictlyDominates ImmediatelyDominates Frontier)

/-- Every path from `b` to an exit contains `a`. -/
def Function.PostDominates (F : Function) (a b : BlockId) : Prop :=
  ∀ p : List BlockId, (b :: p).IsChain F.Edge →
    F.succs ((b :: p).getLast (List.cons_ne_nil b p)) = [] → a ∈ b :: p

/-- `Y` post-dominates a successor of `X`, and does not strictly post-dominate `X`. -/
def Function.ControlDependent (F : Function) (X Y : BlockId) : Prop :=
  (∃ s ∈ F.succs X, F.PostDominates Y s) ∧ ¬ (F.PostDominates Y X ∧ Y ≠ X)

def Function.ReachesExit (F : Function) (b : BlockId) : Prop :=
  ∃ e, F.succs e = [] ∧ ReflTransGen F.Edge b e

/-- The edges against their direction, below a virtual root. -/
inductive Function.RevEdge (F : Function) : Option BlockId → Option BlockId → Prop
  | exit {e : BlockId} : e ∈ F.layout → F.succs e = [] → F.RevEdge none (some e)
  | edge {x y : BlockId} : x ∈ F.layout → F.Edge x y → F.RevEdge (some y) (some x)

section
variable {F : Function} {a b c e x y : BlockId}

theorem Function.Closed.mem_of_reach (hF : F.Closed) (hb : b ∈ F.layout)
    (h : ReflTransGen F.Edge b e) : e ∈ F.layout := by
  induction h with
  | refl => exact hb
  | tail _ he ih => exact hF _ ih _ he

theorem Function.mem_exits : e ∈ F.exits ↔ e ∈ F.layout ∧ F.succs e = [] := by
  simp only [exits, List.mem_filter, List.isEmpty_iff]

theorem Function.not_postDominates :
    ¬ F.PostDominates a b ↔ ∃ e, F.succs e = [] ∧ Avoiding F.Edge a b e := by
  constructor
  · intro h
    rw [PostDominates] at h
    push Not at h
    obtain ⟨p, hp, hlast, ha⟩ := h
    exact ⟨_, hlast, .of_chain hp rfl ha⟩
  · rintro ⟨e, he, hav⟩ h
    obtain ⟨p, hp, rfl, ha⟩ := hav.chain
    exact ha (h p hp he)

theorem RevEdge.avoiding (hF : F.Closed) (hb : b ∈ F.layout) :
    Avoiding F.RevEdge (some a) none (some b) ↔ ∃ e, F.succs e = [] ∧ Avoiding F.Edge a b e := by
  constructor
  · rintro ⟨-, hw⟩
    generalize hc : some b = c at hw
    induction hw generalizing b with
    | refl => cases hc
    | tail _ hstep ih =>
      subst hc
      obtain ⟨hedge, hne⟩ := hstep
      have hba : b ≠ a := fun h => hne (congrArg some h)
      cases hedge with
      | exit _ hs => exact ⟨b, hs, .refl hba⟩
      | edge hmem he =>
        obtain ⟨e, hs, hav⟩ := ih (hF _ hmem _ he) rfl
        exact ⟨e, hs, ((Avoiding.refl hba).tail he hav.1).trans hav⟩
  · rintro ⟨e, hs, hba, hw⟩
    induction hw using ReflTransGen.head_induction_on with
    | refl =>
      have hroot : Avoiding F.RevEdge (some a) none none := .refl (Option.some_ne_none a).symm
      exact hroot.tail (.exit hb hs) fun h => hba (Option.some.inj h)
    | @head x y hxy _ ih =>
      exact (ih (hF x hb y hxy.1) hxy.2).tail (.edge hb hxy.1) fun h => hba (Option.some.inj h)

theorem Function.postDominates_iff_dominates (hF : F.Closed) (hb : b ∈ F.layout) :
    F.PostDominates a b ↔ Graph.Dominates F.RevEdge none (some a) (some b) := by
  rw [← not_iff_not, not_postDominates, Graph.not_dominates, RevEdge.avoiding hF hb]

theorem Function.postDominates_iff (hF : F.Closed) (hb : b ∈ F.layout) :
    F.postDominates a b = true ↔ F.PostDominates a b := by
  have hclosed : ∀ x ∈ F.layout, ∀ y ∈ (F.succs x).filter (· ≠ a), y ∈ F.layout :=
    fun x hx y hy => hF x hx y (List.mem_filter.mp hy).1
  have hav : ∀ e, b ≠ a → (e ∈ Graph.reachFrom (fun x => (F.succs x).filter (· ≠ a)) F.layout b ↔
      Avoiding F.Edge a b e) := by
    intro e hba
    rw [Graph.mem_reachFrom hclosed hb]
    simp only [Graph.Reach, Avoiding, List.mem_filter, Edge, decide_eq_true_eq, hba, ne_eq,
      not_false_eq_true, true_and]
  rw [← not_iff_not, not_postDominates]
  by_cases hab : a = b
  · subst hab
    simp [postDominates, Avoiding]
  · have hmem : ∀ e, Avoiding F.Edge a b e → F.succs e = [] → e ∈ F.exits := fun e he hs =>
      mem_exits.mpr ⟨hF.mem_of_reach hb he.walk, hs⟩
    simp only [postDominates, hab, beq_iff_eq, Bool.not_eq_true', Bool.not_eq_false,
      List.any_eq_true, List.contains_iff_mem, Bool.or_eq_true, false_or]
    constructor
    · rintro ⟨e, he, hx⟩
      exact ⟨e, (mem_exits.mp hx).2, (hav e (Ne.symm hab)).mp he⟩
    · rintro ⟨e, hs, he⟩
      exact ⟨e, (hav e (Ne.symm hab)).mpr he, hmem e he hs⟩

theorem RevEdge.reach (hF : F.Closed) (hb : b ∈ F.layout) (h : F.ReachesExit b) :
    ReflTransGen F.RevEdge none (some b) := by
  obtain ⟨e, hs, hw⟩ := h
  induction hw using ReflTransGen.head_induction_on with
  | refl => exact .single (.exit hb hs)
  | @head x y hxy _ ih => exact (ih (hF x hb y hxy)).tail (.edge hb hxy)

theorem RevEdge.mem (h : ReflTransGen F.RevEdge none (some b)) : b ∈ F.layout := by
  rcases ReflTransGen.cases_tail h with h | ⟨c, -, he⟩
  · cases h
  · cases he <;> assumption

theorem Function.inPostDomTree_iff (hF : F.Closed) (hb : b ∈ F.layout) :
    F.inPostDomTree b = true ↔ F.ReachesExit b := by
  simp only [inPostDomTree, List.any_eq_true, List.contains_iff_mem, Graph.mem_reachFrom hF hb,
    mem_exits]
  constructor
  · rintro ⟨e, hw, -, hs⟩
    exact ⟨e, hs, hw⟩
  · rintro ⟨e, hs, hw⟩
    exact ⟨e, hw, hF.mem_of_reach hb hw, hs⟩

end

/-- Every block of the function reaches an exit. -/
structure Function.Terminating (F : Function) : Prop where
  closed : F.Closed
  exits : ∀ b ∈ F.layout, F.ReachesExit b

section
variable {F : Function} {a b c e x y : BlockId} (hF : F.Terminating)
include hF

theorem Function.Terminating.reach (hb : b ∈ F.layout) :
    ReflTransGen F.RevEdge none (some b) := RevEdge.reach hF.closed hb (hF.exits b hb)

theorem Function.Terminating.inPostDomTree (hb : b ∈ F.layout) : F.inPostDomTree b = true :=
  (F.inPostDomTree_iff hF.closed hb).mpr (hF.exits b hb)

theorem Function.Terminating.mem_of_postDominates (hb : b ∈ F.layout)
    (h : F.PostDominates a b) : a ∈ F.layout :=
  RevEdge.mem (((F.postDominates_iff_dominates hF.closed hb).mp h).reach (hF.reach hb))

theorem Function.Terminating.mem_strictPostDominators (hb : b ∈ F.layout) :
    a ∈ F.strictPostDominators b ↔ StrictlyDominates F.RevEdge none (some a) (some b) := by
  simp only [strictPostDominators, List.mem_filter, Bool.and_eq_true, bne_iff_ne,
    postDominates_iff hF.closed hb, StrictlyDominates,
    ← postDominates_iff_dominates hF.closed hb, ne_eq, Option.some.injEq]
  constructor
  · exact fun h => ⟨h.2.2, h.2.1.1⟩
  · intro h
    have hmem := hF.mem_of_postDominates hb h.1
    exact ⟨hmem, ⟨h.2, hF.inPostDomTree hmem⟩, h.1⟩

omit hF in
theorem Function.ipdom_spec (h : F.ipdom b = some a) :
    a ∈ F.strictPostDominators b ∧
      (F.strictPostDominators b).all (fun c => F.postDominates c a) = true := by
  rw [ipdom, List.find?_eq_some_iff_append] at h
  obtain ⟨hall, as, bs, heq, -⟩ := h
  exact ⟨heq ▸ List.mem_append_right as List.mem_cons_self, hall⟩

theorem Function.Terminating.ipdom_iff (hb : b ∈ F.layout) :
    F.ipdom b = some a ↔ ImmediatelyDominates F.RevEdge none (some a) (some b) := by
  have hall : ∀ a, a ∈ F.layout → ((F.strictPostDominators b).all (fun c => F.postDominates c a) ↔
      ∀ c, StrictlyDominates F.RevEdge none c (some b) →
        Graph.Dominates F.RevEdge none c (some a)) := by
    intro a ha
    simp only [List.all_eq_true, hF.mem_strictPostDominators hb, postDominates_iff hF.closed ha,
      postDominates_iff_dominates hF.closed ha]
    refine ⟨fun h c hc => ?_, fun h c hc => h (some c) hc⟩
    cases c with
    | none => exact .root
    | some c => exact h c hc
  have hsome : ∀ d, F.ipdom b = some d →
      ImmediatelyDominates F.RevEdge none (some d) (some b) := by
    intro d hd
    obtain ⟨hmem, hd⟩ := F.ipdom_spec hd
    exact ⟨(hF.mem_strictPostDominators hb).mp hmem, (hall d (List.mem_filter.mp hmem).1).mp hd⟩
  constructor
  · exact hsome a
  · intro h
    have ha := (hF.mem_strictPostDominators hb).mpr h.1
    have hmem := (List.mem_filter.mp ha).1
    cases hfind : F.ipdom b with
    | none => exact absurd ((hall a hmem).mpr h.2) (List.find?_eq_none.mp hfind a ha)
    | some d => exact (hsome d hfind).unique h (hF.reach hb)

theorem Function.Terminating.mem_postDomChildren :
    c ∈ F.postDomChildren b ↔
      c ∈ F.layout ∧ ImmediatelyDominates F.RevEdge none (some b) (some c) := by
  simp only [postDomChildren, List.mem_filter, Bool.and_eq_true, beq_iff_eq]
  constructor
  · rintro ⟨hc, -, h⟩
    exact ⟨hc, (hF.ipdom_iff hc).mp h⟩
  · rintro ⟨hc, h⟩
    exact ⟨hc, hF.inPostDomTree hc, (hF.ipdom_iff hc).mpr h⟩

theorem Function.Terminating.frontier_iff (hx : x ∈ F.layout) :
    Frontier F.RevEdge none (some y) (some x) ↔ F.ControlDependent x y := by
  have hstrict : StrictlyDominates F.RevEdge none (some y) (some x) ↔
      F.PostDominates y x ∧ y ≠ x := by
    rw [StrictlyDominates, postDominates_iff_dominates hF.closed hx, Ne, Option.some.injEq]
  rw [Frontier, ControlDependent, hstrict]
  refine and_congr_left fun _ => ⟨?_, ?_⟩
  · rintro ⟨p, hp, hyp⟩
    cases hp with
    | exit _ _ =>
      exact absurd (Avoiding.refl (Option.some_ne_none y).symm) (Graph.dominates_iff.mp hyp)
    | @edge _ s _ he =>
      exact ⟨s, he, (postDominates_iff_dominates hF.closed (hF.closed x hx s he)).mpr hyp⟩
  · rintro ⟨s, hs, hys⟩
    exact ⟨some s, .edge hx hs,
      (postDominates_iff_dominates hF.closed (hF.closed x hx s hs)).mp hys⟩

namespace ControlDep

/-- Local predecessors and the filtered frontiers of the children make up the frontier; `n`
bounds the blocks below `BB` in the post-dominator tree. -/
theorem mem_calculate {n : Nat} {BB X : BlockId} (hBB : BB ∈ F.layout)
    (hn : F.layout.countP (F.postDominates BB) ≤ n) (hX : X ∈ F.layout) :
    X ∈ calculate F n BB ↔ Frontier F.RevEdge none (some BB) (some X) := by
  induction n generalizing BB with
  | zero =>
    have hself : F.postDominates BB BB = true := by simp [Function.postDominates]
    exact absurd hself (List.countP_eq_zero.mp (Nat.le_zero.mp hn) BB hBB)
  | succ n ih =>
    have hchild : ∀ z, z ∈ F.postDomChildren BB →
        (X ∈ calculate F n z ↔ Frontier F.RevEdge none (some z) (some X)) := by
      intro z hz
      obtain ⟨hzmem, hid⟩ := hF.mem_postDomChildren.mp hz
      have hzBB : F.postDominates z BB = false := by
        rw [← Bool.not_eq_true, Function.postDominates_iff hF.closed hBB,
          Function.postDominates_iff_dominates hF.closed hBB]
        exact fun h => hid.1.2 (hid.1.1.antisymm h (hF.reach hBB))
      refine ih hzmem (Nat.le_of_lt_succ (Nat.lt_of_lt_of_le ?_ hn))
      refine Graph.countP_lt_countP (fun c hc h => ?_) hBB (by simp [Function.postDominates]) hzBB
      rw [Function.postDominates_iff hF.closed hc,
        Function.postDominates_iff_dominates hF.closed hc] at h ⊢
      exact hid.1.1.trans h
    have hpred : ∀ p, F.RevEdge p (some X) → ReflTransGen F.RevEdge none p := by
      intro p hp
      cases hp with
      | exit _ _ => exact .refl
      | edge _ he => exact hF.reach (hF.closed X hX _ he)
    rw [Graph.frontier_iff (hF.reach hX) hpred, calculate]
    simp only [List.mem_append, List.mem_filter, List.mem_flatMap]
    refine or_congr ?_ ?_
    · rw [Function.mem_predEdges, Bool.and_eq_true, bne_iff_ne, Ne, hF.ipdom_iff hX]
      constructor
      · rintro ⟨⟨_, he⟩, -, hid⟩
        exact ⟨.edge hX he, hid⟩
      · rintro ⟨he, hid⟩
        cases he with
        | edge _ he => exact ⟨⟨hX, he⟩, hF.inPostDomTree hX, hid⟩
    · have hstrict : (!(BB != X && F.postDominates BB X)) = true ↔
          ¬ StrictlyDominates F.RevEdge none (some BB) (some X) := by
        rw [Bool.not_eq_true', ← Bool.not_eq_true, Bool.and_eq_true, bne_iff_ne,
          Function.postDominates_iff hF.closed hX, Function.postDominates_iff_dominates hF.closed hX,
          StrictlyDominates, Ne, Ne, Option.some.injEq, and_comm]
      constructor
      · rintro ⟨z, hz, hzX, hBBX⟩
        exact ⟨some z, (hF.mem_postDomChildren.mp hz).2, (hchild z hz).mp hzX, hstrict.mp hBBX⟩
      · rintro ⟨z, hid, hzX, hBBX⟩
        cases z with
        | none =>
          have hroot : Avoiding F.RevEdge (some BB) none none := .refl (Option.some_ne_none BB).symm
          exact absurd hroot (Graph.dominates_iff.mp hid.1.1)
        | some z =>
          have hreach := hzX.1.elim fun p hp => hp.2.reach (hpred p hp.1)
          have hz := hF.mem_postDomChildren.mpr ⟨RevEdge.mem hreach, hid⟩
          exact ⟨z, hz, (hchild z hz).mpr hzX, hstrict.mpr hBBX⟩

theorem mem_frontiers {X Y : BlockId} (hX : X ∈ F.layout) (hY : Y ∈ F.layout) :
    X ∈ frontiers F Y ↔ F.ControlDependent X Y := by
  rw [frontiers, if_pos (hF.inPostDomTree hY), mem_calculate hF hY List.countP_le_length hX,
    hF.frontier_iff hX]

theorem isCtrlDep_iff_controlDependent {X Y : BlockId} (hX : X ∈ F.layout) (hY : Y ∈ F.layout) :
    isCtrlDep F X Y = true ↔ F.ControlDependent X Y := by
  rw [isCtrlDep, List.contains_iff_mem, mem_frontiers hF hX hY]

end ControlDep

end

theorem Function.terminating_of_tree {F : Function} (hF : F.Closed)
    (h : ∀ b ∈ F.layout, F.inPostDomTree b = true) : F.Terminating :=
  ⟨hF, fun b hb => (F.inPostDomTree_iff hF hb).mp (h b hb)⟩

/-- A loop of one block between two exits. -/
def twoExits : Function where
  name := "two_exits"
  entry := 0
  rest := [1, 2, 3]
  block
    | 0 => ⟨[], 0, .condBr (.argument 0) 1 3⟩
    | 1 => ⟨[], 1, .condBr (.argument 1) 1 2⟩
    | b => ⟨[], b, .ret none⟩

theorem twoExits_terminating : twoExits.Terminating :=
  Function.terminating_of_tree (by unfold Function.Closed; decide) (by decide)

theorem ControlDep.isCtrlDep_iff_controlDependent_twoExits :
    (isCtrlDep twoExits 1 1 = true ↔ twoExits.ControlDependent 1 1) ∧
      (isCtrlDep twoExits 0 3 = true ↔ twoExits.ControlDependent 0 3) :=
  ⟨isCtrlDep_iff_controlDependent twoExits_terminating (by decide) (by decide),
    isCtrlDep_iff_controlDependent twoExits_terminating (by decide) (by decide)⟩

end VariOCL.IR
