import VariOCL.Graph.Dominance

/-! Copying the part of a graph that is forward-reachable from a vertex, and sending one edge to the
copy: what becomes of dominance, of the back edges and of reducibility. -/

universe u

namespace VariOCL.Graph

open Relation (ReflTransGen TransGen)

variable {V : Type u} {edge edge' : V → V → Prop} {r s e a b d u v w x y : V}

/-- The vertices forward-reachable from `e`. -/
def Part (edge : V → V → Prop) (r e : V) : V → Prop := ReflTransGen (ForwardEdge edge r) e

theorem Part.forward (h : Part edge r e u) (huv : ForwardEdge edge r u v) : Part edge r e v :=
  ReflTransGen.tail h huv

/-- `edge'` is `edge` with the part of `e` copied by `c`, and the edge from `s` to `e` sent to the
copy of `e`.  The old vertices are those of `edge`. -/
structure Replicated (edge edge' : V → V → Prop) (r s e : V) (old : V → Prop) (c : V → V) :
    Prop where
  root : old r
  closed : ∀ {u v}, old u → edge u v → old v
  fresh : ∀ {u}, old u → ¬ old (c u)
  inj : ∀ {u v}, old u → old v → c u = c v → u = v
  from_old : ∀ {u v}, old u → edge' u v → edge u v ∨ u = s ∧ v = c e
  to_old : ∀ {u v}, old u → edge u v → edge' u v ∨ u = s ∧ v = e
  from_copy : ∀ {u v}, Part edge r e u → edge' (c u) v →
    ∃ w, edge u w ∧ (Part edge r e w ∧ v = c w ∨ ¬ Part edge r e w ∧ v = w)
  source : ReflTransGen edge r s
  forward : ForwardEdge edge r s e

theorem Avoiding.before (h : Avoiding edge d r b) (hw : Dominates edge r w b) :
    Avoiding edge d r w := by
  by_cases hr : r = w
  · exact hr ▸ .refl h.1
  · rcases Avoiding.split h.2 hr with hav | hw'
    · refine absurd ⟨hr, ?_⟩ (dominates_iff.mp hw)
      exact ReflTransGen.mono (fun _ _ h => ⟨h.1.1, h.2⟩) _ _ hav.2
    · exact ⟨h.1, hw'⟩

/-- A forward walk avoids a vertex it does not reach. -/
theorem Part.avoiding (h : Part edge r e u) (hd : ¬ Part edge r e d) : Avoiding edge d e u := by
  have hne : e ≠ d := fun he => hd (he ▸ .refl)
  refine ⟨hne, ?_⟩
  exact ReflTransGen.mono (fun _ _ h => ⟨h.1.1, h.2⟩) _ _
    ((Avoiding.split h hne).resolve_right hd).2

/-- In a reducible graph no vertex forward-reachable from `u` strictly dominates `u`. -/
theorem Reducible.eq_of_dominates (hred : Reducible edge r) (hu : ReflTransGen edge r u)
    (huv : ReflTransGen (ForwardEdge edge r) u v) (hdom : Dominates edge r v u) : v = u := by
  rcases Relation.reflTransGen_iff_eq_or_transGen.mp huv with h | h
  · exact h
  · exact absurd (TransGen.trans_left h (hdom.forward hu)) (hred u)

theorem Part.reach (hs : ReflTransGen edge r e) (h : Part edge r e u) : ReflTransGen edge r u :=
  hs.trans (forward_walk h)

/-- What dominates a vertex of the part without being in it dominates its start. -/
theorem Part.dominates_start (h : Part edge r e u) (hd : ¬ Part edge r e d)
    (hdom : Dominates edge r d u) : Dominates edge r d e := by
  by_contra hn
  exact dominates_iff.mp hdom ((not_dominates.mp hn).trans (h.avoiding hd))

namespace Replicated

variable {old : V → Prop} {c : V → V}

theorem reach_start (h : Replicated edge edge' r s e old c) : ReflTransGen edge r e :=
  h.source.tail h.forward.1

theorem old_reach (h : Replicated edge edge' r s e old c) (hu : old u)
    (hr : ReflTransGen edge u v) : old v := by
  induction hr with
  | refl => exact hu
  | tail _ he ih => exact h.closed ih he

theorem old_part (h : Replicated edge edge' r s e old c) (hu : Part edge r e u) : old u :=
  h.old_reach h.root (hu.reach h.reach_start)

theorem part_ne (h : Replicated edge edge' r s e old c) (hu : Part edge r e u) (hx : old x) :
    c u ≠ x := fun he => h.fresh (h.old_part hu) (he ▸ hx)

/-- An edge that leaves the part is a back edge, to a vertex that dominates `s`. -/
theorem exit_dominates (h : Replicated edge edge' r s e old c) (hu : Part edge r e u)
    (he : edge u w) (hw : ¬ Part edge r e w) : Dominates edge r w u ∧ Dominates edge r w s := by
  have hback : Dominates edge r w u := by
    by_contra hn
    exact hw (hu.forward ⟨he, hn⟩)
  have hne : e ≠ w := fun he => hw (he ▸ .refl)
  exact ⟨hback, (hu.dominates_start hw hback).pred hne h.forward.1⟩

/-- A walk of the new graph that avoids an old vertex has a counterpart in the old graph. -/
theorem avoiding (h : Replicated edge edge' r s e old c) (hx : Avoiding edge' d r x) :
    old x ∧ Avoiding edge d r x ∨
      ∃ u, Part edge r e u ∧ x = c u ∧ Avoiding edge d r s := by
  obtain ⟨hr, hw⟩ := hx
  induction hw with
  | refl => exact .inl ⟨h.root, .refl hr⟩
  | @tail x y _ hxy ih =>
    obtain ⟨hxy, hy⟩ := hxy
    rcases ih with ⟨hx, hav⟩ | ⟨u, hu, rfl, hav⟩
    · rcases h.from_old hx hxy with he | ⟨rfl, rfl⟩
      · exact .inl ⟨h.closed hx he, hav.tail he hy⟩
      · exact .inr ⟨e, .refl, rfl, hav⟩
    · obtain ⟨w, he, ⟨hw, rfl⟩ | ⟨hw, rfl⟩⟩ := h.from_copy hu hxy
      · exact .inr ⟨w, hw, rfl, hav⟩
      · exact .inl ⟨h.closed (h.old_part hu) he, hav.before (h.exit_dominates hu he hw).2⟩

theorem reach (h : Replicated edge edge' r s e old c) (hx : ReflTransGen edge' r x) :
    old x ∧ ReflTransGen edge r x ∨ ∃ u, Part edge r e u ∧ x = c u := by
  induction hx with
  | refl => exact .inl ⟨h.root, .refl⟩
  | @tail x y _ hxy ih =>
    rcases ih with ⟨hx, hr⟩ | ⟨u, hu, rfl⟩
    · rcases h.from_old hx hxy with he | ⟨rfl, rfl⟩
      · exact .inl ⟨h.closed hx he, hr.tail he⟩
      · exact .inr ⟨e, .refl, rfl⟩
    · obtain ⟨w, he, ⟨hw, rfl⟩ | ⟨hw, rfl⟩⟩ := h.from_copy hu hxy
      · exact .inr ⟨w, hw, rfl⟩
      · exact .inl ⟨h.closed (h.old_part hu) he, (hu.reach h.reach_start).tail he⟩

/-- Where some `d` dominates `s` but not `e`, another walk still leads to `e`. -/
theorem reach_of_old (h : Replicated edge edge' r s e old c) (hds : Dominates edge r d s)
    (hde : ¬ Dominates edge r d e) (hx : ReflTransGen edge r x) : ReflTransGen edge' r x := by
  have he : ReflTransGen edge' r e := by
    obtain ⟨hr, hw⟩ := not_dominates.mp hde
    have key : ∀ y, ReflTransGen (fun x y => edge x y ∧ y ≠ d) r y → ReflTransGen edge' r y := by
      intro y hy
      induction hy with
      | refl => exact .refl
      | @tail x y hw hxy ih =>
        rcases h.to_old (h.old_reach h.root (Avoiding.walk ⟨hr, hw⟩)) hxy.1 with he | ⟨rfl, -⟩
        · exact ih.tail he
        · exact absurd ⟨hr, hw⟩ (dominates_iff.mp hds)
    exact key e hw
  induction hx with
  | refl => exact .refl
  | @tail x y hw hxy ih =>
    rcases h.to_old (h.old_reach h.root hw) hxy with hxy' | ⟨-, rfl⟩
    · exact ih.tail hxy'
    · exact he

theorem dominates_old (h : Replicated edge edge' r s e old c) (hx : old x)
    (hdx : Dominates edge r d x) : Dominates edge' r d x := by
  refine dominates_iff.mpr fun hav => ?_
  rcases h.avoiding hav with ⟨-, hav⟩ | ⟨u, hu, rfl, -⟩
  · exact dominates_iff.mp hdx hav
  · exact h.fresh (h.old_part hu) hx

theorem dominates_copy (h : Replicated edge edge' r s e old c) (hu : Part edge r e u)
    (hds : Dominates edge r d s) : Dominates edge' r d (c u) := by
  refine dominates_iff.mpr fun hav => ?_
  rcases h.avoiding hav with ⟨hold, -⟩ | ⟨_, _, _, hav⟩
  · exact h.fresh (h.old_part hu) hold
  · exact dominates_iff.mp hds hav

/-- A walk that avoids the copy of `v` enters the copies behind any visit of `v`. -/
theorem avoiding_copy (h : Replicated edge edge' r s e old c)
    (hx : Avoiding edge' (c v) r x) :
    old x ∨ ∃ u, Part edge r e u ∧ x = c u ∧ Avoiding edge v e u := by
  obtain ⟨hr, hw⟩ := hx
  induction hw with
  | refl => exact .inl h.root
  | @tail x y _ hxy ih =>
    obtain ⟨hxy, hy⟩ := hxy
    rcases ih with hx | ⟨u, hu, rfl, hav⟩
    · rcases h.from_old hx hxy with he | ⟨rfl, rfl⟩
      · exact .inl (h.closed hx he)
      · exact .inr ⟨e, .refl, rfl, .refl fun he => hy (he ▸ rfl)⟩
    · obtain ⟨w, he, ⟨hw, rfl⟩ | ⟨hw, rfl⟩⟩ := h.from_copy hu hxy
      · exact .inr ⟨w, hw, rfl, hav.tail he fun hwv => hy (hwv ▸ rfl)⟩
      · exact .inl (h.closed (h.old_part hu) he)

theorem dominates_copies (h : Replicated edge edge' r s e old c) (hred : Reducible edge r)
    (hu : Part edge r e u) (hv : Part edge r e v) (hdom : Dominates edge r v u) :
    Dominates edge' r (c v) (c u) := by
  refine dominates_iff.mpr fun hav => ?_
  rcases h.avoiding_copy hav with hold | ⟨u', hu', hc, hav⟩
  · exact h.fresh (h.old_part hu) hold
  · obtain rfl := h.inj (h.old_part hu) (h.old_part hu') hc
    have hve : Dominates edge r v e := by
      by_contra hn
      exact dominates_iff.mp hdom ((not_dominates.mp hn).trans hav)
    exact hav.1 (hred.eq_of_dominates h.reach_start hv hve).symm

/-- Forward edges from old vertices are old forward edges, or the redirected one. -/
theorem forward_old (h : Replicated edge edge' r s e old c) (hx : old x)
    (hxy : ForwardEdge edge' r x y) :
    old y ∧ ForwardEdge edge r x y ∨ x = s ∧ y = c e := by
  rcases h.from_old hx hxy.1 with he | hj
  · exact .inl ⟨h.closed hx he, he, fun hdom => hxy.2 (h.dominates_old hx hdom)⟩
  · exact .inr hj

/-- Forward edges from copies are copies of forward edges. -/
theorem forward_copy (h : Replicated edge edge' r s e old c) (hred : Reducible edge r)
    (hu : Part edge r e u) (hxy : ForwardEdge edge' r (c u) y) :
    ∃ v, Part edge r e v ∧ y = c v ∧ ForwardEdge edge r u v := by
  obtain ⟨w, he, ⟨hw, rfl⟩ | ⟨hw, rfl⟩⟩ := h.from_copy hu hxy.1
  · exact ⟨w, hw, rfl, he, fun hdom => hxy.2 (h.dominates_copies hred hu hw hdom)⟩
  · exact absurd (h.dominates_copy hu (h.exit_dominates hu he hw).2) hxy.2

/-- `x` is the old vertex `u` or the copy of `u`. -/
def Over (edge : V → V → Prop) (r e : V) (old : V → Prop) (c : V → V) (x u : V) : Prop :=
  old x ∧ u = x ∨ Part edge r e u ∧ x = c u

theorem over_unique (h : Replicated edge edge' r s e old c) (ho : Over edge r e old c x u)
    (ho' : Over edge r e old c x v) : u = v := by
  rcases ho with ⟨hx, rfl⟩ | ⟨hu, rfl⟩ <;> rcases ho' with ⟨hx', rfl⟩ | ⟨hv, hc⟩
  · rfl
  · exact absurd hc.symm (h.part_ne hv hx)
  · exact absurd hx' (h.fresh (h.old_part hu))
  · exact h.inj (h.old_part hu) (h.old_part hv) hc

theorem forward_over (h : Replicated edge edge' r s e old c) (hred : Reducible edge r)
    (ho : Over edge r e old c x u) (hxy : ForwardEdge edge' r x y) :
    ∃ v, Over edge r e old c y v ∧ ForwardEdge edge r u v := by
  rcases ho with ⟨hx, rfl⟩ | ⟨hu, rfl⟩
  · rcases h.forward_old hx hxy with ⟨hy, hf⟩ | ⟨rfl, rfl⟩
    · exact ⟨y, .inl ⟨hy, rfl⟩, hf⟩
    · exact ⟨e, .inr ⟨.refl, rfl⟩, h.forward⟩
  · obtain ⟨v, hv, rfl, hf⟩ := h.forward_copy hred hu hxy
    exact ⟨v, .inr ⟨hv, rfl⟩, hf⟩

theorem reach_over (h : Replicated edge edge' r s e old c) (hx : ReflTransGen edge' r x) :
    ∃ u, Over edge r e old c x u ∧ ReflTransGen edge r u := by
  rcases h.reach hx with ⟨hold, hr⟩ | ⟨u, hu, rfl⟩
  · exact ⟨x, .inl ⟨hold, rfl⟩, hr⟩
  · exact ⟨u, .inr ⟨hu, rfl⟩, hu.reach h.reach_start⟩

theorem reducible (h : Replicated edge edge' r s e old c) (hred : Reducible edge r) :
    Reducible edge' r := by
  have key : ∀ {x y u}, TransGen (ForwardEdge edge' r) x y → Over edge r e old c x u →
      ∃ v, Over edge r e old c y v ∧ TransGen (ForwardEdge edge r) u v := by
    intro x y u hxy ho
    induction hxy with
    | single hf =>
      obtain ⟨v, hv, hf⟩ := h.forward_over hred ho hf
      exact ⟨v, hv, .single hf⟩
    | tail _ hf ih =>
      obtain ⟨v, hv, ht⟩ := ih
      obtain ⟨w, hw, hf⟩ := h.forward_over hred hv hf
      exact ⟨w, hw, ht.tail hf⟩
  intro x hcyc
  -- the first edge of the cycle is forward, so its source is reachable
  obtain ⟨y, hf, -⟩ := (TransGen.head'_iff).mp hcyc
  obtain ⟨u, ho, -⟩ := h.reach_over (not_dominates.mp hf.2).walk
  obtain ⟨v, hv, ht⟩ := key hcyc ho
  exact hred u (h.over_unique hv ho ▸ ht)

end Replicated

/-! ### The length of forward walks -/

theorem WalkN.head {n : Nat} (he : edge a b) (h : WalkN edge b n c) : WalkN edge a (n + 1) c := by
  induction h with
  | refl => exact WalkN.refl.tail he
  | tail _ he' ih => exact ih.tail he'

/-- No forward walk from `x` has more than `n` edges. -/
def Short (edge : V → V → Prop) (r : V) (n : Nat) (x : V) : Prop :=
  ∀ m y, WalkN (ForwardEdge edge r) x m y → m ≤ n

theorem Short.next {n : Nat} (h : Short edge r n x) (hxy : ForwardEdge edge r x y) :
    ∃ k, n = k + 1 ∧ Short edge r k y := by
  cases n with
  | zero => exact absurd (h 1 y (WalkN.refl.tail hxy)) (by omega)
  | succ k => exact ⟨k, rfl, fun m z hm => Nat.le_of_succ_le_succ (h (m + 1) z (hm.head hxy))⟩

/-- Without a forward cycle a walk never comes back to a vertex it has left. -/
theorem Reducible.short (hred : Reducible edge r) {nodes : List V}
    (hclosed : ∀ x ∈ nodes, ∀ y, edge x y → y ∈ nodes) (hx : x ∈ nodes) :
    Short edge r nodes.length x := by
  intro m y hw
  have key : ∃ l : List V, l.length = m + 1 ∧ l.Nodup ∧
      ∀ z ∈ l, z ∈ nodes ∧ ReflTransGen (ForwardEdge edge r) z y := by
    induction hw with
    | refl => exact ⟨[x], rfl, List.nodup_singleton x, by simp [hx, ReflTransGen.refl]⟩
    | @tail m y z hw hyz ih =>
      obtain ⟨l, hlen, hn, hl⟩ := ih
      have hz : z ∉ l := fun hz => hred z (TransGen.tail' (hl z hz).2 hyz)
      have hy : y ∈ nodes := by
        have : ∀ {m y}, WalkN (ForwardEdge edge r) x m y → y ∈ nodes := by
          intro m y h
          induction h with
          | refl => exact hx
          | tail _ he ih => exact hclosed _ ih _ he.1
        exact this hw
      refine ⟨z :: l, by simp [hlen], List.nodup_cons.mpr ⟨hz, hn⟩, fun w hw => ?_⟩
      rcases List.mem_cons.mp hw with rfl | hw
      · exact ⟨hclosed y hy _ hyz.1, .refl⟩
      · exact ⟨(hl w hw).1, (hl w hw).2.tail hyz⟩
  obtain ⟨l, hlen, hn, hl⟩ := key
  have := (hn.subperm fun z hz => (hl z hz).1).length_le
  omega

theorem Replicated.short {old : V → Prop} {c : V → V} (h : Replicated edge edge' r s e old c)
    (hred : Reducible edge r) {n : Nat} (ho : Replicated.Over edge r e old c x u)
    (hu : Short edge r n u) : Short edge' r n x := by
  intro m y hw
  have key : ∃ v, Replicated.Over edge r e old c y v ∧ WalkN (ForwardEdge edge r) u m v := by
    induction hw with
    | refl => exact ⟨u, ho, .refl⟩
    | tail _ hf ih =>
      obtain ⟨v, hv, hw⟩ := ih
      obtain ⟨w, hw', hf⟩ := h.forward_over hred hv hf
      exact ⟨w, hw', hw.tail hf⟩
  obtain ⟨v, -, hw⟩ := key
  exact hu m v hw

/-- `d` dominates all it reaches along forward edges. -/
def Guards (edge : V → V → Prop) (r d : V) : Prop :=
  ∀ b, ReflTransGen (ForwardEdge edge r) d b → Dominates edge r d b

namespace Replicated

variable {old : V → Prop} {c : V → V}

theorem guards (h : Replicated edge edge' r s e old c) (hred : Reducible edge r) (hd : old d)
    (hg : Guards edge r d) : Guards edge' r d := by
  intro x hx
  have key : old x ∧ ReflTransGen (ForwardEdge edge r) d x ∨
      ∃ u, Part edge r e u ∧ x = c u ∧ ReflTransGen (ForwardEdge edge r) d s := by
    induction hx with
    | refl => exact .inl ⟨hd, .refl⟩
    | @tail x y _ hxy ih =>
      rcases ih with ⟨hx, hr⟩ | ⟨u, hu, rfl, hr⟩
      · rcases h.forward_old hx hxy with ⟨hy, hf⟩ | ⟨rfl, rfl⟩
        · exact .inl ⟨hy, hr.tail hf⟩
        · exact .inr ⟨e, .refl, rfl, hr⟩
      · obtain ⟨v, hv, rfl, -⟩ := h.forward_copy hred hu hxy
        exact .inr ⟨v, hv, rfl, hr⟩
  rcases key with ⟨hx, hr⟩ | ⟨u, hu, rfl, hr⟩
  · exact h.dominates_old hx (hg x hr)
  · exact h.dominates_copy hu (hg s hr)

end Replicated

end VariOCL.Graph
