import VariOCL.Graph.Dominance

/-! The dominance frontier of a rooted directed graph, built up along the dominator tree. -/

universe u

namespace VariOCL.Graph

open Relation (ReflTransGen)

variable {V : Type u} {edge : V → V → Prop} {r a b c d p x y z : V}

/-- `d` is the parent of `b` in the dominator tree. -/
def ImmediatelyDominates (edge : V → V → Prop) (r d b : V) : Prop :=
  StrictlyDominates edge r d b ∧ ∀ c, StrictlyDominates edge r c b → Dominates edge r c d

/-- `x` is where the dominance of `y` ends. -/
def Frontier (edge : V → V → Prop) (r y x : V) : Prop :=
  (∃ p, edge p x ∧ Dominates edge r y p) ∧ ¬ StrictlyDominates edge r y x

/-- The first visit of `d` on a walk that avoids `a`. -/
theorem Avoiding.first (h : Avoiding edge a b c) : Avoiding edge d b c ∨ Avoiding edge a d c := by
  obtain ⟨hb, hw⟩ := h
  induction hw using ReflTransGen.head_induction_on with
  | refl =>
    by_cases hd : c = d
    · exact .inr (hd ▸ .refl hb)
    · exact .inl (.refl hd)
  | @head x y hxy hw ih =>
    by_cases hd : x = d
    · exact .inr (hd ▸ ⟨hb, hw.head hxy⟩)
    · rcases ih hxy.2 with hav | hav
      · exact .inl (((Avoiding.refl hd).tail hxy.1 hav.1).trans hav)
      · exact .inr hav

/-- The dominators of a block form a chain. -/
theorem Dominates.total (ha : Dominates edge r a c) (hb : Dominates edge r b c)
    (hc : ReflTransGen edge r c) : Dominates edge r a b ∨ Dominates edge r b a := by
  by_contra h
  rw [not_or, not_dominates, not_dominates] at h
  obtain ⟨hab, hba⟩ := h
  rcases Avoiding.suffix (d := a) hc with hav | rfl | ⟨x, hax, hxc⟩
  · exact dominates_iff.mp ha hav
  · exact dominates_iff.mp hb hba
  · rcases hxc.first (d := b) with hav | hav
    · exact dominates_iff.mp hb ((hba.tail hax hav.1).trans hav)
    · exact dominates_iff.mp ha (hab.trans hav)

theorem StrictlyDominates.trans_dominates (h : StrictlyDominates edge r a b)
    (h' : Dominates edge r b c) (hc : ReflTransGen edge r c) : StrictlyDominates edge r a c := by
  refine ⟨h.1.trans h', ?_⟩
  rintro rfl
  exact h.2 (h.1.antisymm h' hc)

/-- A strict dominator with an edge to `b` is the immediate one. -/
theorem StrictlyDominates.immediate (h : StrictlyDominates edge r d b) (he : edge d b) :
    ImmediatelyDominates edge r d b :=
  ⟨h, fun _ hc => hc.1.pred hc.2.symm he⟩

theorem ImmediatelyDominates.unique (h : ImmediatelyDominates edge r a b)
    (h' : ImmediatelyDominates edge r d b) (hb : ReflTransGen edge r b) : a = d :=
  (h'.2 a h.1).antisymm (h.2 d h'.1) (h.1.1.reach hb)

theorem WalkN.lt_of_strictlyDominates {n : Nat} (h : WalkN edge r n b)
    (hd : StrictlyDominates edge r d b) : ∃ m, m < n ∧ WalkN edge r m d := by
  cases h with
  | refl =>
    have hav : Avoiding edge d r r := .refl fun h => hd.2 h.symm
    exact absurd hav (dominates_iff.mp hd.1)
  | @tail n u _ hu hub =>
    rcases hu.avoiding_or_le (d := d) with hav | ⟨m, hm, hw⟩
    · exact absurd hav (dominates_iff.mp (hd.1.pred hd.2.symm hub))
    · exact ⟨m, Nat.lt_succ_of_le hm, hw⟩

/-- On the way down the dominator tree from `d` to `b` there is a child of `d`. -/
theorem StrictlyDominates.exists_child (h : StrictlyDominates edge r d b)
    (hb : ReflTransGen edge r b) :
    ∃ c, ImmediatelyDominates edge r d c ∧ Dominates edge r c b := by
  obtain ⟨n, hn⟩ := exists_walkN hb
  induction n using Nat.strong_induction_on generalizing b with
  | _ n ih =>
    by_cases hmin : ∀ c, StrictlyDominates edge r c b → Dominates edge r c d
    · exact ⟨b, ⟨h, hmin⟩, .refl⟩
    · push Not at hmin
      obtain ⟨c, hcb, hcd⟩ := hmin
      have hdc : StrictlyDominates edge r d c :=
        ⟨(hcb.1.total h.1 hb).resolve_left hcd, fun hdc => hcd (hdc ▸ .refl)⟩
      obtain ⟨m, hm, hw⟩ := hn.lt_of_strictlyDominates hcb
      obtain ⟨e, he, hec⟩ := ih m hm hdc (hcb.1.reach hb) hw
      exact ⟨e, he, hec.trans hcb.1⟩

/-- The frontier of `y` is what its edges add to the frontiers of its children. -/
theorem frontier_iff (hx : ReflTransGen edge r x)
    (hpred : ∀ p, edge p x → ReflTransGen edge r p) :
    Frontier edge r y x ↔ (edge y x ∧ ¬ ImmediatelyDominates edge r y x) ∨
      ∃ z, ImmediatelyDominates edge r y z ∧ Frontier edge r z x ∧
        ¬ StrictlyDominates edge r y x := by
  constructor
  · rintro ⟨⟨p, hpx, hyp⟩, hyx⟩
    by_cases hne : y = p
    · subst hne
      exact .inl ⟨hpx, fun h => hyx h.1⟩
    · obtain ⟨z, hyz, hzp⟩ := StrictlyDominates.exists_child ⟨hyp, hne⟩ (hpred p hpx)
      refine .inr ⟨z, hyz, ⟨⟨p, hpx, hzp⟩, fun hzx => hyx ?_⟩, hyx⟩
      exact hyz.1.trans_dominates hzx.1 hx
  · rintro (⟨hyx, hidom⟩ | ⟨z, hyz, ⟨⟨p, hpx, hzp⟩, -⟩, hyx⟩)
    · exact ⟨⟨y, hyx, .refl⟩, fun h => hidom (h.immediate hyx)⟩
    · exact ⟨⟨p, hpx, hyz.1.1.trans hzp⟩, hyx⟩

end VariOCL.Graph
