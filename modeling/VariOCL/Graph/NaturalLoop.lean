import VariOCL.Graph.Dominance

/-! Natural loops of a rooted directed graph. -/

universe u

namespace VariOCL.Graph

open Relation (ReflTransGen)

variable {V : Type u} {edge : V → V → Prop} {r h h' b p : V}

/-- `b` lies in the natural loop with header `h`. -/
def InLoop (edge : V → V → Prop) (r h b : V) : Prop :=
  ReflTransGen edge r b ∧ ∃ u, ReflTransGen edge r u ∧ BackEdge edge r u h ∧
    (b = h ∨ Avoiding edge h b u)

/-- A loop is entered only at its header. -/
theorem InLoop.pred (hb : InLoop edge r h b) (hne : b ≠ h) (he : edge p b)
    (hp : ReflTransGen edge r p) : InLoop edge r h p := by
  obtain ⟨-, u, hu, hback, h' | hav⟩ := hb
  · exact absurd h' hne
  · refine ⟨hp, u, hu, hback, ?_⟩
    by_cases hph : p = h
    · exact .inl hph
    · exact .inr (((Avoiding.refl hph).tail he hav.1).trans hav)

/-- A walk into a loop that does not come through the header starts in the loop. -/
theorem InLoop.of_walk {q : V → V → Prop} (hw : ReflTransGen q p b) (hb : InLoop edge r h b)
    (hq : ∀ x y, q x y → edge x y ∧ ReflTransGen edge r x)
    (hne : ∀ y, ReflTransGen q p y → ReflTransGen q y b → y ≠ h) : InLoop edge r h p := by
  induction hw using ReflTransGen.head_induction_on with
  | refl => exact hb
  | @head x y hxy hyb ih =>
    have hy := ih fun z hz hzb => hne z (hz.head hxy) hzb
    exact hy.pred (hne y (.single hxy) hyb) (hq x y hxy).1 (hq x y hxy).2

/-- `loopFor b` names the innermost loop around `b` by its header. -/
structure LoopForest (edge : V → V → Prop) (r : V) (loopFor : V → Option V) : Prop where
  inLoop : ∀ b h, loopFor b = some h → InLoop edge r h b
  innermost : ∀ b h h', loopFor b = some h → InLoop edge r h' b → InLoop edge r h' h
  none : ∀ b h, loopFor b = none → ¬ InLoop edge r h b

/-- `p` does not lie in the innermost loop around `b`. -/
def OutsideLoopOf (edge : V → V → Prop) (r : V) (loopFor : V → Option V) (b p : V) : Prop :=
  ∀ h, loopFor b = some h → ¬ InLoop edge r h p

theorem LoopForest.of_same {loopFor : V → Option V} (hL : LoopForest edge r loopFor)
    (hb : loopFor b = some h) (hp : loopFor p = loopFor b) : InLoop edge r h p :=
  hL.inLoop p h (hp.trans hb)

/-- Only the header of a loop has predecessors outside of it. -/
theorem LoopForest.eq_header {loopFor : V → Option V} (hL : LoopForest edge r loopFor)
    (hb : loopFor b = some h) (he : edge p b) (hp : ReflTransGen edge r p)
    (hout : ¬ InLoop edge r h p) : b = h := by
  by_contra hne
  exact hout ((hL.inLoop b h hb).pred hne he hp)

end VariOCL.Graph
