import VariOCL.Graph.Dominance

/-! Sets of vertices with one way in and one way out, told by dominance. -/

universe u

namespace VariOCL.Graph

open Relation (ReflTransGen)

variable {V : Type u} {edge : V → V → Prop} {r E X d u v x y z : V} {S : Set V}

/-- A walk that gets into `S` at `E` only stays outside while it avoids `E`. -/
theorem Avoiding.not_mem (hr : r ∉ S)
    (hS : ∀ u v, ReflTransGen edge r u → edge u v → u ∉ S → v ∈ S → v = E)
    (hav : Avoiding edge E r x) : x ∉ S := by
  obtain ⟨hne, hw⟩ := hav
  induction hw with
  | refl => exact hr
  | @tail y z hy hyz ih =>
    exact fun hz => hyz.2 (hS y z (Avoiding.walk ⟨hne, hy⟩) hyz.1 ih hz)

/-- The vertex that alone leads into `S` is not dominated by a vertex of `S`. -/
theorem not_dominates_pred {P : V} (hr : r ∉ S)
    (hS : ∀ u v, ReflTransGen edge r u → edge u v → u ∉ S → v ∈ S → u = P)
    (hP : ReflTransGen edge r P) (hx : x ∈ S) : ¬ Dominates edge r x P := by
  have hne : ∀ {y}, y ∉ S → y ≠ x := fun hy heq => hy (heq ▸ hx)
  have hwalk : ∀ b, ReflTransGen edge r b → Avoiding edge x r b ∧ b ∉ S ∨ Avoiding edge x r P := by
    intro b hb
    induction hb with
    | refl => exact .inl ⟨.refl (hne hr), hr⟩
    | @tail u v hu huv ih =>
      rcases ih with ⟨hav, huS⟩ | hav
      · by_cases hv : v ∈ S
        · exact .inr (hS u v hu huv huS hv ▸ hav)
        · exact .inl ⟨hav.tail huv (hne hv), hv⟩
      · exact .inr hav
  rw [not_dominates]
  exact (hwalk P hP).elim And.left id

/-- A walk from the root gets into `S` at `E` only, and out of it from `X` only. -/
structure SingleEntryExit (edge : V → V → Prop) (r : V) (S : Set V) (E X : V) : Prop where
  root : r ∉ S
  entry : E ∈ S
  exit : X ∈ S
  entered : ∀ u v, ReflTransGen edge r u → edge u v → u ∉ S → v ∈ S → v = E
  left : ∀ u v, ReflTransGen edge r u → edge u v → u ∈ S → v ∉ S → u = X
  out : ∀ v, edge X v → v ∉ S

namespace SingleEntryExit

theorem not_mem_of_avoiding (h : SingleEntryExit edge r S E X) (hav : Avoiding edge E r x) :
    x ∉ S := hav.not_mem h.root h.entered

theorem entry_dominates (h : SingleEntryExit edge r S E X) (hx : x ∈ S) :
    Dominates edge r E x := dominates_iff.mpr fun hav => h.not_mem_of_avoiding hav hx

/-- On the way back into `S` the walk meets the entry. -/
theorem avoiding_from_entry (h : SingleEntryExit edge r S E X) (hz : ReflTransGen edge r z)
    (hzS : z ∉ S) (hav : Avoiding edge X z x) (hx : x ∈ S) : Avoiding edge X E x := by
  obtain ⟨hzX, hw⟩ := hav
  induction hw using ReflTransGen.head_induction_on with
  | refl => exact absurd hx hzS
  | @head a b hab hw ih =>
    by_cases hb : b ∈ S
    · have hbE := h.entered a b hz hab.1 hzS hb
      exact hbE ▸ ⟨hab.2, hw⟩
    · exact ih (hz.tail hab.1) hb hab.2

theorem exit_not_dominates (h : SingleEntryExit edge r S E X) (hX : ReflTransGen edge r X)
    (hx : ReflTransGen edge r x) (hxS : x ∈ S) (hne : x ≠ X) : ¬ Dominates edge r X x := by
  rw [not_dominates]
  rcases Avoiding.suffix (d := X) hx with hav | rfl | ⟨z, hXz, hzx⟩
  · exact hav
  · exact absurd rfl hne
  · have hEx := h.avoiding_from_entry (hX.tail hXz) (h.out z hXz) hzx hxS
    have hEX := h.entry_dominates h.exit
    have hXE : ¬ Dominates edge r X E := fun hXE =>
      hEx.1 (hEX.antisymm hXE (hEX.reach hX))
    exact (not_dominates.mp hXE).trans hEx

theorem exit_dominates (h : SingleEntryExit edge r S E X) (hxS : x ∉ S)
    (hE : Dominates edge r E x) : Dominates edge r X x := by
  refine dominates_iff.mpr fun ⟨hr, hw⟩ => ?_
  have hside : x ∈ S ∨ Avoiding edge E r x := by
    clear hE hxS
    induction hw with
    | refl => exact .inr (.refl fun hrE => h.root (hrE ▸ h.entry))
    | @tail y z hy hyz ih =>
      have hav : Avoiding edge X r y := ⟨hr, hy⟩
      by_cases hz : z ∈ S
      · exact .inl hz
      · rcases ih hav with hyS | hyE
        · exact absurd (h.left y z hav.walk hyz.1 hyS hz) hav.ne
        · exact .inr (hyE.tail hyz.1 fun hzE => hz (hzE ▸ h.entry))
  exact hside.elim hxS (dominates_iff.mp hE)

theorem mem_iff (h : SingleEntryExit edge r S E X) (hX : ReflTransGen edge r X)
    (hx : ReflTransGen edge r x) :
    x ∈ S ↔ Dominates edge r E x ∧ ¬ (Dominates edge r X x ∧ Dominates edge r E X) ∨ x = X := by
  constructor
  · intro hxS
    by_cases hne : x = X
    · exact .inr hne
    · exact .inl ⟨h.entry_dominates hxS, fun hd => h.exit_not_dominates hX hx hxS hne hd.1⟩
  · rintro (⟨hE, hXE⟩ | rfl)
    · by_contra hxS
      exact hXE ⟨h.exit_dominates hxS hE, h.entry_dominates h.exit⟩
    · exact h.exit

end SingleEntryExit

end VariOCL.Graph
