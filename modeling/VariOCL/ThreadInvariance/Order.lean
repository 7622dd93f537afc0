import VariOCL.ThreadInvariance.Lattice
import Mathlib.Algebra.Order.BigOperators.Group.Finset
import Mathlib.Algebra.Ring.Nat
import Mathlib.Data.Fintype.Prod

/-! Invariances as a preorder: a value is below another where it may differ at least as much. What
`operator==` takes to be equal is what is below either way, and the operators are monotone. -/

namespace VariOCL.ThreadInvariance

theorem InvarianceKind.le_kUnknown (k : InvarianceKind) : k ≤ .kUnknown := by
  cases k <;> decide

theorem InvarianceKind.kNonInvariant_le (k : InvarianceKind) : .kNonInvariant ≤ k := by
  cases k <;> decide

namespace ScalarInvarianceInfo

variable {V : Type} {a b : ScalarInvarianceInfo V}

/-- How far the invariances may still fall. -/
def rank (a : ScalarInvarianceInfo V) : Nat :=
  ∑ p : DimLevel × Fin 3, (a.invariances p.1 p.2).rank

theorem rank_le (h : a.invariances ≤ b.invariances) : a.rank ≤ b.rank :=
  Finset.sum_le_sum fun p _ => h p.1 p.2

theorem rank_lt (h : a.invariances ≤ b.invariances) (hne : a.invariances ≠ b.invariances) :
    a.rank < b.rank := by
  obtain ⟨level, hlevel⟩ := Function.ne_iff.mp hne
  obtain ⟨axis, haxis⟩ := Function.ne_iff.mp hlevel
  exact Finset.sum_lt_sum (fun p _ => h p.1 p.2)
    ⟨(level, axis), Finset.mem_univ _, (lt_of_le_of_ne (h level axis) haxis :)⟩

end ScalarInvarianceInfo

namespace InvarianceInfo

variable {V : Type} {a a' b b' c : InvarianceInfo V} {k : Nat}

instance : Preorder (InvarianceInfo V) where
  le a b := a.width = b.width ∧ ∀ k, (a.lane k).invariances ≤ (b.lane k).invariances
  le_refl _ := ⟨rfl, fun _ => le_rfl⟩
  le_trans _ _ _ h h' := ⟨h.1.trans h'.1, fun k => (h.2 k).trans (h'.2 k)⟩

theorem le_def :
    a ≤ b ↔ a.width = b.width ∧ ∀ k, (a.lane k).invariances ≤ (b.lane k).invariances := Iff.rfl

theorem lane_of_width_le (hk : a.width ≤ k) : a.lane k = .unknown := by
  rw [lane, List.getD_eq_getElem?_getD, List.getElem?_eq_none hk]
  rfl

theorem le_of_lanes (hw : a.width = b.width)
    (h : ∀ k < b.width, (a.lane k).invariances ≤ (b.lane k).invariances) : a ≤ b := by
  refine ⟨hw, fun k => ?_⟩
  by_cases hk : k < b.width
  · exact h k hk
  · rw [lane_of_width_le (by omega), lane_of_width_le (by omega)]

instance : DecidableLE (InvarianceInfo V) := fun a b =>
  decidable_of_iff (a.width = b.width ∧ ∀ k < b.width, ∀ level axis,
      (a.lane k).invariances level axis ≤ (b.lane k).invariances level axis)
    ⟨fun h => le_of_lanes h.1 h.2, fun h => ⟨h.1, fun k _ => h.2 k⟩⟩

theorem eq_iff : a.eq b = true ↔ a ≤ b ∧ b ≤ a := by
  simp only [eq, ScalarInvarianceInfo.eq, Bool.and_eq_true, beq_iff_eq, List.all_eq_true,
    List.mem_range, decide_eq_true_eq]
  constructor
  · rintro ⟨hw, h⟩
    exact ⟨le_of_lanes hw fun k hk => (h k (hw ▸ hk)).le,
      le_of_lanes hw.symm fun k hk => (h k hk).ge⟩
  · rintro ⟨hab, hba⟩
    exact ⟨hab.1, fun k _ => le_antisymm (hab.2 k) (hba.2 k)⟩

theorem eq_refl (a : InvarianceInfo V) : a.eq a = true := eq_iff.mpr ⟨le_rfl, le_rfl⟩

theorem eq_symm (h : a.eq b = true) : b.eq a = true := eq_iff.mpr (eq_iff.mp h).symm

theorem eq_trans (h : a.eq b = true) (h' : b.eq c = true) : a.eq c = true :=
  eq_iff.mpr ⟨(eq_iff.mp h).1.trans (eq_iff.mp h').1, (eq_iff.mp h').2.trans (eq_iff.mp h).2⟩

/-! ### The rank -/

def rank (a : InvarianceInfo V) : Nat := ∑ k ∈ Finset.range a.width, (a.lane k).rank

theorem rank_le (h : a ≤ b) : a.rank ≤ b.rank := by
  rw [rank, rank, h.1]
  exact Finset.sum_le_sum fun k _ => ScalarInvarianceInfo.rank_le (h.2 k)

theorem rank_lt (h : a ≤ b) (hne : ¬ b ≤ a) : a.rank < b.rank := by
  have hlane : ∃ k < b.width, (a.lane k).invariances ≠ (b.lane k).invariances := by
    by_contra hall
    push Not at hall
    exact hne (le_of_lanes h.1.symm fun k hk => (hall k (h.1 ▸ hk)).ge)
  obtain ⟨k, hk, hlt⟩ := hlane
  rw [rank, rank, h.1]
  exact Finset.sum_lt_sum (fun k _ => ScalarInvarianceInfo.rank_le (h.2 k))
    ⟨k, Finset.mem_range.mpr hk, ScalarInvarianceInfo.rank_lt (h.2 k) hlt⟩

/-! ### The operators -/

theorem and_le_left : a.and b ≤ a :=
  le_of_lanes width_and fun _ hk => lane_and_le hk

theorem and_le_right (hw : a.width = b.width) : a.and b ≤ b := by
  refine le_of_lanes (by rw [width_and, hw]) fun k hk => ?_
  rw [lane_and (hw ▸ hk), if_pos hw, ScalarInvarianceInfo.invariances_and]
  exact inf_le_right

theorem and_mono (ha : a ≤ a') (hb : b ≤ b') : a.and b ≤ a'.and b' := by
  refine le_of_lanes (by rw [width_and, width_and, ha.1]) fun k hk => ?_
  rw [width_and] at hk
  rw [lane_and (ha.1 ▸ hk), lane_and hk, ha.1, hb.1]
  split_ifs
  · rw [ScalarInvarianceInfo.invariances_and, ScalarInvarianceInfo.invariances_and]
    exact inf_le_inf (ha.2 k) (hb.2 k)
  · rw [ScalarInvarianceInfo.invariances_and, ScalarInvarianceInfo.invariances_and]
    exact inf_le_inf (ha.2 k) (hb.2 0)
  · exact ha.2 k

theorem and_congr (ha : a.eq a' = true) (hb : b.eq b' = true) : (a.and b).eq (a'.and b') = true :=
  eq_iff.mpr ⟨and_mono (eq_iff.mp ha).1 (eq_iff.mp hb).1,
    and_mono (eq_iff.mp ha).2 (eq_iff.mp hb).2⟩

@[simp] theorem width_reset (a : InvarianceInfo V) (kind : InvarianceKind) :
    (a.reset kind).width = a.width :=
  width_foldl _ fun _ _ => width_modifyLane ..

theorem lane_reset {kind : InvarianceKind} (hk : k < a.width) :
    (a.reset kind).lane k = (a.lane k).reset kind := by
  rw [reset]
  exact (lane_foldl (f := fun _ s => s.reset kind) le_rfl hk).trans (if_pos hk)

theorem reset_kNonInvariant_le (hw : a.width = b.width) : a.reset .kNonInvariant ≤ b := by
  refine le_of_lanes (by rw [width_reset, hw]) fun i hi => ?_
  rw [lane_reset (hw ▸ hi)]
  exact fun _ _ => InvarianceKind.kNonInvariant_le _

@[simp] theorem width_resetPointer (a : InvarianceInfo V) (v : V) :
    (a.resetPointer v).width = a.width :=
  width_foldl _ fun _ _ => width_modifyLane ..

@[simp] theorem invariances_resetPointer (a : InvarianceInfo V) (v : V) (k : Nat) :
    ((a.resetPointer v).lane k).invariances = (a.lane k).invariances := by
  by_cases hk : k < a.width
  · rw [resetPointer]
    rw [lane_foldl (f := fun _ s => s.setBasePointer v) le_rfl hk, if_pos hk]
    rfl
  · rw [lane_of_width_le (by rw [width_resetPointer]; omega), lane_of_width_le (by omega)]

theorem resetPointer_le (a : InvarianceInfo V) (v : V) : a.resetPointer v ≤ a :=
  ⟨width_resetPointer a v, fun k => (invariances_resetPointer a v k).le⟩

theorem le_resetPointer (a : InvarianceInfo V) (v : V) : a ≤ a.resetPointer v :=
  ⟨(width_resetPointer a v).symm, fun k => (invariances_resetPointer a v k).ge⟩

theorem modifyLane_mono {f g : ScalarInvarianceInfo V → ScalarInvarianceInfo V} {i : Nat}
    (h : a ≤ b) (hfg : (f (a.lane i)).invariances ≤ (g (b.lane i)).invariances) :
    a.modifyLane i f ≤ b.modifyLane i g := by
  refine le_of_lanes (by rw [width_modifyLane, width_modifyLane, h.1]) fun k hk => ?_
  rw [width_modifyLane] at hk
  rw [lane_modifyLane (h.1 ▸ hk), lane_modifyLane hk]
  split
  · subst k
    exact hfg
  · exact h.2 k

@[simp] theorem width_or : (a.or b).width = a.width := by
  rw [or]
  split
  · exact width_foldl _ fun _ _ => width_modifyLane ..
  · rfl

/-- A value that nothing is known of takes the invariance of one as wide. -/
theorem ofWidth_or_mono {w : Nat} (h : b ≤ b') : (ofWidth w).or b ≤ (ofWidth w).or b' := by
  have hlane : ∀ {c : InvarianceInfo V} {k : Nat}, k < c.width →
      (((List.range c.width).foldl (fun r val => r.modifyLane val (·.or (c.lane val)))
        (ofWidth c.width)).lane k).invariances = (c.lane k).invariances := by
    intro c k hk
    rw [lane_foldl (f := fun val s => s.or (c.lane val)) (width_ofWidth _).ge (by simpa using hk),
      if_pos hk, lane_ofWidth]
    funext level axis
    exact join_kUnknown _
  rw [or, or, h.1, width_ofWidth]
  split
  · next hw =>
    subst hw
    refine le_of_lanes ?_ fun k hk => ?_
    · rw [width_foldl _ fun _ _ => width_modifyLane ..,
        width_foldl _ fun _ _ => width_modifyLane ..]
    · rw [width_foldl _ fun _ _ => width_modifyLane .., width_ofWidth] at hk
      rw [hlane hk, ← h.1, hlane (h.1 ▸ hk)]
      exact h.2 k
  · exact le_rfl

end InvarianceInfo

end VariOCL.ThreadInvariance
