import Mathlib.Order.Lattice
import Mathlib.Order.Basic
import Mathlib.Data.Fintype.Pi
import Mathlib.Tactic.Tauto

/-! `InvarianceInfo`: how far a value may differ between the work-items of a group and between the
groups, for each of the three dimensions and each lane of a vector. -/

namespace VariOCL.ThreadInvariance

inductive InvarianceKind
  | kUnknown
  | kMaybeNonInvariant
  | kNonInvariant
  | kInvariant
  deriving DecidableEq

inductive DimLevel
  | kDimLocal
  | kDimGlobal
  deriving DecidableEq

instance : Fintype DimLevel := ⟨{.kDimLocal, .kDimGlobal}, fun l => by cases l <;> decide⟩

/-- The position in the order `kNonInvariant`, `kMaybeNonInvariant`, `kInvariant`, `kUnknown`. -/
def InvarianceKind.rank : InvarianceKind → Nat
  | kNonInvariant => 0
  | kMaybeNonInvariant => 1
  | kInvariant => 2
  | kUnknown => 3

theorem InvarianceKind.rank_injective : Function.Injective rank := by
  intro k l h
  cases k <;> cases l <;> first | rfl | cases h

instance : LinearOrder InvarianceKind := .lift' InvarianceKind.rank InvarianceKind.rank_injective

def meet (lhs rhs : InvarianceKind) : InvarianceKind :=
  if lhs = .kNonInvariant ∨ rhs = .kNonInvariant then .kNonInvariant
  else if lhs = .kMaybeNonInvariant ∨ rhs = .kMaybeNonInvariant then .kMaybeNonInvariant
  else if lhs = .kInvariant ∨ rhs = .kInvariant then .kInvariant
  else .kUnknown

def join (lhs rhs : InvarianceKind) : InvarianceKind :=
  if lhs = .kInvariant ∨ rhs = .kInvariant then .kInvariant
  else if lhs = .kMaybeNonInvariant ∨ rhs = .kMaybeNonInvariant then .kMaybeNonInvariant
  else if lhs = .kNonInvariant ∨ rhs = .kNonInvariant then .kNonInvariant
  else .kUnknown

theorem meet_eq_min (k l : InvarianceKind) : meet k l = min k l := by
  cases k <;> cases l <;> decide

theorem meet_eq_kNonInvariant {k l : InvarianceKind} :
    meet k l = .kNonInvariant ↔ k = .kNonInvariant ∨ l = .kNonInvariant := by
  cases k <;> cases l <;> decide

@[simp] theorem join_kUnknown (k : InvarianceKind) : join .kUnknown k = k := by
  cases k <;> rfl

abbrev Levels := DimLevel → Fin 3 → InvarianceKind

/-- One lane, with the base pointer of the value if it has one. -/
structure ScalarInvarianceInfo (V : Type) where
  invariances : Levels
  basePtr : Option V

namespace ScalarInvarianceInfo

variable {V : Type}

/-- The default constructor. -/
def unknown : ScalarInvarianceInfo V := ⟨fun _ _ => .kUnknown, none⟩

instance : Inhabited (ScalarInvarianceInfo V) := ⟨unknown⟩

/-- `operator==` leaves the base pointers out. -/
def eq (a b : ScalarInvarianceInfo V) : Bool := a.invariances = b.invariances

/-- `operator&=` -/
def and (a b : ScalarInvarianceInfo V) : ScalarInvarianceInfo V where
  invariances := fun level axis => meet (a.invariances level axis) (b.invariances level axis)
  basePtr := a.basePtr.or b.basePtr

/-- `operator|=` -/
def or (a b : ScalarInvarianceInfo V) : ScalarInvarianceInfo V where
  invariances := fun level axis => join (a.invariances level axis) (b.invariances level axis)
  basePtr := a.basePtr.or b.basePtr

def set (a : ScalarInvarianceInfo V) (level : DimLevel) (axis : Fin 3) (val : InvarianceKind) :
    ScalarInvarianceInfo V :=
  { a with invariances := fun l x => if l = level ∧ x = axis then val else a.invariances l x }

def reset (a : ScalarInvarianceInfo V) (val : InvarianceKind) : ScalarInvarianceInfo V :=
  { a with invariances := fun _ _ => val }

def setBasePointer (a : ScalarInvarianceInfo V) (v : V) : ScalarInvarianceInfo V :=
  { a with basePtr := some v }

theorem invariances_and (a b : ScalarInvarianceInfo V) :
    (a.and b).invariances = a.invariances ⊓ b.invariances := by
  funext level axis
  exact meet_eq_min ..

end ScalarInvarianceInfo

/-- The lanes of a value; a scalar has one. -/
structure InvarianceInfo (V : Type) where
  values : List (ScalarInvarianceInfo V)

namespace InvarianceInfo

variable {V : Type}

def width (a : InvarianceInfo V) : Nat := a.values.length

def ofWidth (w : Nat) : InvarianceInfo V := ⟨List.replicate w .unknown⟩

/-- `operator[]` within the width. -/
def lane (a : InvarianceInfo V) (i : Nat) : ScalarInvarianceInfo V := a.values.getD i .unknown

/-- `operator[]` on the left of an assignment. -/
def modifyLane (a : InvarianceInfo V) (i : Nat)
    (f : ScalarInvarianceInfo V → ScalarInvarianceInfo V) : InvarianceInfo V :=
  ⟨a.values.modify i f⟩

/-- `operator==` -/
def eq (a b : InvarianceInfo V) : Bool :=
  a.width == b.width && (List.range a.width).all fun val => (a.lane val).eq (b.lane val)

/-- `values[i val] &= other[j val]` for each `val` below the width. -/
def meetLanes (i j : Nat → Nat) (a b : InvarianceInfo V) : InvarianceInfo V :=
  (List.range a.width).foldl (fun r val => r.modifyLane (i val) (·.and (b.lane (j val)))) a

/-- `operator&=` -/
def and (a b : InvarianceInfo V) : InvarianceInfo V :=
  if a.width = b.width then a.meetLanes id id b
  else if a.width = 1 then a.meetLanes (fun _ => 0) id b
  else if b.width = 1 then a.meetLanes id (fun _ => 0) b
  else a

/-- `operator|=`, which asserts that the widths agree. -/
def or (a b : InvarianceInfo V) : InvarianceInfo V :=
  if a.width = b.width then
    (List.range a.width).foldl (fun r val => r.modifyLane val (·.or (b.lane val))) a
  else a

def reset (a : InvarianceInfo V) (kind : InvarianceKind) : InvarianceInfo V :=
  (List.range a.width).foldl (fun r val => r.modifyLane val (·.reset kind)) a

def resetPointer (a : InvarianceInfo V) (v : V) : InvarianceInfo V :=
  (List.range a.width).foldl (fun r val => r.modifyLane val (·.setBasePointer v)) a

variable {a b : InvarianceInfo V} {f : Nat → ScalarInvarianceInfo V → ScalarInvarianceInfo V}
  {n k : Nat}

@[simp] theorem width_ofWidth (w : Nat) : (ofWidth w : InvarianceInfo V).width = w :=
  List.length_replicate

@[simp] theorem lane_ofWidth (w i : Nat) : (ofWidth w : InvarianceInfo V).lane i = .unknown := by
  simp only [lane, ofWidth, List.getD_eq_getElem?_getD, List.getElem?_replicate]
  split <;> rfl

@[simp] theorem width_modifyLane (i : Nat) (g : ScalarInvarianceInfo V → ScalarInvarianceInfo V) :
    (a.modifyLane i g).width = a.width := List.length_modify ..

theorem lane_modifyLane {g : ScalarInvarianceInfo V → ScalarInvarianceInfo V} {i : Nat}
    (hk : k < a.width) : (a.modifyLane i g).lane k = if i = k then g (a.lane k) else a.lane k := by
  have hk' : k < a.values.length := hk
  simp only [lane, modifyLane, List.getD_eq_getElem?_getD, List.getElem?_modify,
    List.getElem?_eq_getElem hk', Option.getD_some]
  split <;> rfl

theorem width_foldl {g : InvarianceInfo V → Nat → InvarianceInfo V} (is : List Nat)
    (hg : ∀ r val, (g r val).width = r.width) : (is.foldl g a).width = a.width := by
  induction is generalizing a with
  | nil => rfl
  | cons val is ih => rw [List.foldl_cons, ih, hg]

theorem lane_foldl (hn : n ≤ a.width) (hk : k < a.width) :
    ((List.range n).foldl (fun r val => r.modifyLane val (f val)) a).lane k =
      if k < n then f k (a.lane k) else a.lane k := by
  induction n with
  | zero => rfl
  | succ n ih =>
    have hw := width_foldl (a := a) (List.range n)
      (g := fun r val => r.modifyLane val (f val)) fun _ _ => width_modifyLane ..
    rw [List.range_succ, List.foldl_append, List.foldl_cons, List.foldl_nil,
      lane_modifyLane (lt_of_lt_of_eq hk hw.symm), ih (Nat.le_of_succ_le hn)]
    by_cases hnk : n = k
    · simp [hnk]
    · simp only [if_neg hnk, show k < n + 1 ↔ k < n by omega]

@[simp] theorem width_meetLanes (i j : Nat → Nat) : (a.meetLanes i j b).width = a.width :=
  width_foldl _ fun _ _ => width_modifyLane ..

theorem lane_meetLanes {j : Nat → Nat} (hk : k < a.width) :
    (a.meetLanes id j b).lane k = (a.lane k).and (b.lane (j k)) := by
  rw [meetLanes]
  exact (lane_foldl (f := fun val s => s.and (b.lane (j val))) le_rfl hk).trans (if_pos hk)

theorem lane_meetLanes_zero {j : Nat → Nat} (ha : a.width = 1) :
    (a.meetLanes (fun _ => 0) j b).lane 0 = (a.lane 0).and (b.lane (j 0)) := by
  rw [meetLanes, ha]
  exact (lane_modifyLane (by omega)).trans (if_pos rfl)

@[simp] theorem width_and : (a.and b).width = a.width := by
  rw [and]
  split_ifs <;> simp

/-- The lane of `b` that is met with lane `k` of `a`, if any. -/
theorem lane_and (hk : k < a.width) : (a.and b).lane k =
    if a.width = b.width then (a.lane k).and (b.lane k)
    else if a.width = 1 ∨ b.width = 1 then (a.lane k).and (b.lane 0)
    else a.lane k := by
  rw [and]
  by_cases hw : a.width = b.width
  · rw [if_pos hw, if_pos hw, lane_meetLanes hk]
    rfl
  rw [if_neg hw, if_neg hw]
  by_cases ha : a.width = 1
  · obtain rfl : k = 0 := by omega
    rw [if_pos ha, if_pos (.inl ha), lane_meetLanes_zero ha]
    rfl
  · by_cases hb : b.width = 1
    · rw [if_neg ha, if_pos hb, if_pos (.inr hb), lane_meetLanes hk]
    · rw [if_neg ha, if_neg hb, if_neg (by tauto)]

/-- A lane of a meet is below the old lane. -/
theorem lane_and_le (hk : k < a.width) :
    ((a.and b).lane k).invariances ≤ (a.lane k).invariances := by
  rw [lane_and hk]
  split_ifs
  · rw [ScalarInvarianceInfo.invariances_and]
    exact inf_le_left
  · rw [ScalarInvarianceInfo.invariances_and]
    exact inf_le_left
  · exact le_rfl

/-- `r` keeps what varies in `b`: in its lane where `r` is as wide as `b`, and else in every lane
of `r`; and `r` is nowhere above `a`. -/
structure LosesNoVariance (a b r : InvarianceInfo V) : Prop where
  keeps : ∀ j < b.width, ∀ level axis, (b.lane j).invariances level axis = .kNonInvariant →
    if a.width = b.width then (r.lane j).invariances level axis = .kNonInvariant
    else ∀ i < a.width, (r.lane i).invariances level axis = .kNonInvariant
  below : ∀ i < a.width, ∀ level axis,
    (r.lane i).invariances level axis ≤ (a.lane i).invariances level axis

/-- Between different widths, neither of them 1, nothing is met, and into a scalar only the first
lane is. -/
theorem losesNoVariance_and_iff :
    LosesNoVariance a b (a.and b) ↔ a.width = b.width ∨ b.width = 1 ∨
      ∀ j < b.width, ∀ level axis, (b.lane j).invariances level axis = .kNonInvariant →
        a.width = 1 ∧ (b.lane 0).invariances level axis = .kNonInvariant ∨
          ∀ i < a.width, (a.lane i).invariances level axis = .kNonInvariant := by
  have hbelow : ∀ i < a.width, ∀ level axis,
      ((a.and b).lane i).invariances level axis ≤ (a.lane i).invariances level axis :=
    fun i hi level axis => lane_and_le hi level axis
  by_cases hw : a.width = b.width
  · refine iff_of_true ⟨fun j hj level axis h => ?_, hbelow⟩ (.inl hw)
    rw [if_pos hw, lane_and (hw ▸ hj), if_pos hw]
    exact meet_eq_kNonInvariant.mpr (.inr h)
  by_cases hb1 : b.width = 1
  · refine iff_of_true ⟨fun j hj level axis h => ?_, hbelow⟩ (.inr (.inl hb1))
    rw [if_neg hw]
    intro i hi
    obtain rfl : j = 0 := by omega
    rw [lane_and hi, if_neg hw, if_pos (.inr hb1)]
    exact meet_eq_kNonInvariant.mpr (.inr h)
  have hlane : ∀ i < a.width, ∀ level axis,
      ((a.and b).lane i).invariances level axis = .kNonInvariant ↔
        (a.lane i).invariances level axis = .kNonInvariant ∨
          a.width = 1 ∧ (b.lane 0).invariances level axis = .kNonInvariant := by
    intro i hi level axis
    rw [lane_and hi, if_neg hw]
    by_cases ha1 : a.width = 1
    · rw [if_pos (.inl ha1), ScalarInvarianceInfo.and, meet_eq_kNonInvariant]
      simp [ha1]
    · rw [if_neg (by tauto)]
      simp [ha1]
  constructor
  · refine fun h => .inr (.inr fun j hj level axis hv => ?_)
    have hkeep := h.keeps j hj level axis hv
    rw [if_neg hw] at hkeep
    by_cases hone : a.width = 1 ∧ (b.lane 0).invariances level axis = .kNonInvariant
    · exact .inl hone
    · exact .inr fun i hi => ((hlane i hi level axis).mp (hkeep i hi)).resolve_right hone
  · intro h
    have hall := (h.resolve_left hw).resolve_left hb1
    refine ⟨fun j hj level axis hv => ?_, hbelow⟩
    rw [if_neg hw]
    intro i hi
    apply (hlane i hi level axis).mpr
    exact (hall j hj level axis hv).elim .inr fun hi' => .inl (hi' i hi)

/-- A scalar met with a vector whose second lane varies. -/
theorem not_losesNoVariance_secondLane :
    ¬ LosesNoVariance (V := Unit) (ofWidth 1)
      ⟨[.reset .unknown .kInvariant, .reset .unknown .kNonInvariant]⟩
      ((ofWidth 1).and ⟨[.reset .unknown .kInvariant, .reset .unknown .kNonInvariant]⟩) := by
  intro h
  have := h.keeps 1 (by decide) .kDimLocal 0 rfl
  rw [if_neg (by decide)] at this
  exact absurd (this 0 (by decide)) (by decide)

end InvarianceInfo

end VariOCL.ThreadInvariance
