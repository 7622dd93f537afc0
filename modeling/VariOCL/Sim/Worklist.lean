import Mathlib.Data.Multiset.DershowitzManna

/-! A work queue that empties: each round takes an item and puts others behind the rest, and either a
rank goes down or the new items are of a lower level than the one taken. -/

namespace VariOCL.Sim

section
variable {σ β : Type*} {queue : σ → List β} {rank : σ → ℕ} {level : ℕ → β → ℕ} {s : ℕ → σ}

/-- One round on the queue: the levels stand for the items at the rank they were put in. -/
inductive Round (queue : σ → List β) (rank : σ → ℕ) (level : ℕ → β → ℕ) (x y : σ) : Prop
  | descend : rank y < rank x → Round queue rank level x y
  | requeue {b : β} {rest new : List β} : rank y = rank x → queue x = b :: rest →
    queue y = rest ++ new → (∀ c ∈ new, level (rank x) c < level (rank x) b) →
    Round queue rank level x y

/-- The levels of the items in the queue. -/
def levels (queue : σ → List β) (rank : σ → ℕ) (level : ℕ → β → ℕ) (x : σ) : Multiset ℕ :=
  (queue x).map (level (rank x))

theorem Round.lt {x y : σ} (h : Round queue rank level x y) :
    Prod.Lex (· < ·) Multiset.IsDershowitzMannaLT (rank y, levels queue rank level y)
      (rank x, levels queue rank level x) := by
  cases h with
  | descend hlt => exact .left _ _ hlt
  | @requeue b rest new hrank hx hy hlevel =>
    rw [hrank]
    refine .right _ ⟨rest.map (level (rank x)), new.map (level (rank x)), {level (rank x) b},
      Multiset.singleton_ne_zero _, ?_, ?_, ?_⟩
    · rw [levels, hy, hrank, List.map_append, Multiset.coe_add]
    · rw [levels, hx, List.map_cons, ← Multiset.cons_coe, add_comm, Multiset.singleton_add]
    · intro y hy
      obtain ⟨c, hc, rfl⟩ := List.mem_map.mp (Multiset.mem_coe.mp hy)
      exact ⟨_, Multiset.mem_singleton_self _, hlevel c hc⟩

/-- A run of such rounds comes to an empty queue. -/
theorem exists_queue_eq_nil
    (h : ∀ n, queue (s n) ≠ [] → Round queue rank level (s n) (s (n + 1))) :
    ∃ n, queue (s n) = [] := by
  have hwf : WellFounded (Prod.Lex (· < · : ℕ → ℕ → Prop)
      (Multiset.IsDershowitzMannaLT : Multiset ℕ → Multiset ℕ → Prop)) :=
    WellFounded.prod_lex wellFounded_lt Multiset.wellFounded_isDershowitzMannaLT
  by_contra hne
  push Not at hne
  have hfrom : ∀ x, ∀ n, (rank (s n), levels queue rank level (s n)) ≠ x := by
    intro x
    induction x using hwf.induction with
    | h x ih =>
      rintro n rfl
      exact ih _ (h n (hne n)).lt (n + 1) rfl
  exact hfrom _ 0 rfl

/-- A fold over the items of a round does not fail where no step does; `P` is about the items that
are left. -/
theorem exists_foldlM {α : Type*} {P : List α → σ → Prop} {f : σ → α → Option σ} {xs : List α}
    {x : σ} (hx : P xs x) (hstep : ∀ pre a rest z, xs = pre ++ a :: rest →
      pre.foldlM f x = some z → P (a :: rest) z → ∃ z', f z a = some z' ∧ P rest z') :
    ∃ y, xs.foldlM f x = some y ∧ P [] y := by
  have hfrom : ∀ rest pre z, xs = pre ++ rest → pre.foldlM f x = some z → P rest z →
      ∃ y, xs.foldlM f x = some y ∧ P [] y := by
    intro rest
    induction rest with
    | nil =>
      intro pre z hxs hpre h
      rw [hxs, List.append_nil]
      exact ⟨z, hpre, h⟩
    | cons a rest ih =>
      intro pre z hxs hpre h
      obtain ⟨z', hz', h'⟩ := hstep pre a rest z hxs hpre h
      refine ih (pre ++ [a]) z' (by rw [hxs, List.append_assoc, List.singleton_append]) ?_ h'
      rw [List.foldlM_append, hpre, Option.bind_eq_bind, Option.bind_some, List.foldlM_cons, hz']
      rfl
  exact hfrom xs [] x rfl rfl hx

/-- A fold over the items of a round that has not failed. -/
theorem foldlM_inv_rest {α : Type*} {P : List α → σ → Prop} {f : σ → α → Option σ} {xs : List α}
    {x y : σ} (hy : xs.foldlM f x = some y) (hx : P xs x)
    (hstep : ∀ pre a rest z z', xs = pre ++ a :: rest → pre.foldlM f x = some z →
      f z a = some z' → P (a :: rest) z → P rest z') : P [] y := by
  have hfrom : ∀ rest pre z, xs = pre ++ rest → pre.foldlM f x = some z →
      rest.foldlM f z = some y → P rest z → P [] y := by
    intro rest
    induction rest with
    | nil =>
      rintro pre z - - heq h
      obtain rfl : z = y := Option.some.inj heq
      exact h
    | cons a rest ih =>
      intro pre z hxs hpre hrest h
      rw [List.foldlM_cons] at hrest
      obtain ⟨z', hz', hrest⟩ := Option.bind_eq_some_iff.mp hrest
      refine ih (pre ++ [a]) z' (by rw [hxs, List.append_assoc, List.singleton_append]) ?_ hrest
        (hstep pre a rest z z' hxs hpre hz' h)
      rw [List.foldlM_append, hpre, Option.bind_eq_bind, Option.bind_some, List.foldlM_cons, hz']
      rfl
  exact hfrom xs [] x rfl rfl hy hx

/-- `P` holds of every item of the fold, with the state it is met in and the items behind it. -/
def ForallSteps {α : Type*} (f : σ → α → Option σ) (P : σ → α → List α → Prop) : σ → List α → Prop
  | _, [] => True
  | z, a :: rest => P z a rest ∧ ∀ z' ∈ f z a, ForallSteps f P z' rest

instance ForallSteps.instDecidable {α : Type*} {f : σ → α → Option σ} {P : σ → α → List α → Prop}
    [∀ z a rest, Decidable (P z a rest)] : ∀ z xs, Decidable (ForallSteps f P z xs)
  | _, [] => .isTrue trivial
  | z, a :: rest =>
    haveI : ∀ z', Decidable (ForallSteps f P z' rest) := fun z' => instDecidable z' rest
    inferInstanceAs (Decidable (P z a rest ∧ ∀ z' ∈ f z a, ForallSteps f P z' rest))

theorem ForallSteps.get {α : Type*} {f : σ → α → Option σ} {P : σ → α → List α → Prop} {x z : σ}
    {pre rest : List α} {a : α} (h : ForallSteps f P x (pre ++ a :: rest))
    (hpre : pre.foldlM f x = some z) : P z a rest := by
  induction pre generalizing x with
  | nil =>
    obtain rfl : x = z := Option.some.inj hpre
    exact h.1
  | cons b pre ih =>
    rw [List.foldlM_cons] at hpre
    obtain ⟨y, hy, hpre⟩ := Option.bind_eq_some_iff.mp hpre
    exact ih (h.2 y hy) hpre

end

end VariOCL.Sim
