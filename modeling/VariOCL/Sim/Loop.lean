import Mathlib.Logic.Relation

/-! Loops that run a step function until it has no next state, with a bound on the number of
steps. -/

namespace VariOCL.Sim

open Relation (ReflTransGen)

variable {σ ε : Type*}

theorem bind_eq_ok {α β : Type*} {x : Except ε α} {f : α → Except ε β} {b : β} :
    x.bind f = .ok b ↔ ∃ a, x = .ok a ∧ f a = .ok b := by
  cases x with
  | error e => simp [Except.bind]
  | ok a => simp [Except.bind]

/-- What every step keeps, a fold keeps. -/
theorem foldlM_inv {α : Type*} {P : σ → Prop} {f : σ → α → Except ε σ} {xs : List α} {s t : σ}
    (h : xs.foldlM f s = .ok t) (hs : P s) (hf : ∀ x ∈ xs, ∀ s t, P s → f s x = .ok t → P t) :
    P t := by
  induction xs generalizing s with
  | nil =>
    cases h
    exact hs
  | cons x xs ih =>
    obtain ⟨hx, hxs⟩ := List.forall_mem_cons.mp hf
    obtain ⟨u, hu, h⟩ := bind_eq_ok.mp h
    exact ih h (hx s u hs hu) hxs

/-- `stuck` is the failure of a loop whose bound is too small. -/
def loop (step : σ → Except ε (Option σ)) (stuck : ε) : Nat → σ → Except ε σ
  | 0, _ => .error stuck
  | n + 1, s =>
    match step s with
    | .error e => .error e
    | .ok none => .ok s
    | .ok (some t) => loop step stuck n t

def StepsTo (step : σ → Except ε (Option σ)) (s t : σ) : Prop := step s = .ok (some t)

def Reaches (step : σ → Except ε (Option σ)) : σ → σ → Prop := ReflTransGen (StepsTo step)

variable {step : σ → Except ε (Option σ)} {stuck : ε} {Inv : σ → Prop} {n : Nat} {s t u : σ}

theorem Reaches.inv (h : Reaches step s t) (hs : Inv s)
    (hstep : ∀ s t, Inv s → step s = .ok (some t) → Inv t) : Inv t := by
  induction h with
  | refl => exact hs
  | tail _ ht ih => exact hstep _ _ ih ht

/-- The states of one run are reached one after the other. -/
theorem Reaches.total (h : Reaches step s t) (h' : Reaches step s u) :
    Reaches step t u ∨ Reaches step u t := by
  refine ReflTransGen.total_of_right_unique (fun a b c hb hc => ?_) h h'
  cases (Except.ok.inj (hb.symm.trans hc))
  rfl

theorem loop_reaches (h : loop step stuck n s = .ok t) :
    Reaches step s t ∧ step t = .ok none := by
  induction n generalizing s with
  | zero => cases h
  | succ n ih =>
    rw [loop] at h
    split at h
    · cases h
    · cases h
      exact ⟨.refl, ‹_›⟩
    · obtain ⟨hr, ht⟩ := ih h
      exact ⟨.head ‹_› hr, ht⟩

/-- A state that is reached lies before the one the loop ends in. -/
theorem Reaches.of_final (h : Reaches step s u) (h' : Reaches step s t)
    (ht : step t = .ok none) : Reaches step u t := by
  rcases h.total h' with hu | hu
  · exact hu
  · rcases ReflTransGen.cases_head hu with rfl | ⟨v, hv, _⟩
    · exact .refl
    · cases ht.symm.trans hv

/-- A loop that cannot fail and lowers a measure ends, with its invariant. -/
theorem loop_ends (stuck : ε) {μ : σ → Nat}
    (hstep : ∀ s, Inv s → step s = .ok none ∨ ∃ t, step s = .ok (some t) ∧ Inv t ∧ μ t < μ s)
    (hs : Inv s) (hn : μ s < n) : ∃ t, loop step stuck n s = .ok t ∧ Inv t := by
  induction n generalizing s with
  | zero => exact absurd hn (Nat.not_lt_zero _)
  | succ n ih =>
    rcases hstep s hs with h | ⟨t, h, ht, hlt⟩
    · exact ⟨s, by rw [loop, h], hs⟩
    · obtain ⟨u, hu, hInv⟩ := ih ht (Nat.lt_of_lt_of_le hlt (Nat.le_of_lt_succ hn))
      exact ⟨u, by rw [loop, h]; exact hu, hInv⟩

theorem loop_ends_of_wellFounded (stuck : ε) {α : Type*} {lt : α → α → Prop}
    (wf : WellFounded lt) {μ : σ → α}
    (hstep : ∀ s, Inv s →
      step s = .ok none ∨ ∃ t, step s = .ok (some t) ∧ Inv t ∧ lt (μ t) (μ s))
    (hs : Inv s) : ∃ t n, (∀ m, n ≤ m → loop step stuck m s = .ok t) ∧ Inv t := by
  induction h : μ s using wf.induction generalizing s with
  | _ a ih =>
    subst h
    rcases hstep s hs with h | ⟨t, h, ht, hlt⟩
    · refine ⟨s, 1, fun m hm => ?_, hs⟩
      obtain ⟨k, rfl⟩ := Nat.exists_eq_add_of_le' hm
      rw [loop, h]
    · obtain ⟨u, n, hu, hInv⟩ := ih _ hlt ht rfl
      refine ⟨u, n + 1, fun m hm => ?_, hInv⟩
      obtain ⟨k, rfl⟩ := Nat.exists_eq_add_of_le' hm
      rw [← Nat.add_assoc, loop, h]
      exact hu _ (Nat.le_add_left n k)

/-- With a larger bound a loop that has ended ends in the same state. -/
theorem loop_extends {m : Nat} (h : loop step stuck n s = .ok t) (hnm : n ≤ m) :
    loop step stuck m s = .ok t := by
  induction n generalizing m s with
  | zero => cases h
  | succ n ih =>
    obtain ⟨m, rfl⟩ : ∃ k, m = k + 1 := ⟨m - 1, by omega⟩
    rw [loop] at h ⊢
    split at h
    · cases h
    · exact h
    · exact ih h (Nat.le_of_succ_le_succ hnm)

/-- Steps that agree wherever the invariant holds make the same loop. -/
theorem loop_congr {step' : σ → Except ε (Option σ)} (hInv : ∀ s t, Inv s →
    step s = .ok (some t) → Inv t) (hstep : ∀ s, Inv s → step' s = step s) (hs : Inv s) :
    loop step' stuck n s = loop step stuck n s := by
  induction n generalizing s with
  | zero => rfl
  | succ n ih =>
    rw [loop, loop, hstep s hs]
    split
    · rfl
    · rfl
    · exact ih (hInv s _ hs ‹_›)

/-- A loop whose steps lower a measure is never stuck, though a step of it may fail. -/
theorem loop_settles (stuck : ε) {α : Type*} {lt : α → α → Prop} (wf : WellFounded lt)
    {μ : σ → α} (hstep : ∀ s, Inv s →
      step s ≠ .error stuck ∧ ∀ t, step s = .ok (some t) → Inv t ∧ lt (μ t) (μ s))
    (hs : Inv s) : ∃ r n, r ≠ .error stuck ∧ ∀ m, n ≤ m → loop step stuck m s = r := by
  induction h : μ s using wf.induction generalizing s with
  | _ a ih =>
    subst h
    obtain ⟨hstuck, hnext⟩ := hstep s hs
    cases hst : step s with
    | error e =>
      refine ⟨.error e, 1, fun h => hstuck (by cases h; exact hst), fun m hm => ?_⟩
      obtain ⟨k, rfl⟩ := Nat.exists_eq_add_of_le' hm
      rw [loop, hst]
    | ok o =>
      cases o with
      | none =>
        refine ⟨.ok s, 1, nofun, fun m hm => ?_⟩
        obtain ⟨k, rfl⟩ := Nat.exists_eq_add_of_le' hm
        rw [loop, hst]
      | some t =>
        obtain ⟨ht, hlt⟩ := hnext t hst
        obtain ⟨r, n, hr, hloop⟩ := ih _ hlt ht rfl
        refine ⟨r, n + 1, hr, fun m hm => ?_⟩
        obtain ⟨k, rfl⟩ := Nat.exists_eq_add_of_le' hm
        rw [← Nat.add_assoc, loop, hst]
        exact hloop _ (Nat.le_add_left n k)

end VariOCL.Sim
