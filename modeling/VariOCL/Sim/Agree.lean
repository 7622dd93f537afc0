import VariOCL.Sim.Proc

/-! Computations on two memories that agree on the cells they access. -/

namespace VariOCL.Sim

section
variable {V : Type} [DecidableEq V]

/-- What a computation reads determines what it does. -/
theorem Proc.run_of_replay {p : Proc V} {m m₁ m' m₁' : Cells V V} {v : V} {as : List (Access V)}
    (h : p.run m = some (v, m₁, as)) (hr : Replay Access.Acts m' as m₁') :
    p.run m' = some (v, m₁', as) := by
  induction p generalizing m m' as with
  | ret w =>
    cases h
    cases hr
    rfl
  | load a k ih =>
    obtain ⟨w, hw, h⟩ := Option.bind_eq_some_iff.mp h
    obtain ⟨⟨u, m₂, as₁⟩, hk, heq⟩ := Option.map_eq_some_iff.mp h
    cases heq
    cases hr with
    | cons hx hr =>
      cases hx with
      | load hw' => rw [run, hw', Option.bind_some, ih w hk hr, Option.map_some]
  | store a w k ih =>
    obtain ⟨⟨u, m₂, as₁⟩, hk, heq⟩ := Option.map_eq_some_iff.mp h
    cases heq
    cases hr with
    | cons hx hr =>
      cases hx with
      | store _ _ => rw [run, ih hk hr, Option.map_some]
  | atomic a f k ih =>
    obtain ⟨w, hw, h⟩ := Option.bind_eq_some_iff.mp h
    obtain ⟨⟨u, m₂, as₁⟩, hk, heq⟩ := Option.map_eq_some_iff.mp h
    cases heq
    cases hr with
    | cons hx hr =>
      cases hx with
      | atomic _ hw' => rw [run, hw', Option.bind_some, ih w hk hr, Option.map_some]
  | sync args k ih =>
    obtain ⟨⟨u, m₂, as₁⟩, hk, heq⟩ := Option.map_eq_some_iff.mp h
    cases heq
    cases hr with
    | cons hx hr =>
      cases hx with
      | sync _ => rw [run, ih hk hr, Option.map_some]

/-- Two memories with the same cells in `P`. -/
def Cells.AgreeOn (P : V → Prop) (m m' : Cells V V) : Prop := ∀ a, P a → m' a = m a

theorem Cells.AgreeOn.set {P : V → Prop} {m m' : Cells V V} (h : AgreeOn P m m') (a v : V) :
    AgreeOn P (m.set a v) (m'.set a v) := by
  intro b hb
  by_cases hab : b = a
  · subst hab
    simp
  · rw [set_ne _ _ hab, set_ne _ _ hab, h b hb]

/-- Accesses within `P` depend on the cells of `P` alone, and change no other. -/
theorem replay_agreeOn {P : V → Prop} {m m₁ m' : Cells V V} {as : List (Access V)}
    (h : Replay Access.Acts m as m₁) (hP : ∀ x ∈ as, ∀ a, x.address = some a → P a)
    (hm : m.AgreeOn P m') : ∃ m₁', Replay Access.Acts m' as m₁' ∧ m₁.AgreeOn P m₁' ∧
      ∀ a, ¬ P a → m₁' a = m' a := by
  induction h generalizing m' with
  | nil m => exact ⟨m', .nil m', hm, fun _ _ => rfl⟩
  | cons hx _ ih =>
    obtain ⟨hPx, hPxs⟩ := List.forall_mem_cons.mp hP
    have hoff : ∀ {a v : V}, P a → ∀ b, ¬ P b → m'.set a v b = m' b := fun ha b hb =>
      Cells.set_ne _ _ fun hab => hb (hab ▸ ha)
    cases hx with
    | load ha =>
      obtain ⟨m₁', hr, hag, hkeep⟩ := ih hPxs hm
      exact ⟨m₁', .cons (.load ((hm _ (hPx _ rfl)).trans ha)) hr, hag, hkeep⟩
    | store a v =>
      obtain ⟨m₁', hr, hag, hkeep⟩ := ih hPxs (hm.set a v)
      exact ⟨m₁', .cons (.store _ a v) hr, hag, fun b hb =>
        (hkeep b hb).trans (hoff (hPx a rfl) b hb)⟩
    | atomic new ha =>
      obtain ⟨m₁', hr, hag, hkeep⟩ := ih hPxs (hm.set _ new)
      exact ⟨m₁', .cons (.atomic new ((hm _ (hPx _ rfl)).trans ha)) hr, hag, fun b hb =>
        (hkeep b hb).trans (hoff (hPx _ rfl) b hb)⟩
    | sync args =>
      obtain ⟨m₁', hr, hag, hkeep⟩ := ih hPxs hm
      exact ⟨m₁', .cons (.sync _ args) hr, hag, hkeep⟩

end

end VariOCL.Sim
