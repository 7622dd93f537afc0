import Mathlib.Data.Set.Image

/-! Finite runs of a transition system that emits events, and simulations that agree on the events
a filter keeps. -/

namespace VariOCL.Sim

variable {σ τ ε : Type*}

inductive Run (step : σ → List ε → σ → Prop) : σ → List ε → σ → Prop
  | refl (s : σ) : Run step s [] s
  | head {s t u : σ} {es es' : List ε} : step s es t → Run step t es' u → Run step s (es ++ es') u

theorem Run.single {step : σ → List ε → σ → Prop} {s t : σ} {es : List ε} (h : step s es t) :
    Run step s es t := by
  simpa using Run.head h (.refl t)

theorem Run.trans {step : σ → List ε → σ → Prop} {s t u : σ} {es es' : List ε}
    (h : Run step s es t) (h' : Run step t es' u) : Run step s (es ++ es') u := by
  induction h with
  | refl => exact h'
  | head hs _ ih => simpa using Run.head hs (ih h')

/-- The event sequences of the runs from `s`. -/
def traces (step : σ → List ε → σ → Prop) (s : σ) : Set (List ε) := {es | ∃ t, Run step s es t}

/-- The traces from `s` with the events outside `keep` erased. -/
def keptTraces (keep : ε → Bool) (step : σ → List ε → σ → Prop) (s : σ) : Set (List ε) :=
  List.filter keep '' traces step s

/-- Each step from a related state is matched by a run with the same kept events. -/
def Simulates (keep : ε → Bool) (R : σ → τ → Prop) (step : σ → List ε → σ → Prop)
    (step' : τ → List ε → τ → Prop) : Prop :=
  ∀ ⦃s t es s'⦄, R s t → step s es s' →
    ∃ es' t', Run step' t es' t' ∧ es'.filter keep = es.filter keep ∧ R s' t'

section
variable {keep : ε → Bool} {R : σ → τ → Prop} {step : σ → List ε → σ → Prop}
  {step' : τ → List ε → τ → Prop}

theorem Simulates.run (h : Simulates keep R step step') {s s' : σ} {es : List ε}
    (hr : Run step s es s') :
    ∀ {t}, R s t → ∃ es' t', Run step' t es' t' ∧ es'.filter keep = es.filter keep ∧ R s' t' := by
  induction hr with
  | refl => exact fun {t} ht => ⟨[], t, .refl t, rfl, ht⟩
  | head hs _ ih =>
    intro t ht
    obtain ⟨es₁, t₁, hr₁, he₁, hR₁⟩ := h ht hs
    obtain ⟨es₂, t₂, hr₂, he₂, hR₂⟩ := ih hR₁
    exact ⟨es₁ ++ es₂, t₂, hr₁.trans hr₂, by simp [he₁, he₂], hR₂⟩

theorem Simulates.keptTraces_subset (h : Simulates keep R step step') {s : σ} {t : τ}
    (hR : R s t) : keptTraces keep step s ⊆ keptTraces keep step' t := by
  rintro _ ⟨es, ⟨s', hr⟩, rfl⟩
  obtain ⟨es', t', hr', he, -⟩ := h.run hr hR
  exact ⟨es', ⟨t', hr'⟩, he⟩

theorem keptTraces_eq (h : Simulates keep R step step')
    (h' : Simulates keep (fun t s => R s t) step' step) {s : σ} {t : τ} (hR : R s t) :
    keptTraces keep step s = keptTraces keep step' t :=
  (h.keptTraces_subset hR).antisymm (h'.keptTraces_subset hR)

/-- A filter that keeps every event of the system erases nothing. -/
theorem keptTraces_of_forall {s : σ} {I : σ → Prop} (hs : I s)
    (hkeep : ∀ s es t, I s → step s es t → I t ∧ ∀ e ∈ es, keep e) :
    keptTraces keep step s = traces step s := by
  have key : ∀ {s es t}, Run step s es t → I s → es.filter keep = es := by
    intro s es t hr
    induction hr with
    | refl => exact fun _ => rfl
    | head h _ ih =>
      intro hI
      obtain ⟨hI', he⟩ := hkeep _ _ _ hI h
      rw [List.filter_append, ih hI', List.filter_eq_self.mpr he]
  ext es
  constructor
  · rintro ⟨es', ⟨t, hr⟩, rfl⟩
    exact ⟨t, by rwa [key hr hs]⟩
  · rintro ⟨t, hr⟩
    exact ⟨es, ⟨t, hr⟩, key hr hs⟩

end

end VariOCL.Sim
