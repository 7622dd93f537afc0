import Mathlib.Logic.Basic

/-! Computations with a state that never fail with one given error. -/

namespace VariOCL.Sim

variable {σ ε α β : Type} {e : ε}

/-- From a state of `P`, `x` does not fail with `e`, and it returns what satisfies `R`, in a state
of `P`. -/
def Avoids (P : σ → Prop) (e : ε) (x : StateT σ (Except ε) α) (R : α → Prop) : Prop :=
  ∀ s, P s → x s ≠ .error e ∧ ∀ a t, x s = .ok (a, t) → P t ∧ R a

section
variable {P : σ → Prop} {x : StateT σ (Except ε) α} {R : α → Prop} {S : β → Prop}

theorem Avoids.pure (a : α) (h : R a) : Avoids P e (Pure.pure a) R := by
  refine fun s hs => ⟨nofun, ?_⟩
  rintro b t ⟨⟩
  exact ⟨hs, h⟩

theorem Avoids.throw {e' : ε} (h : e' ≠ e) :
    Avoids P e (MonadExcept.throw e' : StateT σ (Except ε) α) R :=
  fun _ _ => ⟨fun h' => h (Except.error.inj h'), nofun⟩

theorem Avoids.bind {f : α → StateT σ (Except ε) β} (hx : Avoids P e x R)
    (hf : ∀ a, R a → Avoids P e (f a) S) : Avoids P e (x >>= f) S := by
  intro s hs
  have hbind : (x >>= f) s = (x s).bind fun p => f p.1 p.2 := rfl
  rw [hbind]
  obtain ⟨hxs, hR⟩ := hx s hs
  cases h : x s with
  | error e' => exact ⟨fun h' => hxs (h.trans (congrArg _ (Except.error.inj h'))), nofun⟩
  | ok p =>
    obtain ⟨hP, ha⟩ := hR p.1 p.2 h
    exact hf p.1 ha p.2 hP

theorem Avoids.post (h : Avoids P e x R) {R' : α → Prop} (hR : ∀ a, R a → R' a) :
    Avoids P e x R' :=
  fun s hs => ⟨(h s hs).1, fun a t ht => ((h s hs).2 a t ht).imp_right (hR a)⟩

theorem Avoids.get : Avoids P e (MonadState.get : StateT σ (Except ε) σ) P := by
  refine fun s hs => ⟨nofun, ?_⟩
  rintro a t ⟨⟩
  exact ⟨hs, hs⟩

theorem Avoids.modify {f : σ → σ} (h : ∀ s, P s → P (f s)) :
    Avoids (ε := ε) P e (modifyGet fun s => (PUnit.unit, f s)) fun _ => True := by
  refine fun s hs => ⟨nofun, ?_⟩
  rintro a t ⟨⟩
  exact ⟨h s hs, trivial⟩

theorem Avoids.forM {f : α → StateT σ (Except ε) PUnit} {l : List α}
    (h : ∀ a ∈ l, Avoids P e (f a) fun _ => True) : Avoids P e (l.forM f) fun _ => True := by
  induction l with
  | nil => exact .pure _ trivial
  | cons a l ih =>
    exact (h a List.mem_cons_self).bind fun _ _ => ih fun a ha => h a (List.mem_cons_of_mem _ ha)

theorem Avoids.mapM {f : α → StateT σ (Except ε) β} {l : List α}
    (h : ∀ a ∈ l, Avoids P e (f a) fun _ => True) :
    Avoids P e (l.mapM f) fun bs => bs.length = l.length := by
  induction l with
  | nil => exact .pure [] rfl
  | cons a l ih =>
    rw [List.mapM_cons]
    refine (h a List.mem_cons_self).bind fun b _ => ?_
    refine (ih fun a ha => h a (List.mem_cons_of_mem _ ha)).bind fun bs hbs => ?_
    exact .pure _ (congrArg (· + 1) hbs)

/-- The result of a fold has a property from the turn on that gives it. -/
theorem Avoids.foldlM_mem {f : β → α → StateT σ (Except ε) β} {l : List α} {a : α} (b : β)
    (ha : a ∈ l) (hf : ∀ b, ∀ a ∈ l, Avoids P e (f b a) fun b' => S b → S b')
    (hS : ∀ b, Avoids P e (f b a) S) : Avoids P e (l.foldlM f b) S := by
  have hkeep : ∀ l' ⊆ l, ∀ b, S b → Avoids P e (l'.foldlM f b) S := by
    intro l'
    induction l' with
    | nil => exact fun _ b hb => .pure b hb
    | cons c l' ih =>
      intro hl b hb
      rw [List.foldlM_cons]
      refine (hf b c (hl List.mem_cons_self)).bind fun b' hb' => ?_
      exact ih (fun d hd => hl (List.mem_cons_of_mem _ hd)) b' (hb' hb)
  induction l generalizing b with
  | nil => cases ha
  | cons c l ih =>
    rw [List.foldlM_cons]
    have htl := List.subset_cons_self c l
    rcases List.mem_cons.mp ha with rfl | hal
    · exact (hS b).bind fun b' hb' => hkeep l htl b' hb'
    · refine (hf b c List.mem_cons_self).bind fun b' _ => ?_
      exact ih b' hal (fun b d hd => hf b d (htl hd)) fun l' hl' => hkeep l' (List.Subset.trans hl' htl)

end

end VariOCL.Sim
