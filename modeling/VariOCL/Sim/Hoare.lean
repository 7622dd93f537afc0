import Mathlib.Logic.Basic

/-! Partial correctness of computations with a state that may fail. -/

namespace VariOCL.Sim

variable {σ ε α β : Type} {P Q : σ → Prop} {x : StateT σ (Except ε) α}

/-- From a state of `P`, if `x` returns `a` then in a state of `Q a`. -/
def Triple (P : σ → Prop) (x : StateT σ (Except ε) α) (Q : α → σ → Prop) : Prop :=
  ∀ ⦃s a s'⦄, P s → x s = .ok (a, s') → Q a s'

theorem Triple.pre {R : α → σ → Prop} (h : Triple P x R) (hPQ : ∀ s, Q s → P s) : Triple Q x R :=
  fun _ _ _ hs hx => h (hPQ _ hs) hx

theorem Triple.post {R S : α → σ → Prop} (h : Triple P x R) (hRS : ∀ a s, R a s → S a s) :
    Triple P x S := fun _ _ _ hs hx => hRS _ _ (h hs hx)

theorem Triple.pure {R : α → σ → Prop} (a : α) (h : ∀ s, P s → R a s) :
    Triple (ε := ε) P (Pure.pure a) R := by
  intro s b s' hs hx
  cases hx
  exact h s hs

theorem Triple.throw {R : α → σ → Prop} (e : ε) :
    Triple P (MonadExcept.throw e : StateT σ (Except ε) α) R := fun _ _ _ _ hx => by cases hx

theorem Triple.bind {R : α → σ → Prop} {S : β → σ → Prop} {f : α → StateT σ (Except ε) β}
    (hx : Triple P x R) (hf : ∀ a, Triple (R a) (f a) S) : Triple P (x >>= f) S := by
  intro s b s' hs h
  change (x s).bind _ = _ at h
  cases hxs : x s with
  | error e =>
    rw [hxs] at h
    cases h
  | ok r =>
    rw [hxs] at h
    exact hf r.1 (hx hs hxs) h

/-- What reads the state goes on with it. -/
theorem get_bind (f : σ → StateT σ (Except ε) α) (s : σ) : (MonadState.get >>= f) s = f s s := rfl

theorem Triple.get (P : σ → Prop) :
    Triple (ε := ε) P MonadState.get fun a s => a = s ∧ P s := by
  intro s a s' hs h
  cases h
  exact ⟨rfl, hs⟩

theorem Triple.modify {f : σ → σ} (h : ∀ s, P s → Q (f s)) :
    Triple (ε := ε) P (modifyGet fun s => (PUnit.unit, f s)) fun _ => Q := by
  intro s a s' hs hx
  cases hx
  exact h s hs

theorem Triple.mapM {f : α → StateT σ (Except ε) β} {l : List α}
    (h : ∀ a ∈ l, Triple P (f a) fun _ => P) : Triple P (l.mapM f) fun _ => P := by
  induction l with
  | nil => exact .pure [] fun _ hs => hs
  | cons a l ih =>
    rw [List.mapM_cons]
    refine .bind (h a List.mem_cons_self) fun b => .bind (ih fun a ha => ?_) fun bs =>
      .pure _ fun _ hs => hs
    exact h a (List.mem_cons_of_mem _ ha)

/-- An invariant of the state, and one of the value that is folded. -/
theorem Triple.foldlM_value {I : β → Prop} {f : β → α → StateT σ (Except ε) β} {l : List α} {b : β}
    (hb : I b) (h : ∀ b, I b → ∀ a ∈ l, Triple P (f b a) fun b' s => P s ∧ I b') :
    Triple P (l.foldlM f b) fun b' s => P s ∧ I b' := by
  induction l generalizing b with
  | nil => exact .pure b fun _ hs => ⟨hs, hb⟩
  | cons a l ih =>
    rw [List.foldlM_cons]
    refine .bind (h b hb a List.mem_cons_self) fun b' => ?_
    rintro s c s' ⟨hs, hb'⟩ hx
    exact ih hb' (fun b hb a ha => h b hb a (List.mem_cons_of_mem _ ha)) hs hx

theorem Triple.foldlM {f : β → α → StateT σ (Except ε) β} {l : List α} (b : β)
    (h : ∀ b, ∀ a ∈ l, Triple P (f b a) fun _ => P) : Triple P (l.foldlM f b) fun _ => P := by
  have hvalue : Triple P (l.foldlM f b) fun _ s => P s ∧ True :=
    .foldlM_value trivial fun b _ a ha => (h b a ha).post fun _ _ hs => ⟨hs, trivial⟩
  exact hvalue.post fun _ _ hs => hs.1

theorem Triple.forM {f : α → StateT σ (Except ε) PUnit} {l : List α}
    (h : ∀ a ∈ l, Triple P (f a) fun _ => P) : Triple P (l.forM f) fun _ => P := by
  induction l with
  | nil => exact .pure _ fun _ hs => hs
  | cons a l ih =>
    exact .bind (h a List.mem_cons_self) fun _ => ih fun a ha => h a (List.mem_cons_of_mem _ ha)

/-- One element establishes what all others keep. -/
theorem Triple.forM_mem {f : α → StateT σ (Except ε) PUnit} {l : List α} {a : α} (ha : a ∈ l)
    (hP : ∀ b ∈ l, Triple P (f b) fun _ => P) (hPQ : Triple P (f a) fun _ => Q)
    (hQ : ∀ b ∈ l, Triple Q (f b) fun _ => Q) : Triple P (l.forM f) fun _ => Q := by
  induction l with
  | nil => cases ha
  | cons b l ih =>
    have htl := fun c hc => hP c (List.mem_cons_of_mem _ hc)
    have htl' := fun c hc => hQ c (List.mem_cons_of_mem _ hc)
    rcases List.mem_cons.mp ha with rfl | hal
    · exact .bind hPQ fun _ => .forM htl'
    · exact .bind (hP b List.mem_cons_self) fun _ => ih hal htl htl'

theorem Triple.allM {p : α → StateT σ (Except ε) Bool} {R : α → Prop} {l : List α}
    (h : ∀ a ∈ l, Triple P (p a) fun u s => P s ∧ (u = true → R a)) :
    Triple P (l.allM p) fun u s => P s ∧ (u = true → ∀ a ∈ l, R a) := by
  induction l with
  | nil => exact .pure true fun _ hs => ⟨hs, fun _ _ ha => absurd ha List.not_mem_nil⟩
  | cons a l ih =>
    refine .bind (h a List.mem_cons_self) fun u => ?_
    cases u with
    | false => exact .pure false fun _ hs => ⟨hs.1, nofun⟩
    | true =>
      rintro s u s' ⟨hs, ha⟩ hx
      obtain ⟨hs', hl⟩ := ih (fun b hb => h b (List.mem_cons_of_mem _ hb)) hs hx
      exact ⟨hs', fun hu => List.forall_mem_cons.mpr ⟨ha rfl, hl hu⟩⟩

/-- A test that the result passes shows that there is one. -/
theorem exists_ok_of_any {ε α : Type} {r : Except ε α} {test : α → Bool}
    (h : r.toOption.any test = true) : ∃ a, r = .ok a ∧ test a = true := by
  cases r with
  | error e => cases h
  | ok a => exact ⟨a, rfl, h⟩

end VariOCL.Sim
