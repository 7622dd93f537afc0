import Mathlib.Logic.Basic

/-! Computations with a bound on the depth of their recursion that settle: from some bound on they
give one result, and it is not the failure of a bound too small. -/

namespace VariOCL.Sim

variable {σ ε α β : Type} {stuck : ε} {s t : σ}

/-- From `s` the computations `x n` settle, and what they return satisfies `Q`. -/
def Settles (stuck : ε) (x : Nat → StateT σ (Except ε) α) (s : σ) (Q : α → σ → Prop) : Prop :=
  ∃ n r, r ≠ .error stuck ∧ (∀ m, n ≤ m → x m s = r) ∧ ∀ a t, r = .ok (a, t) → Q a t

section
variable {Q R : α → σ → Prop} {S : β → σ → Prop} {x : Nat → StateT σ (Except ε) α}

theorem Settles.post (h : Settles stuck x s Q) (hQR : ∀ a t, Q a t → R a t) :
    Settles stuck x s R := by
  obtain ⟨n, r, hr, hx, hQ⟩ := h
  exact ⟨n, r, hr, hx, fun a t hat => hQR a t (hQ a t hat)⟩

theorem Settles.of_ok {a : α} (h : ∀ n, x n s = .ok (a, t)) (hQ : Q a t) :
    Settles stuck x s Q := by
  refine ⟨0, .ok (a, t), nofun, fun n _ => h n, ?_⟩
  rintro b u ⟨⟩
  exact hQ

theorem Settles.of_error {e : ε} (h : ∀ n, x n s = .error e) (he : e ≠ stuck) :
    Settles stuck x s Q :=
  ⟨0, .error e, fun h => he (Except.error.inj h), fun n _ => h n, nofun⟩

theorem Settles.pure (a : α) (hQ : Q a s) : Settles stuck (fun _ => Pure.pure a) s Q :=
  .of_ok (fun _ => rfl) hQ

/-- The bound counts the calls below the outermost one. -/
theorem Settles.succ (h : Settles stuck (fun n => x (n + 1)) s Q) : Settles stuck x s Q := by
  obtain ⟨n, r, hr, hx, hQ⟩ := h
  refine ⟨n + 1, r, hr, fun m hm => ?_, hQ⟩
  obtain ⟨k, rfl⟩ : ∃ k, m = k + 1 := ⟨m - 1, by omega⟩
  exact hx k (Nat.le_of_succ_le_succ hm)

theorem Settles.bind {f : Nat → α → StateT σ (Except ε) β} (h : Settles stuck x s R)
    (hf : ∀ a t, R a t → Settles stuck (fun n => f n a) t S) :
    Settles stuck (fun n => x n >>= f n) s S := by
  obtain ⟨n, r, hr, hx, hR⟩ := h
  have hbind : ∀ m, (x m >>= f m) s = (x m s).bind fun p => f m p.1 p.2 := fun _ => rfl
  cases r with
  | error e =>
    refine ⟨n, .error e, fun h => hr (congrArg _ (Except.error.inj h)), fun m hm => ?_, nofun⟩
    exact (hbind m).trans (by rw [hx m hm]; rfl)
  | ok p =>
    obtain ⟨k, r, hr', hf', hS⟩ := hf p.1 p.2 (hR _ _ rfl)
    refine ⟨n + k, r, hr', fun m hm => ?_, hS⟩
    apply (hbind m).trans
    rw [hx m (by omega)]
    exact hf' m (by omega)

theorem Settles.get {f : Nat → σ → StateT σ (Except ε) β} (h : Settles stuck (fun n => f n s) s S) :
    Settles stuck (fun n => MonadState.get >>= f n) s S := h

theorem Settles.modify {f : σ → σ} {S : PUnit → σ → Prop} (h : S ⟨⟩ (f s)) :
    Settles stuck (fun _ => modifyGet fun s => (PUnit.unit, f s)) s S :=
  .of_ok (fun _ => rfl) h

end

section
variable {P : σ → Prop}

theorem Settles.mapM {f : Nat → α → StateT σ (Except ε) β} {l : List α}
    (h : ∀ a ∈ l, ∀ s, P s → Settles stuck (fun n => f n a) s fun _ => P) (hs : P s) :
    Settles stuck (fun n => l.mapM (f n)) s fun _ => P := by
  induction l generalizing s with
  | nil => exact .pure [] hs
  | cons a l ih =>
    have hcons : (fun n => (a :: l).mapM (f n)) = fun n => f n a >>= fun b =>
        l.mapM (f n) >>= fun bs => Pure.pure (b :: bs) := funext fun n => List.mapM_cons
    rw [hcons]
    refine (h a List.mem_cons_self s hs).bind fun b t ht => ?_
    exact (ih (fun a ha => h a (List.mem_cons_of_mem _ ha)) ht).bind fun bs u hu => .pure _ hu

theorem Settles.forM {f : Nat → α → StateT σ (Except ε) PUnit} {l : List α}
    (h : ∀ a ∈ l, ∀ s, P s → Settles stuck (fun n => f n a) s fun _ => P) (hs : P s) :
    Settles stuck (fun n => l.forM (f n)) s fun _ => P := by
  induction l generalizing s with
  | nil => exact .pure _ hs
  | cons a l ih =>
    exact (h a List.mem_cons_self s hs).bind fun _ t ht =>
      ih (fun a ha => h a (List.mem_cons_of_mem _ ha)) ht

/-- The invariant of a fold may speak of the elements that are left. -/
theorem Settles.foldlM {I : List α → σ → Prop} {f : Nat → β → α → StateT σ (Except ε) β}
    {l : List α} {b : β}
    (h : ∀ a l b s, I (a :: l) s → Settles stuck (fun n => f n b a) s fun _ => I l) (hs : I l s) :
    Settles stuck (fun n => l.foldlM (f n) b) s fun _ => I [] := by
  induction l generalizing b s with
  | nil => exact .pure b hs
  | cons a l ih => exact (h a l b s hs).bind fun b' t ht => ih ht

end

end VariOCL.Sim
