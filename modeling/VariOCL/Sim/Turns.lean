import Mathlib.Data.List.Forall2
import VariOCL.Sim.Proc

/-! Threads that take turns on what they share, and what holds of all of them because it holds of
each one and the others leave it alone. -/

namespace VariOCL.Sim

/-- The same kept events, and no other ones than those of `Q`. -/
def Follows {ε : Type*} (keep : ε → Bool) (Q : ε → Prop) (es es' : List ε) : Prop :=
  es'.filter keep = es.filter keep ∧ ∀ x ∈ es', x ∈ es ∨ Q x

section
variable {ε : Type*} {keep : ε → Bool} {Q : ε → Prop} {es es' fs fs' : List ε}

theorem Follows.refl (es : List ε) : Follows keep Q es es := ⟨rfl, fun _ hx => .inl hx⟩

theorem Follows.append (h : Follows keep Q es es') (h' : Follows keep Q fs fs') :
    Follows keep Q (es ++ fs) (es' ++ fs') := by
  refine ⟨by rw [List.filter_append, List.filter_append, h.1, h'.1], fun x hx => ?_⟩
  rcases List.mem_append.mp hx with hx | hx
  · exact (h.2 x hx).imp_left (List.mem_append_left _)
  · exact (h'.2 x hx).imp_left (List.mem_append_right _)

theorem follows_nil (h : ∀ x ∈ es, keep x = false ∧ Q x) : Follows keep Q [] es :=
  ⟨List.filter_eq_nil_iff.mpr fun x hx => Bool.eq_false_iff.mp (h x hx).1,
    fun x hx => .inr (h x hx).2⟩

theorem follows_filter {p : ε → Bool} (es : List ε) (h : ∀ x, p x = false → keep x = false) :
    Follows keep Q es (es.filter p) := by
  refine ⟨?_, fun x hx => .inl (List.mem_filter.mp hx).1⟩
  rw [List.filter_filter]
  refine List.filter_congr fun x _ => ?_
  cases hp : p x with
  | true => exact Bool.and_true _
  | false => rw [Bool.and_false, h x hp]

end

section
variable {ι ε : Type*} {keep : ε → Bool} {Q : ι → ε → Prop} {ts ts' : List (ι × List ε)}

/-- What is kept of each turn. -/
def keptTurns (keep : ε → Bool) (ts : List (ι × List ε)) : List (ι × List ε) :=
  ts.map fun x => (x.1, x.2.filter keep)

/-- The same threads take turns, and each one does in its turn what it did. -/
def FollowTurns (keep : ε → Bool) (Q : ι → ε → Prop) :
    List (ι × List ε) → List (ι × List ε) → Prop :=
  List.Forall₂ fun x x' => x'.1 = x.1 ∧ Follows keep (Q x.1) x.2 x'.2

theorem FollowTurns.keptTurns (h : FollowTurns keep Q ts ts') :
    keptTurns keep ts' = keptTurns keep ts := by
  induction h with
  | nil => rfl
  | cons h _ ih => exact congrArg₂ List.cons (Prod.ext h.1 h.2.1) ih

theorem FollowTurns.of_mem (h : FollowTurns keep Q ts ts') {x' : ι × List ε} (hx' : x' ∈ ts') :
    ∃ x ∈ ts, Follows keep (Q x.1) x.2 x'.2 := by
  induction h with
  | nil => cases hx'
  | cons h _ ih =>
    rcases List.mem_cons.mp hx' with rfl | hx'
    · exact ⟨_, List.mem_cons_self, h.2⟩
    · obtain ⟨x, hx, hf⟩ := ih hx'
      exact ⟨x, List.mem_cons_of_mem _ hx, hf⟩

end

/-- What each thread has of its own, and what all of them share. -/
structure Threads (ι L S : Type*) where
  own : ι → L
  shared : S

section
variable {ι L S L' S' ε : Type*} [DecidableEq ι]

/-- One thread makes a step. -/
inductive Turn (step : ι → L × S → List ε → L × S → Prop) :
    Threads ι L S → ι × List ε → Threads ι L S → Prop
  | intro {c : Threads ι L S} {i : ι} {es : List ε} {l : L} {s : S} :
      step i (c.own i, c.shared) es (l, s) → Turn step c (i, es) ⟨Function.update c.own i l, s⟩

variable {step : ι → L × S → List ε → L × S → Prop} {step' : ι → L' × S' → List ε → L' × S' → Prop}
  {ok : ε → Prop} {keep : ε → Bool} {Q : ι → ε → Prop} {R : ι → L × S → L' × S' → Prop}

/-- A step of `i` is followed by one of the other system, and keeps what holds of the others. -/
def Together (step : ι → L × S → List ε → L × S → Prop)
    (step' : ι → L' × S' → List ε → L' × S' → Prop) (ok : ε → Prop) (keep : ε → Bool)
    (Q : ι → ε → Prop) (R : ι → L × S → L' × S' → Prop) : Prop :=
  ∀ i c c' es d, R i c c' → step i c es d → (∀ x ∈ es, ok x) →
    ∃ es' d', step' i c' es' d' ∧ Follows keep (Q i) es es' ∧ R i d d' ∧
      ∀ j, j ≠ i → ∀ l l', R j (l, c.2) (l', c'.2) → R j (l, d.2) (l', d'.2)

variable {c d : Threads ι L S} {t : Threads ι L' S'} {x : ι × List ε} {ts : List (ι × List ε)}

theorem Together.turn (h : Together step step' ok keep Q R) (hx : Turn step c x d)
    (hok : ∀ y ∈ x.2, ok y) (hR : ∀ i, R i (c.own i, c.shared) (t.own i, t.shared)) :
    ∃ x' d', Turn step' t x' d' ∧ x'.1 = x.1 ∧ Follows keep (Q x.1) x.2 x'.2 ∧
      ∀ i, R i (d.own i, d.shared) (d'.own i, d'.shared) := by
  cases hx with
  | @intro i es l s hx =>
    obtain ⟨es', d', hx', hf, hi, hothers⟩ := h i _ _ es _ (hR i) hx hok
    refine ⟨_, _, .intro hx', rfl, hf, fun j => ?_⟩
    by_cases hji : j = i
    · subst hji
      simpa using hi
    · simpa [hji] using hothers j hji _ _ (hR j)

theorem Together.run (h : Together step step' ok keep Q R) (hr : Replay (Turn step) c ts d)
    (hok : ∀ x ∈ ts, ∀ y ∈ x.2, ok y) (hR : ∀ i, R i (c.own i, c.shared) (t.own i, t.shared)) :
    ∃ ts' d', Replay (Turn step') t ts' d' ∧ FollowTurns keep Q ts ts' ∧
      ∀ i, R i (d.own i, d.shared) (d'.own i, d'.shared) := by
  induction hr generalizing t with
  | nil => exact ⟨[], t, .nil t, List.Forall₂.nil, hR⟩
  | cons hx _ ih =>
    obtain ⟨hok₁, hok₂⟩ := List.forall_mem_cons.mp hok
    obtain ⟨x', d₁, hx', hi, hf, hR₁⟩ := h.turn hx hok₁ hR
    obtain ⟨ts', d₂, hr', hfs, hR₂⟩ := ih hok₂ hR₁
    exact ⟨x' :: ts', d₂, .cons hx' hr', List.Forall₂.cons ⟨hi, hf⟩ hfs, hR₂⟩

end

end VariOCL.Sim
