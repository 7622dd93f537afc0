import Mathlib.Data.List.Basic
import VariOCL.Sim.Turns

/-! Steps that can change places, and threads that go one after the other where they do not meet in
the memory they share. -/

namespace VariOCL.Sim

section
variable {σ ε κ : Type*} [DecidableEq κ] {acts : σ → ε → σ → Prop} {s u : σ} {x : ε}
  {xs ys zs : List ε} {key : ε → κ} {ks : List κ}

/-- What is done first can as well be done second. -/
def Swaps (acts : σ → ε → σ → Prop) (x y : ε) : Prop :=
  ∀ s t u, acts s x t → acts t y u → ∃ t', acts s y t' ∧ acts t' x u

theorem Replay.split (h : Replay acts s (xs ++ ys) u) :
    ∃ t, Replay acts s xs t ∧ Replay acts t ys u := by
  induction xs generalizing s with
  | nil => exact ⟨s, .nil s, h⟩
  | cons x xs ih =>
    cases h with
    | cons hx h =>
      obtain ⟨t, hxs, hys⟩ := ih h
      exact ⟨t, .cons hx hxs, hys⟩

theorem Replay.postpone (h : ∀ y ∈ ys, Swaps acts x y) (hr : Replay acts s (x :: (ys ++ zs)) u) :
    Replay acts s (ys ++ x :: zs) u := by
  induction ys generalizing s with
  | nil => exact hr
  | cons y ys ih =>
    obtain ⟨hy, hys⟩ := List.forall_mem_cons.mp h
    cases hr with
    | cons hx hr =>
      cases hr with
      | cons hy' hr =>
        obtain ⟨t, hyt, hxt⟩ := hy _ _ _ hx hy'
        exact .cons hyt (ih hys (.cons hxt hr))

/-- What `p` accepts comes first. -/
theorem Replay.partition {p : ε → Bool}
    (h : xs.Pairwise fun x y => p x = false → p y = true → Swaps acts x y)
    (hr : Replay acts s xs u) :
    Replay acts s (xs.filter p ++ xs.filter fun x => !p x) u := by
  induction hr with
  | nil s => exact .nil s
  | @cons s t u x xs hx _ ih =>
    obtain ⟨hfirst, hrest⟩ := List.pairwise_cons.mp h
    have ih := ih hrest
    cases hp : p x with
    | true => simpa [hp] using Replay.cons hx ih
    | false =>
      have hlate := Replay.postpone (fun y hy => hfirst y (List.mem_filter.mp hy).1 hp
        (List.mem_filter.mp hy).2) (.cons hx ih)
      simpa [hp] using hlate

/-- What has the key `k`, for one key after the other. -/
def inOrder (key : ε → κ) (ks : List κ) (xs : List ε) : List ε :=
  ks.flatMap fun k => xs.filter fun x => key x = k

theorem mem_of_mem_inOrder (h : x ∈ inOrder key ks xs) : x ∈ xs := by
  obtain ⟨k, -, h⟩ := List.mem_flatMap.mp h
  exact (List.mem_filter.mp h).1

theorem Replay.inOrder (hks : ks.Nodup) (hall : ∀ x ∈ xs, key x ∈ ks)
    (h : xs.Pairwise fun x y => key x ≠ key y → Swaps acts x y) (hr : Replay acts s xs u) :
    Replay acts s (inOrder key ks xs) u := by
  induction ks generalizing s xs with
  | nil =>
    cases xs with
    | nil => exact hr
    | cons x xs => cases hall x List.mem_cons_self
  | cons k ks ih =>
    obtain ⟨hk, hks⟩ := List.nodup_cons.mp hks
    have hfirst := hr.partition (p := fun x => key x = k) (h.imp fun hswap hx hy =>
      hswap fun heq => of_decide_eq_false hx (heq.trans (of_decide_eq_true hy)))
    obtain ⟨t, hr₁, hr₂⟩ := hfirst.split
    have hothers : ∀ l ∈ ks, (xs.filter fun x => !decide (key x = k)).filter (fun x => key x = l) =
        xs.filter fun x => key x = l := by
      intro l hl
      rw [List.filter_filter]
      refine List.filter_congr fun x _ => ?_
      by_cases hxl : key x = l
      · have hne : key x ≠ k := fun heq => hk (heq ▸ hxl ▸ hl)
        simp [hxl, hxl ▸ hne]
      · simp [hxl]
    have hrest := ih hks (fun x hx => ?_) (h.sublist List.filter_sublist) hr₂
    · have hsame : Sim.inOrder key ks (xs.filter fun x => !decide (key x = k)) =
          Sim.inOrder key ks xs := List.flatMap_congr hothers
      rw [hsame] at hrest
      exact hr₁.append hrest
    · obtain ⟨hx, hne⟩ := List.mem_filter.mp hx
      exact (List.mem_cons.mp (hall x hx)).resolve_left (by simpa using hne)

/-- One stretch after the other. -/
theorem Replay.stretches {xss : List (List ε)} (hks : ks.Nodup)
    (hall : ∀ xs ∈ xss, ∀ x ∈ xs, key x ∈ ks)
    (h : ∀ xs ∈ xss, xs.Pairwise fun x y => key x ≠ key y → Swaps acts x y)
    (hr : Replay acts s xss.flatten u) : Replay acts s (xss.flatMap (Sim.inOrder key ks)) u := by
  induction xss generalizing s with
  | nil => exact hr
  | cons xs xss ih =>
    obtain ⟨hall₁, hall₂⟩ := List.forall_mem_cons.mp hall
    obtain ⟨h₁, h₂⟩ := List.forall_mem_cons.mp h
    obtain ⟨t, hr₁, hr₂⟩ := Replay.split hr
    exact (hr₁.inOrder hks hall₁ h₁).append (ih hall₂ h₂ hr₂)

end

/-! ### Threads on one memory -/

section
variable {ι L α V ε : Type*}

/-- A step depends on the cells it uses, and changes those of them that it writes. -/
structure Confined (uses writes : ε → α → Prop)
    (step : ι → L × (α → V) → List ε → L × (α → V) → Prop) : Prop where
  uses_of_writes : ∀ x a, writes x a → uses x a
  frame : ∀ i l l' m m' es, step i (l, m) es (l', m') → ∀ a, (∀ x ∈ es, ¬ writes x a) → m' a = m a
  congr : ∀ i l l' m m' n es, step i (l, m) es (l', m') →
    (∀ a, (∃ x ∈ es, uses x a) → n a = m a) →
    ∃ n', step i (l, n) es (l', n') ∧ ∀ a, (∃ x ∈ es, uses x a) → n' a = m' a

/-- Neither of them writes what the other one uses. -/
def Apart (uses writes : ε → α → Prop) (es fs : List ε) : Prop :=
  ∀ x ∈ es, ∀ y ∈ fs, ∀ a, (writes x a → ¬ uses y a) ∧ (uses x a → ¬ writes y a)

/-- The turns of different threads are apart. -/
def RaceFree (uses writes : ε → α → Prop) (ts : List (ι × List ε)) : Prop :=
  ts.Pairwise fun x y => x.1 ≠ y.1 → Apart uses writes x.2 y.2

section
variable {uses writes : ε → α → Prop}
  {step : ι → L × (α → V) → List ε → L × (α → V) → Prop} {i j : ι} {l l' k k' : L}
  {m m₁ m₂ : α → V} {es fs : List ε}

/-- Steps that are apart change places, and leave the same memory. -/
theorem Confined.commute (h : Confined uses writes step) (ha : Apart uses writes es fs)
    (hx : step i (l, m) es (l', m₁)) (hy : step j (k, m₁) fs (k', m₂)) :
    ∃ n, step j (k, m) fs (k', n) ∧ step i (l, n) es (l', m₂) := by
  have hxfs : ∀ a, (∃ y ∈ fs, uses y a) → m a = m₁ a := by
    rintro a ⟨y, hy, hya⟩
    exact (h.frame _ _ _ _ _ _ hx a fun x hx hxa => (ha x hx y hy a).1 hxa hya).symm
  obtain ⟨n, hy', hn⟩ := h.congr _ _ _ _ _ m _ hy hxfs
  have hyes : ∀ a, (∃ x ∈ es, uses x a) → n a = m a := by
    rintro a ⟨x, hx, hxa⟩
    exact h.frame _ _ _ _ _ _ hy' a fun y hy hya => (ha x hx y hy a).2 hxa hya
  obtain ⟨n', hx', hn'⟩ := h.congr _ _ _ _ _ n _ hx hyes
  have hend : n' = m₂ := by
    funext a
    have hframe := h.frame _ _ _ _ _ _ hx' a
    have hes := h.frame _ _ _ _ _ _ hx a
    by_cases hxa : ∃ x ∈ es, uses x a
    · obtain ⟨x, hx, hxa⟩ := hxa
      have hfs := h.frame _ _ _ _ _ _ hy a fun y hy hya => (ha x hx y hy a).2 hxa hya
      exact (hn' a ⟨x, hx, hxa⟩).trans hfs.symm
    · have hno : ∀ x ∈ es, ¬ writes x a := fun x hx hw => hxa ⟨x, hx, h.uses_of_writes x a hw⟩
      refine (hframe hno).trans ?_
      by_cases hya : ∃ y ∈ fs, uses y a
      · exact hn a hya
      · have hno' : ∀ y ∈ fs, ¬ writes y a := fun y hy hw => hya ⟨y, hy, h.uses_of_writes y a hw⟩
        calc
          n a = m a := h.frame _ _ _ _ _ _ hy' a hno'
          _ = m₁ a := (hes hno).symm
          _ = m₂ a := (h.frame _ _ _ _ _ _ hy a hno').symm
  exact ⟨n, hy', hend ▸ hx'⟩

variable [DecidableEq ι] {x y : ι × List ε}

theorem Confined.swaps (h : Confined uses writes step) (hne : x.1 ≠ y.1)
    (ha : Apart uses writes x.2 y.2) : Swaps (Turn step) x y := by
  rintro ⟨own, m⟩ t u hx hy
  cases hx with
  | @intro i es l m₁ hx =>
    cases hy with
    | @intro j fs k m₂ hy =>
      have hj : Function.update own i l j = own j := Function.update_of_ne (Ne.symm hne) ..
      have hi : Function.update own j k i = own i := Function.update_of_ne hne ..
      have hy : step j (own j, m₁) fs (k, m₂) := hj ▸ hy
      obtain ⟨n, hy', hx'⟩ := h.commute ha hx hy
      have hx' : step i (Function.update own j k i, n) es (l, m₂) := hi.symm ▸ hx'
      have hcomm : Function.update (Function.update own i l) j k =
          Function.update (Function.update own j k) i l := Function.update_comm hne ..
      refine ⟨⟨Function.update own j k, n⟩, .intro hy', ?_⟩
      rw [hcomm]
      exact .intro hx'

end

variable [DecidableEq ι] {uses writes : ε → α → Prop}
  {step : ι → L × (α → V) → List ε → L × (α → V) → Prop} {order : List ι}
  {tss : List (List (ι × List ε))} {c d : Threads ι L (α → V)}

/-- One thread after the other. -/
def serial (order : List ι) (ts : List (ι × List ε)) : List (ι × List ε) :=
  inOrder Prod.fst order ts

/-- Where the threads do not race, they may go one after the other, in any order. -/
theorem Confined.serial (h : Confined uses writes step) (hnodup : order.Nodup)
    (hall : ∀ i, i ∈ order) (hfree : ∀ ts ∈ tss, RaceFree uses writes ts)
    (hr : Replay (Turn step) c tss.flatten d) :
    Replay (Turn step) c (tss.flatMap (Sim.serial order)) d := by
  refine hr.stretches hnodup (fun _ _ x _ => hall x.1) fun ts hts => ?_
  refine List.Pairwise.imp ?_ (hfree ts hts)
  intro x y ha hne
  exact h.swaps hne (ha hne)

end

end VariOCL.Sim
