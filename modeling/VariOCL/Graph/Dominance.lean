import VariOCL.Graph.Dfs
import Mathlib.Data.Nat.Find
import Mathlib.Data.List.Chain
import Mathlib.Data.List.Perm.Subperm

/-! Dominance, back edges and reducibility of a rooted directed graph. -/

universe u

namespace VariOCL.Graph

open Relation (ReflTransGen TransGen)

variable {V : Type u} {edge : V → V → Prop} {r a b c d u v w : V}

/-- `b` is reached from `a` without meeting `d`. -/
def Avoiding (edge : V → V → Prop) (d a b : V) : Prop :=
  a ≠ d ∧ ReflTransGen (fun x y => edge x y ∧ y ≠ d) a b

/-- Every path from the root `r` to `b` contains `d`. -/
def Dominates (edge : V → V → Prop) (r d b : V) : Prop :=
  ∀ p : List V, (r :: p).IsChain edge → (r :: p).getLast (List.cons_ne_nil r p) = b → d ∈ r :: p

def StrictlyDominates (edge : V → V → Prop) (r d b : V) : Prop :=
  Dominates edge r d b ∧ d ≠ b

def BackEdge (edge : V → V → Prop) (r u v : V) : Prop := edge u v ∧ Dominates edge r v u

def ForwardEdge (edge : V → V → Prop) (r u v : V) : Prop := edge u v ∧ ¬ Dominates edge r v u

/-- What is left without the back edges has no cycle. -/
def Reducible (edge : V → V → Prop) (r : V) : Prop := ∀ v, ¬ TransGen (ForwardEdge edge r) v v

namespace Avoiding

theorem ne (h : Avoiding edge d a b) : b ≠ d := by
  obtain ⟨ha, hw⟩ := h
  induction hw with
  | refl => exact ha
  | tail _ hy _ => exact hy.2

theorem walk (h : Avoiding edge d a b) : ReflTransGen edge a b :=
  ReflTransGen.mono (fun _ _ h => h.1) _ _ h.2

theorem tail (h : Avoiding edge d a b) (he : edge b c) (hc : c ≠ d) : Avoiding edge d a c :=
  ⟨h.1, h.2.tail ⟨he, hc⟩⟩

theorem trans (h : Avoiding edge d a b) (h' : Avoiding edge d b c) : Avoiding edge d a c :=
  ⟨h.1, h.2.trans h'.2⟩

theorem refl (h : a ≠ d) : Avoiding edge d a a := ⟨h, .refl⟩

end Avoiding

theorem Avoiding.of_chain {p : List V} (hchain : (a :: p).IsChain edge)
    (hlast : (a :: p).getLast (List.cons_ne_nil a p) = b) (hd : d ∉ a :: p) :
    Avoiding edge d a b := by
  induction p generalizing a with
  | nil =>
    cases hlast
    exact .refl fun h => hd (by simp [h])
  | cons x p ih =>
    rw [List.isChain_cons_cons] at hchain
    have hx := ih hchain.2 (by simpa using hlast) (fun h => hd (List.mem_cons_of_mem _ h))
    have ha : a ≠ d := fun h => hd (by simp [h])
    exact ((Avoiding.refl ha).tail hchain.1 hx.1).trans hx

theorem Avoiding.chain (h : Avoiding edge d a b) :
    ∃ p : List V, (a :: p).IsChain edge ∧
      (a :: p).getLast (List.cons_ne_nil a p) = b ∧ d ∉ a :: p := by
  obtain ⟨ha, hw⟩ := h
  induction hw using ReflTransGen.head_induction_on with
  | refl => exact ⟨[], .singleton _, rfl, by simpa using ha.symm⟩
  | @head x y hxy _ ih =>
    obtain ⟨p, hchain, hlast, hd⟩ := ih hxy.2
    refine ⟨y :: p, List.isChain_cons_cons.mpr ⟨hxy.1, hchain⟩, by simpa using hlast, ?_⟩
    intro h
    rcases List.mem_cons.mp h with rfl | h
    · exact ha rfl
    · exact hd h

theorem dominates_iff : Dominates edge r d b ↔ ¬ Avoiding edge d r b := by
  constructor
  · intro h hav
    obtain ⟨p, hchain, hlast, hd⟩ := hav.chain
    exact hd (h p hchain hlast)
  · intro h p hchain hlast
    by_contra hd
    exact h (.of_chain hchain hlast hd)

theorem not_dominates : ¬ Dominates edge r d b ↔ Avoiding edge d r b := by
  rw [dominates_iff, not_not]

@[simp] theorem Dominates.refl : Dominates edge r b b :=
  dominates_iff.mpr fun h => h.ne rfl

@[simp] theorem Dominates.root : Dominates edge r r b :=
  dominates_iff.mpr fun h => h.1 rfl

theorem Dominates.of_unreachable (h : ¬ ReflTransGen edge r b) : Dominates edge r d b :=
  dominates_iff.mpr fun hav => h hav.walk

theorem Avoiding.split (h : ReflTransGen edge a b) (ha : a ≠ d) :
    Avoiding edge d a b ∨ ReflTransGen edge a d := by
  induction h with
  | refl => exact .inl (.refl ha)
  | @tail x y hw hxy ih =>
    rcases ih with ih | ih
    · by_cases hy : y = d
      · exact .inr (hy ▸ hw.tail hxy)
      · exact .inl (ih.tail hxy hy)
    · exact .inr ih

theorem Dominates.reach (h : Dominates edge r d b) (hb : ReflTransGen edge r b) :
    ReflTransGen edge r d := by
  by_cases hr : r = d
  · exact hr ▸ .refl
  · exact (Avoiding.split hb hr).resolve_left (dominates_iff.mp h)

/-- The last visit of `d` on a walk from `a` to `b`: what follows avoids `d`. -/
theorem Avoiding.suffix (h : ReflTransGen edge a b) :
    Avoiding edge d a b ∨ b = d ∨ ∃ x, edge d x ∧ Avoiding edge d x b := by
  induction h with
  | refl =>
    by_cases ha : a = d
    · exact .inr (.inl ha)
    · exact .inl (.refl ha)
  | @tail x y hw hxy ih =>
    by_cases hy : y = d
    · exact .inr (.inl hy)
    · rcases ih with ih | rfl | ⟨z, hz, ih⟩
      · exact .inl (ih.tail hxy hy)
      · exact .inr (.inr ⟨y, hxy, .refl hy⟩)
      · exact .inr (.inr ⟨z, hz, ih.tail hxy hy⟩)

theorem Dominates.trans (h : Dominates edge r a b) (h' : Dominates edge r b c) :
    Dominates edge r a c := by
  rw [dominates_iff] at *
  intro hav
  by_cases hrb : r = b
  · subst hrb
    exact h (.refl hav.1)
  · refine h' ⟨hrb, ?_⟩
    obtain ⟨hr, hw⟩ := hav
    clear h'
    induction hw with
    | refl => exact .refl
    | @tail x y hw hxy ih =>
      refine ih.tail ⟨hxy.1, ?_⟩
      rintro rfl
      exact h ⟨hr, hw.tail hxy⟩

/-- A predecessor of `v` reached without `d` carries the walk on to `v`. -/
theorem Dominates.pred (h : Dominates edge r d v) (hne : v ≠ d) (he : edge u v) :
    Dominates edge r d u := by
  rw [dominates_iff] at *
  exact fun hav => h (hav.tail he hne)

theorem Dominates.antisymm (h : Dominates edge r a b) (h' : Dominates edge r b a)
    (ha : ReflTransGen edge r a) : a = b := by
  by_contra hne
  rw [dominates_iff] at h h'
  by_cases hr : r = b
  · subst hr
    exact h (.refl fun h => hne h.symm)
  have key : ∀ x, ReflTransGen edge r x → Avoiding edge b r x ∨ Avoiding edge a r b := by
    intro x hx
    induction hx with
    | refl => exact .inl (.refl hr)
    | @tail x y hw hxy ih =>
      rcases ih with ih | ih
      · by_cases hy : y = b
        · subst hy
          by_cases hra : r = a
          · subst hra; exact absurd (Avoiding.refl hr) h'
          · refine .inr ?_
            have hx : Avoiding edge a r x := by
              obtain ⟨_, hw'⟩ := ih
              refine ⟨hra, ?_⟩
              clear hw hxy
              induction hw' with
              | refl => exact .refl
              | @tail p q hp hpq ih =>
                refine (ih).tail ⟨hpq.1, ?_⟩
                rintro rfl
                exact h' ⟨hr, hp.tail hpq⟩
            exact hx.tail hxy (fun h => hne h.symm)
        · exact .inl (ih.tail hxy hy)
      · exact .inr ih
  rcases key a ha with h1 | h1
  · exact h' h1
  · exact h h1

/-- `b` is reached from `a` by exactly `n` edges. -/
inductive WalkN (edge : V → V → Prop) (a : V) : Nat → V → Prop
  | refl : WalkN edge a 0 a
  | tail {n : Nat} {b c : V} : WalkN edge a n b → edge b c → WalkN edge a (n + 1) c

theorem WalkN.walk {n : Nat} (h : WalkN edge a n b) : ReflTransGen edge a b := by
  induction h with
  | refl => exact .refl
  | tail _ he ih => exact ih.tail he

theorem exists_walkN (h : ReflTransGen edge a b) : ∃ n, WalkN edge a n b := by
  induction h with
  | refl => exact ⟨0, .refl⟩
  | tail _ he ih =>
    obtain ⟨n, hn⟩ := ih
    exact ⟨n + 1, hn.tail he⟩

theorem WalkN.avoiding_or_le {n : Nat} (h : WalkN edge a n b) :
    Avoiding edge d a b ∨ ∃ m, m ≤ n ∧ WalkN edge a m d := by
  induction h with
  | refl =>
    by_cases ha : a = d
    · exact .inr ⟨0, Nat.le_refl 0, ha ▸ .refl⟩
    · exact .inl (.refl ha)
  | @tail n x y hw hxy ih =>
    rcases ih with ih | ⟨m, hm, hwd⟩
    · by_cases hy : y = d
      · exact .inr ⟨n + 1, Nat.le_refl _, hy ▸ hw.tail hxy⟩
      · exact .inl (ih.tail hxy hy)
    · exact .inr ⟨m, Nat.le_succ_of_le hm, hwd⟩

/-- A shortest walk has no back edge, so a dominator reaches what it dominates by forward edges. -/
theorem Dominates.forward (h : Dominates edge r d b) (hb : ReflTransGen edge r b) :
    ReflTransGen (ForwardEdge edge r) d b := by
  classical
  have key : ∀ n b, WalkN edge r n b → (∀ m, m < n → ¬ WalkN edge r m b) →
      Dominates edge r d b → ReflTransGen (ForwardEdge edge r) d b := by
    intro n
    induction n using Nat.strong_induction_on with
    | _ n ih =>
      intro b hw hmin hdom
      by_cases hbd : b = d
      · exact hbd ▸ .refl
      cases hw with
      | refl => exact absurd (dominates_iff.mp hdom (.refl hbd)) id
      | @tail n u _ hu hub =>
        have hfwd : ForwardEdge edge r u b := by
          refine ⟨hub, fun hback => ?_⟩
          rcases hu.avoiding_or_le (d := b) with hav | ⟨m, hm, hwm⟩
          · exact dominates_iff.mp hback hav
          · exact hmin m (Nat.lt_succ_of_le hm) hwm
        have hex : ∃ k, WalkN edge r k u := ⟨n, hu⟩
        have hle : Nat.find hex ≤ n := Nat.find_min' hex hu
        have hdu := ih (Nat.find hex) (Nat.lt_succ_of_le hle) u (Nat.find_spec hex)
          (fun m hm => Nat.find_min hex hm) (hdom.pred hbd hub)
        exact hdu.tail hfwd
  have hex := exists_walkN hb
  exact key (Nat.find hex) b (Nat.find_spec hex) (fun m hm => Nat.find_min hex hm) h

theorem reach_forward (hb : ReflTransGen edge r b) : ReflTransGen (ForwardEdge edge r) r b :=
  Dominates.root.forward hb

theorem forward_walk (h : ReflTransGen (ForwardEdge edge r) a b) : ReflTransGen edge a b :=
  ReflTransGen.mono (fun _ _ h => h.1) _ _ h

end VariOCL.Graph
