import Mathlib.Logic.Relation
import Mathlib.Data.List.Basic
import Mathlib.Data.List.Nodup
import Mathlib.Order.Basic
import Mathlib.Tactic.Common

/-! Depth-first search over a graph given by adjacency lists. -/

universe u

namespace VariOCL.Graph

variable {V : Type u}

abbrev Reach (adj : V → List V) : V → V → Prop :=
  Relation.ReflTransGen (fun x y => y ∈ adj x)

theorem countP_lt_countP {α : Type*} {p q : α → Bool} {l : List α} {a : α}
    (h : ∀ x ∈ l, p x = true → q x = true) (ha : a ∈ l) (hq : q a = true) (hp : p a = false) :
    l.countP p < l.countP q := by
  obtain ⟨as, bs, rfl⟩ := List.append_of_mem ha
  have has := List.countP_mono_left fun x hx => h x (List.mem_append_left _ hx)
  have hbs := List.countP_mono_left fun x hx =>
    h x (List.mem_append_right as (List.mem_cons_of_mem a hx))
  rw [List.countP_append, List.countP_append, List.countP_cons_of_pos hq,
    List.countP_cons_of_neg (by simp [hp])]
  omega

/-- A search order: every vertex after the first has its parent among the earlier ones. -/
inductive SearchTree (adj : V → List V) (v : V) : List V → Prop
  | root : SearchTree adj v [v]
  | snoc {t : List V} {x y : V} : SearchTree adj v t → x ∈ t → y ∈ adj x →
      SearchTree adj v (t ++ [y])

theorem SearchTree.append {adj : V → List V} {v c : V} {s t : List V}
    (hs : SearchTree adj v s) (hc : v ∈ s → ∃ x ∈ s, c ∈ adj x) (hv : v ∈ s)
    (ht : SearchTree adj c t) : SearchTree adj v (s ++ t) := by
  induction ht with
  | root =>
    obtain ⟨x, hx, hcx⟩ := hc hv
    exact .snoc hs hx hcx
  | snoc _ hx hy ih =>
    rw [← List.append_assoc]
    exact .snoc ih (List.mem_append_right _ hx) hy

theorem SearchTree.root_mem {adj : V → List V} {v : V} {t : List V} (h : SearchTree adj v t) :
    v ∈ t := by
  induction h with
  | root => exact List.mem_singleton_self v
  | snoc _ _ _ ih => exact List.mem_append_left _ ih

theorem SearchTree.reach {adj : V → List V} {v : V} {t : List V} (h : SearchTree adj v t) :
    ∀ x ∈ t, Reach adj v x := by
  induction h with
  | root => intro x hx; rw [List.mem_singleton.mp hx]
  | snoc _ hx hy ih =>
    intro z hz
    rcases List.mem_append.mp hz with hz | hz
    · exact ih z hz
    · rw [List.mem_singleton.mp hz]
      exact (ih _ hx).tail hy

/-- The path down the search tree to a vertex uses only vertices listed before it. -/
theorem SearchTree.path {adj : V → List V} {v : V} {t : List V} (h : SearchTree adj v t) :
    ∀ {s r : List V} {c : V}, t = s ++ c :: r → v ∈ s ++ [c] ∧
      Relation.ReflTransGen (fun x y => y ∈ adj x ∧ x ∈ s ++ [c] ∧ y ∈ s ++ [c]) v c := by
  induction h with
  | root =>
    intro s r c hsplit
    rcases List.singleton_eq_append_iff.mp hsplit with ⟨rfl, h⟩ | ⟨_, h⟩
    · cases h
      exact ⟨by simp, .refl⟩
    · cases h
  | @snoc t x y ht hx hy ih =>
    intro s r c hsplit
    rcases List.eq_nil_or_concat r with rfl | ⟨r', z, rfl⟩
    · obtain ⟨rfl, hyc⟩ := List.append_inj' hsplit rfl
      cases hyc
      have hv : v ∈ t ++ [y] := List.mem_append_left _ ht.root_mem
      refine ⟨hv, ?_⟩
      obtain ⟨s₁, r₁, rfl⟩ := List.append_of_mem hx
      have hmono : ∀ a, a ∈ s₁ ++ [x] → a ∈ s₁ ++ x :: r₁ ++ [y] := by
        intro a ha; simp only [List.mem_append, List.mem_cons] at ha ⊢; tauto
      have hup : Relation.ReflTransGen (fun a b =>
          b ∈ adj a ∧ a ∈ s₁ ++ x :: r₁ ++ [y] ∧ b ∈ s₁ ++ x :: r₁ ++ [y]) v x :=
        Relation.ReflTransGen.mono
          (fun a b hab => ⟨hab.1, hmono a hab.2.1, hmono b hab.2.2⟩) _ _ (ih rfl).2
      exact hup.tail ⟨hy, by simp, by simp⟩
    · have : t = s ++ c :: r' := by
        have h' : t ++ [y] = (s ++ c :: r') ++ [z] := by simpa using hsplit
        exact (List.append_inj' h' rfl).1
      exact ih this

variable [DecidableEq V]

/-- The vertices seen before, then the new ones in the order of their first visit. -/
def visit (adj : V → List V) : Nat → List V → V → List V
  | 0, seen, _ => seen
  | n + 1, seen, v =>
    if v ∈ seen then seen else (adj v).foldl (visit adj n) (seen ++ [v])

def unseen (nodes seen : List V) : Nat := (nodes.filter (· ∉ seen)).length

theorem unseen_mono {nodes s t : List V} (h : s ⊆ t) : unseen nodes t ≤ unseen nodes s := by
  apply List.Sublist.length_le
  refine List.monotone_filter_right nodes (fun x hx => ?_)
  simp only [decide_eq_true_eq] at hx ⊢
  exact fun hs => hx (h hs)

theorem unseen_lt {nodes s : List V} {v : V} (hv : v ∈ nodes) (hs : v ∉ s) :
    unseen nodes (s ++ [v]) < unseen nodes s := by
  induction nodes with
  | nil => cases hv
  | cons x xs ih =>
    have hle : unseen xs (s ++ [v]) ≤ unseen xs s := unseen_mono (by simp)
    by_cases hx : x = v
    · subst hx
      simp only [unseen, List.filter_cons, List.mem_append, List.mem_singleton, or_true,
        not_true_eq_false, decide_false, hs, not_false_eq_true, decide_true] at hle ⊢
      simpa using Nat.lt_succ_of_le (by simpa using hle)
    · have hlt := ih (by simpa [Ne.symm hx] using hv)
      by_cases hxs : x ∈ s
      · simpa [unseen, List.filter_cons, hxs] using hlt
      · simpa [unseen, List.filter_cons, hxs, hx] using hlt

theorem unseen_le_length (nodes seen : List V) : unseen nodes seen ≤ nodes.length :=
  List.length_filter_le _ _

structure VisitSpec (adj : V → List V) (seen : List V) (v : V) (out new : List V) : Prop where
  split : out = seen ++ new
  fresh : ∀ x ∈ new, x ∉ seen
  nodup : new.Nodup
  tree : new = [] ∧ v ∈ seen ∨ SearchTree adj v new
  closed : ∀ x ∈ new, ∀ y ∈ adj x, y ∈ out

/-- The fold of the search over the children of `v`, `v` itself being already listed. -/
structure VisitAllSpec (adj : V → List V) (seen : List V) (v : V) (cs out new : List V) :
    Prop where
  split : out = seen ++ v :: new
  fresh : ∀ x ∈ v :: new, x ∉ seen
  nodup : (v :: new).Nodup
  tree : SearchTree adj v (v :: new)
  children : ∀ c ∈ cs, c ∈ out
  closed : ∀ x ∈ new, ∀ y ∈ adj x, y ∈ out

theorem visitAll_spec {adj : V → List V} {nodes : List V} {n : Nat} {seen : List V} {v : V}
    (hadj : ∀ x ∈ nodes, ∀ y ∈ adj x, y ∈ nodes)
    (hvisit : ∀ (s : List V) (c : V), c ∈ nodes → unseen nodes s ≤ n →
      ∃ new, VisitSpec adj s c (visit adj n s c) new)
    (hv : v ∈ nodes) (hn : unseen nodes (seen ++ [v]) ≤ n) :
    ∀ (cs done prev : List V), (∀ c ∈ cs, c ∈ adj v) →
      VisitAllSpec adj seen v done (seen ++ v :: prev) prev →
      ∃ new, VisitAllSpec adj seen v (done ++ cs)
        (cs.foldl (visit adj n) (seen ++ v :: prev)) new := by
  intro cs
  induction cs with
  | nil => intro done prev _ h; exact ⟨prev, by simpa using h⟩
  | cons c cs ih =>
    intro done prev hcs h
    have hc : c ∈ adj v := hcs c List.mem_cons_self
    have hsub' : seen ++ [v] ⊆ seen ++ v :: prev := by
      intro x hx
      simp only [List.mem_append, List.mem_cons, List.not_mem_nil, or_false] at hx ⊢
      tauto
    have hle : unseen nodes (seen ++ v :: prev) ≤ n := Nat.le_trans (unseen_mono hsub') hn
    obtain ⟨t, ht⟩ := hvisit (seen ++ v :: prev) c (hadj v hv c hc) hle
    have hout : visit adj n (seen ++ v :: prev) c = seen ++ v :: (prev ++ t) := by
      rw [ht.split]; simp
    have hcout : c ∈ visit adj n (seen ++ v :: prev) c := by
      rcases ht.tree with ⟨rfl, hcs⟩ | htree
      · rw [ht.split]; simpa using hcs
      · rw [ht.split]; exact List.mem_append_right _ htree.root_mem
    have hsub : ∀ x ∈ seen ++ v :: prev, x ∈ seen ++ v :: (prev ++ t) := by
      intro x hx; simp only [List.mem_append, List.mem_cons] at hx ⊢; tauto
    have hstep : VisitAllSpec adj seen v (done ++ [c]) (seen ++ v :: (prev ++ t)) (prev ++ t) := by
      refine ⟨rfl, ?_, ?_, ?_, ?_, ?_⟩
      · intro x hx
        simp only [List.mem_cons, List.mem_append] at hx
        rcases hx with rfl | hx | hx
        · exact h.fresh x List.mem_cons_self
        · exact h.fresh x (List.mem_cons_of_mem _ hx)
        · exact fun hs => ht.fresh x hx (List.mem_append_left _ hs)
      · rw [← List.cons_append, List.nodup_append]
        refine ⟨h.nodup, ht.nodup, ?_⟩
        rintro x hx y hy rfl
        exact ht.fresh x hy (List.mem_append_right _ hx)
      · rcases ht.tree with ⟨rfl, _⟩ | htree
        · simpa using h.tree
        · have := h.tree.append (fun _ => ⟨v, List.mem_cons_self, hc⟩) List.mem_cons_self htree
          simpa using this
      · intro x hx
        rcases List.mem_append.mp hx with hx | hx
        · exact hsub x (h.children x hx)
        · rw [List.mem_singleton.mp hx, ← hout]; exact hcout
      · intro x hx y hy
        rcases List.mem_append.mp hx with hx | hx
        · exact hsub y (h.closed x hx y hy)
        · rw [← hout]; exact ht.closed x hx y hy
    obtain ⟨new, hnew⟩ := ih (done ++ [c]) (prev ++ t)
      (fun d hd => hcs d (List.mem_cons_of_mem _ hd)) hstep
    refine ⟨new, ?_⟩
    simpa [hout] using hnew

theorem visit_spec {adj : V → List V} {nodes : List V}
    (hadj : ∀ x ∈ nodes, ∀ y ∈ adj x, y ∈ nodes) :
    ∀ (n : Nat) (seen : List V) (v : V), v ∈ nodes → unseen nodes seen ≤ n →
      ∃ new, VisitSpec adj seen v (visit adj n seen v) new := by
  intro n
  induction n with
  | zero =>
    intro seen v hv hn
    have hseen : v ∈ seen := by
      by_contra hs
      exact absurd (unseen_lt hv hs) (by omega)
    exact ⟨[], by simp [visit], by simp, by simp, .inl ⟨rfl, hseen⟩, by simp⟩
  | succ n ih =>
    intro seen v hv hn
    by_cases hs : v ∈ seen
    · exact ⟨[], by simp [visit, hs], by simp, by simp, .inl ⟨rfl, hs⟩, by simp⟩
    · have hlt := unseen_lt hv hs
      have hbase : VisitAllSpec adj seen v [] (seen ++ [v]) [] :=
        ⟨rfl, by simpa using hs, by simp, .root, by simp, by simp⟩
      obtain ⟨new, h⟩ := visitAll_spec hadj ih hv (by omega) (adj v) [] [] (fun _ h => h) hbase
      refine ⟨v :: new, ?_⟩
      simp only [visit, hs, if_false]
      refine ⟨h.split, h.fresh, h.nodup, .inr h.tree, ?_⟩
      intro x hx y hy
      rcases List.mem_cons.mp hx with rfl | hx
      · exact h.children y (by simpa using hy)
      · exact h.closed x hx y hy

/-- The search from one vertex, with enough fuel for every vertex of `nodes`. -/
def reachFrom (adj : V → List V) (nodes : List V) (v : V) : List V :=
  visit adj nodes.length [] v

theorem reachFrom_spec {adj : V → List V} {nodes : List V}
    (hadj : ∀ x ∈ nodes, ∀ y ∈ adj x, y ∈ nodes) {v : V} (hv : v ∈ nodes) :
    VisitSpec adj [] v (reachFrom adj nodes v) (reachFrom adj nodes v) := by
  obtain ⟨new, h⟩ := visit_spec hadj nodes.length [] v hv (unseen_le_length _ _)
  have : reachFrom adj nodes v = new := by simpa [reachFrom] using h.split
  rw [← this] at h
  exact h

theorem reachFrom_searchTree {adj : V → List V} {nodes : List V}
    (hadj : ∀ x ∈ nodes, ∀ y ∈ adj x, y ∈ nodes) {v : V} (hv : v ∈ nodes) :
    SearchTree adj v (reachFrom adj nodes v) := by
  rcases (reachFrom_spec hadj hv).tree with ⟨_, h⟩ | h
  · cases h
  · exact h

theorem mem_reachFrom {adj : V → List V} {nodes : List V}
    (hadj : ∀ x ∈ nodes, ∀ y ∈ adj x, y ∈ nodes) {v w : V} (hv : v ∈ nodes) :
    w ∈ reachFrom adj nodes v ↔ Reach adj v w := by
  constructor
  · exact (reachFrom_searchTree hadj hv).reach w
  · intro h
    induction h with
    | refl => exact (reachFrom_searchTree hadj hv).root_mem
    | tail _ hy ih => exact (reachFrom_spec hadj hv).closed _ ih _ hy

end VariOCL.Graph
