import Mathlib.Data.Option.Basic

/-! Partial maps, and computations that access a memory of cells one access at a time. -/

namespace VariOCL.Sim

abbrev Cells (A V : Type*) := A → Option V

section
variable {A V : Type*}

def Cells.set [DecidableEq A] (m : Cells A V) (a : A) (v : V) : Cells A V :=
  fun x => if x = a then some v else m x

/-- The cells of `m`, and those of `r` where `m` has none. -/
def Cells.onto (m r : Cells A V) : Cells A V := fun a => (m a).or (r a)

def Cells.Le (m m' : Cells A V) : Prop := ∀ a v, m a = some v → m' a = some v

@[simp] theorem Cells.set_self [DecidableEq A] (m : Cells A V) (a : A) (v : V) :
    m.set a v a = some v := if_pos rfl

theorem Cells.set_ne [DecidableEq A] {a x : A} (m : Cells A V) (v : V) (h : x ≠ a) :
    m.set a v x = m x := if_neg h

theorem Cells.isSome_set [DecidableEq A] {m : Cells A V} {a x : A} {v : V}
    (h : x = a ∨ (m x).isSome) : (m.set a v x).isSome := by
  by_cases hx : x = a
  · rw [hx, set_self]
    rfl
  · rw [set_ne _ _ hx]
    exact h.resolve_left hx

theorem Cells.set_onto [DecidableEq A] (m r : Cells A V) (a : A) (v : V) :
    (m.set a v).onto r = (m.onto r).set a v := by
  funext x
  by_cases hx : x = a
  · subst hx
    simp [onto]
  · simp [onto, set_ne _ _ hx]

theorem Cells.onto_eq_some {m : Cells A V} {a : A} {v : V} (h : m a = some v) (r : Cells A V) :
    m.onto r a = some v := by rw [onto, h, Option.some_or]

theorem Cells.Le.onto_eq {m r : Cells A V} (h : m.Le r) : m.onto r = r := by
  funext a
  cases hm : m a with
  | none => rw [onto, hm, Option.none_or]
  | some v => rw [onto_eq_some hm, h a v hm]

end

/-! ### Replaying what was done -/

section
variable {σ ε : Type*} {acts : σ → ε → σ → Prop}

inductive Replay (acts : σ → ε → σ → Prop) : σ → List ε → σ → Prop
  | nil (s : σ) : Replay acts s [] s
  | cons {s t u : σ} {x : ε} {xs : List ε} :
      acts s x t → Replay acts t xs u → Replay acts s (x :: xs) u

theorem Replay.append {s t u : σ} {xs ys : List ε} (h : Replay acts s xs t)
    (h' : Replay acts t ys u) : Replay acts s (xs ++ ys) u := by
  induction h with
  | nil => exact h'
  | cons hx _ ih => exact .cons hx (ih h')

theorem Replay.single {s t : σ} {x : ε} (h : acts s x t) : Replay acts s [x] t := .cons h (.nil t)

/-- What no replayed step changes is not changed. -/
theorem Replay.eq_of_forall {α : Sort*} {f : σ → α} {s t : σ} {xs : List ε}
    (h : Replay acts s xs t) (hf : ∀ x ∈ xs, ∀ s t, acts s x t → f t = f s) : f t = f s := by
  induction h with
  | nil => rfl
  | cons hx _ ih =>
    exact (ih fun y hy => hf y (List.mem_cons_of_mem _ hy)).trans (hf _ List.mem_cons_self _ _ hx)

/-- What agrees at the start, or is set on the way, agrees at the end. -/
theorem Replay.agree {α : Sort*} {s t s' t' : σ} {xs : List ε} (h : Replay acts s xs t)
    (h' : Replay acts s' xs t') (f : σ → α) (sets : ε → Prop)
    (hf : ∀ x s t s' t', acts s x t → acts s' x t' → f s = f s' ∨ sets x → f t = f t')
    (heq : f s = f s' ∨ ∃ x ∈ xs, sets x) : f t = f t' := by
  induction h generalizing s' with
  | nil =>
    cases h'
    exact heq.resolve_right fun ⟨x, hx, _⟩ => List.not_mem_nil hx
  | cons hx _ ih =>
    cases h' with
    | cons hx' h' =>
      refine ih h' ?_
      rcases heq with heq | ⟨y, hy, hset⟩
      · exact .inl (hf _ _ _ _ _ hx hx' (.inl heq))
      · rcases List.mem_cons.mp hy with rfl | hy
        · exact .inl (hf _ _ _ _ _ hx hx' (.inr hset))
        · exact .inr ⟨y, hy, hset⟩

end

/-! ### Memory accesses -/

section
variable {V : Type}

inductive Access (V : Type)
  | load (a v : V)
  | store (a v : V)
  | atomic (a old new : V)
  | sync (args : List V)
  deriving DecidableEq

/-- A computation that returns a value after some accesses. -/
inductive Proc (V : Type)
  | ret (v : V)
  | load (a : V) (k : V → Proc V)
  | store (a v : V) (k : Proc V)
  | atomic (a : V) (f : V → V) (k : V → Proc V)
  | sync (args : List V) (k : Proc V)

variable [DecidableEq V]

/-- An empty cell cannot be read. -/
def Proc.run : Proc V → Cells V V → Option (V × Cells V V × List (Access V))
  | .ret v, m => some (v, m, [])
  | .load a k, m => (m a).bind fun v =>
      ((k v).run m).map fun r => (r.1, r.2.1, .load a v :: r.2.2)
  | .store a v k, m => (k.run (m.set a v)).map fun r => (r.1, r.2.1, .store a v :: r.2.2)
  | .atomic a f k, m => (m a).bind fun v =>
      ((k v).run (m.set a (f v))).map fun r => (r.1, r.2.1, .atomic a v (f v) :: r.2.2)
  | .sync args k, m => (k.run m).map fun r => (r.1, r.2.1, .sync args :: r.2.2)

/-- A computation that ends on a part of the memory does the same on the whole. -/
theorem Proc.run_onto {p : Proc V} {m m' : Cells V V} {v : V} {as : List (Access V)}
    (h : p.run m = some (v, m', as)) (r : Cells V V) :
    p.run (m.onto r) = some (v, m'.onto r, as) := by
  induction p generalizing m as with
  | ret w =>
    cases h
    rfl
  | load a k ih =>
    obtain ⟨w, hw, h⟩ := Option.bind_eq_some_iff.mp h
    obtain ⟨⟨u, m₁, as₁⟩, hk, heq⟩ := Option.map_eq_some_iff.mp h
    cases heq
    rw [run, Cells.onto_eq_some hw, Option.bind_some, ih w hk, Option.map_some]
  | store a w k ih =>
    obtain ⟨⟨u, m₁, as₁⟩, hk, heq⟩ := Option.map_eq_some_iff.mp h
    cases heq
    rw [run, ← Cells.set_onto, ih hk, Option.map_some]
  | atomic a f k ih =>
    obtain ⟨w, hw, h⟩ := Option.bind_eq_some_iff.mp h
    obtain ⟨⟨u, m₁, as₁⟩, hk, heq⟩ := Option.map_eq_some_iff.mp h
    cases heq
    rw [run, Cells.onto_eq_some hw, Option.bind_some, ← Cells.set_onto, ih w hk, Option.map_some]
  | sync args k ih =>
    obtain ⟨⟨u, m₁, as₁⟩, hk, heq⟩ := Option.map_eq_some_iff.mp h
    cases heq
    rw [run, ih hk, Option.map_some]

/-- What an access finds in the memory and leaves there. -/
inductive Access.Acts : Cells V V → Access V → Cells V V → Prop
  | load {m : Cells V V} {a v : V} : m a = some v → Acts m (.load a v) m
  | store (m : Cells V V) (a v : V) : Acts m (.store a v) (m.set a v)
  | atomic {m : Cells V V} {a old : V} (new : V) : m a = some old →
      Acts m (.atomic a old new) (m.set a new)
  | sync (m : Cells V V) (args : List V) : Acts m (.sync args) m

theorem Proc.replay_of_run {p : Proc V} {m m' : Cells V V} {v : V} {as : List (Access V)}
    (h : p.run m = some (v, m', as)) : Replay Access.Acts m as m' := by
  induction p generalizing m as with
  | ret w =>
    cases h
    exact .nil _
  | load a k ih =>
    obtain ⟨w, hw, h⟩ := Option.bind_eq_some_iff.mp h
    obtain ⟨⟨u, m₁, as₁⟩, hk, heq⟩ := Option.map_eq_some_iff.mp h
    cases heq
    exact .cons (.load hw) (ih w hk)
  | store a w k ih =>
    obtain ⟨⟨u, m₁, as₁⟩, hk, heq⟩ := Option.map_eq_some_iff.mp h
    cases heq
    exact .cons (.store m a w) (ih hk)
  | atomic a f k ih =>
    obtain ⟨w, hw, h⟩ := Option.bind_eq_some_iff.mp h
    obtain ⟨⟨u, m₁, as₁⟩, hk, heq⟩ := Option.map_eq_some_iff.mp h
    cases heq
    exact .cons (.atomic _ hw) (ih w hk)
  | sync args k ih =>
    obtain ⟨⟨u, m₁, as₁⟩, hk, heq⟩ := Option.map_eq_some_iff.mp h
    cases heq
    exact .cons (.sync m args) (ih hk)

/-- The access changes no cell of `P`. -/
def Access.Quiet (P : V → Prop) : Access V → Prop
  | .load _ _ => True
  | .store a _ => ¬ P a
  | .atomic a old new => P a → new = old
  | .sync _ => True

theorem Access.Acts.eq_of_quiet {P : V → Prop} {m m' : Cells V V} {x : Access V}
    (h : Acts m x m') (hq : x.Quiet P) {a : V} (ha : P a) : m' a = m a := by
  cases h with
  | load _ => rfl
  | store a' v =>
    rw [Cells.set_ne]
    rintro rfl
    exact hq ha
  | @atomic a' old new hold =>
    by_cases hne : a = a'
    · subst hne
      rw [Cells.set_self, hold, hq ha]
    · rw [Cells.set_ne _ _ hne]
  | sync _ => rfl

def Access.written : Access V → Option V
  | .store a _ => some a
  | .atomic a _ _ => some a
  | .load _ _ => none
  | .sync _ => none

def Access.address : Access V → Option V
  | .load a _ => some a
  | .store a _ => some a
  | .atomic a _ _ => some a
  | .sync _ => none

theorem Access.Acts.agree {m m' n n' : Cells V V} {x : Access V} (h : Acts m x m')
    (h' : Acts n x n') {a : V} (ha : m a = n a ∨ x.written = some a) : m' a = n' a := by
  have hset : ∀ {b v : V}, m a = n a ∨ some b = some a → m.set b v a = n.set b v a := by
    intro b v hb
    by_cases hab : a = b
    · subst hab
      simp
    · rw [Cells.set_ne _ _ hab, Cells.set_ne _ _ hab]
      exact hb.resolve_right fun h => hab (Option.some.inj h).symm
  cases h with
  | load _ =>
    cases h'
    exact ha.resolve_right nofun
  | sync _ =>
    cases h'
    exact ha.resolve_right nofun
  | store _ _ =>
    cases h'
    exact hset ha
  | atomic _ _ =>
    cases h'
    exact hset ha

theorem Access.Acts.eq_of_not_written {m m' : Cells V V} {x : Access V} (h : Acts m x m') {a : V}
    (ha : x.written ≠ some a) : m' a = m a := by
  cases h with
  | load _ => rfl
  | sync _ => rfl
  | _ =>
    rw [Cells.set_ne]
    rintro rfl
    exact ha rfl

end

end VariOCL.Sim
