import VariOCL.IR.Exec
import VariOCL.Sim.Turns

/-! The work-items of a group, which take turns on one memory, a block at a time. -/

namespace VariOCL.IR

open Sim

/-- Where a work-item is. -/
inductive Place
  | inside (pred : Option BlockId) (b : BlockId)
  | returned
  deriving DecidableEq

def Place.config {Val : Type} (s : State Val) : Place → Config Val
  | .inside pred b => .inside pred b s
  | .returned => .returned s

def Config.place {Val : Type} : Config Val → Place
  | .inside pred b _ => .inside pred b
  | .returned _ => .returned

def Config.state {Val : Type} : Config Val → State Val
  | .inside _ _ s => s
  | .returned s => s

@[simp] theorem Config.config_place {Val : Type} (c : Config Val) : c.place.config c.state = c := by
  cases c <;> rfl

@[simp] theorem Place.place_config {Val : Type} (s : State Val) (p : Place) :
    (p.config s).place = p := by cases p <;> rfl

@[simp] theorem Place.state_config {Val : Type} (s : State Val) (p : Place) :
    (p.config s).state = s := by cases p <;> rfl

section
variable {ι Val : Type} [DecidableEq Val] (F : Function) (M : ι → Machine Val) (w : ι → WorkItem Val)

/-- The work-item `i` executes a block, on registers of its own. -/
def Function.ExecOwn (i : ι) (c : (Place × Cells InstId Val) × Cells Val Val) (es : List (Act Val))
    (d : (Place × Cells InstId Val) × Cells Val Val) : Prop :=
  F.Exec (M i) (w i) (c.1.1.config ⟨c.1.2, c.2⟩) es (d.1.1.config ⟨d.1.2, d.2⟩)

/-- It does so on the registers of all work-items. -/
def Function.ExecShared (i : ι) (c : Place × State Val) (es : List (Act Val)) (d : Place × State Val) :
    Prop :=
  F.Exec (M i) (w i) (c.1.config c.2) es (d.1.config d.2)

end

theorem Function.Exec.own {ι Val : Type} [DecidableEq Val] {F : Function} {M : ι → Machine Val}
    {w : ι → WorkItem Val} {i : ι} {l : Place × Cells InstId Val} {m : Cells Val Val}
    {es : List (Act Val)} {d : Config Val} (h : F.Exec (M i) (w i) (l.1.config ⟨l.2, m⟩) es d) :
    F.ExecOwn M w i (l, m) es ((d.place, d.state.env), d.state.mem) := by
  have hd : d.place.config ⟨d.state.env, d.state.mem⟩ = d := d.config_place
  rw [← hd] at h
  exact h

/-- The work-items, each with its place and registers, and their memory. -/
abbrev Items (ι Val : Type) := Threads ι (Place × Cells InstId Val) (Cells Val Val)

/-- The work-items' places, and the registers and the memory of all of them. -/
abbrev Merged (ι Val : Type) := Threads ι Place (State Val)

def Function.items {Val : Type} (ι : Type) (F : Function) (m : Cells Val Val) : Items ι Val :=
  ⟨fun _ => (.inside none F.entry, fun _ => none), m⟩

def Function.merged {Val : Type} (ι : Type) (F : Function) (m : Cells Val Val) : Merged ι Val :=
  ⟨fun _ => .inside none F.entry, ⟨fun _ => none, m⟩⟩

theorem Act.address_of_writes {Val : Type} {x : Act Val} {a : Val} (h : x.writes = some a) :
    x.address = some a := by
  cases x with
  | access i x =>
    cases x with
    | store b v => exact h
    | atomic b v v' => exact h
    | _ => cases h
  | _ => cases h

section
variable {Val : Type} [DecidableEq Val] {F : Function} {M : Machine Val} {w : WorkItem Val}
  {c d : Config Val} {es : List (Act Val)}

/-- A cell that is not written stays as it is. -/
theorem Function.Exec.frame (h : F.Exec M w c es d) {a : Val} (ha : ∀ x ∈ es, x.writes ≠ some a) :
    d.state.mem a = c.state.mem a := by
  cases h with
  | branch hx _ => exact replay_mem_eq (Machine.replay_execBlock hx) ha
  | ret hx => exact replay_mem_eq (Machine.replay_execBlock hx) ha

theorem Function.Exec.mem_eq (h : F.Exec M w c es d) {a : Val}
    (ha : ∀ x ∈ es, x.address ≠ some a) : d.state.mem a = c.state.mem a :=
  h.frame fun x hx hw => ha x hx (Act.address_of_writes hw)

end

end VariOCL.IR
