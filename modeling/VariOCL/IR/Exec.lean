import VariOCL.IR.Basic
import VariOCL.Sim.Erasure
import VariOCL.Sim.Proc

/-! What a work-item computes: a block is executed at a time, its PHIs together on entry.  Values and
memory cells are partial, so that code can be run on the part of a state that work-items share. -/

namespace VariOCL.IR

open Sim

/-- The meaning of what a function does not define itself.  An operation sees its operands' values
only. -/
structure Machine (Val : Type) where
  atom : Value → Val
  eval : Ty → Op → List Val → Val
  truth : Val → Bool
  caseOf : Val → Nat
  alloca : InstId → Ty → Val → Proc Val
  call : Option String → List Val → Proc Val

/-- The results of `get_local_id` and `get_global_id` in one work-item. -/
abbrev WorkItem (Val : Type) := String → List Val → Option Val

def WorkItem.Le {Val : Type} (w w' : WorkItem Val) : Prop := ∀ n, Cells.Le (w n) (w' n)

def idBuiltins : List String := ["get_local_id", "get_global_id"]

structure State (Val : Type) where
  env : Cells InstId Val
  mem : Cells Val Val

def State.onto {Val : Type} (s r : State Val) : State Val := ⟨s.env.onto r.env, s.mem.onto r.mem⟩

/-- What an execution does, one thing after the other, by the instruction that does it. -/
inductive Act (Val : Type)
  | access (id : InstId) (x : Access Val)
  | value (id : InstId) (v : Val)
  | branch (id : InstId) (taken : Option Nat)
  deriving DecidableEq

def Op.incomingFor (pred : Option BlockId) : Op → Option Value
  | .phi incoming => (incoming.find? fun p => some p.2 = pred).map Prod.fst
  | _ => none

theorem Op.incomingFor_mapValues {q : Option BlockId} (g : Value → Value) (op : Op) :
    (op.mapValues g).incomingFor q = (op.incomingFor q).map g := by
  cases op with
  | phi incoming =>
    simp only [Op.mapValues, Op.incomingFor, List.find?_map, Option.map_map]
    rfl
  | _ => rfl

section
variable {Val : Type} (M : Machine Val) (w : WorkItem Val)

def Machine.read (e : Cells InstId Val) : Value → Option Val
  | .inst i => e i
  | v => some (M.atom v)

def Machine.readAll (e : Cells InstId Val) : List Value → Option (List Val)
  | [] => some []
  | v :: vs => (M.read e v).bind fun x => (readAll e vs).map (x :: ·)

/-- What an instruction does on the values of its operands. -/
def Machine.perform (id : InstId) (ty : Ty) : Op → List Val → Option (Proc Val)
  | .phi _, _ => none
  | .alloca t _, vs => vs.head?.map (M.alloca id t)
  | .load _, vs => vs.head?.map fun a => .load a .ret
  | .store _ _, vs => vs.head?.bind fun v => vs[1]?.map fun a => .store a v (.ret v)
  | .call callee _, vs =>
    match callee with
    | some name =>
      if name = "barrier" then some (.sync vs (.ret (M.atom .undefValue)))
      else if name ∈ idBuiltins then (w name vs).map .ret
      else some (M.call (some name) vs)
    | none => some (M.call none vs)
  | op, vs => some (.ret (M.eval ty (op.mapValues fun _ => .undefValue) vs))

/-- `none` where nothing is executed next, as after a `ret`. -/
def Machine.taken (e : Cells InstId Val) : Terminator → Option (Option Nat)
  | .br _ => some (some 0)
  | .condBr c _ _ => (M.read e c).map fun v => some (if M.truth v then 0 else 1)
  | .switch c _ cs => (M.read e c).map fun v =>
      some (((cs.findIdx? fun p => p.1 = M.caseOf v).map Nat.succ).getD 0)
  | .ret v => (M.readAll e v.toList).map fun _ => none
  | .unreachable => none

/-- The PHIs read the values of `e`, those before the block was entered. -/
def Machine.execPhis (e : Cells InstId Val) (pred : Option BlockId) :
    List Instruction → Cells InstId Val → Option (Cells InstId Val × List (Act Val))
  | [], e' => some (e', [])
  | I :: Is, e' => ((I.op.incomingFor pred).bind (M.read e)).bind fun v =>
      (execPhis e pred Is (e'.set I.id v)).map fun r => (r.1, .value I.id v :: r.2)

variable [DecidableEq Val]

def Machine.execInst (I : Instruction) (s : State Val) : Option (State Val × List (Act Val)) :=
  (M.readAll s.env I.op.operands).bind fun vs => (M.perform w I.id I.ty I.op vs).bind fun p =>
    (p.run s.mem).map fun r =>
      (⟨s.env.set I.id r.1, r.2.1⟩, r.2.2.map (.access I.id) ++ [.value I.id r.1])

def Machine.execInsts : List Instruction → State Val → Option (State Val × List (Act Val))
  | [], s => some (s, [])
  | I :: Is, s => (M.execInst w I s).bind fun r =>
      (execInsts Is r.1).map fun t => (t.1, r.2 ++ t.2)

/-- A block and the successor its terminator takes. -/
def Machine.execBlock (BB : BasicBlock) (pred : Option BlockId) (s : State Val) :
    Option (Option Nat × State Val × List (Act Val)) :=
  (M.execPhis s.env pred (BB.insts.takeWhile (·.op.isPhi)) s.env).bind fun r =>
    (M.execInsts w (BB.insts.dropWhile (·.op.isPhi)) ⟨r.1, s.mem⟩).bind fun t =>
      (M.taken t.1.env BB.term).map fun i => (i, t.1, r.2 ++ t.2 ++ [.branch BB.termId i])

inductive Config (Val : Type)
  | inside (pred : Option BlockId) (b : BlockId) (s : State Val)
  | returned (s : State Val)

inductive Function.Exec (F : Function) : Config Val → List (Act Val) → Config Val → Prop
  | branch {pred : Option BlockId} {b d : BlockId} {i : Nat} {s s' : State Val}
      {es : List (Act Val)} : M.execBlock w (F.block b) pred s = some (some i, s', es) →
      (F.succs b)[i]? = some d → F.Exec (.inside pred b s) es (.inside (some b) d s')
  | ret {pred : Option BlockId} {b : BlockId} {s s' : State Val} {es : List (Act Val)} :
      M.execBlock w (F.block b) pred s = some (none, s', es) →
      F.Exec (.inside pred b s) es (.returned s')

end

section
variable {Val : Type}

def State.define (s : State Val) (i : InstId) (v : Val) : State Val := ⟨s.env.set i v, s.mem⟩

theorem State.define_self (s : State Val) (i : InstId) (v : Val) :
    (s.define i v).env i = some v := Cells.set_self ..

theorem State.define_ne {s : State Val} {i j : InstId} (v : Val) (h : j ≠ i) :
    (s.define i v).env j = s.env j := Cells.set_ne _ _ h

/-- The instruction or terminator that does it. -/
def Act.id : Act Val → InstId
  | .access i _ => i
  | .value i _ => i
  | .branch i _ => i

def Act.address : Act Val → Option Val
  | .access _ x => x.address
  | .value _ _ => none
  | .branch _ _ => none

variable {M : Machine Val} {w : WorkItem Val}

/-- An operation does not see how its operands are named. -/
theorem Machine.perform_mapValues {id : InstId} {ty : Ty} {op : Op} {f : Value → Value}
    {vs : List Val} : M.perform w id ty (op.mapValues f) vs = M.perform w id ty op vs := by
  cases op <;> simp [perform, Op.mapValues, Function.comp_def]

variable [DecidableEq Val]

theorem Machine.execInst_of_ret {I : Instruction} {s : State Val} {v : Val} (vs : List Val)
    (hvs : M.readAll s.env I.op.operands = some vs)
    (hv : M.perform w I.id I.ty I.op vs = some (.ret v)) :
    M.execInst w I s = some (s.define I.id v, [.value I.id v]) := by
  rw [execInst, hvs, Option.bind_some, hv]
  rfl

theorem Machine.execInsts_append (Is Js : List Instruction) (s : State Val) :
    M.execInsts w (Is ++ Js) s = (M.execInsts w Is s).bind fun r =>
      (M.execInsts w Js r.1).map fun t => (t.1, r.2 ++ t.2) := by
  induction Is generalizing s with
  | nil => simp [execInsts]
  | cons I Is ih =>
    simp only [List.cons_append, execInsts, ih, Option.bind_assoc, Option.map_bind]
    congr 1
    funext r
    cases M.execInsts w Is r.1 with
    | none => rfl
    | some t => simp [Function.comp_def]

theorem Machine.execInsts_append_of_some {Is Js : List Instruction} {s s₁ s₂ : State Val}
    {es es' : List (Act Val)} (h : M.execInsts w Is s = some (s₁, es))
    (h' : M.execInsts w Js s₁ = some (s₂, es')) :
    M.execInsts w (Is ++ Js) s = some (s₂, es ++ es') := by
  rw [execInsts_append, h, Option.bind_some, h', Option.map_some]

theorem Machine.id_of_execInst {I : Instruction} {s s' : State Val} {es : List (Act Val)}
    (h : M.execInst w I s = some (s', es)) {x : Act Val} (hx : x ∈ es) : x.id = I.id := by
  obtain ⟨vs, -, h⟩ := Option.bind_eq_some_iff.mp h
  obtain ⟨p, -, h⟩ := Option.bind_eq_some_iff.mp h
  obtain ⟨r, -, heq⟩ := Option.map_eq_some_iff.mp h
  cases heq
  rcases List.mem_append.mp hx with hx | hx
  · obtain ⟨a, -, rfl⟩ := List.mem_map.mp hx
    rfl
  · rw [List.mem_singleton.mp hx]
    rfl

/-- An instruction changes no value but its own. -/
theorem Machine.id_of_execInsts {Is : List Instruction} {s s' : State Val} {es : List (Act Val)}
    (h : M.execInsts w Is s = some (s', es)) {x : Act Val} (hx : x ∈ es) :
    x.id ∈ Is.map Instruction.id := by
  induction Is generalizing s es with
  | nil =>
    cases h
    cases hx
  | cons I Is ih =>
    obtain ⟨⟨s₁, es₁⟩, hI, h⟩ := Option.bind_eq_some_iff.mp h
    obtain ⟨⟨s₂, es₂⟩, hIs, heq⟩ := Option.map_eq_some_iff.mp h
    cases heq
    rcases List.mem_append.mp hx with hx | hx
    · exact List.mem_cons.mpr (.inl (id_of_execInst hI hx))
    · exact List.mem_cons_of_mem _ (ih hIs hx)

theorem Machine.env_execInst {I : Instruction} {s s' : State Val} {es : List (Act Val)}
    (h : M.execInst w I s = some (s', es)) : ∃ v, s'.env = s.env.set I.id v := by
  obtain ⟨vs, -, h⟩ := Option.bind_eq_some_iff.mp h
  obtain ⟨p, -, h⟩ := Option.bind_eq_some_iff.mp h
  obtain ⟨r, -, heq⟩ := Option.map_eq_some_iff.mp h
  cases heq
  exact ⟨r.1, rfl⟩

theorem Machine.env_execInsts {Is : List Instruction} {s s' : State Val} {es : List (Act Val)}
    (h : M.execInsts w Is s = some (s', es)) {i : InstId} (hi : i ∉ Is.map Instruction.id) :
    s'.env i = s.env i := by
  induction Is generalizing s es with
  | nil =>
    cases h
    rfl
  | cons I Is ih =>
    obtain ⟨⟨s₁, es₁⟩, hI, h⟩ := Option.bind_eq_some_iff.mp h
    obtain ⟨⟨s₂, es₂⟩, hIs, heq⟩ := Option.map_eq_some_iff.mp h
    cases heq
    rw [List.map_cons, List.mem_cons, not_or] at hi
    obtain ⟨v, hv⟩ := env_execInst hI
    rw [ih hIs hi.2, hv, Cells.set_ne _ _ hi.1]

end

/-! ### Operands that have values -/

section
variable {Val : Type} {M : Machine Val} {e e' : Cells InstId Val} {v : Value} {vs : List Value}

theorem Machine.isSome_read (h : ∀ j, v = .inst j → (e j).isSome) : (M.read e v).isSome := by
  cases v with
  | inst j => exact h j rfl
  | _ => rfl

theorem Machine.exists_readAll (h : ∀ j, .inst j ∈ vs → (e j).isSome) :
    ∃ xs, M.readAll e vs = some xs := by
  induction vs with
  | nil => exact ⟨[], rfl⟩
  | cons v vs ih =>
    obtain ⟨x, hx⟩ := Option.isSome_iff_exists.mp
      (isSome_read (M := M) fun j hj => h j (hj ▸ List.mem_cons_self))
    obtain ⟨xs, hxs⟩ := ih fun j hj => h j (List.mem_cons_of_mem v hj)
    exact ⟨x :: xs, by rw [readAll, hx, Option.bind_some, hxs, Option.map_some]⟩

/-- Only the operands' values matter. -/
theorem Machine.readAll_congr (h : ∀ j, .inst j ∈ vs → e' j = e j) :
    M.readAll e' vs = M.readAll e vs := by
  induction vs with
  | nil => rfl
  | cons v vs ih =>
    have hv : M.read e' v = M.read e v := by
      cases v with
      | inst j => exact h j List.mem_cons_self
      | _ => rfl
    rw [readAll, readAll, hv, ih fun j hj => h j (List.mem_cons_of_mem v hj)]

end

/-! ### What is defined stays defined -/

section
variable {Val : Type} {M : Machine Val} {w : WorkItem Val}

theorem Machine.isSome_execPhis {e e' e'' : Cells InstId Val} {pred : Option BlockId}
    {Is : List Instruction} {es : List (Act Val)} {j : InstId}
    (h : M.execPhis e pred Is e' = some (e'', es))
    (hj : j ∈ Is.map Instruction.id ∨ (e' j).isSome) : (e'' j).isSome := by
  induction Is generalizing e' es with
  | nil =>
    cases h
    simpa using hj
  | cons I Is ih =>
    obtain ⟨v, -, h⟩ := Option.bind_eq_some_iff.mp h
    obtain ⟨⟨e₁, es₁⟩, hI, heq⟩ := Option.map_eq_some_iff.mp h
    cases heq
    rw [List.map_cons, List.mem_cons, or_comm (a := j = I.id), or_assoc] at hj
    exact ih hI (hj.imp_right Cells.isSome_set)

theorem Machine.env_execPhis {e e' e'' : Cells InstId Val} {pred : Option BlockId}
    {Is : List Instruction} {es : List (Act Val)} {i : InstId}
    (h : M.execPhis e pred Is e' = some (e'', es)) (hi : i ∉ Is.map Instruction.id) :
    e'' i = e' i := by
  induction Is generalizing e' es with
  | nil =>
    cases h
    rfl
  | cons I Is ih =>
    obtain ⟨v, -, h⟩ := Option.bind_eq_some_iff.mp h
    obtain ⟨⟨e₁, es₁⟩, hI, heq⟩ := Option.map_eq_some_iff.mp h
    cases heq
    rw [List.map_cons, List.mem_cons, not_or] at hi
    exact (ih hI hi.2).trans (Cells.set_ne _ _ hi.1)

variable [DecidableEq Val]

theorem Machine.isSome_execInsts {Is : List Instruction} {s s' : State Val} {es : List (Act Val)}
    {j : InstId} (h : M.execInsts w Is s = some (s', es))
    (hj : j ∈ Is.map Instruction.id ∨ (s.env j).isSome) : (s'.env j).isSome := by
  induction Is generalizing s es with
  | nil =>
    cases h
    simpa using hj
  | cons I Is ih =>
    obtain ⟨⟨s₁, es₁⟩, hI, h⟩ := Option.bind_eq_some_iff.mp h
    obtain ⟨⟨s₂, es₂⟩, hIs, heq⟩ := Option.map_eq_some_iff.mp h
    cases heq
    obtain ⟨vs, -, hI⟩ := Option.bind_eq_some_iff.mp hI
    obtain ⟨p, -, hI⟩ := Option.bind_eq_some_iff.mp hI
    obtain ⟨⟨v, m, as⟩, -, heq⟩ := Option.map_eq_some_iff.mp hI
    cases heq
    rw [List.map_cons, List.mem_cons, or_comm (a := j = I.id), or_assoc] at hj
    exact ih hIs (hj.imp_right Cells.isSome_set)

/-- A block that is executed defines all its instructions. -/
theorem Machine.isSome_execBlock {BB : BasicBlock} {pred : Option BlockId} {s s' : State Val}
    {i : Option Nat} {es : List (Act Val)} {j : InstId}
    (h : M.execBlock w BB pred s = some (i, s', es))
    (hj : j ∈ BB.insts.map Instruction.id ∨ (s.env j).isSome) : (s'.env j).isSome := by
  obtain ⟨⟨e, es₁⟩, hphis, h⟩ := Option.bind_eq_some_iff.mp h
  obtain ⟨⟨t, es₂⟩, hinsts, h⟩ := Option.bind_eq_some_iff.mp h
  obtain ⟨k, -, heq⟩ := Option.map_eq_some_iff.mp h
  cases heq
  rw [← List.takeWhile_append_dropWhile (p := (·.op.isPhi)) (l := BB.insts), List.map_append,
    List.mem_append, or_comm (a := j ∈ (BB.insts.takeWhile _).map _), or_assoc] at hj
  exact isSome_execInsts hinsts (hj.imp_right (isSome_execPhis hphis))

end

/-! ### On a larger state -/

section
variable {Val : Type} {M : Machine Val} {w w' : WorkItem Val}

theorem Machine.read_onto {e : Cells InstId Val} {v : Value} {x : Val} (h : M.read e v = some x)
    (r : Cells InstId Val) : M.read (e.onto r) v = some x := by
  cases v with
  | inst i => exact Cells.onto_eq_some (m := e) h r
  | _ => exact h

theorem Machine.readAll_onto {e : Cells InstId Val} {vs : List Value} {xs : List Val}
    (h : M.readAll e vs = some xs) (r : Cells InstId Val) :
    M.readAll (e.onto r) vs = some xs := by
  induction vs generalizing xs with
  | nil => exact h
  | cons v vs ih =>
    obtain ⟨x, hx, h⟩ := Option.bind_eq_some_iff.mp h
    obtain ⟨ys, hys, rfl⟩ := Option.map_eq_some_iff.mp h
    rw [readAll, read_onto hx r, Option.bind_some, ih hys, Option.map_some]

theorem Machine.perform_mono (hw : w.Le w') {id : InstId} {ty : Ty} {op : Op} {vs : List Val}
    {p : Proc Val} (h : M.perform w id ty op vs = some p) :
    M.perform w' id ty op vs = some p := by
  cases op with
  | call callee args =>
    cases callee with
    | none => exact h
    | some name =>
      simp only [perform] at h ⊢
      split
      · rwa [if_pos ‹_›] at h
      · rw [if_neg ‹_›] at h
        split
        · rw [if_pos ‹_›] at h
          obtain ⟨v, hv, rfl⟩ := Option.map_eq_some_iff.mp h
          rw [hw name vs v hv, Option.map_some]
        · rwa [if_neg ‹_›] at h
  | _ => exact h

theorem Machine.taken_onto {e : Cells InstId Val} {t : Terminator} {i : Option Nat}
    (h : M.taken e t = some i) (r : Cells InstId Val) : M.taken (e.onto r) t = some i := by
  cases t with
  | br d => exact h
  | condBr c d d' =>
    obtain ⟨v, hv, rfl⟩ := Option.map_eq_some_iff.mp h
    rw [taken, read_onto hv, Option.map_some]
  | switch c d cs =>
    obtain ⟨v, hv, rfl⟩ := Option.map_eq_some_iff.mp h
    rw [taken, read_onto hv, Option.map_some]
  | ret v =>
    obtain ⟨xs, hxs, rfl⟩ := Option.map_eq_some_iff.mp h
    rw [taken, readAll_onto hxs, Option.map_some]
  | unreachable => cases h

theorem Machine.execPhis_onto {e e' e'' : Cells InstId Val} {pred : Option BlockId}
    {Is : List Instruction} {es : List (Act Val)}
    (h : M.execPhis e pred Is e' = some (e'', es)) (r : Cells InstId Val) :
    M.execPhis (e.onto r) pred Is (e'.onto r) = some (e''.onto r, es) := by
  induction Is generalizing e' es with
  | nil =>
    cases h
    rfl
  | cons I Is ih =>
    obtain ⟨v, hv, h⟩ := Option.bind_eq_some_iff.mp h
    obtain ⟨x, hx, hv⟩ := Option.bind_eq_some_iff.mp hv
    obtain ⟨⟨e₁, es₁⟩, hI, heq⟩ := Option.map_eq_some_iff.mp h
    cases heq
    rw [execPhis, hx, Option.bind_some, read_onto hv, Option.bind_some, ← Cells.set_onto, ih hI,
      Option.map_some]

variable [DecidableEq Val]

theorem Machine.execInst_onto (hw : w.Le w') {I : Instruction} {s s' : State Val}
    {es : List (Act Val)} (h : M.execInst w I s = some (s', es)) (r : State Val) :
    M.execInst w' I (s.onto r) = some (s'.onto r, es) := by
  obtain ⟨vs, hvs, h⟩ := Option.bind_eq_some_iff.mp h
  obtain ⟨p, hp, h⟩ := Option.bind_eq_some_iff.mp h
  obtain ⟨⟨v, m, as⟩, hrun, heq⟩ := Option.map_eq_some_iff.mp h
  cases heq
  rw [execInst, State.onto, readAll_onto hvs, Option.bind_some, perform_mono hw hp,
    Option.bind_some, Proc.run_onto hrun, Option.map_some, ← Cells.set_onto]
  rfl

theorem Machine.execInsts_onto (hw : w.Le w') {Is : List Instruction} {s s' : State Val}
    {es : List (Act Val)} (h : M.execInsts w Is s = some (s', es)) (r : State Val) :
    M.execInsts w' Is (s.onto r) = some (s'.onto r, es) := by
  induction Is generalizing s es with
  | nil =>
    cases h
    rfl
  | cons I Is ih =>
    obtain ⟨⟨s₁, es₁⟩, hI, h⟩ := Option.bind_eq_some_iff.mp h
    obtain ⟨⟨s₂, es₂⟩, hIs, heq⟩ := Option.map_eq_some_iff.mp h
    cases heq
    rw [execInsts, execInst_onto hw hI, Option.bind_some, ih hIs, Option.map_some]

theorem Machine.execBlock_onto (hw : w.Le w') {BB : BasicBlock} {pred : Option BlockId}
    {s s' : State Val} {i : Option Nat} {es : List (Act Val)}
    (h : M.execBlock w BB pred s = some (i, s', es)) (r : State Val) :
    M.execBlock w' BB pred (s.onto r) = some (i, s'.onto r, es) := by
  obtain ⟨⟨e, es₁⟩, hphis, h⟩ := Option.bind_eq_some_iff.mp h
  obtain ⟨⟨t, es₂⟩, hinsts, h⟩ := Option.bind_eq_some_iff.mp h
  obtain ⟨j, hj, heq⟩ := Option.map_eq_some_iff.mp h
  cases heq
  have hinsts := execInsts_onto hw hinsts r
  rw [State.onto] at hinsts
  rw [execBlock, State.onto, execPhis_onto hphis, Option.bind_some, hinsts, Option.bind_some,
    State.onto, taken_onto hj, Option.map_some]

/-! ### What an execution does determines what it changes -/

inductive Act.Acts : State Val → Act Val → State Val → Prop
  | access {s : State Val} (i : InstId) {x : Access Val} {m : Cells Val Val} :
      Access.Acts s.mem x m → Acts s (.access i x) ⟨s.env, m⟩
  | value (s : State Val) (i : InstId) (v : Val) : Acts s (.value i v) ⟨s.env.set i v, s.mem⟩
  | branch (s : State Val) (i : InstId) (taken : Option Nat) : Acts s (.branch i taken) s

theorem replay_access (e : Cells InstId Val) (i : InstId) {m m' : Cells Val Val} {as : List (Access Val)}
    (h : Replay Access.Acts m as m') :
    Replay Act.Acts ⟨e, m⟩ (as.map (.access i)) ⟨e, m'⟩ := by
  induction h with
  | nil m => exact .nil _
  | cons hx _ ih => exact .cons (.access i hx) ih

theorem Machine.replay_execPhis {e e' e'' : Cells InstId Val} {pred : Option BlockId}
    {Is : List Instruction} {es : List (Act Val)} (m : Cells Val Val)
    (h : M.execPhis e pred Is e' = some (e'', es)) :
    Replay Act.Acts ⟨e', m⟩ es ⟨e'', m⟩ := by
  induction Is generalizing e' es with
  | nil =>
    cases h
    exact .nil _
  | cons I Is ih =>
    obtain ⟨v, -, h⟩ := Option.bind_eq_some_iff.mp h
    obtain ⟨⟨e₁, es₁⟩, hI, heq⟩ := Option.map_eq_some_iff.mp h
    cases heq
    exact .cons (.value ⟨e', m⟩ I.id v) (ih hI)

theorem Machine.replay_execInst {I : Instruction} {s s' : State Val} {es : List (Act Val)}
    (h : M.execInst w I s = some (s', es)) : Replay Act.Acts s es s' := by
  obtain ⟨vs, -, h⟩ := Option.bind_eq_some_iff.mp h
  obtain ⟨p, -, h⟩ := Option.bind_eq_some_iff.mp h
  obtain ⟨⟨v, m, as⟩, hrun, heq⟩ := Option.map_eq_some_iff.mp h
  cases heq
  exact (replay_access s.env I.id (Proc.replay_of_run hrun)).append (.single (.value _ I.id v))

theorem Machine.replay_execInsts {Is : List Instruction} {s s' : State Val} {es : List (Act Val)}
    (h : M.execInsts w Is s = some (s', es)) : Replay Act.Acts s es s' := by
  induction Is generalizing s es with
  | nil =>
    cases h
    exact .nil _
  | cons I Is ih =>
    obtain ⟨⟨s₁, es₁⟩, hI, h⟩ := Option.bind_eq_some_iff.mp h
    obtain ⟨⟨s₂, es₂⟩, hIs, heq⟩ := Option.map_eq_some_iff.mp h
    cases heq
    exact (replay_execInst hI).append (ih hIs)

theorem Machine.replay_execBlock {BB : BasicBlock} {pred : Option BlockId} {s s' : State Val}
    {i : Option Nat} {es : List (Act Val)} (h : M.execBlock w BB pred s = some (i, s', es)) :
    Replay Act.Acts s es s' := by
  obtain ⟨⟨e, es₁⟩, hphis, h⟩ := Option.bind_eq_some_iff.mp h
  obtain ⟨⟨t, es₂⟩, hinsts, h⟩ := Option.bind_eq_some_iff.mp h
  obtain ⟨j, -, heq⟩ := Option.map_eq_some_iff.mp h
  cases heq
  exact ((replay_execPhis s.mem hphis).append (replay_execInsts hinsts)).append
    (.single (.branch _ _ _))

/-- The instruction whose value the act is. -/
def Act.defines : Act Val → Option InstId
  | .value i _ => some i
  | .access _ _ => none
  | .branch _ _ => none

/-- The cell the act writes. -/
def Act.writes : Act Val → Option Val
  | .access _ x => x.written
  | .value _ _ => none
  | .branch _ _ => none

theorem replay_env_eq {s s' : State Val} {es : List (Act Val)} (h : Replay Act.Acts s es s')
    {i : InstId} (hi : ∀ x ∈ es, x.defines ≠ some i) : s'.env i = s.env i := by
  refine h.eq_of_forall (f := fun s => s.env i) fun x hx s t hst => ?_
  cases hst with
  | access _ _ => rfl
  | value j v => exact Cells.set_ne _ _ fun hij => hi _ hx (by rw [hij]; rfl)
  | branch _ _ => rfl

theorem replay_mem_eq {s s' : State Val} {es : List (Act Val)} (h : Replay Act.Acts s es s')
    {a : Val} (ha : ∀ x ∈ es, x.writes ≠ some a) : s'.mem a = s.mem a := by
  refine h.eq_of_forall (f := fun s => s.mem a) fun x hx s t hst => ?_
  cases hst with
  | access _ hacts => exact hacts.eq_of_not_written (ha _ hx)
  | value _ _ => rfl
  | branch _ _ => rfl

theorem replay_env_agree {s s' t t' : State Val} {es : List (Act Val)}
    (h : Replay Act.Acts s es s') (h' : Replay Act.Acts t es t') {i : InstId}
    (hi : ∃ x ∈ es, x.defines = some i) : s'.env i = t'.env i := by
  refine h.agree h' (fun s => s.env i) (fun x => x.defines = some i) ?_ (.inr hi)
  intro x s s' t t' hs ht heq
  cases hs with
  | access _ _ =>
    cases ht
    exact heq.resolve_right nofun
  | branch _ _ =>
    cases ht
    exact heq.resolve_right nofun
  | value j v =>
    cases ht
    by_cases hij : i = j
    · subst hij
      simp
    · dsimp only
      rw [Cells.set_ne _ _ hij, Cells.set_ne _ _ hij]
      exact heq.resolve_right fun h => hij (Option.some.inj h).symm

theorem replay_mem_agree {s s' t t' : State Val} {es : List (Act Val)}
    (h : Replay Act.Acts s es s') (h' : Replay Act.Acts t es t') {a : Val}
    (ha : ∃ x ∈ es, x.writes = some a) : s'.mem a = t'.mem a := by
  refine h.agree h' (fun s => s.mem a) (fun x => x.writes = some a) ?_ (.inr ha)
  intro x s s' t t' hs ht heq
  cases hs with
  | access _ hx =>
    cases ht with
    | access _ hx' => exact hx.agree hx' heq
  | branch _ _ =>
    cases ht
    exact heq.resolve_right nofun
  | value _ _ =>
    cases ht
    exact heq.resolve_right nofun

/-- The act changes no cell of `P`. -/
def Act.Quiet (P : Val → Prop) : Act Val → Prop
  | .access _ x => x.Quiet P
  | .value _ _ => True
  | .branch _ _ => True

theorem replay_quiet {P : Val → Prop} {s s' : State Val} {es : List (Act Val)}
    (h : Replay Act.Acts s es s') (hq : ∀ x ∈ es, x.Quiet P) {a : Val} (ha : P a) :
    s'.mem a = s.mem a := by
  refine h.eq_of_forall (f := fun s => s.mem a) fun x hx s t hst => ?_
  cases hst with
  | access _ hacts => exact hacts.eq_of_quiet (hq _ hx) ha
  | value _ _ => rfl
  | branch _ _ => rfl

end

end VariOCL.IR
