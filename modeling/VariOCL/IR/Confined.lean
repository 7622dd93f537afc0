import VariOCL.IR.Items
import VariOCL.Sim.Agree
import VariOCL.Sim.Serial

/-! What a block does depends on the cells it accesses, and changes those it writes. -/

namespace VariOCL.IR

open Sim

section
variable {Val : Type} [DecidableEq Val] {M : Machine Val} {w : WorkItem Val} {P : Val → Prop}
  {e : Cells InstId Val} {m m' : Cells Val Val} {t : State Val} {es : List (Act Val)}
  {I : Instruction} {Is : List Instruction} {BB : BasicBlock} {pred : Option BlockId}

theorem Machine.execInst_agreeOn (hm : m.AgreeOn P m') (hx : M.execInst w I ⟨e, m⟩ = some (t, es))
    (hP : ∀ x ∈ es, ∀ a, x.address = some a → P a) :
    ∃ n, M.execInst w I ⟨e, m'⟩ = some (⟨t.env, n⟩, es) ∧ t.mem.AgreeOn P n := by
  obtain ⟨vs, hvs, hx⟩ := Option.bind_eq_some_iff.mp hx
  obtain ⟨p, hp, hx⟩ := Option.bind_eq_some_iff.mp hx
  obtain ⟨⟨v, m₁, as⟩, hrun, heq⟩ := Option.map_eq_some_iff.mp hx
  cases heq
  have hPs : ∀ x ∈ as, ∀ a, x.address = some a → P a := fun x hx =>
    hP (.access I.id x) (List.mem_append_left _ (List.mem_map_of_mem hx))
  obtain ⟨n, hr, hn, -⟩ := replay_agreeOn (Proc.replay_of_run hrun) hPs hm
  refine ⟨n, ?_, hn⟩
  rw [execInst, hvs, Option.bind_some, hp, Option.bind_some, Proc.run_of_replay hrun hr,
    Option.map_some]

theorem Machine.execInsts_agreeOn (hm : m.AgreeOn P m')
    (hx : M.execInsts w Is ⟨e, m⟩ = some (t, es)) (hP : ∀ x ∈ es, ∀ a, x.address = some a → P a) :
    ∃ n, M.execInsts w Is ⟨e, m'⟩ = some (⟨t.env, n⟩, es) ∧ t.mem.AgreeOn P n := by
  induction Is generalizing e m m' es with
  | nil =>
    cases hx
    exact ⟨m', rfl, hm⟩
  | cons I Is ih =>
    obtain ⟨⟨⟨e₁, m₁⟩, es₁⟩, hI, hx⟩ := Option.bind_eq_some_iff.mp hx
    obtain ⟨⟨t₁, es₂⟩, hIs, heq⟩ := Option.map_eq_some_iff.mp hx
    cases heq
    obtain ⟨hP₁, hP₂⟩ := List.forall_mem_append.mp hP
    obtain ⟨n₁, hI', hn₁⟩ := execInst_agreeOn hm hI hP₁
    obtain ⟨n₂, hIs', hn₂⟩ := ih hn₁ hIs hP₂
    refine ⟨n₂, ?_, hn₂⟩
    rw [execInsts, hI', Option.bind_some, hIs', Option.map_some]

theorem Machine.execBlock_agreeOn {i : Option Nat} (hm : m.AgreeOn P m')
    (hx : M.execBlock w BB pred ⟨e, m⟩ = some (i, t, es))
    (hP : ∀ x ∈ es, ∀ a, x.address = some a → P a) :
    ∃ n, M.execBlock w BB pred ⟨e, m'⟩ = some (i, ⟨t.env, n⟩, es) ∧ t.mem.AgreeOn P n := by
  obtain ⟨⟨e₁, es₁⟩, hphis, hx⟩ := Option.bind_eq_some_iff.mp hx
  obtain ⟨⟨t₁, es₂⟩, hIs, hx⟩ := Option.bind_eq_some_iff.mp hx
  obtain ⟨k, hk, heq⟩ := Option.map_eq_some_iff.mp hx
  cases heq
  obtain ⟨n, hIs', hn⟩ := execInsts_agreeOn hm hIs fun x hx =>
    hP x (List.mem_append_left _ (List.mem_append_right _ hx))
  refine ⟨n, ?_, hn⟩
  rw [execBlock, hphis, Option.bind_some, hIs', Option.bind_some, hk, Option.map_some]

theorem Function.Exec.agreeOn {F : Function} {p : Place} {d : Config Val} (hm : m.AgreeOn P m')
    (hx : F.Exec M w (p.config ⟨e, m⟩) es d) (hP : ∀ x ∈ es, ∀ a, x.address = some a → P a) :
    ∃ n, F.Exec M w (p.config ⟨e, m'⟩) es (d.place.config ⟨d.state.env, n⟩) ∧
      d.state.mem.AgreeOn P n := by
  cases p with
  | returned => cases hx
  | inside pred b =>
    cases hx with
    | branch hx hd =>
      obtain ⟨n, hx', hn⟩ := Machine.execBlock_agreeOn hm hx hP
      exact ⟨n, .branch hx' hd, hn⟩
    | ret hx =>
      obtain ⟨n, hx', hn⟩ := Machine.execBlock_agreeOn hm hx hP
      exact ⟨n, .ret hx', hn⟩

end

def Act.Uses {Val : Type} (x : Act Val) (a : Val) : Prop := x.address = some a

def Act.Writes {Val : Type} (x : Act Val) (a : Val) : Prop := x.writes = some a

section
variable {ι Val : Type} [DecidableEq Val] {F : Function} {M : ι → Machine Val} {w : ι → WorkItem Val}

/-- A work-item meets the others in the cells it accesses only. -/
theorem Function.execOwn_confined : Confined Act.Uses Act.Writes (F.ExecOwn M w) where
  uses_of_writes _ _ h := Act.address_of_writes h
  frame i l l' m m' es hx a ha := by
    have hframe := Function.Exec.frame hx ha
    rwa [Place.state_config, Place.state_config] at hframe
  congr i l l' m m' n es hx hn := by
    obtain ⟨n', hx', hn'⟩ := Function.Exec.agreeOn (P := fun a => ∃ x ∈ es, x.Uses a) hn hx
      fun x hx a ha => ⟨x, hx, ha⟩
    rw [Place.place_config, Place.state_config] at hx'
    rw [Place.state_config] at hn'
    exact ⟨n', hx', hn'⟩

end

end VariOCL.IR
