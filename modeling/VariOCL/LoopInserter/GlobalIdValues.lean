import VariOCL.LoopInserter.ExpandedForm
import VariOCL.LoopInserter.IdValues

/-! The values of global ids where sums of the other ids have taken their place. -/

namespace VariOCL.IR.LoopInserter

open Sim

/-- The states of the two functions: each sum has the value of the call. -/
def SameButSums {Val : Type} (F : Function) (s s' : State Val) : Prop :=
  s'.mem = s.mem ∧ (∀ i < F.freshInst, i ∉ globalErased F → s'.env i = s.env i) ∧
    ∀ c ∈ globalIds F, ∀ x, s.env c = some x → s'.env (slotOf F c + 6) = some x

section
variable {Val : Type} {M : Machine Val} {w : WorkItem Val} {num : Nat → Val}
  {local_size group_id local_id global_offset : Val → Nat} {F G : Function} {c i n t u : InstId}
  {b d : BlockId} {I J : Instruction} {A : Value → Ty} {s s' : State Val} {v arg : Value}
  {name : String} {x y z : Val}

/-! ### The expansion of one call -/

section
variable [DecidableEq Val]

theorem execInst_builtinCall (hv : M.read s.env v = some y)
    (hp : M.perform w i (.int 32) (.call (some name) [v]) [y] = some (.ret z)) :
    M.execInst w (builtinCall i name v) s = some (s.define i z, [.value i z]) := by
  have hreads : M.readAll s.env [v] = some [y] := Option.bind_eq_some_iff.mpr ⟨y, hv, rfl⟩
  rw [Machine.execInst, builtinCall, Op.operands, hreads, Option.bind_some, hp]
  rfl

theorem execInst_binary {a b : InstId} (hx : s.env a = some x) (hy : s.env b = some y)
    (hop : M.eval (.int 32) (.other name [.undefValue, .undefValue]) [x, y] = z) :
    M.execInst w (binary i name a b) s = some (s.define i z, [.value i z]) := by
  have hreads : M.readAll s.env [.inst a, .inst b] = some [x, y] :=
    Option.bind_eq_some_iff.mpr ⟨x, hx, Option.map_eq_some_iff.mpr
      ⟨[y], Option.bind_eq_some_iff.mpr ⟨y, hy, rfl⟩, rfl⟩⟩
  have hp : M.perform w i (.int 32) (.other name [.inst a, .inst b]) [x, y] = some (.ret z) :=
    congrArg (fun v => some (Proc.ret v)) hop
  rw [Machine.execInst, binary, Op.operands, hreads, Option.bind_some, hp]
  rfl

end

/-! ### What is replaced -/

theorem slotOf_ne {k : Nat} (hi : i < F.freshInst) : slotOf F c + k ≠ i := fun h =>
  absurd hi (Nat.not_lt.mpr (h ▸ slotOf_ge.trans (Nat.le_add_right _ _)))

theorem SameButSums.set (h : SameButSums F s s') (hb : b ∈ F.layout) (hI : I ∈ (F.block b).insts)
    (hn : F.instIds.Nodup) (hcall : get_global_id_arg I = none) {m m' : Cells Val Val}
    (hm : m' = m) (x : Val) : SameButSums F ⟨s.env.set I.id x, m⟩ ⟨s'.env.set I.id x, m'⟩ := by
  obtain ⟨-, hsame, hsums⟩ := h
  refine ⟨hm, fun i hi hgone => ?_, fun c hc y hy => ?_⟩
  · change s'.env.set I.id x i = s.env.set I.id x i
    by_cases hii : i = I.id
    · rw [hii, Cells.set_self, Cells.set_self]
    · rw [Cells.set_ne _ _ hii, Cells.set_ne _ _ hii, hsame i hi hgone]
  · have hne : c ≠ I.id := by
      rintro rfl
      obtain ⟨d, hd, J, hJ, harg, hid⟩ := mem_globalIds.mp hc
      rw [F.inst_eq_of_id hn hd hb hJ hI hid, hcall] at harg
      cases harg
    have hnew := slotOf_ne (c := c) (k := 6) (F.lt_freshInst (F.instIds_of_mem hb hI))
    exact (Cells.set_ne _ _ hnew).trans (hsums c hc y ((Cells.set_ne _ _ hne).symm.trans hy))

variable [DecidableEq Val]

end

end VariOCL.IR.LoopInserter
