import VariOCL.IR.Translated
import VariOCL.LoopInserter.ReplaceIds
import Mathlib.Algebra.Ring.Nat

/-! What is read where id calls have been replaced: the types of the values, and the values. -/

namespace VariOCL.IR

open Sim

/-- The type of a value; `A` has those of constants, arguments and globals. -/
def Function.HasTy (F : Function) (A : Value → Ty) (v : Value) (τ : Ty) : Prop :=
  match v with
  | .inst i => ∃ b ∈ F.layout, ∃ I ∈ (F.block b).insts, I.id = i ∧ I.ty = τ
  | v => A v = τ

/-- The values of `G` have the types of those of `F`. -/
def SameTypes (A : Value → Ty) (F G : Function) (vs vs' : List Value) : Prop :=
  List.Forall₂ (fun v v' => ∀ τ, F.HasTy A v τ → G.HasTy A v' τ) vs vs'

/-- A function in SSA form whose values are all there, and whose calls ask for one dimension. -/
structure Function.AsksIds (F : Function) : Prop where
  valid : F.Valid
  ssa : F.DefinesBeforeUse
  used : ∀ b ∈ F.layout, ∀ i, .inst i ∈ (F.block b).values →
    ∃ d ∈ F.layout, i ∈ (F.block d).insts.map Instruction.id
  oneArgument : ∀ b ∈ F.layout, ∀ I ∈ (F.block b).insts, ∀ name args,
    I.op = .call (some name) args → name ∈ idBuiltins → args.length = 1

/-- Integers of any width as numbers. -/
structure Numbers {Val : Type} (M : Machine Val) (num : Nat → Val) : Prop where
  add : ∀ a b, M.eval (.int 32) (.other "add" [.undefValue, .undefValue]) [num a, num b] =
    num ((a + b) % 2 ^ 32)
  mul : ∀ a b, M.eval (.int 32) (.other "mul" [.undefValue, .undefValue]) [num a, num b] =
    num (a * b % 2 ^ 32)
  trunc : ∀ k a, M.eval (.int k) (.trunc .undefValue) [num a] = num (a % 2 ^ k)

section
variable {F G : Function} {A : Value → Ty} {v : Value} {τ τ' : Ty} {b : BlockId} {I : Instruction}

theorem Function.HasTy.unique (h : F.HasTy A v τ) (h' : F.HasTy A v τ') (hn : F.instIds.Nodup) :
    τ = τ' := by
  cases v with
  | inst i =>
    obtain ⟨b, hb, I, hI, hid, rfl⟩ := h
    obtain ⟨c, hc, J, hJ, hid', rfl⟩ := h'
    rw [F.inst_eq_of_id hn hb hc hI hJ (hid.trans hid'.symm)]
  | _ => exact Eq.trans (Eq.symm h) h'

theorem Function.AsksIds.lt_freshInst {i : InstId} (hF : F.AsksIds) (hb : b ∈ F.layout)
    (hi : .inst i ∈ (F.block b).values) : i < F.freshInst := by
  obtain ⟨d, hd, hi⟩ := hF.used b hb i hi
  exact F.lt_freshInst (List.mem_flatMap.mpr ⟨d, hd, List.mem_append_left _ hi⟩)

theorem SameTypes.of_mem {f : Value → Value} {vs : List Value} (h : SameTypes A F G vs (vs.map f))
    (hv : v ∈ vs) (hτ : F.HasTy A v τ) : G.HasTy A (f v) τ := by
  induction vs with
  | nil => cases hv
  | cons x vs ih =>
    cases h with
    | cons hx hvs =>
      rcases List.mem_cons.mp hv with rfl | hv
      · exact hx τ hτ
      · exact ih hvs hv

end

namespace LoopInserter

section
variable {F : Function} {RN : MxPARegion} {dim : Nat} {IV c t u : InstId} {b d : BlockId}
  {I J : Instruction}

theorem operands_of_isTrunc {op : Op} (h : op.isTrunc) : ∃ v, op.operands = [v] ∧ op = .trunc v := by
  cases op with
  | trunc v => exact ⟨v, rfl, rfl⟩
  | _ => cases h

theorem op_of_onlyTrunc (hn : F.instIds.Nodup) (ht : onlyTrunc F c = some J.id) (hb : b ∈ F.layout)
    (hJ : J ∈ (F.block b).insts) : J.op = .trunc (.inst c) := by
  obtain ⟨d, hd, T, hT, hid, htrunc, hmem⟩ := truncOf_of_onlyTrunc ht
  obtain rfl := F.inst_eq_of_id hn hd hb hT hJ hid
  obtain ⟨v, hops, hop⟩ := operands_of_isTrunc htrunc
  rw [hops, List.mem_singleton] at hmem
  rw [hop, hmem]

end

/-- A call, or the truncation that is its only use. -/
def Erased (F : Function) (gone : List InstId) (I : Instruction) : Prop :=
  (∃ b ∈ F.layout, I ∈ (F.block b).insts) ∧ I.id ∈ gone

section
variable {Val : Type} {M : Machine Val} {w : WorkItem Val} {num : Nat → Val} {F G : Function}
  {RN : MxPARegion} {dim l k : Nat} {IV c t u i : InstId} {b d : BlockId} {I J T : Instruction}
  {A : Value → Ty} {e : Cells InstId Val} {s s' : State Val} {v : Value} {name : String}

theorem isLocalIdCall_eq (hF : F.AsksIds) (hb : b ∈ F.layout) (hI : I ∈ (F.block b).insts)
    (h : isLocalIdCall dim I) : I.op = .call (some "get_local_id") [.constInt 32 dim] := by
  have hone := hF.oneArgument b hb I hI
  obtain ⟨i, ty, op⟩ := I
  cases op with
  | call callee args =>
    cases callee with
    | none => cases h
    | some name =>
      obtain ⟨hname, hhead⟩ := Bool.and_eq_true_iff.mp h
      obtain rfl := eq_of_beq hname
      have hlen := hone _ args rfl (by decide)
      obtain ⟨a, rfl⟩ := List.length_eq_one_iff.mp hlen
      obtain rfl := Option.some.inj (eq_of_beq hhead)
      rfl
  | _ => cases h

theorem pure_idCall {args : List Value} (hname : name ∈ idBuiltins)
    (h : I.op = .call (some name) args) : M.Pure w I ∧ I.op.isPhi = false := by
  refine ⟨fun vs p hp => ?_, by rw [h]; rfl⟩
  rw [h] at hp
  have hbarrier : ∀ n ∈ idBuiltins, n ≠ "barrier" := by decide
  simp only [Machine.perform, if_neg (hbarrier name hname), if_pos hname] at hp
  obtain ⟨x, -, rfl⟩ := Option.map_eq_some_iff.mp hp
  exact ⟨x, rfl⟩

theorem pure_trunc (h : I.op.isTrunc) : M.Pure w I ∧ I.op.isPhi = false := by
  obtain ⟨v, -, hop⟩ := operands_of_isTrunc h
  refine ⟨fun vs p hp => ?_, by rw [hop]; rfl⟩
  rw [hop] at hp
  cases hp
  exact ⟨_, rfl⟩

theorem computed_idCall {args : List Value} (hname : name ∈ idBuiltins)
    (h : I.op = .call (some name) args) (hc : M.Computed w e I) :
    ∃ vs, M.readAll e args = some vs ∧ e I.id = w name vs := by
  obtain ⟨vs, x, hvs, hp, hid⟩ := hc
  rw [h] at hvs hp
  have hbarrier : ∀ n ∈ idBuiltins, n ≠ "barrier" := by decide
  simp only [Machine.perform, if_neg (hbarrier name hname), if_pos hname] at hp
  obtain ⟨z, hz, heq⟩ := Option.map_eq_some_iff.mp hp
  cases heq
  exact ⟨vs, hvs, hid.trans hz.symm⟩

/-- What is erased is a call, or truncates one. -/
theorem erased_cases (hn : F.instIds.Nodup) (hBB : ∀ b ∈ RN.BBInvolved, b ∈ F.layout)
    (hi : i ∈ erasedIds F RN dim) :
    (∃ b ∈ F.layout, ∃ I ∈ (F.block b).insts, I.id = i ∧ isLocalIdCall dim I ∧
      i ∈ localIdCalls F RN dim) ∨
    ∃ c ∈ localIdCalls F RN dim, onlyTrunc F c = some i ∧ ∃ b ∈ F.layout,
      ∃ T ∈ (F.block b).insts, T.id = i ∧ T.op = .trunc (.inst c) := by
  rcases List.mem_append.mp hi with hi | hi
  · obtain ⟨b, hb, I, hI, hcall, rfl⟩ := mem_localIdCalls.mp hi
    exact .inl ⟨b, hBB b hb, I, hI, rfl, hcall, hi⟩
  · obtain ⟨c, hc, ht⟩ := List.mem_filterMap.mp hi
    obtain ⟨b, hb, T, hT, rfl, -, -⟩ := truncOf_of_onlyTrunc ht
    exact .inr ⟨c, hc, ht, b, hb, T, hT, rfl, op_of_onlyTrunc hn ht hb hT⟩

theorem op_erased (hF : F.AsksIds) (hBB : ∀ b ∈ RN.BBInvolved, b ∈ F.layout)
    (h : Erased F (erasedIds F RN dim) I) :
    (∃ v, I.op = .call (some "get_local_id") [v]) ∨ I.op.isTrunc := by
  obtain ⟨⟨b, hb, hI⟩, hid⟩ := h
  rcases erased_cases hF.valid.ids hBB hid with
    ⟨c, hc, J, hJ, hJid, hcall, -⟩ | ⟨_, -, -, c, hc, T, hT, hTid, hop⟩
  · rw [← F.inst_eq_of_id hF.valid.ids hc hb hJ hI hJid]
    exact .inl ⟨_, isLocalIdCall_eq hF hc hJ hcall⟩
  · rw [← F.inst_eq_of_id hF.valid.ids hc hb hT hI hTid, hop]
    exact .inr rfl

theorem filter_map_eq_flatMap {Is : List Instruction} {g : Instruction → Instruction}
    {gone : List InstId} (hg : ∀ I, (g I).id = I.id) :
    (Is.map g).filter (fun I => !gone.contains I.id) =
      Is.flatMap fun I => if I.id ∈ gone then [] else [g I] := by
  induction Is with
  | nil => rfl
  | cons I Is ih =>
    rw [List.map_cons, List.flatMap_cons, List.filter_cons, ih, hg]
    by_cases hI : I.id ∈ gone
    · rw [if_pos hI, if_neg (by simpa using hI), List.nil_append]
    · rw [if_neg hI, if_pos (by simpa using hI), List.singleton_append]

/-- A 32-bit PHI, as the builders make it. -/
def IsIV (F : Function) (IV : InstId) : Prop :=
  ∃ b ∈ F.layout, ∃ I ∈ (F.block b).insts, I.id = IV ∧ I.ty = .int 32 ∧ I.op.isPhi

theorem IsIV.ne (h : IsIV F IV) (hn : F.instIds.Nodup) (hb : b ∈ F.layout)
    (hI : I ∈ (F.block b).insts) (hphi : I.op.isPhi = false) : IV ≠ I.id := by
  obtain ⟨d, hd, J, hJ, rfl, -, hJphi⟩ := h
  intro hid
  rw [F.inst_eq_of_id hn hd hb hJ hI hid] at hJphi
  exact Bool.false_ne_true (hphi.symm.trans hJphi)

theorem IsIV.not_erased (h : IsIV F IV) (hF : F.AsksIds)
    (hBB : ∀ b ∈ RN.BBInvolved, b ∈ F.layout) : IV ∉ erasedIds F RN dim := by
  obtain ⟨d, hd, J, hJ, rfl, -, hphi⟩ := h
  intro hgone
  rcases op_erased hF hBB ⟨⟨d, hd, hJ⟩, hgone⟩ with ⟨v, hop⟩ | htrunc
  · rw [hop] at hphi
    cases hphi
  · obtain ⟨v, -, hop⟩ := operands_of_isTrunc htrunc
    rw [hop] at hphi
    cases hphi

variable [DecidableEq Val]

end

end LoopInserter

end VariOCL.IR
