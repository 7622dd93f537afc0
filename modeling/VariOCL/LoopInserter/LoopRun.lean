import VariOCL.LoopInserter.BuildLoop
import VariOCL.LoopInserter.FlatIdx
import VariOCL.LoopInserter.WorkItems
import VariOCL.Sim.Path

/-! How one inserted loop runs. -/

namespace VariOCL.IR

open Sim

section
variable {Val : Type}

/-- One block is executed. -/
def Function.Goes [DecidableEq Val] (F : Function) (M : Machine Val) (w : WorkItem Val)
    (c c' : Config Val) : Prop := ∃ es, F.Exec M w c es c'

end

namespace LoopInserter

/-- The instructions the loops count with, on 32-bit values, and the sizes of the work-group. -/
structure Counts {Val : Type} (M : Machine Val) (i32 : BitVec 32 → Val) (lsz : Dims) : Prop where
  const : ∀ n, M.atom (.constInt 32 n) = i32 (BitVec.ofNat 32 n)
  add : ∀ a b, M.eval (.int 32) (.other "add" [.undefValue, .undefValue]) [i32 a, i32 b] =
    i32 (a + b)
  ult : ∀ a b, M.truth (M.eval (.int 1) (.other "icmp ult" [.undefValue, .undefValue])
    [i32 a, i32 b]) = a.ult b
  localSize : ∀ d : Fin 3, M.call (some "get_local_size") [i32 (BitVec.ofNat 32 d)] =
    .ret (i32 (lsz d))

/-- A value below a size does not wrap. -/
theorem toNat_succ {l n : BitVec 32} (h : l < n) : (l + 1).toNat = l.toNat + 1 := by
  have hone : (1 : BitVec 32).toNat = 1 := rfl
  have hlt := BitVec.lt_def.mp h
  have := n.isLt
  rw [BitVec.toNat_add, hone]
  omega

def DWLoop.ids (L : DWLoop) : List InstId := [L.IV, L.GLSCall, L.IV_inc, L.CmpResult]

section
variable {Val : Type} [DecidableEq Val] {F : Function} {M : Machine Val} {w : WorkItem Val}
  {i32 : BitVec 32 → Val} {lsz : Dims} {L : DWLoop} {d : Fin 3} {LoopBody next : BlockId}
  {p : Option BlockId} {s : State Val} {l : BitVec 32} {v : Val}

theorem DWLoop.Stands.enter (hL : L.Stands F d LoopBody next) :
    F.Goes M w (.inside p L.LoopPreheader s) (.inside (some L.LoopPreheader) L.LoopHeader s) := by
  refine ⟨[.branch L.preheader.termId (some 0)], .branch (i := 0) ?_ ?_⟩
  · rw [hL.preheader]
    rfl
  · rw [Function.succs, hL.preheader]
    rfl

theorem DWLoop.Stands.leave (hL : L.Stands F d LoopBody next) :
    F.Goes M w (.inside p L.LoopEnd s) (.inside (some L.LoopEnd) next s) := by
  refine ⟨[.branch (L.loopEnd next).termId (some 0)], .branch (i := 0) ?_ ?_⟩
  · rw [hL.loopEnd]
    rfl
  · rw [Function.succs, hL.loopEnd]
    rfl

/-- The header takes the value of its PHI. -/
theorem DWLoop.Stands.head (hL : L.Stands F d LoopBody next)
    (hv : ((Op.incomingFor p (.phi [(.constInt 32 0, L.LoopPreheader),
      (.inst L.IV_inc, L.LatchBB)])).bind (M.read s.env)) = some v) :
    F.Goes M w (.inside p L.LoopHeader s)
      (.inside (some L.LoopHeader) LoopBody (s.define L.IV v)) := by
  refine ⟨[.value L.IV v, .branch (L.header LoopBody).termId (some 0)],
    .branch (i := 0) ?_ ?_⟩
  · rw [hL.header, Machine.execBlock]
    have hphis : (L.header LoopBody).insts.takeWhile (·.op.isPhi) = (L.header LoopBody).insts := rfl
    have hrest : (L.header LoopBody).insts.dropWhile (·.op.isPhi) = [] := rfl
    rw [hphis, hrest]
    simp only [DWLoop.header, Machine.execPhis, hv, Option.bind_some, Option.map_some,
      Machine.execInsts, Machine.taken]
    rfl
  · rw [Function.succs, hL.header]
    rfl

theorem DWLoop.Stands.head_first (hL : L.Stands F d LoopBody next) (hM : Counts M i32 lsz) :
    F.Goes M w (.inside (some L.LoopPreheader) L.LoopHeader s)
      (.inside (some L.LoopHeader) LoopBody (s.define L.IV (i32 0))) := by
  refine hL.head ?_
  simp [Op.incomingFor, Machine.read, hM.const]

theorem DWLoop.Stands.head_next (hL : L.Stands F d LoopBody next)
    (hne : L.LoopPreheader ≠ L.LatchBB) (hv : s.env L.IV_inc = some v) :
    F.Goes M w (.inside (some L.LatchBB) L.LoopHeader s)
      (.inside (some L.LoopHeader) LoopBody (s.define L.IV v)) := by
  refine hL.head ?_
  simp [Op.incomingFor, Machine.read, hne, hv]

/-- The state after the latch. -/
def DWLoop.advance (L : DWLoop) (M : Machine Val) (i32 : BitVec 32 → Val) (lsz : Dims) (d : Fin 3)
    (l : BitVec 32) (s : State Val) : State Val :=
  ((s.define L.GLSCall (i32 (lsz d))).define L.IV_inc (i32 (l + 1))).define L.CmpResult
    (M.eval (.int 1) (.other "icmp ult" [.undefValue, .undefValue]) [i32 (l + 1), i32 (lsz d)])

theorem DWLoop.execBlock_latch (hM : Counts M i32 lsz) (hids : L.ids.Nodup)
    (hl : s.env L.IV = some (i32 l)) : ∃ es,
    M.execBlock w (L.latch d) p s = some (some (if (l + 1).ult (lsz d) then 0 else 1),
      L.advance M i32 lsz d l s, es) := by
  simp only [DWLoop.ids, List.nodup_cons, List.mem_cons, List.not_mem_nil, or_false, not_or] at hids
  obtain ⟨⟨hIG, -, -⟩, ⟨hGI, -⟩, -, -⟩ := hids
  have hphis : (L.latch d).insts.takeWhile (·.op.isPhi) = [] := rfl
  have hrest : (L.latch d).insts.dropWhile (·.op.isPhi) = (L.latch d).insts := rfl
  have hsize : ∀ {s : State Val}, M.execInst w ⟨L.GLSCall, .int 32,
      .call (some "get_local_size") [.constInt 32 d]⟩ s =
      some (s.define L.GLSCall (i32 (lsz d)), [.value L.GLSCall (i32 (lsz d))]) := by
    refine Machine.execInst_of_ret [i32 (BitVec.ofNat 32 d)] ?_ ?_
    · simp [Op.operands, Machine.readAll, Machine.read, hM.const]
    · simp [Machine.perform, idBuiltins, hM.localSize]
  have hinc : ∀ {s : State Val}, s.env L.IV = some (i32 l) → M.execInst w ⟨L.IV_inc, .int 32,
      .other "add" [.inst L.IV, .constInt 32 1]⟩ s =
      some (s.define L.IV_inc (i32 (l + 1)), [.value L.IV_inc (i32 (l + 1))]) := by
    intro s hl
    refine Machine.execInst_of_ret [i32 l, i32 1] ?_ ?_
    · simp [Op.operands, Machine.readAll, Machine.read, hM.const, hl]
    · simp [Machine.perform, Op.mapValues, hM.add]
  have hcmp : ∀ {s : State Val}, s.env L.IV_inc = some (i32 (l + 1)) →
      s.env L.GLSCall = some (i32 (lsz d)) → M.execInst w ⟨L.CmpResult, .int 1,
        .other "icmp ult" [.inst L.IV_inc, .inst L.GLSCall]⟩ s =
      some (s.define L.CmpResult (M.eval (.int 1) (.other "icmp ult" [.undefValue, .undefValue])
        [i32 (l + 1), i32 (lsz d)]), [.value L.CmpResult (M.eval (.int 1)
          (.other "icmp ult" [.undefValue, .undefValue]) [i32 (l + 1), i32 (lsz d)])]) := by
    intro s hinc hsize
    refine Machine.execInst_of_ret [i32 (l + 1), i32 (lsz d)] ?_ rfl
    simp [Op.operands, Machine.readAll, Machine.read, hinc, hsize]
  have hinc' := hinc ((State.define_ne (s := s) (i32 (lsz d)) hIG).trans hl)
  have hcmp' := hcmp (State.define_self (s.define L.GLSCall (i32 (lsz d))) L.IV_inc (i32 (l + 1)))
    ((State.define_ne _ hGI).trans (State.define_self s L.GLSCall (i32 (lsz d))))
  rw [Machine.execBlock, hphis, hrest]
  simp only [DWLoop.latch, Machine.execPhis, Machine.execInsts, Option.bind_some, Option.map_some]
  have hstate : (⟨s.env, s.mem⟩ : State Val) = s := rfl
  rw [hstate, hsize, Option.bind_some, hinc', Option.bind_some, hcmp']
  simp only [Option.bind_some, Option.map_some, Machine.taken, Machine.read, State.define_self,
    hM.ult]
  exact ⟨_, rfl⟩

theorem DWLoop.Stands.latches (hL : L.Stands F d LoopBody next) (hM : Counts M i32 lsz)
    (hids : L.ids.Nodup) (hl : s.env L.IV = some (i32 l)) :
    F.Goes M w (.inside p L.LatchBB s) (.inside (some L.LatchBB)
      (if (l + 1).ult (lsz d) then L.LoopHeader else L.LoopEnd) (L.advance M i32 lsz d l s)) := by
  obtain ⟨es, hes⟩ := DWLoop.execBlock_latch (d := d) (w := w) (p := p) hM hids hl
  rw [← hL.latch] at hes
  refine ⟨es, .branch hes ?_⟩
  rw [Function.succs, hL.latch]
  split <;> rfl

/-! ### All turns -/

omit [DecidableEq Val] in
theorem DWLoop.advance_inc (hids : L.ids.Nodup) :
    (L.advance M i32 lsz d l s).env L.IV_inc = some (i32 (l + 1)) := by
  simp only [DWLoop.ids, List.nodup_cons, List.mem_cons, List.not_mem_nil, or_false, not_or] at hids
  rw [DWLoop.advance, State.define_ne _ hids.2.2.1, State.define_self]

/-- What the rest of the function asks of a loop and of its body; `Inv n` holds after `n` turns. -/
structure Turns {ι : Type} (F : Function) (M : Machine Val) (w : WorkItem Val)
    (i32 : BitVec 32 → Val) (lsz : Dims) (L : DWLoop) (d : Fin 3) (LoopBody : BlockId)
    (Inv : Nat → State Val → Prop) (outside : Config Val → Prop)
    (body : ι → List (Config Val) → Prop) (items : BitVec 32 → List ι) : Prop where
  inv : ∀ n s i v, i ∈ L.ids → Inv n s → Inv n (s.define i v)
  preheader : ∀ p s, outside (.inside p L.LoopPreheader s)
  header : ∀ p s, outside (.inside p L.LoopHeader s)
  loopEnd : ∀ p s, outside (.inside p L.LoopEnd s)
  latch : ∀ p s l, l < lsz d → s.env L.IV = some (i32 l) → outside (.inside p L.LatchBB s)
  turn : ∀ l < lsz d, ∀ s, Inv l.toNat s → s.env L.IV = some (i32 l) → ∃ cs p s',
    Path (F.Goes M w) (.inside (some L.LoopHeader) LoopBody s) cs (.inside p L.LatchBB s') ∧
    Bodies outside body (items l) cs ∧ Inv (l.toNat + 1) s' ∧ s'.env L.IV = some (i32 l)

variable {ι : Type} {Inv : Nat → State Val → Prop} {outside : Config Val → Prop}
  {body : ι → List (Config Val) → Prop} {items : BitVec 32 → List ι}

/-- One turn, up to the block after the latch. -/
theorem DWLoop.Stands.turn (hL : L.Stands F d LoopBody next) (hM : Counts M i32 lsz)
    (hids : L.ids.Nodup) (ht : Turns F M w i32 lsz L d LoopBody Inv outside body items)
    (hlt : l < lsz d) (hs : Inv l.toNat s) (hl : s.env L.IV = some (i32 l)) : ∃ cs s',
      Path (F.Goes M w) (.inside (some L.LoopHeader) LoopBody s) cs (.inside (some L.LatchBB)
        (if (l + 1).ult (lsz d) then L.LoopHeader else L.LoopEnd) s') ∧
      Bodies outside body (items l) cs ∧ Inv (l.toNat + 1) s' ∧
      s'.env L.IV_inc = some (i32 (l + 1)) := by
  obtain ⟨cs, p, s₁, hpath, hbodies, hs₁, hl₁⟩ := ht.turn l hlt s hs hl
  refine ⟨cs ++ [.inside p L.LatchBB s₁], L.advance M i32 lsz d l s₁,
    hpath.append (.single (hL.latches hM hids hl₁)), ?_, ?_, DWLoop.advance_inc hids⟩
  · simpa using hbodies.append (.skip (ht.latch p s₁ l hlt hl₁) .nil)
  · have hmem : ∀ i ∈ [L.GLSCall, L.IV_inc, L.CmpResult], i ∈ L.ids := fun i hi =>
      List.mem_cons_of_mem L.IV hi
    exact ht.inv _ _ _ _ (hmem _ (by simp)) (ht.inv _ _ _ _ (hmem _ (by simp))
      (ht.inv _ _ _ _ (hmem _ (by simp)) hs₁))

/-- From the turn of `l` to the end, with `k` more turns to come. -/
theorem DWLoop.Stands.runs_from (hL : L.Stands F d LoopBody next) (hM : Counts M i32 lsz)
    (hids : L.ids.Nodup) (hne : L.LoopPreheader ≠ L.LatchBB)
    (ht : Turns F M w i32 lsz L d LoopBody Inv outside body items) {k : Nat}
    (hk : l.toNat + k + 1 = (lsz d).toNat) (hs : Inv l.toNat s)
    (hl : s.env L.IV = some (i32 l)) : ∃ cs s',
      Path (F.Goes M w) (.inside (some L.LoopHeader) LoopBody s) cs
        (.inside (some L.LoopEnd) next s') ∧
      Bodies outside body
        (((List.range' l.toNat (k + 1)).map (BitVec.ofNat 32)).flatMap items) cs ∧
      Inv (lsz d).toNat s' := by
  induction k generalizing l s with
  | zero =>
    have hlt : l < lsz d := BitVec.lt_def.mpr (by omega)
    obtain ⟨cs, s₁, hpath, hbodies, hs₁, -⟩ := hL.turn hM hids ht hlt hs hl
    have hlast : (l + 1).ult (lsz d) = false := by
      rw [BitVec.ult, toNat_succ hlt, decide_eq_false_iff_not]
      omega
    rw [hlast] at hpath
    refine ⟨_, s₁, hpath.append (.single hL.leave), ?_, hk ▸ hs₁⟩
    have hitems : ((List.range' l.toNat (0 + 1)).map (BitVec.ofNat 32)).flatMap items =
        items l ++ [] := by simp
    rw [hitems]
    exact hbodies.append (.skip (ht.loopEnd _ _) .nil)
  | succ k ih =>
    have hlt : l < lsz d := BitVec.lt_def.mpr (by omega)
    obtain ⟨cs, s₁, hpath, hbodies, hs₁, hinc⟩ := hL.turn hM hids ht hlt hs hl
    have hsucc := toNat_succ hlt
    have hmore : (l + 1).ult (lsz d) = true := by
      rw [BitVec.ult, hsucc, decide_eq_true_iff]
      omega
    rw [hmore] at hpath
    have hhead := hL.head_next (M := M) (w := w) hne hinc
    have hpath' := hpath.append (.single hhead)
    have hIV : L.IV ∈ L.ids := List.mem_cons_self
    obtain ⟨cs', s₂, hrest, hbodies', hs₂⟩ := ih (l := l + 1) (by rw [hsucc]; omega)
      (hsucc ▸ ht.inv _ _ _ _ hIV hs₁) (State.define_self ..)
    refine ⟨_, s₂, hpath'.append hrest, ?_, hs₂⟩
    have hitems : ((List.range' l.toNat (k + 1 + 1)).map (BitVec.ofNat 32)).flatMap items =
        items l ++ ((List.range' (l + 1).toNat (k + 1)).map (BitVec.ofNat 32)).flatMap items := by
      rw [List.range'_succ, hsucc, List.map_cons, List.flatMap_cons]
      simp
    rw [hitems, List.append_assoc]
    exact hbodies.append (.skip (ht.header _ _) hbodies')

/-- An arrival at the preheader runs the body for each value below the local size, in order. -/
theorem DWLoop.Stands.runs (hL : L.Stands F d LoopBody next) (hM : Counts M i32 lsz)
    (hids : L.ids.Nodup) (hne : L.LoopPreheader ≠ L.LatchBB) (hpos : 0 < lsz d)
    (ht : Turns F M w i32 lsz L d LoopBody Inv outside body items) (hs : Inv 0 s) : ∃ cs s',
      Path (F.Goes M w) (.inside p L.LoopPreheader s) cs (.inside (some L.LoopEnd) next s') ∧
      Bodies outside body ((upTo (lsz d)).flatMap items) cs ∧ Inv (lsz d).toNat s' := by
  have henter := Path.single (hL.enter (M := M) (w := w) (p := p) (s := s))
  have hpath := henter.append (.single (hL.head_first (w := w) (s := s) hM))
  have hpos := BitVec.lt_def.mp hpos
  have hzero : (0 : BitVec 32).toNat = 0 := rfl
  have hIV : L.IV ∈ L.ids := List.mem_cons_self
  obtain ⟨cs, s', hrest, hbodies, hs'⟩ := hL.runs_from hM hids hne ht (l := 0)
    (k := (lsz d).toNat - 1) (by omega) (ht.inv _ _ _ _ hIV hs) (State.define_self ..)
  refine ⟨_, s', hpath.append hrest, ?_, hs'⟩
  have hcount : (lsz d).toNat - 1 + 1 = (lsz d).toNat := by omega
  rw [hzero, hcount, ← List.range_eq_range'] at hbodies
  exact .skip (ht.preheader _ _) (.skip (ht.header _ _) hbodies)

end

/-! ### The body -/

section
variable {Val : Type} [DecidableEq Val] {F : Function} {M : Machine Val} {w : WorkItem Val}
  {BBSet : List BlockId} {p q : Option BlockId} {b e : BlockId} {s s' : State Val}
  {es : List (Act Val)} {BB : BasicBlock} {i : InstId}

omit [DecidableEq Val] in
theorem defines_execPhis {env env' env'' : Cells InstId Val} {Is : List Instruction}
    (h : M.execPhis env p Is env' = some (env'', es)) {x : Act Val} (hx : x ∈ es)
    (hi : x.defines = some i) : ∃ I ∈ Is, I.id = i := by
  induction Is generalizing env' es with
  | nil =>
    cases h
    cases hx
  | cons I Is ih =>
    obtain ⟨v, -, h⟩ := Option.bind_eq_some_iff.mp h
    obtain ⟨⟨e₁, es₁⟩, hI, heq⟩ := Option.map_eq_some_iff.mp h
    cases heq
    rcases List.mem_cons.mp hx with rfl | hx
    · exact ⟨I, List.mem_cons_self, Option.some.inj hi⟩
    · obtain ⟨J, hJ, hid⟩ := ih hI hx
      exact ⟨J, List.mem_cons_of_mem I hJ, hid⟩

theorem defines_execInsts {Is : List Instruction} (h : M.execInsts w Is s = some (s', es))
    {x : Act Val} (hx : x ∈ es) (hi : x.defines = some i) : ∃ I ∈ Is, I.id = i := by
  induction Is generalizing s es with
  | nil =>
    cases h
    cases hx
  | cons I Is ih =>
    obtain ⟨⟨s₁, es₁⟩, hI, h⟩ := Option.bind_eq_some_iff.mp h
    obtain ⟨⟨s₂, es₂⟩, hIs, heq⟩ := Option.map_eq_some_iff.mp h
    cases heq
    rcases List.mem_append.mp hx with hx | hx
    · obtain ⟨vs, -, hI⟩ := Option.bind_eq_some_iff.mp hI
      obtain ⟨pr, -, hI⟩ := Option.bind_eq_some_iff.mp hI
      obtain ⟨⟨v, m, as⟩, -, heq⟩ := Option.map_eq_some_iff.mp hI
      cases heq
      refine ⟨I, List.mem_cons_self, ?_⟩
      rcases List.mem_append.mp hx with hx | hx
      · obtain ⟨a, -, rfl⟩ := List.mem_map.mp hx
        cases hi
      · obtain rfl := List.mem_singleton.mp hx
        exact Option.some.inj hi
    · obtain ⟨J, hJ, hid⟩ := ih hIs hx
      exact ⟨J, List.mem_cons_of_mem I hJ, hid⟩

/-- A block changes no value but those of its instructions. -/
theorem env_execBlock {t : Option Nat} (h : M.execBlock w BB p s = some (t, s', es))
    (hi : ∀ I ∈ BB.insts, I.id ≠ i) : s'.env i = s.env i := by
  refine replay_env_eq (Machine.replay_execBlock h) fun x hx hdef => ?_
  obtain ⟨⟨e₁, es₁⟩, hphis, h⟩ := Option.bind_eq_some_iff.mp h
  obtain ⟨⟨t₁, es₂⟩, hinsts, h⟩ := Option.bind_eq_some_iff.mp h
  obtain ⟨j, -, heq⟩ := Option.map_eq_some_iff.mp h
  cases heq
  rcases List.mem_append.mp hx with hx | hx
  · rcases List.mem_append.mp hx with hx | hx
    · obtain ⟨I, hI, hid⟩ := defines_execPhis hphis hx hdef
      exact hi I ((List.takeWhile_sublist fun I : Instruction => I.op.isPhi).subset hI) hid
    · obtain ⟨I, hI, hid⟩ := defines_execInsts hinsts hx hdef
      exact hi I ((List.dropWhile_sublist fun I : Instruction => I.op.isPhi).subset hI) hid
  · obtain rfl := List.mem_singleton.mp hx
    cases hdef

/-- A run of the region passes blocks of the region only, with other values unchanged. -/
theorem RunsRegion.path (h : RunsRegion F M w BBSet p b s es q e s') :
    ∃ cs, Path (F.Goes M w) (.inside p b s) cs (.inside q e s') ∧
      (∀ c ∈ cs, ∃ p b t, c = .inside p b t ∧ b ∈ BBSet ∧
        ∀ i, (∀ b ∈ BBSet, ∀ I ∈ (F.block b).insts, I.id ≠ i) → t.env i = s.env i) ∧
      ∀ i, (∀ b ∈ BBSet, ∀ I ∈ (F.block b).insts, I.id ≠ i) → s'.env i = s.env i := by
  induction h with
  | leave s hb => exact ⟨[], .nil _, by simp, fun _ _ => rfl⟩
  | @step p q b d e s s₁ s₂ es es' hb hx _ ih =>
    obtain ⟨cs, hpath, hcs, hend⟩ := ih
    have hstep : ∀ i, (∀ b ∈ BBSet, ∀ I ∈ (F.block b).insts, I.id ≠ i) →
        s₁.env i = s.env i := by
      intro i hi
      cases hx with
      | branch hx _ => exact env_execBlock hx (hi b hb)
    refine ⟨_, .cons ⟨es, hx⟩ hpath, ?_, fun i hi => (hend i hi).trans (hstep i hi)⟩
    intro c hc
    rcases List.mem_cons.mp hc with rfl | hc
    · exact ⟨p, b, s, rfl, hb, fun _ _ => rfl⟩
    · obtain ⟨p', b', t, rfl, hb', ht⟩ := hcs c hc
      exact ⟨p', b', t, rfl, hb', fun i hi => (ht i hi).trans (hstep i hi)⟩

end

end LoopInserter

end VariOCL.IR
