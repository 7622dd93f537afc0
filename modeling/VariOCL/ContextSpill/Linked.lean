import VariOCL.ContextSpill.Cells
import VariOCL.ContextSpill.Run
import VariOCL.IR.Translated
import VariOCL.Sim.Agree

/-! The states of a function before and after one of its values got a slot. -/

namespace VariOCL.IR

open Sim

/-- The values of `F`, up to those that are gone, and the cells of `P`. -/
structure Function.Matched {Val : Type} (F : Function) (gone : List InstId) (P : Val → Prop)
    (s t : State Val) : Prop where
  known : ∀ j, (s.env j).isSome → j ∈ F.instIds
  env : ∀ j ∈ F.instIds, j ∉ gone → t.env j = s.env j
  mem : s.mem.AgreeOn P t.mem

section
variable {Val : Type} {M : Machine Val} {w : WorkItem Val} {F : Function} {gone : List InstId}
  {P : Val → Prop} {s s' t t' : State Val} {I : Instruction} {es : List (Act Val)} {f : Value → Value}
  {v : Value} {x : Val} {e e' : Cells InstId Val} {vs : List Value}

theorem Function.Valid.mem_takeWhile {b : BlockId} (hF : F.Valid) (hb : b ∈ F.layout)
    (hI : I ∈ (F.block b).insts) (hphi : I.op.isPhi) :
    I ∈ (F.block b).insts.takeWhile (·.op.isPhi) := by
  rw [← List.takeWhile_append_dropWhile (p := (·.op.isPhi)) (l := (F.block b).insts)] at hI
  refine (List.mem_append.mp hI).resolve_right fun hI => ?_
  exact Bool.false_ne_true ((hF.phisFirst b hb I hI).symm.trans hphi)

/-- What an instruction or a terminator reads has a value. -/
theorem Machine.isSome_read_of_readAll {xs : List Val} (h : M.readAll e vs = some xs) :
    ∀ v ∈ vs, (M.read e v).isSome := by
  induction vs generalizing xs with
  | nil => exact fun v hv => absurd hv List.not_mem_nil
  | cons v vs ih =>
    obtain ⟨x, hx, h⟩ := Option.bind_eq_some_iff.mp h
    obtain ⟨ys, hys, -⟩ := Option.map_eq_some_iff.mp h
    exact List.forall_mem_cons.mpr ⟨hx ▸ rfl, ih hys⟩

theorem Machine.isSome_read_of_execInst [DecidableEq Val] (h : M.execInst w I s = some (s', es)) :
    ∀ v ∈ I.op.operands, (M.read s.env v).isSome := by
  obtain ⟨xs, hxs, -⟩ := Option.bind_eq_some_iff.mp h
  exact isSome_read_of_readAll hxs

theorem Machine.isSome_read_of_taken {T : Terminator} {i : Option Nat} (h : M.taken e T = some i) :
    ∀ v ∈ T.operands, (M.read e v).isSome := by
  cases T with
  | br d => exact fun v hv => absurd hv List.not_mem_nil
  | condBr c d d' =>
    obtain ⟨x, hx, -⟩ := Option.map_eq_some_iff.mp h
    exact fun v hv => List.mem_singleton.mp hv ▸ hx ▸ rfl
  | switch c d cs =>
    obtain ⟨x, hx, -⟩ := Option.map_eq_some_iff.mp h
    exact fun v hv => List.mem_singleton.mp hv ▸ hx ▸ rfl
  | ret v =>
    obtain ⟨xs, hxs, -⟩ := Option.map_eq_some_iff.mp h
    exact isSome_read_of_readAll hxs
  | unreachable => cases h

/-- `f` gives other names for what is read. -/
def Machine.Reads (M : Machine Val) (f : Value → Value) (vs : List Value) (e e' : Cells InstId Val) :
    Prop := ∀ v ∈ vs, ∀ x, M.read e v = some x → M.read e' (f v) = some x

theorem Machine.Reads.eq (h : M.Reads f vs e e') (hv : v ∈ vs) (hsome : (M.read e v).isSome) :
    M.read e' (f v) = M.read e v := by
  obtain ⟨x, hx⟩ := Option.isSome_iff_exists.mp hsome
  rw [h v hv x hx, hx]

theorem Machine.Reads.taken {T : Terminator} {i : Option Nat} (h : M.Reads f T.operands e e')
    (hi : M.taken e T = some i) : M.taken e' (T.mapValues f) = some i :=
  (taken_mapValues fun v hv => h.eq hv (isSome_read_of_taken hi v hv)).trans hi

namespace Function.Matched

theorem read (h : F.Matched gone P s t) (hv : M.read s.env v = some x)
    (hgone : ∀ j ∈ gone, v ≠ .inst j) : M.read t.env v = some x := by
  cases v with
  | inst j =>
    have hj : s.env j = some x := hv
    exact (h.env j (h.known j (hj ▸ rfl)) fun hmem => hgone j hmem rfl).trans hj
  | _ => exact hv

theorem frame (h : F.Matched gone P s t) (henv : ∀ j ∈ F.instIds, t'.env j = t.env j)
    (hmem : ∀ a, P a → t'.mem a = t.mem a) : F.Matched gone P s t' where
  known := h.known
  env j hj hgone := (henv j hj).trans (h.env j hj hgone)
  mem a ha := (hmem a ha).trans (h.mem a ha)

/-- An instruction that reads the same values does the same. -/
theorem execInst [DecidableEq Val] (h : F.Matched gone P s t) (hI : I.id ∈ F.instIds)
    (hx : M.execInst w I s = some (s', es)) (hok : ∀ x ∈ es, ∀ a, x.address = some a → P a)
    (hread : M.Reads f I.op.operands s.env t.env) :
    ∃ t', M.execInst w (I.mapValues f) t = some (t', es) ∧ F.Matched gone P s' t' ∧
      t'.env I.id = s'.env I.id ∧ (∀ j, j ≠ I.id → t'.env j = t.env j) ∧
      ∀ a, ¬ P a → t'.mem a = t.mem a := by
  have hsome := Machine.isSome_read_of_execInst hx
  have hreads : M.readAll t.env (I.op.operands.map f) = M.readAll s.env I.op.operands :=
    Machine.readAll_map fun v hv => hread.eq hv (hsome v hv)
  obtain ⟨vs, hvs, hx⟩ := Option.bind_eq_some_iff.mp hx
  obtain ⟨p, hp, hx⟩ := Option.bind_eq_some_iff.mp hx
  obtain ⟨⟨v, m, as⟩, hrun, heq⟩ := Option.map_eq_some_iff.mp hx
  cases heq
  have haddress : ∀ x ∈ as, ∀ a, x.address = some a → P a := fun x hx =>
    hok (.access I.id x) (List.mem_append_left _ (List.mem_map_of_mem hx))
  obtain ⟨m', hreplay, hagree, hkeep⟩ := replay_agreeOn (Proc.replay_of_run hrun) haddress h.mem
  have hself : t.env.set I.id v I.id = s.env.set I.id v I.id :=
    (Cells.set_self ..).trans (Cells.set_self ..).symm
  refine ⟨⟨t.env.set I.id v, m'⟩, ?_, ⟨fun j hj => ?_, fun j hj hgone => ?_, hagree⟩, hself,
    fun j hj => Cells.set_ne _ v hj, hkeep⟩
  · rw [Machine.execInst, Instruction.op_mapValues, Op.operands_mapValues, hreads, hvs,
      Option.bind_some, Machine.perform_mapValues, Instruction.id_mapValues, Instruction.mapValues, hp,
      Option.bind_some, Proc.run_of_replay hrun hreplay]
    rfl
  · by_cases hji : j = I.id
    · exact hji ▸ hI
    · exact h.known j ((Cells.set_ne s.env v hji) ▸ hj)
  · by_cases hji : j = I.id
    · exact hji ▸ hself
    · exact (Cells.set_ne _ v hji).trans ((h.env j hj hgone).trans (Cells.set_ne _ v hji).symm)

theorem execInsts [DecidableEq Val] {Is : List Instruction} (h : F.Matched [] P s t)
    (hIs : ∀ I ∈ Is, I.id ∈ F.instIds) (hx : M.execInsts w Is s = some (s', es))
    (hok : ∀ x ∈ es, ∀ a, x.address = some a → P a) :
    ∃ t', M.execInsts w Is t = some (t', es) ∧ F.Matched [] P s' t' := by
  induction Is generalizing s t es with
  | nil =>
    cases hx
    exact ⟨t, rfl, h⟩
  | cons I Is ih =>
    obtain ⟨hI, hIs⟩ := List.forall_mem_cons.mp hIs
    obtain ⟨⟨s₁, es₁⟩, hxI, hx⟩ := Option.bind_eq_some_iff.mp hx
    obtain ⟨⟨s₂, es₂⟩, hxs, heq⟩ := Option.map_eq_some_iff.mp hx
    cases heq
    obtain ⟨hok₁, hok₂⟩ := List.forall_mem_append.mp hok
    obtain ⟨t₁, hyI, h₁, -⟩ := h.execInst hI hxI hok₁
      (f := fun v => v) fun v _ x hv => h.read hv fun j hj => absurd hj List.not_mem_nil
    rw [Instruction.mapValues_id] at hyI
    obtain ⟨t₂, hys, h₂⟩ := ih h₁ hIs hxs hok₂
    exact ⟨t₂, by rw [Machine.execInsts, hyI, Option.bind_some, hys, Option.map_some], h₂⟩

theorem mono (h : F.Matched gone P s t) {gone' : List InstId} (hsub : gone ⊆ gone') :
    F.Matched gone' P s t :=
  ⟨h.known, fun j hj hgone => h.env j hj fun hmem => hgone (hsub hmem), h.mem⟩

/-- PHIs, without those that are gone. -/
theorem execPhis {sp : Splice} {pred : Option BlockId} {Is : List Instruction}
    {e e₀ e' g g₀ : Cells InstId Val} (hx : M.execPhis e pred Is e₀ = some (e', es))
    (hread : ∀ I ∈ Is, I.id ∉ sp.gone → ∀ v, I.op.incomingFor pred = some v → ∀ x,
      M.read e v = some x → M.read g (sp.use I.id pred v) = some x)
    (h₀ : ∀ j ∈ F.instIds, j ∉ sp.gone → g₀ j = e₀ j) :
    ∃ g' ps, M.execPhis g pred ((Is.filter (·.id ∉ sp.gone)).map sp.inst) g₀ = some (g', ps) ∧
      (∀ j ∈ F.instIds, j ∉ sp.gone → g' j = e' j) ∧
      (∀ j, j ∉ Is.map Instruction.id → g' j = g₀ j) ∧ ps = es.filter fun x => x.id ∉ sp.gone := by
  induction Is generalizing e₀ g₀ es with
  | nil =>
    cases hx
    exact ⟨g₀, [], rfl, h₀, fun _ _ => rfl, rfl⟩
  | cons I Is ih =>
    obtain ⟨hI, hIs⟩ := List.forall_mem_cons.mp hread
    obtain ⟨x, hx₁, hx⟩ := Option.bind_eq_some_iff.mp hx
    obtain ⟨v, hv, hval⟩ := Option.bind_eq_some_iff.mp hx₁
    obtain ⟨⟨e₁, es₁⟩, hrest, heq⟩ := Option.map_eq_some_iff.mp hx
    cases heq
    by_cases hgone : I.id ∈ sp.gone
    · have hneg : ¬ decide (I.id ∉ sp.gone) = true := fun h => of_decide_eq_true h hgone
      have hne : ∀ j, j ∉ sp.gone → e₀.set I.id x j = e₀ j := fun j hj =>
        Cells.set_ne _ x fun h => hj (h ▸ hgone)
      obtain ⟨g', ps, hexec, henv, hother, hps⟩ := ih hrest hIs fun j hX hj =>
        (h₀ j hX hj).trans (hne j hj).symm
      refine ⟨g', ps, ?_, henv, fun j hj => ?_, ?_⟩
      · rw [List.filter_cons, if_neg hneg]
        exact hexec
      · exact hother j fun h => hj (List.mem_cons_of_mem _ h)
      · rw [hps, List.filter_cons]
        exact (if_neg hneg).symm
    · have hpos : decide (I.id ∉ sp.gone) = true := decide_eq_true hgone
      have hset : ∀ j ∈ F.instIds, j ∉ sp.gone → g₀.set I.id x j = e₀.set I.id x j := by
        intro j hX hj
        by_cases hji : j = I.id
        · subst hji
          rw [Cells.set_self, Cells.set_self]
        · rw [Cells.set_ne _ _ hji, Cells.set_ne _ _ hji, h₀ j hX hj]
      obtain ⟨g', ps, hexec, henv, hother, hps⟩ := ih hrest hIs hset
      refine ⟨g', .value I.id x :: ps, ?_, henv, fun j hj => ?_, ?_⟩
      · rw [List.filter_cons, if_pos hpos, List.map_cons, Machine.execPhis,
          show (sp.inst I).op.incomingFor pred = _ from Op.incomingFor_mapUses, hv, Option.map_some,
          Option.bind_some, hI hgone v hv x hval, Option.bind_some]
        exact Option.map_eq_some_iff.mpr ⟨_, hexec, rfl⟩
      · rw [List.map_cons, List.mem_cons, not_or] at hj
        exact (hother j hj.2).trans (Cells.set_ne _ x hj.1)
      · rw [hps, List.filter_cons]
        exact (if_pos hpos).symm

/-- After the PHIs. -/
theorem phis {pred : Option BlockId} {b : BlockId} {g : Cells InstId Val}
    (h : F.Matched gone P s t) {gone' : List InstId} (hb : b ∈ F.layout)
    (hx : M.execPhis s.env pred ((F.block b).insts.takeWhile (·.op.isPhi)) s.env = some (e, es))
    (henv : ∀ j ∈ F.instIds, j ∉ gone' → g j = e j) : F.Matched gone' P ⟨e, s.mem⟩ ⟨g, t.mem⟩ where
  known j hj := by
    by_cases hphi : j ∈ ((F.block b).insts.takeWhile (·.op.isPhi)).map Instruction.id
    · obtain ⟨J, hJ, rfl⟩ := List.mem_map.mp hphi
      exact F.instIds_of_mem hb ((List.takeWhile_sublist _).subset hJ)
    · have hold : e j = s.env j := Machine.env_execPhis hx hphi
      exact h.known j (hold ▸ hj)
  env := henv
  mem := h.mem

end Function.Matched

end

namespace ContextSpill

open LoopInserter

/-- The work-item has its sizes and the slot `k`. -/
structure Held {Val : Type} (S : Sizes) (num : Nat → Val) (lsz : Dims) (base : InstId → Val)
    (k : InstId) (t : State Val) : Prop where
  size : S.Known num lsz t.env
  slot : t.env k = some (base k)

theorem Held.frame {Val : Type} {S : Sizes} {num : Nat → Val} {lsz : Dims} {base : InstId → Val}
    {k : InstId} {t t' : State Val} (h : Held S num lsz base k t)
    (hLsz : ∀ d : Fin 3, t'.env (S.Lsz d) = t.env (S.Lsz d)) (hk : t'.env k = t.env k) :
    Held S num lsz base k t' := ⟨fun d => (hLsz d).trans (h.size d), hk.trans h.slot⟩

/-! ### The front of the entry -/

def allocaPoint (n : InstId) : Instruction := ⟨n + 5, .int 32, .other "bitcast" [.constInt 32 0]⟩

def sizes (n : InstId) : List Instruction := (prologue n).take 5

theorem prologue_eq (n : InstId) : prologue n = sizes n ++ [allocaPoint n] := rfl

/-- The entry begins with the sizes and the slots. -/
structure Headed (n : InstId) (slots : List Instruction) (F : Function) : Prop where
  insts : (sizes n ++ slots ++ [allocaPoint n]) <+: (F.block F.entry).insts
  slots : ∀ I ∈ slots, ∃ m J, n ≤ m ∧ I = insert3DAllocaFor (sizesFrom n) m J

section
variable {Val : Type} [DecidableEq Val] {M : Machine Val} {w : WorkItem Val} {num : Nat → Val}
  {lid lsz : Dims} {base cell : InstId → Val} {F : Function} {k m n : InstId} {s s' : State Val}
  {I J : Instruction} {slots : List Instruction} {es : List (Act Val)}

/-- They use nothing but the sizes. -/
theorem Headed.operands (h : Headed n slots F) (hI : I ∈ sizes n ++ slots ++ [allocaPoint n])
    {j : InstId} (hj : .inst j ∈ I.op.operands) : n ≤ j ∧ j < n + 5 := by
  simp only [List.mem_append, List.mem_singleton] at hI
  rcases hI with (hI | hI) | rfl
  · simp only [sizes, prologue, List.take_succ_cons, List.take_zero, List.mem_cons, List.not_mem_nil,
      or_false] at hI
    rcases hI with rfl | rfl | rfl | rfl | rfl <;>
      simp [insertCallToGetX, builtinCall, binary, Op.operands] at hj <;>
      rcases hj with rfl | rfl <;> exact ⟨by simp, by simp⟩
  · obtain ⟨m, J, -, rfl⟩ := h.slots I hI
    simp only [insert3DAllocaFor, Op.operands, sizesFrom, List.mem_singleton, Value.inst.injEq] at hj
    subst hj
    exact ⟨by simp, by simp⟩
  · simp [allocaPoint, Op.operands] at hj

theorem emits_sizes {t : State Val} (hM : Slots M w num lid lsz base cell m) : ∃ vs x,
    (∀ d : Fin 3, vs[d.val]? = some (num (lsz d).toNat)) ∧ vs[4]? = some x ∧
      Emits M w t n (sizes n) [] vs := by
  refine ⟨_, num (lsz 2 * lsz 1 * lsz 0).toNat, ?_, ?_,
    .cons rfl (fun s hs => execInst_get_local_size hM 0)
    (.cons rfl (fun s hs => execInst_get_local_size hM 1)
    (.cons rfl (fun s hs => execInst_get_local_size hM 2)
    (.cons rfl (fun s hs => execInst_mul hM (hs.new 2 _ rfl) (hs.new 1 _ rfl))
    (.cons rfl (fun s hs => execInst_mul hM (hs.new 3 _ rfl) (hs.new 0 _ rfl)) .nil))))⟩
  · intro d
    obtain rfl | rfl | rfl : d = 0 ∨ d = 1 ∨ d = 2 := by omega
    · rfl
    · rfl
    · rfl
  · rfl

theorem Headed.mem (h : Headed n slots F) (hI : I ∈ sizes n ++ slots ++ [allocaPoint n]) :
    I.id ∈ F.instIds := F.instIds_of_mem F.entry_mem_layout (h.insts.subset hI)

theorem Headed.nodup (h : Headed n slots F) (hF : F.Valid) :
    ((sizes n ++ slots ++ [allocaPoint n]).map Instruction.id).Nodup :=
  (h.insts.sublist.map _).nodup (List.nodup_append.mp (hF.instIds_nodup F.entry_mem_layout)).1

theorem mem_ids_sizes {i : Nat} (hi : i < 5) : n + i ∈ (sizes n).map Instruction.id := by
  have hids : (sizes n).map Instruction.id = (List.range 5).map (n + ·) := rfl
  exact hids ▸ List.mem_map_of_mem (List.mem_range.mpr hi)

theorem Headed.le_id (h : Headed n slots F) (hI : I ∈ sizes n ++ slots ++ [allocaPoint n]) :
    n ≤ I.id := by
  simp only [List.mem_append, List.mem_singleton] at hI
  rcases hI with (hI | hI) | rfl
  · simp only [sizes, prologue, List.take_succ_cons, List.take_zero, List.mem_cons, List.not_mem_nil,
      or_false] at hI
    rcases hI with rfl | rfl | rfl | rfl | rfl <;> simp [insertCallToGetX, builtinCall, binary]
  · obtain ⟨m, J, hm, rfl⟩ := h.slots I hI
    exact hm
  · exact Nat.le_add_right n 5

theorem Headed.not_mem (h : Headed n slots F) {i : InstId} (hi : i < n) :
    i ∉ (sizes n ++ slots ++ [allocaPoint n]).map Instruction.id := by
  intro hmem
  obtain ⟨I, hI, rfl⟩ := List.mem_map.mp hmem
  exact Nat.not_lt.mpr (h.le_id hI) hi

/-- What is executed with the PHIs of a block, and the rest. -/
def head (n : InstId) (slots : List Instruction) (F : Function) (b : BlockId) : List Instruction :=
  if b = F.entry then sizes n ++ slots ++ [allocaPoint n] else []

def body (n : InstId) (slots : List Instruction) (F : Function) (b : BlockId) : List Instruction :=
  ((F.block b).insts.dropWhile (·.op.isPhi)).drop (head n slots F b).length

theorem takeWhile_entry (hF : F.Valid) : (F.block F.entry).insts.takeWhile (·.op.isPhi) = [] :=
  takeWhile_rest hF.entryPhis

theorem Headed.split (h : Headed n slots F) (hF : F.Valid) (b : BlockId) :
    (F.block b).insts.dropWhile (·.op.isPhi) = head n slots F b ++ body n slots F b := by
  rw [body, head]
  split
  · rename_i hb
    subst hb
    rw [dropWhile_rest hF.entryPhis]
    exact List.prefix_append_drop h.insts
  · rfl

theorem mem_of_body {b : BlockId} (hI : I ∈ body n slots F b) :
    I ∈ (F.block b).insts.dropWhile (·.op.isPhi) := List.mem_of_mem_drop hI

/-- The rest of the entry is not its front. -/
theorem Headed.not_mem_body {b : BlockId} (h : Headed n slots F) (hF : F.Valid) (hb : b ∈ F.layout)
    (hI : I ∈ body n slots F b) : I.id ∉ (sizes n ++ slots ++ [allocaPoint n]).map Instruction.id := by
  intro hmem
  obtain ⟨J, hJ, hid⟩ := List.mem_map.mp hmem
  have hId : I.id ∈ (F.block b).instIds := List.mem_append_left _
    (List.mem_map_of_mem ((List.dropWhile_sublist _).subset (mem_of_body hI)))
  obtain rfl := F.eq_of_mem_instIds hF.ids hb F.entry_mem_layout hId
    (List.mem_append_left _ (hid ▸ List.mem_map_of_mem (h.insts.subset hJ)))
  have hids := (List.nodup_append.mp (hF.instIds_nodup hb)).1
  rw [← dropWhile_rest hF.entryPhis, h.split hF F.entry, List.map_append] at hids
  rw [head, if_pos rfl] at hids
  exact (List.nodup_append.mp hids).2.2 _ hmem _ (List.mem_map_of_mem hI) rfl

/-- The front of the entry with one more slot. -/
theorem Headed.enter {P : Val → Prop} {t : State Val} (h : Headed n slots F) (hF : F.Valid)
    (hM : Slots M w num lid lsz base cell m) (hm : m ≤ k) (hk : F.freshInst ≤ k)
    (hrel : F.Matched [] P s t)
    (hx : M.execInsts w (sizes n ++ slots ++ [allocaPoint n]) s = some (s', es))
    (hok : ∀ x ∈ es, ∀ a, x.address = some a → P a) : ∃ t' ls₁ ls₂,
      M.execInsts w (sizes n ++ slots ++ [insert3DAllocaFor (sizesFrom n) k J, allocaPoint n]) t =
        some (t', ls₁ ++ (.value k (base k) :: ls₂)) ∧ es = ls₁ ++ ls₂ ∧ F.Matched [] P s' t' ∧
      Held (sizesFrom n) num lsz base k t' := by
  obtain ⟨vs, size, hsizes, hsize, hemit⟩ := emits_sizes (t := t) (n := n) hM
  have hnodup := h.nodup hF
  have hkF : k ∉ F.instIds := fun h => Nat.not_lt.mpr hk (F.lt_freshInst h)
  have hoff : ∀ i < 5, n + i ∉ slots.map Instruction.id ∧ n + i ≠ (allocaPoint n).id := by
    intro i hi
    rw [List.map_append, List.map_append] at hnodup
    obtain ⟨hfront, -, hlast⟩ := List.nodup_append.mp hnodup
    exact ⟨fun h => (List.nodup_append.mp hfront).2.2 _ (mem_ids_sizes hi) _ h rfl,
      hlast _ (List.mem_append_left _ (mem_ids_sizes hi)) _ List.mem_cons_self⟩
  have hne : ∀ i < 5, n + i ≠ k := by
    intro i hi hik
    obtain ⟨I, hI, hid⟩ := List.mem_map.mp (@mem_ids_sizes n i hi)
    exact hkF (hik ▸ hid ▸ h.mem (List.mem_append_left _ (List.mem_append_left _ hI)))
  rw [Machine.execInsts_append] at hx
  obtain ⟨⟨s₂, es₂⟩, hx₂, hx⟩ := Option.bind_eq_some_iff.mp hx
  obtain ⟨⟨s₃, es₃⟩, hx₃, heq⟩ := Option.map_eq_some_iff.mp hx
  cases heq
  obtain ⟨hok₂, hok₃⟩ := List.forall_mem_append.mp hok
  obtain ⟨t₂, hy₂, hrel₂⟩ := hrel.execInsts
    (fun I hI => h.mem (List.mem_append_left _ hI)) hx₂ hok₂
  have hwindow : ∀ i v, vs[i]? = some v → i < 5 → t₂.env (n + i) = some v := by
    intro i v hv hi
    rw [Machine.execInsts_append] at hy₂
    obtain ⟨⟨t₁, ls₁⟩, hy₁, hy₂⟩ := Option.bind_eq_some_iff.mp hy₂
    obtain ⟨⟨t₃, ls₂⟩, hy₃, heq⟩ := Option.map_eq_some_iff.mp hy₂
    obtain ⟨rfl, -⟩ := Prod.mk.inj heq
    obtain ⟨u, us, hu, hwin, -⟩ := hemit t .start
    cases hu.symm.trans hy₁
    exact (Machine.env_execInsts hy₃ (hoff i hi).1).trans (hwin.new i v hv)
  have hslot := execInst_slot (M := M) (w := w) (s := t₂) (S := sizesFrom n) (I := J) hM hm
    (hwindow 4 size hsize (by decide))
  have hrel₃ : F.Matched [] P s₂ (t₂.define k (base k)) := hrel₂.frame
    (fun j hj => State.define_ne _ fun h => hkF (h ▸ hj)) fun _ _ => rfl
  obtain ⟨⟨s₄, es₄⟩, hx₄, hx₃⟩ := Option.bind_eq_some_iff.mp hx₃
  cases hx₃
  obtain ⟨t', hy', hrel', -, hother, -⟩ := hrel₃.execInst (f := fun v => v)
    (h.mem (List.mem_append_right _ List.mem_cons_self)) hx₄
    (fun x hx => hok₃ x (List.mem_append_left _ hx)) fun v _ x hv =>
      hrel₃.read hv fun j hj => absurd hj List.not_mem_nil
  have hpoint : (allocaPoint n).id ≠ k := fun h' =>
    hkF (h' ▸ h.mem (List.mem_append_right _ List.mem_cons_self))
  refine ⟨t', es₂, es₄ ++ [], ?_, rfl, hrel', ⟨fun d => ?_, ?_⟩⟩
  · refine Machine.execInsts_append_of_some hy₂ ?_
    rw [Machine.execInsts, hslot, Option.bind_some, Machine.execInsts]
    exact congrArg (Option.map _) (congrArg (Option.bind · _) hy')
  · have hd : d.val < 5 := d.isLt.trans (by decide)
    exact (hother _ (hoff d hd).2).trans
      ((State.define_ne _ (hne d hd)).trans (hwindow d _ (hsizes d) hd))
  · exact (hother k hpoint.symm).trans (State.define_self ..)

end

end ContextSpill

end VariOCL.IR
