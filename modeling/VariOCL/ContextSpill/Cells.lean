import VariOCL.ContextSpill.Basic
import VariOCL.LoopInserter.FlatIdx
import VariOCL.LoopInserter.GlobalIdValues

/-! The cell of a work-item in the array of a slot, and the code that reads and writes it. -/

namespace VariOCL.IR.ContextSpill

open Sim LoopInserter

/-- What the work-item `lid` of a group of size `lsz` gets from the calls for ids and sizes and from
the slots, which are allocated by instructions from `n` on: `cell i` is its cell of the array
`base i`. -/
structure Slots {Val : Type} (M : Machine Val) (w : WorkItem Val) (num : Nat → Val) (lid lsz : Dims)
    (base cell : InstId → Val) (n : InstId) : Prop where
  numbers : Numbers M num
  local_id : ∀ d : Fin 3, w "get_local_id" [M.atom (.constInt 32 d)] = some (num (lid d).toNat)
  local_size : ∀ d : Fin 3,
    M.call (some "get_local_size") [M.atom (.constInt 32 d)] = .ret (num (lsz d).toNat)
  alloca : ∀ i, n ≤ i → ∀ ty size, M.alloca i ty size = .ret (base i)
  gep : ∀ i, n ≤ i → M.eval .ptr (.gep .ptr .undefValue [.undefValue])
    [base i, num (insert3DLoadFor_FlatIdx.eval lid lsz).toNat] = cell i

/-- The work-item's cell in the array of the slot `k`. -/
def slotCell {Val : Type} (base : InstId → Val) (elem : Val → Nat → Val) (lsz lid : Dims)
    (k : InstId) : Val := elem (base k) (insert3DLoadFor_FlatIdx.eval lid lsz).toNat

/-- The work-items of a group have different ids, and each array has an element for each of them. -/
structure WorkGroup {ι Val : Type} (M : ι → Machine Val) (w : ι → WorkItem Val) (num : Nat → Val)
    (lid : ι → Dims) (lsz : Dims) (base : InstId → Val) (elem : Val → Nat → Val) (n : InstId) :
    Prop where
  slots : ∀ i, Slots (M i) (w i) num (lid i) lsz base (slotCell base elem lsz (lid i)) n
  inGroup : ∀ i, InGroup lsz (lid i)
  distinct : Function.Injective lid
  small : groupSize lsz ≤ 2 ^ 31
  arrays : ∀ k l x y, n ≤ k → n ≤ l → x < groupSize lsz → y < groupSize lsz →
    elem (base k) x = elem (base l) y → k = l ∧ x = y

/-- No two of them have a cell in common. -/
theorem WorkGroup.apart {ι Val : Type} {M : ι → Machine Val} {w : ι → WorkItem Val} {num : Nat → Val}
    {lid : ι → Dims} {lsz : Dims} {base : InstId → Val} {elem : Val → Nat → Val} {n : InstId}
    (h : WorkGroup M w num lid lsz base elem n) (i j : ι) (k l : InstId) (hk : n ≤ k) (hl : n ≤ l)
    (heq : slotCell base elem lsz (lid i) k = slotCell base elem lsz (lid j) l) : i = j ∧ k = l := by
  have hlt : ∀ i, (insert3DLoadFor_FlatIdx.eval (lid i) lsz).toNat < groupSize lsz := fun i =>
    (toNat_FlatIdx (h.inGroup i) h.small).trans_lt (position_lt (h.inGroup i))
  obtain ⟨hkl, hidx⟩ := h.arrays k l _ _ hk hl (hlt i) (hlt j) heq
  have hlid := FlatIdx_injective (h.inGroup i) (h.inGroup j) h.small (BitVec.eq_of_toNat_eq hidx)
  exact ⟨h.distinct hlid, hkl⟩

/-- The local sizes are known. -/
def Sizes.Known {Val : Type} (S : Sizes) (num : Nat → Val) (lsz : Dims) (e : Cells InstId Val) : Prop :=
  ∀ d : Fin 3, e (S.Lsz d) = some (num (lsz d).toNat)

/-- An access, if it is one, of the cell `a`. -/
def OnlyCell {Val : Type} (a : Val) (x : Act Val) : Prop := ∀ b, x.address = some b → b = a

section
variable {Val : Type} [DecidableEq Val] {M : Machine Val} {w : WorkItem Val} {num : Nat → Val}
  {lid lsz : Dims} {base cell : InstId → Val} {S : Sizes} {i j k l m n p : InstId} {s t : State Val}
  {x y v a : Val} {vs us : List Val} {ty : Ty} {val : Value} {I Slot : Instruction}
  {Is Js : List Instruction}

/-! ### Single instructions -/

/-- From `t`, the instructions `n`, `n + 1`, .. have got the values `vs`. -/
structure Window (t s : State Val) (n : InstId) (vs : List Val) : Prop where
  mem : s.mem = t.mem
  old : ∀ j < n, s.env j = t.env j
  new : ∀ i v, vs[i]? = some v → s.env (n + i) = some v

omit [DecidableEq Val] in
theorem Window.start : Window t t n [] := ⟨rfl, fun _ _ => rfl, fun _ _ h => by cases h⟩

omit [DecidableEq Val] in
theorem Window.define (h : Window t s n vs) : Window t (s.define (n + vs.length) v) n (vs ++ [v]) where
  mem := h.mem
  old j hj := (State.define_ne v (Nat.ne_of_lt (Nat.lt_add_right _ hj))).trans (h.old j hj)
  new i x hx := by
    rcases Nat.lt_trichotomy i vs.length with hi | rfl | hi
    · rw [List.getElem?_append_left hi] at hx
      exact (State.define_ne v (Nat.ne_of_lt (Nat.add_lt_add_left hi n))).trans (h.new i x hx)
    · rw [List.getElem?_concat_length] at hx
      rw [State.define_self, hx]
    · rw [List.getElem?_eq_none (by simpa using Nat.succ_le_of_lt hi)] at hx
      cases hx

/-- Code that only adds the values `us` behind `vs`. -/
def Emits (M : Machine Val) (w : WorkItem Val) (t : State Val) (n : InstId) (Is : List Instruction)
    (vs us : List Val) : Prop :=
  ∀ s, Window t s n vs → ∃ s' es, M.execInsts w Is s = some (s', es) ∧ Window t s' n us ∧
    ∀ x ∈ es, x.address = none

theorem Emits.nil : Emits M w t n [] vs vs := fun s hs =>
  ⟨s, [], rfl, hs, fun _ hx => absurd hx List.not_mem_nil⟩

theorem Emits.cons (hid : I.id = n + vs.length) (h : ∀ s, Window t s n vs →
    M.execInst w I s = some (s.define I.id v, [.value I.id v]))
    (hrest : Emits M w t n Is (vs ++ [v]) us) : Emits M w t n (I :: Is) vs us := by
  intro s hs
  obtain ⟨s', es, hx, hs', hes⟩ := hrest _ (hid ▸ hs.define)
  refine ⟨s', .value I.id v :: es, ?_, hs', List.forall_mem_cons.mpr ⟨rfl, hes⟩⟩
  rw [Machine.execInsts, h s hs, Option.bind_some, hx]
  rfl

theorem execInst_mul {x y : BitVec 32} (hM : Slots M w num lid lsz base cell m)
    (hx : s.env i = some (num x.toNat)) (hy : s.env j = some (num y.toNat)) :
    M.execInst w (binary n "mul" i j) s =
      some (s.define n (num (x * y).toNat), [.value n (num (x * y).toNat)]) :=
  execInst_binary hx hy (hM.numbers.mul _ _)

theorem execInst_add {x y : BitVec 32} (hM : Slots M w num lid lsz base cell m)
    (hx : s.env i = some (num x.toNat)) (hy : s.env j = some (num y.toNat)) :
    M.execInst w (binary n "add" i j) s =
      some (s.define n (num (x + y).toNat), [.value n (num (x + y).toNat)]) :=
  execInst_binary hx hy (hM.numbers.add _ _)

theorem execInst_get_local_id (hM : Slots M w num lid lsz base cell m) (d : Fin 3) :
    M.execInst w (insertCallToGetX n "get_local_id" d) s =
      some (s.define n (num (lid d).toNat), [.value n (num (lid d).toNat)]) :=
  execInst_builtinCall rfl (Option.map_eq_some_iff.mpr ⟨_, hM.local_id d, rfl⟩)

theorem execInst_get_local_size (hM : Slots M w num lid lsz base cell m) (d : Fin 3) :
    M.execInst w (insertCallToGetX n "get_local_size" d) s =
      some (s.define n (num (lsz d).toNat), [.value n (num (lsz d).toNat)]) :=
  execInst_builtinCall rfl (congrArg some (hM.local_size d))

theorem execInst_contextGep (hM : Slots M w num lid lsz base cell m) (hm : m ≤ k)
    (hk : s.env k = some (base k))
    (hi : s.env i = some (num (insert3DLoadFor_FlatIdx.eval lid lsz).toNat)) :
    M.execInst w (contextGep n k i) s = some (s.define n (cell k), [.value n (cell k)]) := by
  refine Machine.execInst_of_ret [base k, num (insert3DLoadFor_FlatIdx.eval lid lsz).toNat] ?_ ?_
  · simp only [contextGep, Op.operands, Machine.readAll, Machine.read, hk, hi, Option.bind_some,
      Option.map_some]
  · exact congrArg (fun v => some (Proc.ret v)) (hM.gep k hm)

theorem execInst_slot (hM : Slots M w num lid lsz base cell m) (hm : m ≤ k)
    (hsize : s.env S.Flat3DSize = some x) : M.execInst w (insert3DAllocaFor S k I) s =
      some (s.define k (base k), [.value k (base k)]) := by
  refine Machine.execInst_of_ret [x] ?_ ?_
  · simp only [insert3DAllocaFor, Op.operands, Machine.readAll, Machine.read, hsize, Option.bind_some,
      Option.map_some]
  · exact congrArg some (hM.alloca k hm _ _)

theorem execInst_load (hp : s.env p = some a) (ha : s.mem a = some v) :
    M.execInst w ⟨n, ty, .load (.inst p)⟩ s =
      some (s.define n v, [.access n (.load a v), .value n v]) := by
  have hreads : M.readAll s.env [.inst p] = some [a] := Option.bind_eq_some_iff.mpr ⟨a, hp, rfl⟩
  rw [Machine.execInst, Op.operands, hreads, Option.bind_some]
  simp [Machine.perform, Proc.run, ha, State.define]

theorem execInst_store (hv : M.read s.env val = some v) (hp : s.env p = some a) :
    M.execInst w ⟨n, ty, .store val (.inst p)⟩ s =
      some (⟨s.env.set n v, s.mem.set a v⟩, [.access n (.store a v), .value n v]) := by
  have hreads : M.readAll s.env [val, .inst p] = some [v, a] :=
    Option.bind_eq_some_iff.mpr ⟨v, hv, Option.map_eq_some_iff.mpr
      ⟨[a], Option.bind_eq_some_iff.mpr ⟨a, hp, rfl⟩, rfl⟩⟩
  rw [Machine.execInst, Op.operands, hreads, Option.bind_some]
  simp [Machine.perform, Proc.run]

/-! ### The sequences -/

theorem ids_insert3DGepFor (hI : I ∈ insert3DGepFor S n k) : n ≤ I.id ∧ I.id < n + 9 := by
  simp only [insert3DGepFor, List.mem_cons, List.not_mem_nil, or_false] at hI
  rcases hI with rfl | rfl | rfl | rfl | rfl | rfl | rfl | rfl | rfl <;>
    simp [insertCallToGetX, builtinCall, binary, contextGep]

/-- The last of the values is the address of the cell. -/
theorem emits_insert3DGepFor (hM : Slots M w num lid lsz base cell m) (hm : m ≤ k)
    (hLsz : ∀ d : Fin 3, S.Lsz d < n) (hkn : k < n) (hsize : S.Known num lsz t.env)
    (hk : t.env k = some (base k)) :
    ∃ vs, vs[8]? = some (cell k) ∧ Emits M w t n (insert3DGepFor S n k) [] vs := by
  have hsize : ∀ {s vs} (d : Fin 3), Window t s n vs →
      s.env (S.Lsz d) = some (num (lsz d).toNat) := fun d hs =>
    (hs.old _ (hLsz d)).trans (hsize d)
  refine ⟨_, ?_, .cons rfl (fun s hs => execInst_get_local_id hM 0)
    (.cons rfl (fun s hs => execInst_get_local_id hM 1)
    (.cons rfl (fun s hs => execInst_get_local_id hM 2)
    (.cons rfl (fun s hs => execInst_mul hM (hs.new 2 _ rfl) (hsize 0 hs))
    (.cons rfl (fun s hs => execInst_mul hM (hs.new 3 _ rfl) (hsize 1 hs))
    (.cons rfl (fun s hs => execInst_mul hM (hs.new 1 _ rfl) (hsize 0 hs))
    (.cons rfl (fun s hs => execInst_add hM (hs.new 4 _ rfl) (hs.new 5 _ rfl))
    (.cons rfl (fun s hs => execInst_add hM (hs.new 6 _ rfl) (hs.new 0 _ rfl))
    (.cons rfl (fun s hs => execInst_contextGep hM hm ((hs.old k hkn).trans hk) (hs.new 7 _ rfl))
    .nil))))))))⟩
  rfl

omit [DecidableEq Val] in
theorem map_id_insert3DLoadFor :
    (insert3DLoadFor S n Slot).map Instruction.id = (List.range 10).map (n + ·) := rfl

omit [DecidableEq Val] in
theorem map_id_insert3DStoreFor :
    (insert3DStoreFor S n val k).map Instruction.id = (List.range 10).map (n + ·) := rfl

theorem id_insert3DLoadFor (hI : I ∈ insert3DLoadFor S n Slot) : n ≤ I.id ∧ I.id < n + 10 := by
  rcases List.mem_append.mp hI with hI | hI
  · exact (ids_insert3DGepFor hI).imp_right Nat.lt_succ_of_lt
  · rw [List.mem_singleton.mp hI]
    exact ⟨Nat.le_add_right n 9, Nat.lt_succ_self _⟩

theorem id_insert3DStoreFor (hI : I ∈ insert3DStoreFor S n val k) : n ≤ I.id ∧ I.id < n + 10 := by
  rcases List.mem_append.mp hI with hI | hI
  · exact (ids_insert3DGepFor hI).imp_right Nat.lt_succ_of_lt
  · rw [List.mem_singleton.mp hI]
    exact ⟨Nat.le_add_right n 9, Nat.lt_succ_self _⟩

omit [DecidableEq Val] in
theorem onlyCell_of_none {x : Act Val} (h : x.address = none) : OnlyCell a x := by
  intro b hb
  rw [h] at hb
  cases hb

section
variable (hM : Slots M w num lid lsz base cell m) (hm : m ≤ Slot.id)
  (hLsz : ∀ d : Fin 3, S.Lsz d < n) (hslot : Slot.id < n) (hsize : S.Known num lsz t.env)
  (hbase : t.env Slot.id = some (base Slot.id))
include hM hm hLsz hslot hsize hbase

theorem execInsts_insert3DLoadFor (hx : t.mem (cell Slot.id) = some x) :
    ∃ t' es, M.execInsts w (insert3DLoadFor S n Slot) t = some (t', es) ∧ t'.mem = t.mem ∧
      (∀ j < n, t'.env j = t.env j) ∧ t'.env (n + 9) = some x ∧
      ∀ y ∈ es, n ≤ y.id ∧ OnlyCell (cell Slot.id) y := by
  obtain ⟨vs, hlast, hemit⟩ := emits_insert3DGepFor hM hm hLsz hslot hsize hbase
  obtain ⟨s, es, hexec, hs, hes⟩ := hemit t .start
  have hload : M.execInst w ⟨n + 9, elementType Slot, .load (.inst (n + 8))⟩ s = _ :=
    execInst_load (hs.new 8 _ hlast) ((congrFun hs.mem _).trans hx)
  have hall : M.execInsts w (insert3DLoadFor S n Slot) t = some (s.define (n + 9) x,
      es ++ [.access (n + 9) (.load (cell Slot.id) x), .value (n + 9) x]) := by
    refine Machine.execInsts_append_of_some hexec ?_
    rw [Machine.execInsts, hload]
    rfl
  refine ⟨_, _, hall, hs.mem, fun j hj => ?_, State.define_self .., fun y hy => ?_⟩
  · exact (State.define_ne x (Nat.ne_of_lt (Nat.lt_add_right 9 hj))).trans (hs.old j hj)
  · obtain ⟨I, hI, hid⟩ := List.mem_map.mp (Machine.id_of_execInsts hall hy)
    refine ⟨hid ▸ (id_insert3DLoadFor hI).1, ?_⟩
    rcases List.mem_append.mp hy with hy | hy
    · exact onlyCell_of_none (hes y hy)
    · rcases List.mem_pair.mp hy with rfl | rfl
      · exact fun b hb => (Option.some.inj hb).symm
      · exact onlyCell_of_none rfl

end

theorem execInsts_insert3DStoreFor (hM : Slots M w num lid lsz base cell m) (hm : m ≤ k)
    (hLsz : ∀ d : Fin 3, S.Lsz d < n) (hslot : k < n) (hsize : S.Known num lsz t.env)
    (hbase : t.env k = some (base k)) (hval : M.read t.env val = some x)
    (hnew : ∀ j, val = .inst j → j < n ∨ n + 9 ≤ j) :
    ∃ t' es, M.execInsts w (insert3DStoreFor S n val k) t = some (t', es) ∧
      t'.mem = t.mem.set (cell k) x ∧ (∀ j, j < n ∨ n + 10 ≤ j → t'.env j = t.env j) ∧
      ∀ y ∈ es, n ≤ y.id ∧ OnlyCell (cell k) y := by
  obtain ⟨vs, hlast, hemit⟩ := emits_insert3DGepFor hM hm hLsz hslot hsize hbase
  obtain ⟨s, es, hexec, hs, hes⟩ := hemit t .start
  have hread : M.read s.env val = some x := by
    cases val with
    | inst j =>
      rcases hnew j rfl with hj | hj
      · exact (hs.old j hj).trans hval
      · refine (Machine.env_execInsts hexec fun hmem => ?_).trans hval
        obtain ⟨I, hI, rfl⟩ := List.mem_map.mp hmem
        exact Nat.not_lt.mpr hj (ids_insert3DGepFor hI).2
    | _ => exact hval
  have hstore : M.execInst w ⟨n + 9, .void, .store val (.inst (n + 8))⟩ s = _ :=
    execInst_store hread (hs.new 8 _ hlast)
  have hall : M.execInsts w (insert3DStoreFor S n val k) t =
      some (⟨s.env.set (n + 9) x, s.mem.set (cell k) x⟩,
        es ++ [.access (n + 9) (.store (cell k) x), .value (n + 9) x]) := by
    refine Machine.execInsts_append_of_some hexec ?_
    rw [Machine.execInsts, hstore]
    rfl
  refine ⟨_, _, hall, by rw [hs.mem], fun j hj => ?_, fun y hy => ?_⟩
  · refine Machine.env_execInsts hall fun hmem => ?_
    obtain ⟨I, hI, rfl⟩ := List.mem_map.mp hmem
    obtain ⟨hlow, hhigh⟩ := id_insert3DStoreFor hI
    exact hj.elim (Nat.not_lt.mpr hlow) (Nat.not_le.mpr hhigh)
  · obtain ⟨I, hI, hid⟩ := List.mem_map.mp (Machine.id_of_execInsts hall hy)
    refine ⟨hid ▸ (id_insert3DStoreFor hI).1, ?_⟩
    rcases List.mem_append.mp hy with hy | hy
    · exact onlyCell_of_none (hes y hy)
    · rcases List.mem_pair.mp hy with rfl | rfl
      · exact fun b hb => (Option.some.inj hb).symm
      · exact onlyCell_of_none rfl

/-- Loads in front of one instruction, each of the same value. -/
theorem execInsts_loads {ns : List InstId} (hM : Slots M w num lid lsz base cell m) (hm : m ≤ Slot.id)
    (hLsz : ∀ d : Fin 3, S.Lsz d < n) (hslot : Slot.id < n) (hsize : S.Known num lsz t.env)
    (hbase : t.env Slot.id = some (base Slot.id)) (hns : ns.Pairwise fun i j => i + 10 ≤ j)
    (hn : ∀ i ∈ ns, n ≤ i) (hx : ns ≠ [] → t.mem (cell Slot.id) = some x) :
    ∃ t' es, M.execInsts w (ns.flatMap fun i => insert3DLoadFor S i Slot) t = some (t', es) ∧
      t'.mem = t.mem ∧ (∀ j < n, t'.env j = t.env j) ∧ (∀ i ∈ ns, t'.env (i + 9) = some x) ∧
      ∀ y ∈ es, n ≤ y.id ∧ OnlyCell (cell Slot.id) y := by
  induction ns generalizing n t with
  | nil =>
    exact ⟨t, [], rfl, rfl, fun _ _ => rfl, fun _ hi => absurd hi List.not_mem_nil,
      fun _ hy => absurd hy List.not_mem_nil⟩
  | cons i ns ih =>
    obtain ⟨hi, hns⟩ := List.pairwise_cons.mp hns
    obtain ⟨hni, -⟩ := List.forall_mem_cons.mp hn
    have hx := hx (List.cons_ne_nil i ns)
    obtain ⟨t₁, es₁, hexec₁, hmem₁, hold₁, hval₁, hes₁⟩ := execInsts_insert3DLoadFor hM hm
      (fun d => (hLsz d).trans_le hni) (hslot.trans_le hni) hsize hbase hx
    have hlt : n < i + 10 := Nat.lt_of_le_of_lt hni (Nat.lt_add_of_pos_right (by decide))
    obtain ⟨t₂, es₂, hexec₂, hmem₂, hold₂, hval₂, hes₂⟩ := ih (n := i + 10) (t := t₁)
      (fun d => (hLsz d).trans hlt) (hslot.trans hlt)
      (fun d => (hold₁ _ ((hLsz d).trans_le hni)).trans (hsize d))
      ((hold₁ _ (hslot.trans_le hni)).trans hbase) hns hi fun _ => hmem₁ ▸ hx
    refine ⟨t₂, es₁ ++ es₂, Machine.execInsts_append_of_some hexec₁ hexec₂, hmem₂.trans hmem₁,
      fun j hj => ?_, List.forall_mem_cons.mpr ⟨?_, hval₂⟩, List.forall_mem_append.mpr ⟨?_, ?_⟩⟩
    · exact (hold₂ j (hj.trans hlt)).trans (hold₁ j (hj.trans_le hni))
    · exact (hold₂ _ (Nat.lt_succ_self _)).trans hval₁
    · exact fun y hy => (hes₁ y hy).imp_left hni.trans
    · exact fun y hy => (hes₂ y hy).imp_left hlt.le.trans

/-- Stores in front of one terminator, each of the same value. -/
theorem execInsts_stores {ps : List (InstId × Value)}
    (hM : Slots M w num lid lsz base cell m) (hm : m ≤ k)
    (hLsz : ∀ d : Fin 3, S.Lsz d < n) (hslot : k < n) (hsize : S.Known num lsz t.env)
    (hbase : t.env k = some (base k)) (hps : ∀ p ∈ ps, n ≤ p.1 ∧ p.1 + 10 ≤ l)
    (hval : ∀ p ∈ ps, M.read t.env p.2 = some x)
    (hout : ∀ p ∈ ps, ∀ j, p.2 = .inst j → j < n ∨ l ≤ j) :
    ∃ t' es, M.execInsts w (ps.flatMap fun p => insert3DStoreFor S p.1 p.2 k) t = some (t', es) ∧
      (∀ a, a ≠ cell k → t'.mem a = t.mem a) ∧ (ps ≠ [] → t'.mem (cell k) = some x) ∧
      (∀ j, j < n ∨ l ≤ j → t'.env j = t.env j) ∧ ∀ y ∈ es, n ≤ y.id ∧ OnlyCell (cell k) y := by
  induction ps generalizing t with
  | nil =>
    exact ⟨t, [], rfl, fun _ _ => rfl, fun h => absurd rfl h, fun _ _ => rfl,
      fun _ hy => absurd hy List.not_mem_nil⟩
  | cons p ps ih =>
    obtain ⟨⟨hnp, hpl⟩, hps⟩ := List.forall_mem_cons.mp hps
    obtain ⟨hvalp, hval⟩ := List.forall_mem_cons.mp hval
    obtain ⟨houtp, hout⟩ := List.forall_mem_cons.mp hout
    have hfar : ∀ {j}, j < n ∨ l ≤ j → j < p.1 ∨ p.1 + 10 ≤ j := fun h =>
      h.imp (fun h => h.trans_le hnp) fun h => hpl.trans h
    obtain ⟨t₁, es₁, hexec₁, hmem₁, hold₁, hes₁⟩ := execInsts_insert3DStoreFor hM hm
      (fun d => (hLsz d).trans_le hnp) (hslot.trans_le hnp) hsize hbase hvalp fun j hj =>
        (hfar (houtp j hj)).imp_right fun h => (Nat.le_succ _).trans h
    have hval₁ : ∀ q ∈ ps, M.read t₁.env q.2 = some x := by
      intro q hq
      refine Eq.trans ?_ (hval q hq)
      cases hv : q.2 with
      | inst j => exact hold₁ j (hfar (hout q hq j hv))
      | _ => rfl
    obtain ⟨t₂, es₂, hexec₂, hmem₂, hcell₂, hold₂, hes₂⟩ := ih (t := t₁)
      (fun d => (hold₁ _ (.inl ((hLsz d).trans_le hnp))).trans (hsize d))
      ((hold₁ _ (.inl (hslot.trans_le hnp))).trans hbase) hps hval₁ hout
    refine ⟨t₂, es₁ ++ es₂, Machine.execInsts_append_of_some hexec₁ hexec₂, fun a ha => ?_, fun _ => ?_,
      fun j hj => (hold₂ j hj).trans (hold₁ j (hfar hj)),
      List.forall_mem_append.mpr ⟨fun y hy => (hes₁ y hy).imp_left hnp.trans, hes₂⟩⟩
    · rw [hmem₂ a ha, hmem₁]
      exact Cells.set_ne _ x ha
    · by_cases hnil : ps = []
      · subst hnil
        cases hexec₂
        rw [hmem₁]
        exact Cells.set_self ..
      · exact hcell₂ hnil

end

end VariOCL.IR.ContextSpill
