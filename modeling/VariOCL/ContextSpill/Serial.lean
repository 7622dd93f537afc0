import VariOCL.ContextSpill.Registers
import VariOCL.IR.Confined

/-! After the pass the work-items of a group can run one after the other on the same registers. -/

namespace VariOCL.IR.ContextSpill

open Sim LoopInserter
open BreakPhi (SSA)

/-- Where the work-items do not race, as between two barriers, one of them after the other does what
they did, in any order of the work-items, on common registers and with the same memory. -/
theorem runOnFunction_serializes {ι Val : Type} [DecidableEq ι] [Nonempty ι] [DecidableEq Val]
    {M : ι → Machine Val} {w : ι → WorkItem Val} {num : Nat → Val} {lid : ι → Dims} {lsz : Dims}
    {base : InstId → Val} {elem : Val → Nat → Val} {F G : Function}
    {users : Function → InstId → List InstId} (hF : SSA F) (hops : F.OperandsDefined)
    (hdef : F.DefinesBeforeUse) (husers : ∀ H i u, u ∈ users H i ↔ u ∈ H.useList i)
    (hM : WorkGroup M w num lid lsz base elem F.freshInst) (h : runOnFunction users F = .ok G)
    (order : List ι) (hnodup : order.Nodup) (hall : ∀ v, v ∈ order) {m : Cells Val Val}
    {tss : List (List (ι × List (Act Val)))} {c : Items ι Val}
    (hr : Replay (Turn (F.ExecOwn M w)) (F.items ι m) tss.flatten c)
    (hfree : ∀ ts ∈ tss, RaceFree Act.Uses Act.Writes ts)
    (hoff : ∀ ts ∈ tss, ∀ x ∈ ts, ∀ y ∈ x.2,
      y.KeepsOff (fun v => slotCell base elem lsz (lid v)) F.freshInst) :
    ∃ ts' c', Replay (Turn (G.ExecShared M w)) (G.merged ι m) ts' c' ∧
      keptTurns (remains F) ts' = keptTurns (remains F) (tss.flatMap (serial order)) ∧
      (∀ v, c'.own v = (c.own v).1) ∧
      c.shared.AgreeOn (fun a => ∀ v k, F.freshInst ≤ k → a ≠ slotCell base elem lsz (lid v) k)
        c'.shared.mem := by
  obtain ⟨slots, honto⟩ := onto_runOnFunction hF hops husers hM h
  obtain ⟨slots', hG⟩ := rises_runOnFunction hF hops hdef husers h
  obtain ⟨-, hphi⟩ := left_runOnFunction hF hops husers h
  have hserial := Function.execOwn_confined.serial hnodup hall hfree hr
  refine honto.merges hG hphi hM.slots hserial fun x hx => ?_
  obtain ⟨ts, hts, hx⟩ := List.mem_flatMap.mp hx
  exact hoff ts hts x (mem_of_mem_inOrder hx)

/-- A work-item stores to a cell of its own and, behind the barrier, loads that of the other one. -/
def exchange : Function where
  name := "exchange"
  entry := 0
  rest := [1, 2, 3]
  block
    | 0 => ⟨[barrierCall 8], 0, .br 1⟩
    | 1 => ⟨[⟨1, .int 32, .call (some "get_local_id") [.constInt 32 0]⟩,
        ⟨2, .void, .store (.constInt 32 7) (.inst 1)⟩], 3, .br 2⟩
    | 2 => ⟨[barrierCall 9], 4, .br 3⟩
    | _ => ⟨[⟨5, .int 32, .other "add" [.inst 1, .constInt 32 1]⟩,
        ⟨6, .int 1, .trunc (.inst 5)⟩, ⟨7, .int 32, .load (.inst 6)⟩], 10, .ret (some (.inst 7))⟩

theorem exchange_valid : exchange.Valid where
  nodup := by decide
  closed := by unfold Function.Closed; decide
  entryPreds := by decide
  ids := by decide
  phisFirst := by decide
  entryPhis := by decide
  incoming := by decide

theorem exchange_incoming : ∀ b ∈ exchange.layout, ∀ I ∈ (exchange.block b).insts,
    I.op.incoming = [] := by decide

theorem exchange_ssa : SSA exchange where
  valid := exchange_valid
  defined b hb I hI p hp := by
    rw [exchange_incoming b hb I hI] at hp
    cases hp
  unique := by decide

theorem exchange_operandsDefined : exchange.OperandsDefined := by
  have hvalues : ∀ b ∈ exchange.layout, ∀ v ∈ (exchange.block b).values,
      v.isConstant = true ∨ ∃ i ∈ exchange.instIds, v = .inst i := by decide
  intro b hb i hi
  rcases hvalues b hb _ hi with hconst | ⟨j, hj, heq⟩
  · cases hconst
  · cases heq
    exact hj

theorem exchange_definesBeforeUse : exchange.DefinesBeforeUse := by
  have hdom : exchange.Dominates 1 3 :=
    (Function.dominates_iff exchange_valid.closed).mp (by decide)
  have hinst : ∀ b ∈ exchange.layout, ∀ I ∈ (exchange.block b).insts, ∀ v ∈ I.op.operands,
      v.isConstant = true ∨ b = 3 ∧ v = .inst 1 ∨
        ∃ j ∈ exchange.instIds, v = .inst j ∧ [j, I.id].Sublist (exchange.block b).instIds := by
    decide
  have hterm : ∀ b ∈ exchange.layout, ∀ v ∈ (exchange.block b).term.operands,
      b = 3 ∧ v = .inst 7 := by decide
  refine ⟨fun b hb _ I hI _ j hj => ?_, fun b hb _ j hj => ?_, fun b hb _ I hI p hp => ?_⟩
  · rcases hinst b hb I hI _ hj with hconst | ⟨rfl, heq⟩ | ⟨k, -, heq, habove⟩
    · cases hconst
    · cases heq
      exact .inr ⟨1, by decide, by decide, hdom, by decide⟩
    · cases heq
      exact .inl habove
  · obtain ⟨rfl, heq⟩ := hterm b hb _ hj
    cases heq
    exact .inl (by decide)
  · rw [exchange_incoming b hb I hI] at hp
    cases hp

theorem exchange_ok : ∃ G, runOnFunction Function.useList exchange = .ok G := by
  rw [runOnFunction, if_neg (by decide), if_neg (by decide)]
  exact ⟨_, rfl⟩

/-- What the work-item does whose id is `x` and that reads the cell of `y`. -/
def exchangeActs (x y : Nat) : Nat → List (Act Nat)
  | 0 => [.access 8 (.sync [0]), .value 8 0, .branch 0 (some 0)]
  | 1 => [.value 1 x, .access 2 (.store x 7), .value 2 7, .branch 3 (some 0)]
  | 2 => [.access 9 (.sync [0]), .value 9 0, .branch 4 (some 0)]
  | _ => [.value 5 (x + 1), .value 6 y, .access 7 (.load y 7), .value 7 7, .branch 10 none]

/-- Both pass the second barrier before one of them loads. -/
def exchangeRun : List (List (Bool × List (Act Nat))) :=
  [[(false, exchangeActs 0 1 0), (true, exchangeActs 1 0 0), (false, exchangeActs 0 1 1),
      (true, exchangeActs 1 0 1), (false, exchangeActs 0 1 2), (true, exchangeActs 1 0 2)],
    [(false, exchangeActs 0 1 3), (true, exchangeActs 1 0 3)]]

theorem run_exchangeRun : ∃ c, Replay (Turn (exchange.ExecOwn (fun _ => swapMachine) swapId))
    (exchange.items Bool fun _ => none) exchangeRun.flatten c ∧
      (∀ v, (c.own v).1 = .returned) ∧ ∀ a < 2, c.shared a = some 7 :=
  ⟨_, .cons (.intro (Function.Exec.own (.branch rfl rfl)))
    (.cons (.intro (Function.Exec.own (.branch rfl rfl)))
    (.cons (.intro (Function.Exec.own (.branch rfl rfl)))
    (.cons (.intro (Function.Exec.own (.branch rfl rfl)))
    (.cons (.intro (Function.Exec.own (.branch rfl rfl)))
    (.cons (.intro (Function.Exec.own (.branch rfl rfl)))
    (.cons (.intro (Function.Exec.own (.ret rfl)))
    (.single (.intro (Function.Exec.own (.ret rfl)))))))))), by decide, by decide⟩

theorem raceFree_exchangeRun : ∀ ts ∈ exchangeRun, RaceFree Act.Uses Act.Writes ts := by
  have hapart : ∀ ts ∈ exchangeRun, ∀ x ∈ ts, ∀ y ∈ ts, x.1 ≠ y.1 → ∀ u ∈ x.2, ∀ v ∈ y.2,
      (u.writes = none ∨ u.writes ≠ v.address) ∧ (v.writes = none ∨ v.writes ≠ u.address) := by
    decide
  intro ts hts
  refine List.pairwise_of_forall_mem_list fun x hx y hy hne u hu v hv a => ?_
  obtain ⟨huv, hvu⟩ := hapart ts hts x hx y hy hne u hu v hv
  constructor
  · intro hw ha
    rcases huv with hnone | hdiff
    · exact Option.some_ne_none a (hw.symm.trans hnone)
    · exact hdiff (hw.trans ha.symm)
  · intro ha hw
    rcases hvu with hnone | hdiff
    · exact Option.some_ne_none a (hw.symm.trans hnone)
    · exact hdiff (hw.trans ha.symm)

/-- The second work-item goes first, and the cells are those of the interleaved run. -/
theorem runOnFunction_serializes_exchange : ∃ G ts c,
    runOnFunction Function.useList exchange = .ok G ∧
    Replay (Turn (G.ExecShared (fun _ => swapMachine) swapId)) (G.merged Bool fun _ => none) ts c ∧
      (∀ v, c.own v = .returned) ∧ (∀ a < 2, c.shared.mem a = some 7) ∧
      keptTurns (remains exchange) ts =
        [(true, exchangeActs 1 0 0), (true, exchangeActs 1 0 1), (true, exchangeActs 1 0 2),
          (false, exchangeActs 0 1 0), (false, exchangeActs 0 1 1), (false, exchangeActs 0 1 2),
          (true, exchangeActs 1 0 3), (false, exchangeActs 0 1 3)] := by
  obtain ⟨G, hG⟩ := exchange_ok
  obtain ⟨d, hr, hd, hmem⟩ := run_exchangeRun
  have hlow : ∀ ts ∈ exchangeRun, ∀ x ∈ ts, ∀ y ∈ x.2, ∀ a ∈ y.address, a < 2 := by decide
  have hslot : ∀ a < 2, ∀ (v : Bool) k, exchange.freshInst ≤ k →
      a ≠ slotCell (2 * ·) (· + ·) (localId 1 1 2) (localId 0 0 (if v then 1 else 0)) k := by
    intro a ha v k hk
    have hfresh : 1 ≤ exchange.freshInst := by decide
    refine Nat.ne_of_lt (ha.trans_le ?_)
    exact (Nat.mul_le_mul_left 2 (hfresh.trans hk)).trans (Nat.le_add_right (2 * k) _)
  obtain ⟨ts, c, hr', hkept, hplace, hagree⟩ := runOnFunction_serializes exchange_ssa
    exchange_operandsDefined exchange_definesBeforeUse (fun _ _ _ => .rfl) swap_workGroup hG
    [true, false] (by decide) (by decide) hr raceFree_exchangeRun fun ts hts x hx y hy a ha =>
      hslot a (hlow ts hts x hx y hy a ha)
  exact ⟨G, ts, c, hG, hr', fun v => (hplace v).trans (hd v),
    fun a ha => (hagree a (hslot a ha)).trans (hmem a ha), hkept.trans (by decide)⟩

end VariOCL.IR.ContextSpill
