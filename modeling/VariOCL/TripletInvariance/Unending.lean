import VariOCL.TripletInvariance.Terminates
import Mathlib.Data.Fintype.Card
import Mathlib.Data.Set.Finite.List
import Mathlib.Logic.Relation

/-! The recursion of `getOrCalculateTriplet` does not end where values ask for each other first. -/

namespace VariOCL.IR.TripletInvarianceAnalysis

open Relation (TransGen)

/-- The first that each of these asks for is one of them, and no access to an alloca of them that is
met before is. -/
structure Unending (F : Function) (users : InstId → List InstId) (C : InstId → Prop) : Prop where
  first : ∀ i, C i → ∃ j, C j ∧ (asksFor F users i).head? = some j
  accesses : ∀ i, C i → isAlloca F i → ∀ u ∈ (users i).takeWhile (isAccess F), ¬ C u

/-- None of `C` is decided, and nothing else has been begun. -/
structure Undecided (F : Function) (C : InstId → Prop) (s : Triplets) : Prop where
  entry : ∀ i, C i → s.TI (.value (.inst i)) = none
  grey : ∀ i, s.CycleColorMap i = .grey → C i ∧ takesColor F i

section
variable {F : Function} {users : InstId → List InstId} {C : InstId → Prop} {s : Triplets}
  {i j n : Nat} {v : Value} {vs : List Value}

theorem bind_error {σ ε α β : Type} {x : StateT σ (Except ε) α} {f : α → StateT σ (Except ε) β}
    {s : σ} {e : ε} (h : x s = .error e) : (x >>= f) s = .error e := by
  change (x s).bind _ = _
  rw [h]
  rfl

theorem bind_ok {σ ε α β : Type} {x : StateT σ (Except ε) α} {f : α → StateT σ (Except ε) β}
    {s t : σ} {a : α} (h : x s = .ok (a, t)) : (x >>= f) s = f a t := by
  change (x s).bind _ = _
  rw [h]
  rfl

theorem Undecided.put (h : Undecided F C s) {V : Key} (hV : ∀ j, V ≠ .value (.inst j))
    (T : TripletType) : Undecided F C (s.put V T) :=
  ⟨fun i hi => (Triplets.put_of_ne T (hV i).symm).trans (h.entry i hi), h.grey⟩

theorem Undecided.paint (h : Undecided F C s) (hi : C i) (hc : takesColor F i) :
    Undecided F C (s.paint i .grey) := by
  refine ⟨h.entry, fun j hj => ?_⟩
  rw [Triplets.paint] at hj
  dsimp only at hj
  split at hj
  · rename_i hji
    exact hji ▸ ⟨hi, hc⟩
  · exact h.grey j hj

variable (users n) in
theorem Undecided.other (h : Undecided F C s) (hv : instOf v = none) :
    getOrCalculateTriplet F users n (.value v) s = .error .outOfFuel ∨
      ∃ T t, getOrCalculateTriplet F users n (.value v) s = .ok (T, t) ∧ Undecided F C t := by
  cases n with
  | zero => exact .inl rfl
  | succ n =>
    right
    have hne : ∀ j, Key.value v ≠ .value (.inst j) := by
      rintro j ⟨⟩
      cases hv
    cases hTI : s.TI (.value v) with
    | some T =>
      exact ⟨T, s, getOrCalculateTriplet_of_entry hTI n, h⟩
    | none =>
      refine ⟨invariantTriplet, _, ?_, h.put hne invariantTriplet⟩
      rw [getOrCalculateTriplet_other hTI fun j hj => hne j (hj ▸ rfl)]
      rfl

/-- No call for one of `C` ends with this bound. -/
def Diverges (F : Function) (users : InstId → List InstId) (C : InstId → Prop) (n : Nat) : Prop :=
  ∀ i s, C i → Undecided F C s →
    getOrCalculateTriplet F users n (.value (.inst i)) s = .error .outOfFuel

variable (hn : Diverges F users C n) (h : Undecided F C s) (hj : C j)
include hn h hj

theorem Diverges.mapM (hfirst : (vs.filterMap instOf).head? = some j) :
    vs.mapM (fun v => getOrCalculateTriplet F users n (.value v)) s = .error .outOfFuel := by
  induction vs generalizing s with
  | nil => cases hfirst
  | cons v vs ih =>
    rw [List.mapM_cons]
    cases hv : instOf v with
    | some k =>
      rw [List.filterMap_cons_some hv] at hfirst
      cases hfirst
      cases v with
      | inst i =>
        cases hv
        exact bind_error (hn _ s hj h)
      | _ => cases hv
    | none =>
      rw [List.filterMap_cons_none hv] at hfirst
      rcases h.other users n hv with he | ⟨T, t, ht, h'⟩
      · exact bind_error he
      · rw [bind_ok ht]
        exact bind_error (ih h' hfirst)

theorem Diverges.unionOperands {V : Key} (hfirst : (vs.filterMap instOf).head? = some j) :
    unionOperands (getOrCalculateTriplet F users n) V (vs.map .value) s = .error .outOfFuel := by
  refine bind_error ?_
  rw [List.mapM_map]
  exact hn.mapM h hj hfirst

theorem Diverges.accessTriplet (hi : C i) (hc : takesColor F i)
    (hfirst : (unmarkedInst F v).head? = some j) :
    accessTriplet (getOrCalculateTriplet F users n) i v s = .error .outOfFuel := by
  obtain ⟨hmem, hcolor⟩ := List.mem_filter.mp (List.mem_of_head? hfirst)
  cases v with
  | inst k =>
    cases List.mem_singleton.mp hmem
    have hpaint := h.paint hi hc
    have hidle : (s.paint i .grey).inProgress (.inst j) = false := by
      by_contra hgrey
      simp only [Triplets.inProgress, Bool.not_eq_false, Bool.and_eq_true, decide_eq_true_eq]
        at hgrey
      simp [(hpaint.grey j hgrey.1).2] at hcolor
    change (if (s.paint i .grey).inProgress (.inst j) then _ else _ : Analysis TripletType)
      (s.paint i .grey) = _
    rw [hidle, if_neg Bool.false_ne_true]
    exact bind_error (hn j _ hj hpaint)
  | _ => exact absurd hmem List.not_mem_nil

theorem Diverges.addUsers {us : List InstId} {VT : List TripletType} {V : Key}
    (hfirst : ((us.takeWhile (isAccess F)).filterMap (storedInst F)).head? = some j)
    (hus : ∀ u ∈ us.takeWhile (isAccess F), ¬ C u) :
    us.foldlM (addUser F (getOrCalculateTriplet F users n) V) VT s = .error .outOfFuel := by
  induction us generalizing s VT with
  | nil => cases hfirst
  | cons u us ih =>
    by_cases hacc : isAccess F u
    · rw [List.takeWhile_cons_of_pos hacc] at hfirst hus
      obtain ⟨hu, hus⟩ := List.forall_mem_cons.mp hus
      have hidle : s.inProgress (.inst u) = false := by
        by_contra hgrey
        simp only [Triplets.inProgress, Bool.not_eq_false, Bool.and_eq_true, decide_eq_true_eq]
          at hgrey
        exact hu (h.grey u hgrey.1).1
      rw [List.foldlM_cons]
      rw [isAccess] at hacc
      split at hacc
      · rename_i hnode
        have hnone : storedInst F u = none := by simp [storedInst, hnode]
        rw [List.filterMap_cons_none hnone] at hfirst
        rw [bind_ok (addUser_load hidle hnode)]
        exact ih h hfirst hus
      · rename_i val _ hnode
        have hstored : storedInst F u = instOf val := by simp [storedInst, hnode]
        have heq : addUser F (getOrCalculateTriplet F users n) V VT u s = _ :=
          addUser_store hidle hnode
        cases hv : instOf val with
        | some k =>
          rw [List.filterMap_cons_some (hstored.trans hv)] at hfirst
          cases hfirst
          cases val with
          | inst k =>
            cases hv
            exact bind_error (heq.trans (bind_error (hn _ s hj h)))
          | _ => cases hv
        | none =>
          rw [List.filterMap_cons_none (hstored.trans hv)] at hfirst
          rcases h.other users n hv with he | ⟨T, t, ht, h'⟩
          · exact bind_error (heq.trans (bind_error he))
          · rw [bind_ok (heq.trans (bind_ok ht))]
            exact ih h' hfirst hus
      · cases hacc
    · rw [List.takeWhile_cons_of_neg hacc] at hfirst
      cases hfirst

theorem Diverges.allocaTriplet (hi : C i) (hc : takesColor F i)
    (hfirst : (((users i).takeWhile (isAccess F)).filterMap (storedInst F)).head? = some j)
    (hus : ∀ u ∈ (users i).takeWhile (isAccess F), ¬ C u) :
    allocaTriplet F users (getOrCalculateTriplet F users n) i s = .error .outOfFuel := by
  have hne : (users i).isEmpty = false := by
    cases hu : users i with
    | nil => simp [hu] at hfirst
    | cons u us => rfl
  change (if (users i).isEmpty then _ else _ : Analysis TripletType) (s.paint i .grey) = _
  rw [hne, if_neg Bool.false_ne_true]
  exact bind_error (hn.addUsers (h.paint hi hc) hj hfirst hus)

theorem Diverges.callTriplet {V : Key} {callee : Option String} {args : List Value}
    (hfirst : (opAsks F (users i) (.call callee args)).head? = some j) :
    callTriplet (getOrCalculateTriplet F users n) V callee args s = .error .outOfFuel := by
  rw [opAsks] at hfirst
  simp only [TripletInvarianceAnalysis.callTriplet]
  split_ifs at hfirst with hid hbuiltin
  · cases hfirst
  · cases hfirst
  · rw [if_neg hid, if_neg hbuiltin]
    exact hn.unionOperands h hj hfirst

theorem Diverges.gepTriplet {V : Key} {ptr : Value} {indices : List Value}
    (hfirst : ((ptr :: indices).filterMap instOf).head? = some j) :
    gepTriplet (getOrCalculateTriplet F users n) V ptr indices s = .error .outOfFuel := by
  cases hv : instOf ptr with
  | some k =>
    rw [List.filterMap_cons_some hv] at hfirst
    cases hfirst
    cases ptr with
    | inst i =>
      cases hv
      exact bind_error (hn _ s hj h)
    | _ => cases hv
  | none =>
    rw [List.filterMap_cons_none hv] at hfirst
    rcases h.other users n hv with he | ⟨T, t, ht, h'⟩
    · exact bind_error he
    · apply (bind_ok ht).trans
      split
      · rename_i hall
        obtain ⟨v, hv, hvj⟩ := List.mem_filterMap.mp (List.mem_of_head? hfirst)
        have hconst := List.all_eq_true.mp hall v hv
        cases v with
        | inst i => exact absurd hconst Bool.false_ne_true
        | _ => cases hvj
      · exact bind_error (hn.mapM h' hj hfirst)

theorem Diverges.instTriplet {I : Instruction} (hi : C i) (hnode : F.node i = some (.inst I))
    (hfirst : (opAsks F (users i) I.op).head? = some j)
    (hus : isAlloca F i → ∀ u ∈ (users i).takeWhile (isAccess F), ¬ C u) :
    instTriplet F users (getOrCalculateTriplet F users n) i I.op s = .error .outOfFuel := by
  obtain ⟨id, ty, op⟩ := I
  cases op with
  | call callee args => exact hn.callTriplet h hj hfirst
  | alloca e m =>
    exact hn.allocaTriplet h hj hi (by simp [takesColor, hnode]) hfirst
      (hus (by simp [isAlloca, hnode]))
  | load p => exact hn.accessTriplet h hj hi (by simp [takesColor, hnode]) hfirst
  | store v p => exact hn.accessTriplet h hj hi (by simp [takesColor, hnode]) hfirst
  | phi incoming => cases hfirst
  | gep e p is =>
    cases e with
    | ptr => exact hn.gepTriplet h hj hfirst
    | _ => cases hfirst
  | trunc v => exact hn.unionOperands h hj hfirst
  | other o vs =>
    have hne : (Op.other o vs).operands.isEmpty = false := by
      cases vs with
      | nil => cases hfirst
      | cons v vs => rfl
    simp only [TripletInvarianceAnalysis.instTriplet, hne, Bool.false_eq_true, if_false]
    exact hn.unionOperands h hj hfirst

theorem Diverges.termTriplet {V : Key} {b : Terminator} (hfirst : (termAsks b).head? = some j) :
    termTriplet (getOrCalculateTriplet F users n) V b s = .error .outOfFuel := by
  have hinst : ∀ c, (instOf c).toList.head? = some j → c = .inst j := by
    intro c hc
    cases c <;> cases hc
    rfl
  cases b with
  | condBr c d d' =>
    cases hinst c hfirst
    exact bind_error (hn j s hj h)
  | switch c d cs =>
    cases hinst c hfirst
    refine bind_error ?_
    rw [Terminator.keys, List.mapM_cons]
    exact bind_error (hn j s hj h)
  | _ => cases hfirst

end

section
variable {F : Function} {users : InstId → List InstId} {C : InstId → Prop}

/-- Whatever the bound: the evaluation of one of `C` calls that of another one first. -/
theorem Unending.diverges (hC : Unending F users C) (n : Nat) : Diverges F users C n := by
  induction n with
  | zero => exact fun i s _ _ => rfl
  | succ n ih =>
    intro i s hi h
    obtain ⟨j, hj, hfirst⟩ := hC.first i hi
    rw [asksFor] at hfirst
    cases hnode : F.node i with
    | none =>
      rw [hnode] at hfirst
      cases hfirst
    | some nd =>
      rw [hnode] at hfirst
      cases nd with
      | term t =>
        rw [getOrCalculateTriplet_term (h.entry i hi) hnode]
        exact ih.termTriplet h hj hfirst
      | inst I =>
        rw [getOrCalculateTriplet_inst (h.entry i hi) hnode]
        exact ih.instTriplet h hj hi hnode hfirst (hC.accesses i hi)

theorem undecided_noTriplets : Undecided F C noTriplets := ⟨fun _ _ => rfl, fun _ h => by cases h⟩

end

/-! ### Cycles of values -/

/-- A relation from the members of a list is well-founded unless it has a cycle. -/
theorem wellFounded_of_acyclic {α : Type} {r : α → α → Prop} (l : List α)
    (hl : ∀ a b, r a b → a ∈ l) (hcycle : ∀ a, ¬ TransGen r a a) :
    WellFounded fun b a => r a b := by
  have : Finite {a // a ∈ l} := (List.finite_toSet l).to_subtype
  have : IsTrans {a // a ∈ l} fun b a => TransGen r a.1 b.1 := ⟨fun _ _ _ h h' => h'.trans h⟩
  have : Std.Irrefl fun b a : {a // a ∈ l} => TransGen r a.1 b.1 := ⟨fun a => hcycle a.1⟩
  have hwf := Finite.wellFounded_of_trans_of_irrefl
    fun b a : {a // a ∈ l} => TransGen r a.1 b.1
  have hin : ∀ a : {a // a ∈ l}, Acc (fun b a => r a b) a.1 := by
    intro a
    induction a using hwf.induction with
    | _ a ih =>
      refine ⟨_, fun b hab => ?_⟩
      by_cases hb : b ∈ l
      · exact ih ⟨b, hb⟩ (.single hab)
      · exact ⟨_, fun c hbc => absurd (hl b c hbc) hb⟩
  refine ⟨fun a => ?_⟩
  by_cases ha : a ∈ l
  · exact hin ⟨a, ha⟩
  · exact ⟨_, fun b hab => absurd (hl a b hab) ha⟩

section
variable {F : Function} {users : InstId → List InstId} {i j : InstId}

/-- Where no value asks for itself, every evaluation gives one result from some bound on, from any
state that evaluations can reach; and where the first that each of `C` asks for is one of `C`, none
of them is ever evaluated. -/
theorem getOrCalculateTriplet_terminates (F : Function) (users : InstId → List InstId) :
    ((∀ i, ¬ TransGen (fun i j => j ∈ asksFor F users i) i i) →
      ∀ s, ColorsOk F s → ∀ V, ∃ n r, r ≠ .error .outOfFuel ∧
        (∀ m, n ≤ m → getOrCalculateTriplet F users m V s = r) ∧
          ∀ T t, r = .ok (T, t) → ColorsOk F t) ∧
    ∀ C : InstId → Prop, Unending F users C → ∀ i, C i → ∀ n,
      getOrCalculateTriplet F users n (.value (.inst i)) noTriplets = .error .outOfFuel := by
  constructor
  · intro hcycle s hs V
    have wf := wellFounded_of_acyclic F.instIds (fun _ _ h => mem_instIds_of_asksFor h) hcycle
    have hev : Evaluated F (getOrCalculateTriplet F users) V s := by
      by_cases hV : ∃ i, V = .value (.inst i)
      · obtain ⟨i, rfl⟩ := hV
        exact evaluated_inst wf _ i s hs le_rfl
      · exact evaluated_other fun i hi => hV ⟨i, hi⟩
    exact hev.post fun _ t ht => ht.colors hs
  · exact fun C hC i hi n => hC.diverges n i noTriplets hi undecided_noTriplets

/-- An alloca whose address is stored before anything else is done with it. -/
def addressStored : Function where
  name := "address_stored"
  entry := 0
  rest := []
  block _ := ⟨[⟨0, .ptr, .alloca (.int 32) (.constInt 32 1)⟩,
    ⟨1, .void, .store (.inst 0) (.argument 0)⟩], 2, .ret none⟩

def usersOfAddress (i : InstId) : List InstId := if i = 0 then [1] else []

theorem unending_addressStored : Unending addressStored usersOfAddress (· = 0) := by
  constructor
  · rintro i rfl
    exact ⟨0, rfl, by decide⟩
  · rintro i rfl _ u hu rfl
    exact absurd hu (by decide)

theorem getOrCalculateTriplet_addressStored :
    ¬ ∃ n, getOrCalculateTriplet addressStored usersOfAddress n (.value (.inst 0)) noTriplets ≠
      .error .outOfFuel := by
  rintro ⟨n, hn⟩
  exact hn (unending_addressStored.diverges n 0 noTriplets rfl undecided_noTriplets)

/-- A loop adds to what an alloca holds. -/
def accumulator : Function where
  name := "accumulator"
  entry := 0
  rest := [1, 2]
  block
    | 0 => ⟨[⟨0, .ptr, .alloca (.int 32) (.constInt 32 1)⟩,
        ⟨1, .void, .store (.constInt 32 0) (.inst 0)⟩], 2, .br 1⟩
    | 1 => ⟨[⟨3, .int 32, .load (.inst 0)⟩, ⟨4, .int 32, .other "add" [.inst 3, .constInt 32 1]⟩,
        ⟨5, .void, .store (.inst 4) (.inst 0)⟩,
        ⟨6, .int 1, .other "icmp ult" [.inst 4, .argument 0]⟩], 7, .condBr (.inst 6) 1 2⟩
    | _ => ⟨[], 8, .ret none⟩

def usersOfSum (i : InstId) : List InstId :=
  if i = 0 then [5, 3, 1] else if i = 3 then [4] else if i = 4 then [6, 5]
  else if i = 6 then [7] else []

/-- The alloca asks for the sum, the sum for the load, and the load for nothing. -/
def askedAfter (i : InstId) : Nat := if i = 0 then 9 else i

theorem getOrCalculateTriplet_terminates_accumulator : ∀ s, ColorsOk accumulator s → ∀ V,
    ∃ n r, r ≠ .error .outOfFuel ∧
      (∀ m, n ≤ m → getOrCalculateTriplet accumulator usersOfSum m V s = r) ∧
        ∀ T t, r = .ok (T, t) → ColorsOk accumulator t := by
  have hasks : ∀ i ∈ accumulator.instIds, ∀ j ∈ asksFor accumulator usersOfSum i,
      askedAfter j < askedAfter i := by decide
  have hless : ∀ i j, TransGen (fun i j => j ∈ asksFor accumulator usersOfSum i) i j →
      askedAfter j < askedAfter i := by
    intro i j h
    induction h with
    | single h => exact hasks _ (mem_instIds_of_asksFor h) _ h
    | tail _ h ih => exact (hasks _ (mem_instIds_of_asksFor h) _ h).trans ih
  exact (getOrCalculateTriplet_terminates accumulator usersOfSum).1
    fun i hi => lt_irrefl _ (hless i i hi)

end

end VariOCL.IR.TripletInvarianceAnalysis
