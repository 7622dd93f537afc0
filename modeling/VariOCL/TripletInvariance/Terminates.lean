import VariOCL.Sim.Settles
import VariOCL.TripletInvariance.AsksFor

/-! The recursion of `getOrCalculateTriplet` ends where no value asks for itself. -/

namespace VariOCL.IR.TripletInvarianceAnalysis

open Sim

/-- From `s` the evaluation of `V` settles in a later state. -/
def Evaluated (F : Function) (getTriplet : Nat → Key → Analysis TripletType) (V : Key)
    (s : Triplets) : Prop :=
  Settles .outOfFuel (fun n => getTriplet n V) s fun _ t => Later F s t

/-- The calls that the evaluation of a value that asks for `asks` may make, with at most `w` left to
be done. -/
structure Callable (F : Function) (getTriplet : Nat → Key → Analysis TripletType) (w : Nat)
    (asks : List InstId) : Prop where
  asked : ∀ j ∈ asks, ∀ s, ColorsOk F s → undone F s ≤ w →
    Evaluated F getTriplet (.value (.inst j)) s
  fresh : ∀ j s, ColorsOk F s → undone F (s.entered F j) < w →
    Evaluated F getTriplet (.value (.inst j)) s
  decided : ∀ V s, s.TI V ≠ none → Evaluated F getTriplet V s
  other : ∀ V s, (∀ j, V ≠ .value (.inst j)) → Evaluated F getTriplet V s

section
variable {F : Function} {users : InstId → List InstId} {s t : Triplets} {i j : InstId} {V : Key}
  {v : Value} {w : Nat} {asks : List InstId} {getTriplet : Nat → Key → Analysis TripletType}

theorem settles_set (h : Later F s t) (T : TripletType) :
    Settles .outOfFuel (fun _ => setTripletType V T) t fun _ u => Later F s u :=
  .of_ok (t := t.put V T) (fun _ => rfl) (h.put V T)

theorem settles_unionAll (h : Later F s t) (VT : List TripletType) :
    Settles .outOfFuel (fun _ => do
      let T ← (unionAll VT : Analysis TripletType)
      setTripletType V T) t fun _ u => Later F s u := by
  cases VT with
  | nil => exact .of_error (fun _ => rfl) nofun
  | cons T VT => exact settles_set h _

theorem asks_of_values {vs : List Value} (hasks : ∀ j ∈ vs.filterMap instOf, j ∈ asks) :
    ∀ V ∈ vs.map Key.value, ∀ j, V = .value (.inst j) → j ∈ asks := by
  intro V hV j hj
  obtain ⟨v, hv, rfl⟩ := List.mem_map.mp hV
  cases hj
  exact hasks j (List.mem_filterMap.mpr ⟨_, hv, rfl⟩)

variable (h : Callable F getTriplet w asks) (hs : ColorsOk F s) (hw : undone F s ≤ w)
include h hs hw

/-- A call in a later state, for a value that was asked for. -/
theorem Callable.call (hst : Later F s t) (hV : ∀ j, V = .value (.inst j) → j ∈ asks) :
    Settles .outOfFuel (fun n => getTriplet n V) t fun _ u => Later F s u := by
  have hev : Evaluated F getTriplet V t := by
    by_cases hinst : ∃ j, V = .value (.inst j)
    · obtain ⟨j, rfl⟩ := hinst
      exact h.asked j (hV j rfl) t (hst.colors hs) (hst.undone_le.trans hw)
    · exact h.other V t fun j hj => hinst ⟨j, hj⟩
  exact hev.post fun _ u hu => hst.trans hu

theorem Callable.mapM {operands : List Key}
    (hV : ∀ V ∈ operands, ∀ j, V = .value (.inst j) → j ∈ asks) (hst : Later F s t) :
    Settles .outOfFuel (fun n => operands.mapM (getTriplet n)) t fun _ u => Later F s u :=
  .mapM (fun V hmem _ ht => h.call hs hw ht (hV V hmem)) hst

theorem Callable.unionOperands {operands : List Key}
    (hV : ∀ V ∈ operands, ∀ j, V = .value (.inst j) → j ∈ asks) :
    Settles .outOfFuel (fun n => unionOperands (getTriplet n) V operands) s
      fun _ u => Later F s u :=
  (h.mapM hs hw hV (.refl s)).bind fun VT _ ht => settles_unionAll ht VT

theorem Callable.accessTriplet {operand : Value} (hasks : ∀ j ∈ unmarkedInst F operand, j ∈ asks)
    (hi : s = t.entered F i) (hcolor : takesColor F i) :
    Settles .outOfFuel (fun n => accessTriplet (getTriplet n) i operand) t
      fun _ u => Later F s u := by
  rw [Triplets.entered, if_pos hcolor] at hi
  have hbody : Settles .outOfFuel (fun n => do
      let r ← MonadState.get
      if r.inProgress operand then setTripletType (.value operand) nonInvariantTriplet
      else
        let T ← getTriplet n (.value operand)
        setTripletType (.value (.inst i)) T) s fun _ u => Later F s u := by
    apply Settles.get
    split
    · exact settles_set (.refl s) _
    · rename_i hidle
      have hev : Evaluated F getTriplet (.value operand) s := by
        by_cases hdec : s.TI (.value operand) = none
        · cases operand with
          | inst j =>
            cases hj : takesColor F j with
            | false => exact h.asked j (hasks j (by simp [unmarkedInst, instOf, hj])) s hs hw
            | true =>
              refine h.fresh j s hs (Nat.lt_of_lt_of_le (undone_entered_lt hj fun hgrey => ?_) hw)
              exact hidle (by simp [Triplets.inProgress, hgrey, hdec])
          | _ => exact h.other _ s fun _ hj => by cases hj
        · exact h.decided _ s hdec
      exact hev.bind fun T _ ht => settles_set ht T
  subst hi
  exact Settles.bind (R := fun _ u => u = t.paint i .grey) (.modify rfl)
    (by rintro _ _ rfl; exact hbody)

/-- The fold over the users of an alloca: up to here there were loads and stores only, or something
was done. -/
theorem Callable.addUser (us : List InstId) {rest : List InstId} {VT : List TripletType} (hi : isAlloca F i)
    (hnone : s.TI (.value (.inst i)) = none) (hasks : ∀ j, j ∈ (us.takeWhile (isAccess F)).filterMap
      (storedInst F) → j ∈ asks) {User : InstId} (hst : Later F s t)
    (hrest : (∃ pre, us = pre ++ User :: rest ∧ ∀ u ∈ pre, isAccess F u) ∨
      undone F t < undone F s) :
    Settles .outOfFuel (fun n => addUser F (getTriplet n) (.value (.inst i)) VT User) t
      fun _ u => Later F s u ∧ ((∃ pre, us = pre ++ rest ∧ ∀ u ∈ pre, isAccess F u) ∨
        undone F u < undone F s) := by
  have hnext : ∀ u, Later F t u → isAccess F User →
      (∃ pre, us = pre ++ rest ∧ ∀ u ∈ pre, isAccess F u) ∨ undone F u < undone F s := by
    intro u htu hacc
    refine hrest.imp ?_ fun hlt => Nat.lt_of_le_of_lt htu.undone_le hlt
    rintro ⟨pre, rfl, hpre⟩
    refine ⟨pre ++ [User], by simp, fun x hx => ?_⟩
    rcases List.mem_append.mp hx with hx | hx
    · exact hpre x hx
    · rwa [List.mem_singleton.mp hx]
  apply Settles.get
  split
  · rename_i hgrey
    have hdone : t.TI (.value (.inst User)) = none := Triplets.isNone_of_inProgress hgrey
    simp only [Triplets.inProgress, Bool.and_eq_true, decide_eq_true_eq] at hgrey
    refine .of_ok (t := t.put _ invariantTriplet) (fun _ => rfl) ⟨hst.put _ _, ?_⟩
    rcases takesColor_iff.mp ((hst.colors hs) User hgrey.1) with halloca | hacc
    · refine .inr ((hst.put _ _).undone_lt_of_decided halloca (hst.entry _ hdone) ?_)
      rw [Triplets.put_self]
      exact Option.some_ne_none _
    · exact hnext _ ((Later.refl t).put _ _) hacc
  · split
    · rename_i val _ hnode
      have hacc : isAccess F User := by simp [isAccess, hnode]
      have hcall : Settles .outOfFuel (fun n => getTriplet n (.value val)) t
          fun _ u => Later F t u := by
        rcases hrest with ⟨pre, rfl, hpre⟩ | hlt
        · have hev : Evaluated F getTriplet (.value val) t := by
            cases val with
            | inst j =>
              refine h.asked j (hasks j ?_) t (hst.colors hs) (hst.undone_le.trans hw)
              rw [List.takeWhile_append_of_pos hpre, List.takeWhile_cons_of_pos hacc]
              exact List.mem_filterMap.mpr ⟨User, by simp, by simp [storedInst, hnode, instOf]⟩
            | _ => exact h.other _ t fun _ hj => by cases hj
          exact hev
        · cases val with
          | inst j =>
            refine h.fresh j t (hst.colors hs) ?_
            have := (later_entered F t j).undone_le
            omega
          | _ => exact h.other _ t fun _ hj => by cases hj
      exact hcall.bind fun T u hu => .pure _ ⟨hst.trans hu, hnext u hu hacc⟩
    · rename_i hnode
      exact .pure _ ⟨hst, hnext t (.refl t) (by simp [isAccess, hnode])⟩
    · refine .of_ok (t := t.put _ nonInvariantTriplet) (fun _ => rfl) ⟨hst.put _ _, .inr ?_⟩
      refine (hst.put _ _).undone_lt_of_decided hi hnone ?_
      rw [Triplets.put_self]
      exact Option.some_ne_none _

theorem Callable.allocaTriplet (halloca : isAlloca F i) (hi : s = t.entered F i)
    (hnone : t.TI (.value (.inst i)) = none)
    (hasks : ∀ j ∈ ((users i).takeWhile (isAccess F)).filterMap (storedInst F), j ∈ asks) :
    Settles .outOfFuel (fun n => allocaTriplet F users (getTriplet n) i) t
      fun _ u => Later F s u := by
  have hcolor := takesColor_of_isAlloca halloca
  rw [Triplets.entered, if_pos hcolor] at hi
  have hnone' : s.TI (.value (.inst i)) = none := hi ▸ hnone
  have hbody : Settles .outOfFuel (fun n =>
      if (users i).isEmpty then setTripletType (.value (.inst i)) invariantTriplet
      else do
        let VT ← (users i).foldlM
          (TripletInvarianceAnalysis.addUser F (getTriplet n) (.value (.inst i))) []
        let T ← unionAll VT
        setTripletType (.value (.inst i)) T) s fun _ u => Later F s u := by
    split
    · exact settles_set (.refl s) _
    · have hfold : Settles .outOfFuel
          (fun n => (users i).foldlM
            (TripletInvarianceAnalysis.addUser F (getTriplet n) (.value (.inst i))) []) s
          fun _ u => Later F s u ∧ ((∃ pre, users i = pre ++ [] ∧ ∀ u ∈ pre, isAccess F u) ∨
            undone F u < undone F s) := by
        refine Settles.foldlM (I := fun rest u => Later F s u ∧
          ((∃ pre, users i = pre ++ rest ∧ ∀ u ∈ pre, isAccess F u) ∨ undone F u < undone F s))
          (fun User rest VT u hu => ?_) ⟨.refl s, .inl ⟨[], rfl, fun _ hu => absurd hu List.not_mem_nil⟩⟩
        exact h.addUser hs hw (users i) halloca hnone' hasks hu.1 hu.2
      exact hfold.bind fun VT u hu => settles_unionAll hu.1 VT
  subst hi
  exact Settles.bind (R := fun _ u => u = t.paint i .grey) (.modify rfl)
    (by rintro _ _ rfl; exact hbody)

theorem Callable.callTriplet {callee : Option String} {args : List Value}
    (hasks : ∀ j ∈ opAsks F (users i) (.call callee args), j ∈ asks) :
    Settles .outOfFuel (fun n => callTriplet (getTriplet n) V callee args) s
      fun _ u => Later F s u := by
  simp only [TripletInvarianceAnalysis.callTriplet]
  rw [opAsks] at hasks
  split
  · split
    · exact settles_set (.refl s) _
    · exact .pure _ (.refl s)
  · rename_i hname
    rw [if_neg hname] at hasks
    split
    · exact settles_set (.refl s) _
    · rename_i hbuiltin
      rw [if_neg hbuiltin] at hasks
      exact h.unionOperands hs hw (asks_of_values hasks)

theorem Callable.gepTriplet {ptr : Value} {indices : List Value}
    (hasks : ∀ j ∈ (ptr :: indices).filterMap instOf, j ∈ asks) :
    Settles .outOfFuel (fun n => gepTriplet (getTriplet n) V ptr indices) s
      fun _ u => Later F s u := by
  have hvalues := asks_of_values hasks
  refine (h.call hs hw (.refl s) (hvalues (.value ptr) List.mem_cons_self)).bind fun T u hu => ?_
  split
  · exact settles_set hu T
  · refine Settles.bind (R := fun _ u => Later F s u) ?_ fun VT u hu => settles_set hu _
    refine .mapM (fun A hA t ht => h.call hs hw ht (hvalues (.value A) ?_)) hu
    exact List.mem_map_of_mem (List.mem_cons_of_mem _ hA)

theorem Callable.instTriplet {I : Instruction} (hnode : F.node i = some (.inst I))
    (hi : s = t.entered F i) (hnone : t.TI (.value (.inst i)) = none)
    (hasks : ∀ j ∈ opAsks F (users i) I.op, j ∈ asks) :
    Settles .outOfFuel (fun n => instTriplet F users (getTriplet n) i I.op) t
      fun _ u => Later F s u := by
  obtain ⟨id, ty, op⟩ := I
  have hplain : takesColor F i = false → t = s := fun hc => by simp [hi, Triplets.entered, hc]
  cases op with
  | call callee args =>
    rw [hplain (by simp [takesColor, hnode])]
    exact h.callTriplet hs hw hasks
  | alloca e m => exact h.allocaTriplet hs hw (by simp [isAlloca, hnode]) hi hnone hasks
  | load p => exact h.accessTriplet hs hw hasks hi (by simp [takesColor, hnode])
  | store v p => exact h.accessTriplet hs hw hasks hi (by simp [takesColor, hnode])
  | phi incoming =>
    rw [hplain (by simp [takesColor, hnode])]
    exact settles_set (.refl s) _
  | gep e p is =>
    rw [hplain (by simp [takesColor, hnode])]
    cases e with
    | ptr => exact h.gepTriplet hs hw hasks
    | _ => exact settles_set (.refl s) _
  | trunc v =>
    rw [hplain (by simp [takesColor, hnode])]
    exact h.unionOperands hs hw (asks_of_values hasks)
  | other o vs =>
    rw [hplain (by simp [takesColor, hnode])]
    simp only [TripletInvarianceAnalysis.instTriplet]
    split
    · exact settles_set (.refl s) _
    · exact h.unionOperands hs hw (asks_of_values hasks)

theorem Callable.termTriplet {b : Terminator} (hasks : ∀ j ∈ termAsks b, j ∈ asks) :
    Settles .outOfFuel (fun n => termTriplet (getTriplet n) V b) s fun _ u => Later F s u := by
  cases b with
  | condBr c d d' =>
    refine (h.call hs hw (.refl s) fun j hj => ?_).bind fun T u hu => settles_set hu T
    cases hj
    exact hasks j (by simp [termAsks, instOf])
  | switch c d cs =>
    refine h.unionOperands hs hw fun V hV j hj => ?_
    subst hj
    simp only [Terminator.keys, List.mem_cons, List.mem_flatMap, Key.value.injEq,
      List.not_mem_nil, or_false, reduceCtorEq, and_false, exists_false] at hV
    subst hV
    exact hasks j (by simp [termAsks, instOf])
  | _ => exact settles_set (.refl s) _

end

section
variable {F : Function} {users : InstId → List InstId} {s : Triplets} {V : Key}

theorem evaluated_decided (h : s.TI V ≠ none) :
    Evaluated F (getOrCalculateTriplet F users) V s := by
  obtain ⟨T, hT⟩ := Option.ne_none_iff_exists'.mp h
  exact .succ (.of_ok (getOrCalculateTriplet_of_entry hT) (.refl s))

theorem evaluated_other (h : ∀ j, V ≠ .value (.inst j)) :
    Evaluated F (getOrCalculateTriplet F users) V s := by
  by_cases hdec : s.TI V = none
  · apply Settles.succ
    simp only [getOrCalculateTriplet]
    apply Settles.get
    simp only [hdec]
    cases V with
    | block b => exact settles_set (.refl s) _
    | value v =>
      cases v with
      | inst j => exact absurd rfl (h j)
      | _ => exact settles_set (.refl s) _
  · exact evaluated_decided hdec

/-- Where no value asks for itself every evaluation settles. -/
theorem evaluated_inst (wf : WellFounded fun j i => j ∈ asksFor F users i) (w : Nat) :
    ∀ i s, ColorsOk F s → undone F (s.entered F i) ≤ w →
      Evaluated F (getOrCalculateTriplet F users) (.value (.inst i)) s := by
  induction w using Nat.strong_induction_on with
  | _ w ihw =>
    intro i
    induction i using wf.induction with
    | _ i ihi =>
      intro s hs hw
      have hlater := later_entered F s i
      have hcall : Callable F (getOrCalculateTriplet F users) w (asksFor F users i) := by
        refine ⟨fun j hj t ht htw => ihi j hj t ht ?_, fun j t ht hlt => ?_,
          fun V t h => evaluated_decided h, fun V t h => evaluated_other h⟩
        · exact (later_entered F t j).undone_le.trans htw
        · exact ihw _ hlt j t ht le_rfl
      by_cases hdec : s.TI (.value (.inst i)) = none
      · apply Settles.succ
        simp only [getOrCalculateTriplet]
        apply Settles.get
        simp only [hdec]
        cases hnode : F.node i with
        | none => exact settles_set (.refl s) _
        | some nd =>
          have hpost : ∀ u, Later F (s.entered F i) u → Later F s u := fun u hu => hlater.trans hu
          cases nd with
          | term b =>
            have hplain : s.entered F i = s := by simp [Triplets.entered, takesColor, hnode]
            rw [hplain] at hw
            exact hcall.termTriplet hs hw fun j hj => by rwa [asksFor, hnode]
          | inst I =>
            refine (hcall.instTriplet (hlater.colors hs) hw hnode rfl hdec fun j hj => ?_).post
              fun _ u hu => hpost u hu
            rwa [asksFor, hnode]
      · exact evaluated_decided hdec

theorem settles_value {s : Triplets} (hs : ColorsOk F s) (V : Key) (T : TripletType) :
    Settles Failure.outOfFuel (fun _ => setTripletToValue V T) s fun _ => ColorsOk F :=
  .modify hs

theorem settles_markBlock {s : Triplets} (hs : ColorsOk F s) (b : BlockId) (T : TripletType) :
    Settles Failure.outOfFuel (fun _ => markBlock F b T) s fun _ => ColorsOk F :=
  .forM (fun _ _ _ ht => settles_value ht _ T) hs

theorem settles_markLoop {s : Triplets} (hs : ColorsOk F s) (preds : BlockId → List BlockId)
    (L : Loop) : Settles Failure.outOfFuel (fun _ => markLoop F preds L) s fun _ => ColorsOk F := by
  refine (settles_markBlock hs L.header _).bind fun _ t ht => ?_
  cases getLoopLatch preds L with
  | none => exact .pure _ ht
  | some latch => exact settles_markBlock ht latch _

/-- So does the whole analysis. -/
theorem runOnFunction_settles (wf : WellFounded fun j i => j ∈ asksFor F users i)
    (preds : BlockId → List BlockId) (LI : List Loop) (globals : List String) :
    Settles .outOfFuel (fun n => runOnFunction F users n preds LI globals) noTriplets
      fun _ => ColorsOk F := by
  have hstart : ColorsOk F noTriplets := fun _ h => by cases h
  refine Settles.bind (.forM (fun g _ _ ht => settles_value ht _ _) hstart) fun _ t ht => ?_
  refine Settles.bind (.forM (fun TL _ t ht => ?_) ht) fun _ t ht => ?_
  · exact (settles_markLoop ht preds TL).bind fun _ t ht =>
      .forM (fun L _ t ht => settles_markLoop ht preds L) ht
  refine (settles_value ht _ _).bind fun _ t ht => .forM (fun b _ t ht => ?_) ht
  refine .forM (fun i _ t ht => ?_) ht
  exact ((evaluated_inst wf _ i t ht le_rfl).post fun _ u hu => hu.colors ht).bind
    fun _ u hu => .pure _ hu

end

end VariOCL.IR.TripletInvarianceAnalysis
