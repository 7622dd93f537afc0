import VariOCL.Sim.Hoare
import VariOCL.TripletInvariance.Analysis

/-! What the evaluation of other values leaves of the entry of one value. -/

namespace VariOCL.IR.TripletInvarianceAnalysis

open Sim

/-- The instructions that are marked while they are evaluated. -/
def takesColor (F : Function) (i : InstId) : Bool :=
  match F.node i with
  | some (.inst ⟨_, _, .alloca _ _⟩) => true
  | some (.inst ⟨_, _, .load _⟩) => true
  | some (.inst ⟨_, _, .store _ _⟩) => true
  | _ => false

def Triplets.put (s : Triplets) (V : Key) (T : TripletType) : Triplets :=
  { s with TI := fun k => if k = V then some T else s.TI k }

def Triplets.paint (s : Triplets) (I : InstId) (c : CycleColor) : Triplets :=
  { s with CycleColorMap := fun i => if i = I then c else s.CycleColorMap i }

theorem Triplets.put_of_ne {s : Triplets} {V k : Key} (T : TripletType) (h : k ≠ V) :
    (s.put V T).TI k = s.TI k := if_neg h

theorem Triplets.put_self {s : Triplets} (V : Key) (T : TripletType) :
    (s.put V T).TI V = some T := if_pos rfl

theorem Triplets.isNone_of_inProgress {s : Triplets} {v : Value} (h : s.inProgress v) :
    s.TI (.value v) = none := by
  cases v with
  | inst i =>
    simp only [inProgress, Bool.and_eq_true, Option.isNone_iff_eq_none] at h
    exact h.2
  | _ => cases h

/-! ### One call -/

section
variable {F : Function} {users : InstId → List InstId} {s : Triplets} {V : Key} {T : TripletType}
  {VT : List TripletType} {getTriplet : Key → Analysis TripletType} {i id : InstId} {ty : Ty} {v p : Value}

theorem getOrCalculateTriplet_of_entry (h : s.TI V = some T) (n : Nat) :
    getOrCalculateTriplet F users (n + 1) V s = .ok (T, s) := by
  unfold getOrCalculateTriplet
  rw [get_bind, h]
  rfl

/-- The evaluation of an instruction that no triplet is known of. -/
theorem getOrCalculateTriplet_inst {I : Instruction} (hTI : s.TI (.value (.inst i)) = none)
    (hnode : F.node i = some (.inst I)) (n : Nat) :
    getOrCalculateTriplet F users (n + 1) (.value (.inst i)) s =
      instTriplet F users (getOrCalculateTriplet F users n) i I.op s := by
  rw [getOrCalculateTriplet, get_bind, hTI]
  simp only [hnode]

theorem getOrCalculateTriplet_term {t : Terminator} (hTI : s.TI (.value (.inst i)) = none)
    (hnode : F.node i = some (.term t)) (n : Nat) :
    getOrCalculateTriplet F users (n + 1) (.value (.inst i)) s =
      termTriplet (getOrCalculateTriplet F users n) (.value (.inst i)) t s := by
  rw [getOrCalculateTriplet, get_bind, hTI]
  simp only [hnode]

theorem getOrCalculateTriplet_other (hTI : s.TI (.value v) = none) (hv : ∀ j, v ≠ .inst j) (n : Nat) :
    getOrCalculateTriplet F users (n + 1) (.value v) s =
      setTripletType (.value v) invariantTriplet s := by
  rw [getOrCalculateTriplet, get_bind, hTI]
  exact hv

theorem addUser_store (hidle : s.inProgress (.inst i) = false)
    (hnode : F.node i = some (.inst ⟨id, ty, .store v p⟩)) : addUser F getTriplet V VT i s =
      (getTriplet (.value v) >>= fun T => pure (VT ++ [T]) : Analysis (List TripletType)) s := by
  rw [addUser, get_bind, hidle, if_neg Bool.false_ne_true]
  simp only [hnode]

theorem addUser_load (hidle : s.inProgress (.inst i) = false)
    (hnode : F.node i = some (.inst ⟨id, ty, .load p⟩)) :
    addUser F getTriplet V VT i s = .ok (VT, s) := by
  rw [addUser, get_bind, hidle, if_neg Bool.false_ne_true]
  simp only [hnode]
  rfl

end

/-- Nothing but the evaluation of `k` itself can change `P`. -/
structure Guarded (F : Function) (k : Key) (P : Triplets → Prop) : Prop where
  put : ∀ s V T, V ≠ k → P s → P (s.put V T)
  paint : ∀ s i, takesColor F i → P s → P (s.paint i .grey)
  idle : ∀ s v, P s → s.inProgress v → .value v ≠ k

section
variable {F : Function} {users : InstId → List InstId} {k V : Key} {P : Triplets → Prop}
  {i : InstId} {getTriplet : Key → Analysis TripletType}

theorem Guarded.setValue (h : Guarded F k P) {T : TripletType} (hV : V ≠ k) :
    Triple P (setTripletToValue V T) fun _ => P := .modify fun s hs => h.put s V T hV hs

theorem Guarded.setType (h : Guarded F k P) {T : TripletType} (hV : V ≠ k) :
    Triple P (setTripletType V T) fun _ => P :=
  .bind (h.setValue hV) fun _ => .pure T fun _ hs => hs

theorem Guarded.setColor (h : Guarded F k P) (hi : takesColor F i) :
    Triple P (setCycleColor i .grey) fun _ => P := .modify fun s hs => h.paint s i hi hs

theorem Guarded.unionAll (h : Guarded F k P) (hV : V ≠ k) (VT : List TripletType) :
    Triple P (do
      let T ← (unionAll VT : Analysis TripletType)
      setTripletType V T) fun _ => P := by
  cases VT with
  | nil => exact .throw _
  | cons T VT => exact h.setType hV

variable (h : Guarded F k P) (ih : ∀ V, Triple P (getTriplet V) fun _ => P)
include h ih

theorem Guarded.unionOperands (hV : V ≠ k) (operands : List Key) :
    Triple P (unionOperands getTriplet V operands) fun _ => P :=
  .bind (.mapM fun k _ => ih k) fun VT => h.unionAll hV VT

theorem Guarded.addUser (hV : V ≠ k) (VT : List TripletType) (User : InstId) :
    Triple P (addUser F getTriplet V VT User) fun _ => P := by
  refine .bind (.get P) fun s => ?_
  split
  · rename_i hgrey
    rintro s' VT' s'' ⟨rfl, hs⟩ hx
    have hset : Triple P (do
        let T ← setTripletType (.value (.inst User)) invariantTriplet
        pure (VT ++ [T])) fun _ => P :=
      .bind (h.setType (h.idle s _ hs hgrey)) fun _ => .pure _ fun _ hs => hs
    exact hset hs hx
  · refine Triple.pre (P := P) ?_ fun _ h => h.2
    split
    · exact .bind (ih _) fun _ => .pure _ fun _ hs => hs
    · exact .pure _ fun _ hs => hs
    · exact .bind (h.setType hV) fun _ => .pure _ fun _ hs => hs

theorem Guarded.allocaTriplet (hV : Key.value (.inst i) ≠ k) (hi : takesColor F i) :
    Triple P (allocaTriplet F users getTriplet i) fun _ => P := by
  refine .bind (h.setColor hi) fun _ => ?_
  split
  · exact h.setType hV
  · exact .bind (.foldlM [] fun VT u _ => h.addUser ih hV VT u) fun VT => h.unionAll hV VT

theorem Guarded.accessTriplet (hV : Key.value (.inst i) ≠ k) (hi : takesColor F i)
    (operand : Value) : Triple P (accessTriplet getTriplet i operand) fun _ => P := by
  refine .bind (h.setColor hi) fun _ => .bind (.get P) fun s => ?_
  split
  · rename_i hgrey
    rintro s' T s'' ⟨rfl, hs⟩ hx
    exact h.setType (h.idle s _ hs hgrey) hs hx
  · refine Triple.pre (P := P) ?_ fun _ h => h.2
    exact .bind (ih _) fun T => h.setType hV

theorem Guarded.callTriplet (hV : V ≠ k) (callee : Option String) (args : List Value) :
    Triple P (callTriplet getTriplet V callee args) fun _ => P := by
  rw [TripletInvarianceAnalysis.callTriplet]
  split
  · split
    · exact h.setType hV
    · exact .pure _ fun _ hs => hs
  · split
    · exact h.setType hV
    · exact h.unionOperands ih hV _

theorem Guarded.gepTriplet (hV : V ≠ k) (ptr : Value) (indices : List Value) :
    Triple P (gepTriplet getTriplet V ptr indices) fun _ => P := by
  refine .bind (ih _) fun T => ?_
  split
  · exact h.setType hV
  · exact .bind (.mapM fun A _ => ih _) fun VT => h.setType hV

theorem Guarded.instTriplet {I : Instruction} (hV : Key.value (.inst i) ≠ k)
    (hnode : F.node i = some (.inst I)) :
    Triple P (instTriplet F users getTriplet i I.op) fun _ => P := by
  obtain ⟨id, ty, op⟩ := I
  cases op with
  | call callee args => exact h.callTriplet ih hV callee args
  | alloca t m => exact h.allocaTriplet ih hV (by simp [takesColor, hnode])
  | load p => exact h.accessTriplet ih hV (by simp [takesColor, hnode]) p
  | store v p => exact h.accessTriplet ih hV (by simp [takesColor, hnode]) v
  | phi incoming => exact h.setType hV
  | gep t p is =>
    cases t with
    | ptr => exact h.gepTriplet ih hV p is
    | _ => exact h.setType hV
  | trunc v => exact h.unionOperands ih hV _
  | other o vs =>
    simp only [TripletInvarianceAnalysis.instTriplet]
    split
    · exact h.setType hV
    · exact h.unionOperands ih hV _

theorem Guarded.termTriplet (hV : V ≠ k) (t : Terminator) :
    Triple P (termTriplet getTriplet V t) fun _ => P := by
  cases t with
  | condBr c d d' => exact .bind (ih _) fun T => h.setType hV
  | switch c d cs => exact h.unionOperands ih hV _
  | _ => exact h.setType hV

omit ih

/-- An evaluation keeps `P` if that of `k` itself does. -/
theorem Guarded.getOrCalculateTriplet
    (hk : ∀ n, Triple P (getOrCalculateTriplet F users n k) fun _ => P) (n : Nat) (V : Key) :
    Triple P (getOrCalculateTriplet F users n V) fun _ => P := by
  induction n generalizing V with
  | zero => exact .throw _
  | succ n ih =>
    by_cases hV : V = k
    · exact hV ▸ hk (n + 1)
    unfold TripletInvarianceAnalysis.getOrCalculateTriplet
    refine .bind (.get P) fun s => ?_
    refine Triple.pre (P := P) ?_ fun _ h => h.2
    split
    · exact .pure _ fun _ hs => hs
    · split
      · exact h.setType hV
      · split
        · exact h.setType hV
        · exact h.termTriplet ih hV _
        · exact h.instTriplet ih hV ‹_›
      · exact h.setType hV

end

end VariOCL.IR.TripletInvarianceAnalysis
