import VariOCL.BreakPhi.Slots
import VariOCL.IR.Exec
import VariOCL.Sim.Agree

/-! How the instructions of a broken function run beside those they came of. -/

namespace VariOCL.IR.BreakPhi

open Sim

section
variable {Val : Type} (F : Function) (slots : List Slot) (addr : InstId → Val)

/-- `a` is no cell of a slot. -/
def OffSlots (a : Val) : Prop := ∀ sl ∈ slots, a ≠ addr sl.alloca

/-- The broken function has the values and the memory of the old one, and loads its PHIs. -/
structure Alike (s t : State Val) : Prop where
  old : ∀ i < F.freshInst, (∀ sl ∈ slots, sl.PN.id ≠ i) → t.env i = s.env i
  loaded : ∀ sl ∈ slots, t.env sl.loadedValue = s.env sl.PN.id
  unset : ∀ i, F.freshInst ≤ i → s.env i = none
  mem : s.mem.AgreeOn (OffSlots slots addr) t.mem

def Allocated (t : State Val) : Prop := ∀ sl ∈ slots, t.env sl.alloca = some (addr sl.alloca)

end

section
variable {Val : Type} {F : Function} {slots : List Slot} {addr : InstId → Val} {M : Machine Val}
  {w : WorkItem Val} {s s' t t' : State Val} {v : Value} {x : Val} {i : InstId}

theorem Alike.read (h : Alike F slots addr s t) (hv : M.read s.env v = some x) :
    M.read t.env (brokenValue slots v) = some x := by
  cases v with
  | inst i =>
    have hi : s.env i = some x := hv
    rw [brokenValue]
    cases hfind : slots.find? (·.PN.id = i) with
    | some sl =>
      have hid : sl.PN.id = i := by simpa using List.find?_some hfind
      exact (h.loaded sl (List.mem_of_find?_eq_some hfind)).trans (hid ▸ hi)
    | none =>
      have hne : ∀ sl ∈ slots, sl.PN.id ≠ i := by simpa using List.find?_eq_none.mp hfind
      have hlt : i < F.freshInst := Nat.lt_of_not_le fun hle =>
        Option.some_ne_none x (hi.symm.trans (h.unset i hle))
      exact (h.old i hlt hne).trans hi
  | _ => exact hv

theorem Alike.readAll (h : Alike F slots addr s t) {vs : List Value} {xs : List Val}
    (hvs : M.readAll s.env vs = some xs) :
    M.readAll t.env (vs.map (brokenValue slots)) = some xs := by
  induction vs generalizing xs with
  | nil => exact hvs
  | cons v vs ih =>
    obtain ⟨y, hy, hvs⟩ := Option.bind_eq_some_iff.mp hvs
    obtain ⟨ys, hys, rfl⟩ := Option.map_eq_some_iff.mp hvs
    rw [List.map_cons, Machine.readAll, h.read hy, Option.bind_some, ih hys, Option.map_some]

/-- An old instruction that is no PHI of a slot gives its value. -/
theorem Alike.define (h : Alike F slots addr s t) (hfresh : Fresh F slots) (hi : i < F.freshInst)
    (hphi : ∀ sl ∈ slots, sl.PN.id ≠ i) (x : Val) :
    Alike F slots addr (s.define i x) (t.define i x) where
  old j hj hjphi := by
    by_cases hij : j = i
    · rw [hij, State.define_self, State.define_self]
    · rw [State.define_ne _ hij, State.define_ne _ hij, h.old j hj hjphi]
  loaded sl hsl := by
    have hload : sl.loadedValue ≠ i := fun heq => Nat.not_lt.mpr
      (hfresh.new sl hsl _ (List.mem_cons_of_mem _ List.mem_cons_self)) (heq ▸ hi)
    rw [State.define_ne _ hload, State.define_ne _ (hphi sl hsl), h.loaded sl hsl]
  unset j hj := by
    have hne : j ≠ i := fun heq => Nat.not_lt.mpr hj (heq ▸ hi)
    rw [State.define_ne _ hne, h.unset j hj]
  mem := h.mem

/-- The slot an instruction was made for. -/
theorem Fresh.eq_of_mem_ids (h : Fresh F slots) {sl sl' : Slot} (hsl : sl ∈ slots)
    (hsl' : sl' ∈ slots) (hi : i ∈ sl.ids) (hi' : i ∈ sl'.ids) : sl = sl' := by
  by_contra hne
  have hsymm : Std.Symm fun x y : Slot => List.Disjoint x.ids y.ids := ⟨fun _ _ h _ hx hy => h hy hx⟩
  exact (List.nodup_flatMap.mp h.nodup).2.forall hsl hsl' hne hi hi'

theorem Fresh.PN_lt (h : Fresh F slots) {sl : Slot} (hsl : sl ∈ slots) : sl.PN.id < F.freshInst :=
  F.lt_freshInst (F.instIds_of_mem (h.mem sl hsl).1 (h.mem sl hsl).2)

theorem Fresh.loadedValue_ne_alloca (h : Fresh F slots) {sl sl' : Slot} (hsl : sl ∈ slots)
    (hsl' : sl' ∈ slots) : sl.loadedValue ≠ sl'.alloca := by
  intro heq
  have hmem : sl.loadedValue ∈ sl.ids := List.mem_cons_of_mem _ List.mem_cons_self
  have hmem' : sl.loadedValue ∈ sl'.ids := by
    rw [heq]
    exact List.mem_cons_self
  obtain rfl := h.eq_of_mem_ids hsl hsl' hmem hmem'
  have hnodup := (List.nodup_flatMap.mp h.nodup).1 sl hsl
  exact (List.nodup_cons.mp hnodup).1 (heq ▸ List.mem_cons_self)

/-- A PHI and the load in its place give the same value. -/
theorem Alike.defineLoaded (h : Alike F slots addr s t) (hfresh : Fresh F slots) {sl : Slot}
    (hsl : sl ∈ slots) (x : Val) :
    Alike F slots addr (s.define sl.PN.id x) (t.define sl.loadedValue x) where
  old j hj hjphi := by
    have hload : j ≠ sl.loadedValue := fun heq => Nat.not_lt.mpr
      (hfresh.new sl hsl _ (List.mem_cons_of_mem _ List.mem_cons_self)) (heq ▸ hj)
    rw [State.define_ne _ hload, State.define_ne _ (Ne.symm (hjphi sl hsl)), h.old j hj hjphi]
  loaded sl' hsl' := by
    by_cases heq : sl' = sl
    · rw [heq, State.define_self, State.define_self]
    · have hload : sl'.loadedValue ≠ sl.loadedValue := fun hids =>
        heq (hfresh.eq_of_mem_ids hsl' hsl (i := sl'.loadedValue)
          (List.mem_cons_of_mem _ List.mem_cons_self)
          (hids ▸ List.mem_cons_of_mem _ List.mem_cons_self))
      have hphi : sl'.PN.id ≠ sl.PN.id := fun hids =>
        heq (List.inj_on_of_nodup_map hfresh.phis hsl' hsl hids)
      rw [State.define_ne _ hload, State.define_ne _ hphi, h.loaded sl' hsl']
  unset j hj := by
    have hne : j ≠ sl.PN.id := fun heq => Nat.not_lt.mpr hj (heq ▸ hfresh.PN_lt hsl)
    rw [State.define_ne _ hne, h.unset j hj]
  mem := h.mem

/-- New values and slot cells are of no concern. -/
theorem Alike.extend (h : Alike F slots addr s t) (henv : ∀ j, (j < F.freshInst ∨
      ∃ sl ∈ slots, sl.loadedValue = j) → t'.env j = t.env j)
    (hmem : ∀ a, OffSlots slots addr a → t'.mem a = t.mem a) : Alike F slots addr s t' where
  old j hj hjphi := (henv j (.inl hj)).trans (h.old j hj hjphi)
  loaded sl hsl := (henv _ (.inr ⟨sl, hsl, rfl⟩)).trans (h.loaded sl hsl)
  unset := h.unset
  mem a ha := (hmem a ha).trans (h.mem a ha)

variable [DecidableEq Val]

theorem Alike.run (h : Alike F slots addr s t) {p : Proc Val} {m : Cells Val Val}
    {as : List (Access Val)} (hp : p.run s.mem = some (x, m, as))
    (hoff : ∀ a ∈ as, ∀ c, a.address = some c → OffSlots slots addr c) :
    ∃ m', p.run t.mem = some (x, m', as) ∧ Alike F slots addr ⟨s.env, m⟩ ⟨t.env, m'⟩ ∧
      ∀ c, ¬ OffSlots slots addr c → m' c = t.mem c := by
  obtain ⟨m', hr, hm, hkeep⟩ := replay_agreeOn (Proc.replay_of_run hp) hoff h.mem
  exact ⟨m', Proc.run_of_replay hp hr, ⟨h.old, h.loaded, h.unset, hm⟩, hkeep⟩

/-- An instruction that is no PHI of a slot does the same. -/
theorem Alike.execInst (h : Alike F slots addr s t) (hfresh : Fresh F slots) {I : Instruction}
    {es : List (Act Val)} (hI : I.id < F.freshInst) (hphi : ∀ sl ∈ slots, sl.PN.id ≠ I.id)
    (hx : M.execInst w I s = some (s', es))
    (hoff : ∀ e ∈ es, ∀ c, e.address = some c → OffSlots slots addr c) :
    ∃ t', M.execInst w (I.mapValues (brokenValue slots)) t = some (t', es) ∧
      Alike F slots addr s' t' ∧ (∀ j, j ≠ I.id → t'.env j = t.env j) := by
  obtain ⟨vs, hvs, hx⟩ := Option.bind_eq_some_iff.mp hx
  obtain ⟨p, hp, hx⟩ := Option.bind_eq_some_iff.mp hx
  obtain ⟨⟨v, m, as⟩, hrun, heq⟩ := Option.map_eq_some_iff.mp hx
  cases heq
  have hoff' : ∀ a ∈ as, ∀ c, a.address = some c → OffSlots slots addr c := fun a ha c hc =>
    hoff (.access I.id a) (List.mem_append_left _ (List.mem_map_of_mem ha)) c hc
  obtain ⟨m', hrun', halike, -⟩ := h.run hrun hoff'
  refine ⟨⟨t.env.set I.id v, m'⟩, ?_, halike.define hfresh hI hphi v, fun j hj =>
    Cells.set_ne _ _ hj⟩
  rw [Machine.execInst, Instruction.op_mapValues, Op.operands_mapValues, h.readAll hvs,
    Option.bind_some, Machine.perform_mapValues]
  have hid : (I.mapValues (brokenValue slots)).id = I.id := rfl
  have hty : (I.mapValues (brokenValue slots)).ty = I.ty := rfl
  rw [hid, hty, hp, Option.bind_some, hrun', Option.map_some]

theorem Alike.execInsts (h : Alike F slots addr s t) (hfresh : Fresh F slots)
    {Is : List Instruction} {es : List (Act Val)} (hIs : ∀ I ∈ Is, I.id < F.freshInst)
    (hphi : ∀ I ∈ Is, ∀ sl ∈ slots, sl.PN.id ≠ I.id) (hx : M.execInsts w Is s = some (s', es))
    (hoff : ∀ e ∈ es, ∀ c, e.address = some c → OffSlots slots addr c) :
    ∃ t', M.execInsts w (Is.map (Instruction.mapValues (brokenValue slots))) t = some (t', es) ∧
      Alike F slots addr s' t' ∧ ∀ j, (∀ I ∈ Is, j ≠ I.id) → t'.env j = t.env j := by
  induction Is generalizing s t es with
  | nil =>
    cases hx
    exact ⟨t, rfl, h, fun _ _ => rfl⟩
  | cons I Is ih =>
    obtain ⟨hI, hIs⟩ := List.forall_mem_cons.mp hIs
    obtain ⟨hphiI, hphi⟩ := List.forall_mem_cons.mp hphi
    obtain ⟨⟨s₁, es₁⟩, hxI, hx⟩ := Option.bind_eq_some_iff.mp hx
    obtain ⟨⟨s₂, es₂⟩, hxs, heq⟩ := Option.map_eq_some_iff.mp hx
    cases heq
    obtain ⟨t₁, hyI, h₁, henv₁⟩ := h.execInst hfresh hI hphiI hxI fun e he =>
      hoff e (List.mem_append_left _ he)
    obtain ⟨t₂, hys, h₂, henv₂⟩ := ih h₁ hIs hphi hxs fun e he =>
      hoff e (List.mem_append_right _ he)
    refine ⟨t₂, ?_, h₂, fun j hj => ?_⟩
    · rw [List.map_cons, Machine.execInsts, hyI, Option.bind_some, hys, Option.map_some]
    · obtain ⟨hjI, hj⟩ := List.forall_mem_cons.mp hj
      rw [henv₂ j hj, henv₁ j hjI]

end

/-! ### PHIs and loads -/

section
variable {Val : Type} {F : Function} {slots : List Slot} {addr : InstId → Val} {M : Machine Val}
  {w : WorkItem Val} {q : Option BlockId} {e e' e'' f f' : Cells InstId Val} {m m' : Cells Val Val}
  {Is : List Instruction} {es : List (Act Val)} {b : BlockId}

/-- PHIs that are left take the same values. -/
theorem Alike.execPhis (hentry : Alike F slots addr ⟨e, m⟩ ⟨f, m'⟩)
    (h : Alike F slots addr ⟨e', m⟩ ⟨f', m'⟩) (hfresh : Fresh F slots)
    (hIs : ∀ I ∈ Is, I.id < F.freshInst) (hphi : ∀ I ∈ Is, ∀ sl ∈ slots, sl.PN.id ≠ I.id)
    (hx : M.execPhis e q Is e' = some (e'', es)) : ∃ f'',
      M.execPhis f q (Is.map (Instruction.mapValues (brokenValue slots))) f' = some (f'', es) ∧
        Alike F slots addr ⟨e'', m⟩ ⟨f'', m'⟩ ∧ ∀ j, (∀ I ∈ Is, j ≠ I.id) → f'' j = f' j := by
  induction Is generalizing e' f' es with
  | nil =>
    cases hx
    exact ⟨f', rfl, h, fun _ _ => rfl⟩
  | cons I Is ih =>
    obtain ⟨hI, hIs⟩ := List.forall_mem_cons.mp hIs
    obtain ⟨hphiI, hphi⟩ := List.forall_mem_cons.mp hphi
    obtain ⟨x, hv, hx⟩ := Option.bind_eq_some_iff.mp hx
    obtain ⟨⟨e₁, es₁⟩, hxs, heq⟩ := Option.map_eq_some_iff.mp hx
    cases heq
    obtain ⟨v, hinc, hv⟩ := Option.bind_eq_some_iff.mp hv
    obtain ⟨f'', hys, hend, hkeep⟩ := ih (h.define hfresh hI hphiI x) hIs hphi hxs
    refine ⟨f'', ?_, hend, fun j hj => ?_⟩
    · rw [List.map_cons, Machine.execPhis, Instruction.op_mapValues, Op.incomingFor_mapValues, hinc,
        Option.map_some, Option.bind_some, hentry.read hv, Option.bind_some, Instruction.id_mapValues]
      exact Option.map_eq_some_iff.mpr ⟨_, hys, rfl⟩
    · obtain ⟨hjI, hj⟩ := List.forall_mem_cons.mp hj
      exact (hkeep j hj).trans (Cells.set_ne _ _ hjI)

variable (slots addr) in
/-- The slots of block `b` hold what its PHIs are to take, coming from `q`. -/
def Holds (M : Machine Val) (q : Option BlockId) (b : BlockId) (s t : State Val) : Prop :=
  ∀ sl ∈ slots, sl.block = b → ∀ v, (Op.phi sl.PN.incoming).incomingFor q = some v →
    ∀ x, M.read s.env v = some x → t.mem (addr sl.alloca) = some x

variable [DecidableEq Val]

/-- Loads in the place of PHIs take the same values. -/
theorem Alike.execLoads {t : State Val} (h : Alike F slots addr ⟨e', m⟩ t) (hfresh : Fresh F slots)
    (halloc : Allocated slots addr t) (hholds : Holds slots addr M q b ⟨e, m⟩ t)
    (hIs : ∀ I ∈ Is, ∃ sl ∈ slots, sl.block = b ∧ sl.PN.inst = I)
    (hx : M.execPhis e q Is e' = some (e'', es)) : ∃ t' es',
      M.execInsts w (Is.map (brokenInst slots b)) t = some (t', es') ∧
        Alike F slots addr ⟨e'', m⟩ t' ∧ t'.mem = t.mem ∧ Allocated slots addr t' ∧
        (∀ x ∈ es, ∃ sl ∈ slots, x.id = sl.PN.id) ∧ ∀ x ∈ es', F.freshInst ≤ x.id := by
  induction Is generalizing e' t es with
  | nil =>
    cases hx
    exact ⟨t, [], rfl, h, rfl, halloc, by simp, by simp⟩
  | cons I Is ih =>
    obtain ⟨⟨sl, hsl, rfl, rfl⟩, hrest⟩ := List.forall_mem_cons.mp hIs
    obtain ⟨x, hv, hx⟩ := Option.bind_eq_some_iff.mp hx
    obtain ⟨⟨e₁, es₁⟩, hxs, heq⟩ := Option.map_eq_some_iff.mp hx
    cases heq
    obtain ⟨v, hinc, hv⟩ := Option.bind_eq_some_iff.mp hv
    have hmem := hholds sl hsl rfl v hinc x hv
    have hload : M.execInst w sl.loadInst t = some (t.define sl.loadedValue x,
        [.access sl.loadedValue (.load (addr sl.alloca) x), .value sl.loadedValue x]) := by
      have hread : M.readAll t.env sl.loadInst.op.operands = some [addr sl.alloca] := by
        simp [Slot.loadInst, Op.operands, Machine.readAll, Machine.read, halloc sl hsl]
      rw [Machine.execInst, hread]
      simp [Slot.loadInst, Machine.perform, Proc.run, hmem, State.define]
    have halloc' : Allocated slots addr (t.define sl.loadedValue x) := fun sl' hsl' => by
      rw [State.define_ne _ (Ne.symm (hfresh.loadedValue_ne_alloca hsl hsl')), halloc sl' hsl']
    obtain ⟨t', es', hys, hend, hmem', hallocEnd, hids, hids'⟩ :=
      ih (h.defineLoaded hfresh hsl x) halloc' hholds hrest hxs
    refine ⟨t', [.access sl.loadedValue (.load (addr sl.alloca) x), .value sl.loadedValue x] ++ es',
      ?_, hend, hmem', hallocEnd, ?_, ?_⟩
    · rw [List.map_cons, hfresh.brokenInst_phi hsl, Machine.execInsts, hload, Option.bind_some,
        hys, Option.map_some]
    · exact List.forall_mem_cons.mpr ⟨⟨sl, hsl, rfl⟩, hids⟩
    · have hnew := hfresh.new sl hsl sl.loadedValue (List.mem_cons_of_mem _ List.mem_cons_self)
      exact List.forall_mem_append.mpr ⟨by simpa [Act.id] using hnew, hids'⟩

end

end VariOCL.IR.BreakPhi
