import VariOCL.ControlDep.Frontier

/-! `ControlDependence` of ControlDependence.{h,cpp}: control dependence by a search over all pairs
of blocks. -/

namespace VariOCL.IR

abbrev DependenceMap := BlockId → Option (List BlockId)

/-- `b` is in the set stored at `k`. -/
def DependenceMap.Has (D : DependenceMap) (k b : BlockId) : Prop := ∃ S, D k = some S ∧ b ∈ S

/-- `insert` of an empty set: an entry that is there already stays. -/
def DependenceMap.addEmpty (D : DependenceMap) (k : BlockId) : DependenceMap :=
  fun c => if c = k then some ((D k).getD []) else D c

/-- Into the set `find(k)` points to. -/
def DependenceMap.insertAt (D : DependenceMap) (k b : BlockId) : DependenceMap :=
  fun c => if c = k then (D k).map (List.insert b) else D c

structure ControlDependence where
  inputDependences : DependenceMap := fun _ => none
  outputDependences : DependenceMap := fun _ => none

namespace ControlDependence

def emptySets (self : ControlDependence) (BB : BlockId) : ControlDependence where
  inputDependences := self.inputDependences.addEmpty BB
  outputDependences := self.outputDependences.addEmpty BB

/-- What the search asks of `S1` and `S2`. -/
def isFound (F : Function) (S1 S2 : BlockId) : Bool :=
  !decide ((F.succs S1).length < 2) && !F.postDominates S2 S1 &&
    (F.succs S1).any (F.postDominates S2)

/-- The body of the inner loop. -/
def addPair (F : Function) (S1 : BlockId) (self : ControlDependence) (S2 : BlockId) :
    ControlDependence :=
  if isFound F S1 S2 then
    { inputDependences := self.inputDependences.insertAt S2 S1
      outputDependences := self.outputDependences.insertAt S1 S2 }
  else self

def runOnFunction (self : ControlDependence) (F : Function) : ControlDependence :=
  F.layout.foldl (fun self S1 => F.layout.foldl (addPair F S1) self)
    (F.layout.foldl emptySets self)

end ControlDependence

/-! ### What the two maps hold -/

section
variable {D : DependenceMap} {b c k x : BlockId}

@[simp] theorem DependenceMap.not_has_empty :
    ¬ DependenceMap.Has (fun _ => none) k b := fun ⟨_, h, _⟩ => nomatch h

@[simp] theorem DependenceMap.has_addEmpty : (D.addEmpty k).Has c b ↔ D.Has c b := by
  by_cases h : c = k
  · subst h
    cases hD : D c <;> simp [addEmpty, Has, hD]
  · simp [addEmpty, Has, h]

theorem DependenceMap.has_insertAt (hD : (D k).isSome) :
    (D.insertAt k b).Has c x ↔ D.Has c x ∨ c = k ∧ x = b := by
  by_cases h : c = k
  · subst h
    obtain ⟨S, hS⟩ := Option.isSome_iff_exists.mp hD
    simp [insertAt, Has, hS, or_comm]
  · simp [insertAt, Has, h]

@[simp] theorem DependenceMap.isSome_insertAt : ((D.insertAt k b) c).isSome = (D c).isSome := by
  by_cases h : c = k
  · subst h
    simp [insertAt]
  · simp [insertAt, h]

theorem DependenceMap.isSome_addEmpty :
    ((D.addEmpty k) c).isSome ↔ c = k ∨ (D c).isSome := by
  by_cases h : c = k
  · simp [addEmpty, h]
  · simp [addEmpty, h]

end

namespace ControlDependence

/-- Both maps have a set for each of the blocks, and hold the relation `P`. -/
structure Stores (C : ControlDependence) (layout : List BlockId)
    (P : BlockId → BlockId → Prop) : Prop where
  input : ∀ b ∈ layout, (C.inputDependences b).isSome
  output : ∀ b ∈ layout, (C.outputDependences b).isSome
  hasInput : ∀ S1 S2, C.inputDependences.Has S2 S1 ↔ P S1 S2
  hasOutput : ∀ S1 S2, C.outputDependences.Has S1 S2 ↔ P S1 S2

section
variable {F : Function} {self : ControlDependence} {layout xs ys : List BlockId}
  {P : BlockId → BlockId → Prop} {S1 S2 : BlockId}

theorem Stores.congr {Q : BlockId → BlockId → Prop} (h : self.Stores layout P)
    (hPQ : ∀ S1 S2, P S1 S2 ↔ Q S1 S2) : self.Stores layout Q :=
  ⟨h.input, h.output, fun S1 S2 => (h.hasInput S1 S2).trans (hPQ S1 S2),
    fun S1 S2 => (h.hasOutput S1 S2).trans (hPQ S1 S2)⟩

theorem Stores.emptySets (h : self.Stores xs P) :
    (ys.foldl emptySets self).Stores (xs ++ ys) P := by
  induction ys generalizing xs self with
  | nil => simpa using h
  | cons y ys ih =>
    have hy : (self.emptySets y).Stores (xs ++ [y]) P := by
      constructor
      · intro b hb
        rw [emptySets, DependenceMap.isSome_addEmpty]
        exact (List.mem_append.mp hb).symm.imp List.mem_singleton.mp (h.input b)
      · intro b hb
        rw [emptySets, DependenceMap.isSome_addEmpty]
        exact (List.mem_append.mp hb).symm.imp List.mem_singleton.mp (h.output b)
      · exact fun S1 S2 => DependenceMap.has_addEmpty.trans (h.hasInput S1 S2)
      · exact fun S1 S2 => DependenceMap.has_addEmpty.trans (h.hasOutput S1 S2)
    simpa using ih hy

theorem Stores.addPair (h : self.Stores layout P) (hS1 : S1 ∈ layout) (hS2 : S2 ∈ layout) :
    (addPair F S1 self S2).Stores layout
      fun a b => P a b ∨ a = S1 ∧ b = S2 ∧ isFound F a b = true := by
  by_cases hfound : isFound F S1 S2 = true
  · rw [ControlDependence.addPair, if_pos hfound]
    constructor
    · intro b hb
      simpa using h.input b hb
    · intro b hb
      simpa using h.output b hb
    · intro a b
      rw [DependenceMap.has_insertAt (h.input S2 hS2), h.hasInput]
      constructor
      · rintro (hP | ⟨rfl, rfl⟩)
        · exact .inl hP
        · exact .inr ⟨rfl, rfl, hfound⟩
      · rintro (hP | ⟨rfl, rfl, -⟩)
        · exact .inl hP
        · exact .inr ⟨rfl, rfl⟩
    · intro a b
      rw [DependenceMap.has_insertAt (h.output S1 hS1), h.hasOutput]
      constructor
      · rintro (hP | ⟨rfl, rfl⟩)
        · exact .inl hP
        · exact .inr ⟨rfl, rfl, hfound⟩
      · rintro (hP | ⟨rfl, rfl, -⟩)
        · exact .inl hP
        · exact .inr ⟨rfl, rfl⟩
  · rw [ControlDependence.addPair, if_neg hfound]
    refine h.congr fun a b => ⟨.inl, ?_⟩
    rintro (hP | ⟨rfl, rfl, hab⟩)
    · exact hP
    · exact absurd hab hfound

theorem Stores.row (h : self.Stores layout P) (hS1 : S1 ∈ layout) (hys : ys ⊆ layout) :
    (ys.foldl (ControlDependence.addPair F S1) self).Stores layout
      fun a b => P a b ∨ a = S1 ∧ b ∈ ys ∧ isFound F a b = true := by
  induction ys generalizing self P with
  | nil => exact h.congr fun a b => by simp
  | cons y ys ih =>
    obtain ⟨hy, hys⟩ := List.cons_subset.mp hys
    refine (ih (h.addPair hS1 hy) hys).congr fun a b => ?_
    simp only [List.mem_cons]
    tauto

theorem Stores.rows (h : self.Stores layout P) (hxs : xs ⊆ layout) :
    (xs.foldl (fun self S1 => layout.foldl (ControlDependence.addPair F S1) self) self).Stores
      layout fun a b => P a b ∨ a ∈ xs ∧ b ∈ layout ∧ isFound F a b = true := by
  induction xs generalizing self P with
  | nil => exact h.congr fun a b => by simp
  | cons x xs ih =>
    obtain ⟨hx, hxs⟩ := List.cons_subset.mp hxs
    refine (ih (h.row hx (List.Subset.refl layout)) hxs).congr fun a b => ?_
    simp only [List.mem_cons]
    constructor
    · rintro ((hP | ⟨rfl, hab⟩) | ⟨ha, hab⟩)
      · exact .inl hP
      · exact .inr ⟨.inl rfl, hab⟩
      · exact .inr ⟨.inr ha, hab⟩
    · rintro (hP | ⟨rfl | ha, hab⟩)
      · exact .inl (.inl hP)
      · exact .inl (.inr ⟨rfl, hab⟩)
      · exact .inr ⟨ha, hab⟩

/-- The two maps are each other's inverse: the pairs the search has found. -/
theorem runOnFunction_stores :
    (runOnFunction {} F).Stores F.layout
      fun S1 S2 => S1 ∈ F.layout ∧ S2 ∈ F.layout ∧ isFound F S1 S2 = true := by
  have hempty : Stores {} [] fun _ _ => False :=
    ⟨nofun, nofun, fun _ _ => by simp, fun _ _ => by simp⟩
  have hinit : (F.layout.foldl emptySets {}).Stores ([] ++ F.layout) fun _ _ => False :=
    hempty.emptySets
  rw [List.nil_append] at hinit
  exact (hinit.rows (List.Subset.refl _)).congr fun a b => by simp

theorem postDominates_of_single (hsucc : F.succs S1 = [x]) (h : F.PostDominates S2 x) :
    F.PostDominates S2 S1 := by
  intro p hp hexit
  cases p with
  | nil => exact absurd (hsucc.symm.trans hexit) (List.cons_ne_nil x [])
  | cons y p =>
    obtain ⟨hy, hp⟩ := List.isChain_cons_cons.mp hp
    rw [Function.Edge, hsucc, List.mem_singleton] at hy
    subst hy
    exact List.mem_cons_of_mem S1 (h p hp (by simpa using hexit))

theorem isFound_iff (hF : F.Closed) (hS1 : S1 ∈ F.layout) :
    isFound F S1 S2 = true ↔ F.ControlDependent S1 S2 ∧ S1 ≠ S2 := by
  have hany : (F.succs S1).any (F.postDominates S2) = true ↔
      ∃ s ∈ F.succs S1, F.PostDominates S2 s := by
    rw [List.any_eq_true]
    exact exists_congr fun s => and_congr_right fun hs =>
      Function.postDominates_iff hF (hF S1 hS1 s hs)
  rw [isFound, Bool.and_eq_true, Bool.and_eq_true, hany, Bool.not_eq_true', Bool.not_eq_true',
    decide_eq_false_iff_not, ← Bool.not_eq_true, Function.postDominates_iff hF hS1]
  constructor
  · rintro ⟨⟨-, hpd⟩, hs⟩
    refine ⟨⟨hs, fun h => hpd h.1⟩, ?_⟩
    rintro rfl
    exact hpd fun p _ _ => List.mem_cons_self
  · rintro ⟨⟨⟨s, hs, hpd⟩, hstrict⟩, hne⟩
    have hS2 : ¬ F.PostDominates S2 S1 := fun h => hstrict ⟨h, Ne.symm hne⟩
    refine ⟨⟨fun hlen => ?_, hS2⟩, s, hs, hpd⟩
    have hsingle : F.succs S1 = [s] := by
      obtain ⟨t, ht⟩ : ∃ t, F.succs S1 = [t] := List.length_eq_one_iff.mp
        (Nat.le_antisymm (Nat.le_of_lt_succ hlen) (List.length_pos_of_mem hs))
      rw [ht, List.mem_singleton] at hs
      rw [ht, hs]
    exact hS2 (postDominates_of_single hsingle hpd)

/-- The two maps, the rule in the comment of the search, and `ControlDep::isCtrlDep`. -/
def Agree (F : Function) (S1 S2 : BlockId) : Prop :=
  let C := runOnFunction {} F
  (C.inputDependences.Has S2 S1 ↔ C.outputDependences.Has S1 S2) ∧
    (C.outputDependences.Has S1 S2 ↔ F.ControlDependent S1 S2) ∧
    (F.ControlDependent S1 S2 ↔ ControlDep.isCtrlDep F S1 S2 = true)

theorem agree_iff_found (hF : F.Terminating) (hS1 : S1 ∈ F.layout) (hS2 : S2 ∈ F.layout) :
    Agree F S1 S2 ↔ (isFound F S1 S2 = true ↔ F.ControlDependent S1 S2) := by
  have hC := runOnFunction_stores (F := F)
  rw [Agree, hC.hasInput, hC.hasOutput, ControlDep.isCtrlDep, List.contains_iff_mem,
    ControlDep.mem_frontiers hF hS1 hS2]
  simp only [hS1, hS2, true_and, iff_self, and_true]

/-- The search leaves out the blocks that control themselves, and no others. -/
theorem search_agrees_iff (hF : F.Terminating) (hS1 : S1 ∈ F.layout) (hS2 : S2 ∈ F.layout) :
    Agree F S1 S2 ↔ ¬ (S1 = S2 ∧ ∃ s ∈ F.succs S1, F.PostDominates S1 s) := by
  rw [agree_iff_found hF hS1 hS2, isFound_iff hF.closed hS1]
  by_cases h : S1 = S2
  · subst h
    simp [Function.ControlDependent]
  · simp [h]

end

theorem search_agrees_iff_twoExits :
    (Agree twoExits 0 3 ↔ ¬ (0 = 3 ∧ ∃ s ∈ twoExits.succs 0, twoExits.PostDominates 0 s)) ∧
      (Agree twoExits 1 1 ↔ ¬ (1 = 1 ∧ ∃ s ∈ twoExits.succs 1, twoExits.PostDominates 1 s)) :=
  ⟨search_agrees_iff twoExits_terminating (by decide) (by decide),
    search_agrees_iff twoExits_terminating (by decide) (by decide)⟩

/-- The block of the loop decides whether it runs again. -/
theorem search_misses_selfLoop :
    ¬ ∀ F : Function, F.Terminating → ∀ S1 ∈ F.layout, ∀ S2 ∈ F.layout, Agree F S1 S2 := by
  intro h
  have hagree := h twoExits twoExits_terminating 1 (by decide) 1 (by decide)
  have hfound := (agree_iff_found twoExits_terminating (by decide) (by decide)).mp hagree
  have hdep : twoExits.ControlDependent 1 1 :=
    (ControlDep.mem_frontiers twoExits_terminating (by decide) (by decide)).mp (by decide)
  exact absurd (hfound.mpr hdep) (by decide)

end ControlDependence

end VariOCL.IR
