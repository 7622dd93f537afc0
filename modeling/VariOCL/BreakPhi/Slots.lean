import VariOCL.BreakPhi.Basic

/-! What `BreakPhi2Alloca` leaves: every block with its PHIs loaded from slots, and the stores of the
incoming values at its end. -/

namespace VariOCL.IR.BreakPhi

/-- A PHI of a block, and the instructions that replace it. -/
structure Slot where
  block : BlockId
  PN : PHINode
  alloca : InstId
  stores : List InstId
  loadedValue : InstId

namespace Slot
variable (s : Slot)

def ids : List InstId := s.alloca :: s.loadedValue :: s.stores

def allocaInst : Instruction := ⟨s.alloca, .ptr, .alloca s.PN.ty (.constInt 32 1)⟩

def loadInst : Instruction := ⟨s.loadedValue, s.PN.ty, .load (.inst s.alloca)⟩

def storeInst (f : Value → Value) (p : InstId × Value × BlockId) : Instruction :=
  ⟨p.1, .void, .store (f p.2.1) (.inst s.alloca)⟩

/-- The stores at the end of block `b`. -/
def storeInsts (f : Value → Value) (b : BlockId) : List Instruction :=
  ((s.stores.zip s.PN.incoming).filter (·.2.2 = b)).map (s.storeInst f)

end Slot

variable (slots : List Slot)

/-- The loaded value of a broken PHI, any other value itself. -/
def brokenValue : Value → Value
  | .inst i =>
    match slots.find? (·.PN.id = i) with
    | some s => .inst s.loadedValue
    | none => .inst i
  | v => v

def brokenInst (b : BlockId) (I : Instruction) : Instruction :=
  match slots.find? (fun s => s.block = b && s.PN.id = I.id) with
  | some s => s.loadInst
  | none => I.mapValues (brokenValue slots)

def brokenBlock (entry b : BlockId) (BB : BasicBlock) : BasicBlock where
  insts := (if b = entry then (slots.map Slot.allocaInst).reverse else []) ++
    BB.insts.map (brokenInst slots b) ++ slots.flatMap fun s => s.storeInsts (brokenValue slots) b
  termId := BB.termId
  term := BB.term.mapValues (brokenValue slots)

/-- `F` with the PHIs of `slots` broken. -/
def broken (F : Function) : Function :=
  { F with block := fun b => brokenBlock slots F.entry b (F.block b) }

/-- The slots are those of different PHIs of `F`, and made of new instructions. -/
structure Fresh (F : Function) (slots : List Slot) : Prop where
  mem : ∀ s ∈ slots, s.block ∈ F.layout ∧ s.PN.inst ∈ (F.block s.block).insts
  phis : (slots.map fun s => s.PN.id).Nodup
  lengths : ∀ s ∈ slots, s.stores.length = s.PN.incoming.length
  new : ∀ s ∈ slots, ∀ i ∈ s.ids, F.freshInst ≤ i
  nodup : (slots.flatMap Slot.ids).Nodup

section
variable {slots : List Slot} {F : Function} {s : Slot} {b : BlockId} {I : Instruction} {i : InstId}

@[simp] theorem layout_broken : (broken slots F).layout = F.layout := rfl

theorem block_broken : (broken slots F).block b = brokenBlock slots F.entry b (F.block b) := rfl

theorem brokenValue_nil : brokenValue [] = fun v => v := by
  funext v
  cases v <;> rfl

theorem broken_nil : broken [] F = F := by
  have hinst : ∀ b, brokenInst [] b = id := fun b => by
    funext I
    exact (congrArg (I.mapValues ·) brokenValue_nil).trans Instruction.mapValues_id
  have hblock : ∀ b, brokenBlock [] F.entry b (F.block b) = F.block b := by
    intro b
    have hterm : (F.block b).term.mapValues (fun v => v) = (F.block b).term :=
      Terminator.mapValues_eq_self fun _ _ => rfl
    simp [brokenBlock, hinst, brokenValue_nil, hterm]
  rw [broken]
  simp only [hblock]

theorem Fresh.nil : Fresh F [] := ⟨by simp, .nil, by simp, by simp, .nil⟩

theorem Fresh.brokenInst_phi (h : Fresh F slots) (hs : s ∈ slots) :
    brokenInst slots s.block s.PN.inst = s.loadInst := by
  cases hfind : slots.find? (fun t => t.block = s.block && t.PN.id = s.PN.inst.id) with
  | none =>
    have hnone := List.find?_eq_none.mp hfind s hs
    simp [PHINode.inst] at hnone
  | some t =>
    have hid := List.find?_some (p := fun t : Slot =>
      t.block = s.block && t.PN.id = s.PN.inst.id) hfind
    rw [Bool.and_eq_true, decide_eq_true_eq] at hid
    have ht := List.inj_on_of_nodup_map h.phis (List.mem_of_find?_eq_some hfind) hs
      (of_decide_eq_true hid.2)
    rw [brokenInst, hfind, ht]

theorem brokenInst_of_not_phi (hI : ∀ s ∈ slots, s.block = b → s.PN.id ≠ I.id) :
    brokenInst slots b I = I.mapValues (brokenValue slots) := by
  have hnone : slots.find? (fun s => s.block = b && s.PN.id = I.id) = none :=
    List.find?_eq_none.mpr fun s hs => by simpa using hI s hs
  rw [brokenInst, hnone]

/-- Every new instruction is in the function. -/
theorem Fresh.mem_instIds (h : Fresh F slots)
    (hincoming : ∀ s ∈ slots, ∀ p ∈ s.PN.incoming, p.2 ∈ F.layout) (hs : s ∈ slots)
    (hi : i ∈ s.ids) : i ∈ (broken slots F).instIds := by
  have hinst : ∀ {b I}, b ∈ F.layout → I ∈ (brokenBlock slots F.entry b (F.block b)).insts →
      I.id ∈ (broken slots F).instIds := fun {b I} hb hI =>
    (broken slots F).instIds_of_mem (b := b) (I := I) hb hI
  simp only [Slot.ids, List.mem_cons] at hi
  rcases hi with rfl | rfl | hi
  · refine hinst (I := s.allocaInst) F.entry_mem_layout ?_
    rw [brokenBlock, if_pos rfl, List.append_assoc]
    apply List.mem_append_left
    exact List.mem_reverse.mpr (List.mem_map_of_mem hs)
  · obtain ⟨hb, hPN⟩ := h.mem s hs
    refine hinst (I := s.loadInst) hb ?_
    rw [brokenBlock, List.append_assoc]
    apply List.mem_append_right
    apply List.mem_append_left
    rw [← h.brokenInst_phi hs]
    exact List.mem_map_of_mem hPN
  · obtain ⟨n, hn, rfl⟩ := List.mem_iff_getElem.mp hi
    have hn' : n < s.PN.incoming.length := h.lengths s hs ▸ hn
    have hmem : (s.stores[n], s.PN.incoming[n]) ∈ s.stores.zip s.PN.incoming := by
      have hlen : n < (s.stores.zip s.PN.incoming).length := by
        rw [List.length_zip]
        exact Nat.lt_min.mpr ⟨hn, hn'⟩
      have := List.getElem_mem hlen
      rwa [List.getElem_zip] at this
    have hb := hincoming s hs _ (List.getElem_mem hn')
    refine hinst (I := s.storeInst (brokenValue slots) (s.stores[n], s.PN.incoming[n])) hb ?_
    apply List.mem_append_right
    refine List.mem_flatMap.mpr ⟨s, hs, List.mem_map_of_mem (List.mem_filter.mpr ⟨hmem, ?_⟩)⟩
    simp

end

/-! ### One PHI -/

section
variable {F : Function} {slot p : InstId} {b : BlockId} {I PN : Instruction}
  {entries : List (Value × BlockId)} {Is : List Instruction} {r : Value → Value}

/-- The stores of `entries`, one after the other. -/
def withStores (slot : InstId) (F : Function) (stores : List (InstId × Value × BlockId)) : Function :=
  { F with block := fun b => { F.block b with
      insts := (F.block b).insts ++ (stores.filter (·.2.2 = b)).map fun p =>
        ⟨p.1, .void, .store p.2.1 (.inst slot)⟩ } }

theorem withStores_cons {i : InstId} {e : Value × BlockId}
    {stores : List (InstId × Value × BlockId)} :
    withStores slot (F.updateBlock e.2 (BasicBlock.insertBeforeTerminator
      ⟨i, .void, .store e.1 (.inst slot)⟩)) stores = withStores slot F ((i, e) :: stores) := by
  refine Function.eq_of_block rfl rfl rfl ?_
  intro b
  by_cases hb : b = e.2
  · subst hb
    simp [withStores, BasicBlock.insertBeforeTerminator]
  · simp [withStores, F.block_updateBlock_ne _ hb, Ne.symm hb]

theorem lt_freshInst_insertBeforeTerminator (hb : b ∈ F.layout) (I : Instruction) :
    I.id < (F.updateBlock b (BasicBlock.insertBeforeTerminator I)).freshInst := by
  refine Function.lt_freshInst (Function.instIds_of_mem (b := b) hb ?_)
  rw [F.block_updateBlock]
  exact BasicBlock.mem_insertBeforeTerminator.mpr (.inl rfl)

/-- The stores have new ids, each above those before it. -/
theorem foldl_storeIncoming (slot : InstId) (hentries : ∀ e ∈ entries, e.2 ∈ F.layout) :
    ∃ is : List InstId, is.length = entries.length ∧ is.Nodup ∧
      entries.foldl (storeIncoming slot) F = withStores slot F (is.zip entries) ∧
      F.freshInst ≤ (entries.foldl (storeIncoming slot) F).freshInst ∧
      ∀ i ∈ is, F.freshInst ≤ i ∧ i < (entries.foldl (storeIncoming slot) F).freshInst := by
  induction entries generalizing F with
  | nil =>
    refine ⟨[], rfl, .nil, ?_, Nat.le_refl _, by simp⟩
    refine Function.eq_of_block rfl rfl rfl fun b => ?_
    simp [withStores]
  | cons e entries ih =>
    obtain ⟨he, hrest⟩ := List.forall_mem_cons.mp hentries
    have hlt : F.freshInst < (storeIncoming slot F e).freshInst :=
      lt_freshInst_insertBeforeTerminator he ⟨F.freshInst, .void, .store e.1 (.inst slot)⟩
    obtain ⟨is, hlen, hn, heq, hle, hnew⟩ := ih (F := storeIncoming slot F e) hrest
    refine ⟨F.freshInst :: is, by simp [hlen], List.nodup_cons.mpr ⟨fun hmem => ?_, hn⟩, ?_, ?_, ?_⟩
    · exact Nat.not_lt.mpr (hnew _ hmem).1 hlt
    · rw [List.foldl_cons, heq]
      exact withStores_cons
    · exact Nat.le_trans (Nat.le_of_lt hlt) hle
    · intro i hi
      rcases List.mem_cons.mp hi with rfl | hi
      · exact ⟨Nat.le_refl _, Nat.lt_of_lt_of_le hlt hle⟩
      · exact ⟨Nat.le_trans (Nat.le_of_lt hlt) (hnew i hi).1, (hnew i hi).2⟩

/-- The load takes the place of the PHI. -/
theorem insertBefore_erase {BB : BasicBlock} {Js : List Instruction}
    (hBB : BB.insts = Is ++ PN :: Js) (hIs : ∀ J ∈ Is, J.id ≠ PN.id) (hJs : ∀ J ∈ Js, J.id ≠ PN.id)
    (hI : I.id ≠ PN.id) :
    (((BB.insertBefore PN.id I).mapValues r).erase PN.id).insts =
      Is.map (Instruction.mapValues r) ++ I.mapValues r :: Js.map (Instruction.mapValues r) := by
  have hkeep : ∀ Ks : List Instruction, (∀ K ∈ Ks, K.id ≠ PN.id) →
      (Ks.map (Instruction.mapValues r)).filter (·.id ≠ PN.id) =
        Ks.map (Instruction.mapValues r) := by
    intro Ks hKs
    refine List.filter_eq_self.mpr fun K' hK' => ?_
    obtain ⟨K, hK, rfl⟩ := List.mem_map.mp hK'
    exact decide_eq_true (hKs K hK)
  have htake : (Is ++ PN :: Js).takeWhile (·.id ≠ PN.id) = Is := by
    rw [List.takeWhile_append_of_pos fun J hJ => decide_eq_true (hIs J hJ)]
    simp
  have hdrop : (Is ++ PN :: Js).dropWhile (·.id ≠ PN.id) = PN :: Js := by
    rw [List.dropWhile_append_of_pos fun J hJ => decide_eq_true (hIs J hJ)]
    simp
  simp only [BasicBlock.erase, BasicBlock.insts_mapValues, BasicBlock.insertBefore, hBB, htake, hdrop,
    List.map_append, List.map_cons, List.filter_append, hkeep Is hIs]
  simp only [List.filter_cons, Instruction.id_mapValues, ne_eq, hI, not_false_eq_true, decide_true,
    if_true, not_true_eq_false, decide_false, Bool.false_eq_true, if_false]
  exact congrArg _ (congrArg _ (hkeep Js hJs))

end

section
variable {F : Function} {slots : List Slot} {s t : Slot} {b x : BlockId} {PN : PHINode}
  {J : Instruction} {v : Value} {i : InstId}

theorem brokenValue_append (h : ∀ t ∈ slots, t.loadedValue ≠ s.PN.id) :
    Value.replace s.PN.id (.inst s.loadedValue) (brokenValue slots v) =
      brokenValue (slots ++ [s]) v := by
  cases v with
  | inst i =>
    simp only [brokenValue, List.find?_append]
    cases hfind : slots.find? (·.PN.id = i) with
    | some t =>
      have hne := h t (List.mem_of_find?_eq_some hfind)
      simp [Value.replace, hne]
    | none =>
      by_cases hi : s.PN.id = i
      · simp [Value.replace, hi]
      · simp [Value.replace, hi, Ne.symm hi]
  | _ => rfl

theorem brokenInst_append (h : ∀ t ∈ slots, t.loadedValue ≠ s.PN.id ∧ t.alloca ≠ s.PN.id)
    (hJ : s.block = b → s.PN.id ≠ J.id) :
    (brokenInst slots b J).mapValues (Value.replace s.PN.id (.inst s.loadedValue)) =
      brokenInst (slots ++ [s]) b J := by
  rw [brokenInst, brokenInst, List.find?_append]
  cases hfind : slots.find? (fun t => t.block = b && t.PN.id = J.id) with
  | some t =>
    have hne := (h t (List.mem_of_find?_eq_some hfind)).2
    simp [Slot.loadInst, Instruction.mapValues, Op.mapValues, Value.replace, hne]
  | none =>
    have hnone : [s].find? (fun t => t.block = b && t.PN.id = J.id) = none := by simpa using hJ
    rw [hnone]
    dsimp only [Option.none_or]
    rw [Instruction.mapValues_mapValues]
    congr 1
    funext v
    exact brokenValue_append fun t ht => (h t ht).1

theorem storeInsts_append (h : ∀ t ∈ slots, t.loadedValue ≠ s.PN.id) (ht : t.alloca ≠ s.PN.id) :
    (t.storeInsts (brokenValue slots) b).map
        (Instruction.mapValues (Value.replace s.PN.id (.inst s.loadedValue))) =
      t.storeInsts (brokenValue (slots ++ [s])) b := by
  rw [Slot.storeInsts, Slot.storeInsts, List.map_map]
  refine List.map_congr_left fun p _ => ?_
  simp [Slot.storeInst, Instruction.mapValues, Op.mapValues, ← brokenValue_append h, Value.replace, ht]

/-- The stores that are added for the broken incoming values. -/
theorem storeInsts_new (h : ∀ t ∈ slots, t.loadedValue ≠ s.PN.id)
    (hs : s.alloca ≠ s.PN.id) :
    (((s.stores.zip (s.PN.incoming.map fun p => (brokenValue slots p.1, p.2))).filter
        (·.2.2 = b)).map fun p => (⟨p.1, .void, .store p.2.1 (.inst s.alloca)⟩ : Instruction)).map
        (Instruction.mapValues (Value.replace s.PN.id (.inst s.loadedValue))) =
      s.storeInsts (brokenValue (slots ++ [s])) b := by
  rw [← storeInsts_append h hs, Slot.storeInsts, List.zip_map_right, List.filter_map, List.map_map,
    List.map_map, List.map_map]
  rfl

end

section
variable {F : Function} {slots : List Slot} {b x : BlockId} {PN : PHINode} {I : Instruction}
  {i : InstId} (hF : F.Valid) (h : Fresh F slots)
include hF h

theorem Fresh.incoming : ∀ s ∈ slots, ∀ p ∈ s.PN.incoming, p.2 ∈ F.layout := by
  intro s hs p hp
  obtain ⟨hb, hPN⟩ := h.mem s hs
  exact hF.incoming s.block hb _ hPN p.2 (List.mem_map_of_mem hp)

theorem Fresh.freshInst_le : F.freshInst ≤ (broken slots F).freshInst := by
  cases slots with
  | nil => rw [broken_nil]
  | cons s slots =>
    have hmem := h.mem_instIds (h.incoming hF) (s := s) (i := s.alloca) List.mem_cons_self
      List.mem_cons_self
    exact Nat.le_trans (h.new s List.mem_cons_self _ List.mem_cons_self)
      (Nat.le_of_lt (Function.lt_freshInst hmem))

/-- An instruction of a block is one of the function, or new. -/
theorem Fresh.mem_broken (hb : b ∈ F.layout) (hI : I ∈ ((broken slots F).block b).insts) :
    F.freshInst ≤ I.id ∨ ∃ J ∈ (F.block b).insts, (∀ s ∈ slots, s.block = b → s.PN.id ≠ J.id) ∧
      I = J.mapValues (brokenValue slots) := by
  have hnew : ∀ s ∈ slots, F.freshInst ≤ s.alloca ∧ F.freshInst ≤ s.loadedValue := fun s hs =>
    ⟨h.new s hs _ List.mem_cons_self, h.new s hs _ (List.mem_cons_of_mem _ List.mem_cons_self)⟩
  rw [block_broken, brokenBlock] at hI
  simp only [List.mem_append] at hI
  rcases hI with (hI | hI) | hI
  · split at hI
    · obtain ⟨s, hs, rfl⟩ := List.mem_map.mp (List.mem_reverse.mp hI)
      exact .inl (hnew s hs).1
    · cases hI
  · obtain ⟨J, hJ, rfl⟩ := List.mem_map.mp hI
    by_cases hphi : ∀ s ∈ slots, s.block = b → s.PN.id ≠ J.id
    · exact .inr ⟨J, hJ, hphi, brokenInst_of_not_phi hphi⟩
    · obtain ⟨s, hs, rfl, hid⟩ : ∃ s ∈ slots, s.block = b ∧ s.PN.id = J.id := by
        simpa using hphi
      have hPN := F.inst_eq_of_id hF.ids hb hb (h.mem s hs).2 hJ hid
      rw [← hPN, h.brokenInst_phi hs]
      exact .inl (hnew s hs).2
  · obtain ⟨s, hs, hI⟩ := List.mem_flatMap.mp hI
    obtain ⟨p, hp, rfl⟩ := List.mem_map.mp hI
    have hmem := (List.of_mem_zip (List.mem_filter.mp hp).1).1
    exact .inl (h.new s hs _ (List.mem_cons_of_mem _ (List.mem_cons_of_mem _ hmem)))

variable (hb : b ∈ F.layout) (hPN : PN.inst ∈ (F.block b).insts) (hnew : ∀ s ∈ slots, s.PN.id ≠ PN.id)
include hb hPN hnew

omit hF h hb in
theorem phi_mem_broken :
    PN.inst.mapValues (brokenValue slots) ∈ ((broken slots F).block b).insts := by
  rw [← brokenInst_of_not_phi (b := b) fun s hs _ => hnew s hs, block_broken, brokenBlock]
  exact List.mem_append_left _ (List.mem_append_right _ (List.mem_map_of_mem hPN))

theorem Fresh.find_phi : ((broken slots F).block b).find PN.id =
    some (PN.inst.mapValues (brokenValue slots)) := by
  cases hfind : ((broken slots F).block b).find PN.id with
  | none =>
    have hnone := List.find?_eq_none.mp hfind _ (phi_mem_broken hPN hnew)
    simp [PHINode.inst] at hnone
  | some I =>
    have hid : I.id = PN.id := by simpa using List.find?_some hfind
    rcases h.mem_broken hF hb (List.mem_of_find?_eq_some hfind) with hnew | ⟨J, hJ, -, rfl⟩
    · have hlt : PN.id < F.freshInst := F.lt_freshInst (F.instIds_of_mem hb hPN)
      exact absurd hlt (Nat.not_lt.mpr (hid ▸ hnew))
    · rw [F.inst_eq_of_id hF.ids hb hb hJ hPN hid]

omit hF in
theorem Fresh.broken_append {s : Slot} (hs : s.block = b ∧ s.PN = PN)
    (hids : ∀ i ∈ s.ids, F.freshInst ≤ i) (hlen : s.stores.length = PN.incoming.length)
    (hn : s.ids.Nodup) (hdisj : ∀ i ∈ s.ids, ∀ t ∈ slots, i ∉ t.ids) : Fresh F (slots ++ [s]) := by
  obtain ⟨rfl, rfl⟩ := hs
  constructor
  · intro t ht
    rcases List.mem_append.mp ht with ht | ht
    · exact h.mem t ht
    · obtain rfl := List.mem_singleton.mp ht
      exact ⟨hb, hPN⟩
  · rw [List.map_append, List.nodup_append]
    refine ⟨h.phis, List.nodup_singleton _, ?_⟩
    rintro _ hi _ hj rfl
    obtain ⟨t, ht, heq⟩ := List.mem_map.mp hi
    exact hnew t ht (heq.trans (List.mem_singleton.mp hj))
  · intro t ht
    rcases List.mem_append.mp ht with ht | ht
    · exact h.lengths t ht
    · obtain rfl := List.mem_singleton.mp ht
      exact hlen
  · intro t ht
    rcases List.mem_append.mp ht with ht | ht
    · exact h.new t ht
    · obtain rfl := List.mem_singleton.mp ht
      exact hids
  · rw [List.flatMap_append, List.nodup_append]
    refine ⟨h.nodup, by simpa using hn, ?_⟩
    rintro i hi _ hj rfl
    obtain ⟨t, ht, hi⟩ := List.mem_flatMap.mp hi
    exact hdisj i (by simpa using hj) t ht hi

end

/-! ### One more slot -/

/-- The function before the load is inserted. -/
def beforeLoad (slots : List Slot) (F : Function) (s : Slot) : Function :=
  withStores s.alloca ((broken slots F).updateBlock F.entry (BasicBlock.insertFront s.allocaInst))
    (s.stores.zip (s.PN.incoming.map fun p => (brokenValue slots p.1, p.2)))

/-- Allocas at the front of the entry block. -/
def front (slots : List Slot) (F : Function) (b : BlockId) : List Instruction :=
  if b = F.entry then (slots.map Slot.allocaInst).reverse else []

section
variable {F : Function} {slots : List Slot} {s : Slot} {b : BlockId} {I : Instruction}

def newStores (slots : List Slot) (s : Slot) (b : BlockId) : List Instruction :=
  ((s.stores.zip (s.PN.incoming.map fun p => (brokenValue slots p.1, p.2))).filter
    (·.2.2 = b)).map fun p => ⟨p.1, .void, .store p.2.1 (.inst s.alloca)⟩

theorem block_beforeLoad : (beforeLoad slots F s).block b =
    ⟨front (slots ++ [s]) F b ++ (F.block b).insts.map (brokenInst slots b) ++
      ((slots.flatMap fun t => t.storeInsts (brokenValue slots) b) ++ newStores slots s b),
      (F.block b).termId, (F.block b).term.mapValues (brokenValue slots)⟩ := by
  by_cases hb : b = F.entry
  · subst hb
    simp [beforeLoad, withStores, front, newStores, block_broken, brokenBlock,
      BasicBlock.insertFront]
  · simp [beforeLoad, withStores, front, newStores, Function.block_updateBlock_ne _ hb, block_broken,
      brokenBlock, hb]

theorem map_front {r : Value → Value} (hr : r (.constInt 32 1) = .constInt 32 1) :
    (front slots F b).map (Instruction.mapValues r) = front slots F b := by
  rw [front]
  split
  · rw [List.map_reverse, List.map_map]
    congr 1
    refine List.map_congr_left fun t _ => ?_
    simp [Slot.allocaInst, Instruction.mapValues, Op.mapValues, hr]
  · rfl

variable (hslots : ∀ t ∈ slots, t.loadedValue ≠ s.PN.id ∧ t.alloca ≠ s.PN.id)
  (hs : s.loadedValue ≠ s.PN.id ∧ s.alloca ≠ s.PN.id)
include hslots

theorem map_brokenInst {Is : List Instruction} (hIs : ∀ J ∈ Is, s.block = b → s.PN.id ≠ J.id) :
    (Is.map (brokenInst slots b)).map
        (Instruction.mapValues (Value.replace s.PN.id (.inst s.loadedValue))) =
      Is.map (brokenInst (slots ++ [s]) b) := by
  rw [List.map_map]
  exact List.map_congr_left fun J hJ => brokenInst_append hslots (hIs J hJ)

theorem mapValues_brokenTerm : ((F.block b).term.mapValues (brokenValue slots)).mapValues
      (Value.replace s.PN.id (.inst s.loadedValue)) =
    (F.block b).term.mapValues (brokenValue (slots ++ [s])) := by
  rw [Terminator.mapValues_mapValues]
  congr 1
  funext v
  exact brokenValue_append fun t ht => (hslots t ht).1

theorem id_brokenInst_ne (hI : I.id ≠ s.PN.id) : (brokenInst slots b I).id ≠ s.PN.id := by
  rw [brokenInst]
  split
  · exact (hslots _ (List.mem_of_find?_eq_some ‹_›)).1
  · exact hI

include hs

/-- The stores at the end of a block, old and new. -/
theorem map_stores : ((slots.flatMap fun t => t.storeInsts (brokenValue slots) b) ++
        newStores slots s b).map
        (Instruction.mapValues (Value.replace s.PN.id (.inst s.loadedValue))) =
      (slots ++ [s]).flatMap fun t => t.storeInsts (brokenValue (slots ++ [s])) b := by
  rw [List.map_append, List.map_flatMap, newStores, storeInsts_new (fun t ht => (hslots t ht).1) hs.2,
    List.flatMap_append, List.flatMap_singleton]
  congr 1
  exact List.flatMap_congr fun t ht =>
    storeInsts_append (fun t ht => (hslots t ht).1) (hslots t ht).2

/-- A block without the PHI. -/
theorem block_broken_append_ne (hb : b ≠ s.block) :
    ((beforeLoad slots F s).block b).mapValues (Value.replace s.PN.id (.inst s.loadedValue)) =
      (broken (slots ++ [s]) F).block b := by
  rw [block_beforeLoad, block_broken, brokenBlock, BasicBlock.mapValues, BasicBlock.mk.injEq]
  refine ⟨?_, rfl, mapValues_brokenTerm hslots⟩
  rw [List.map_append, List.map_append, map_front rfl, map_stores hslots hs,
    map_brokenInst hslots fun J _ heq => absurd heq.symm hb]
  rfl

/-- The block of the PHI. -/
theorem block_broken_append (hids : F.instIds.Nodup) (hb : s.block ∈ F.layout)
    (hPN : s.PN.inst ∈ (F.block s.block).insts) (hnew : ∀ t ∈ slots, t.PN.id ≠ s.PN.id)
    (hstores : ∀ I ∈ slots.flatMap (fun t => t.storeInsts (brokenValue slots) s.block) ++
      newStores slots s s.block, I.id ≠ s.PN.id) :
    ((((beforeLoad slots F s).block s.block).insertBefore s.PN.id s.loadInst).mapValues
      (Value.replace s.PN.id (.inst s.loadedValue))).erase s.PN.id =
      (broken (slots ++ [s]) F).block s.block := by
  obtain ⟨Is, Js, hsplit⟩ := List.append_of_mem hPN
  have hn := (List.nodup_append.mp ((List.nodup_flatMap.mp hids).1 _ hb)).1
  rw [hsplit, List.map_append, List.map_cons, List.nodup_append, List.nodup_cons] at hn
  have hIs : ∀ J ∈ Is, J.id ≠ s.PN.id := fun J hJ =>
    hn.2.2 _ (List.mem_map_of_mem hJ) _ List.mem_cons_self
  have hJs : ∀ J ∈ Js, J.id ≠ s.PN.id := fun J hJ heq =>
    hn.2.1.1 (List.mem_map.mpr ⟨J, hJ, heq⟩)
  have hphi : brokenInst slots s.block s.PN.inst = s.PN.inst.mapValues (brokenValue slots) :=
    brokenInst_of_not_phi fun t ht _ => hnew t ht
  have hload : brokenInst (slots ++ [s]) s.block s.PN.inst = s.loadInst := by
    have hnone : slots.find? (fun t => t.block = s.block && t.PN.id = s.PN.inst.id) = none := by
      refine List.find?_eq_none.mpr fun t ht => ?_
      simp [PHINode.inst, hnew t ht]
    rw [brokenInst, List.find?_append, hnone]
    simp [PHINode.inst]
  have hBB : ((beforeLoad slots F s).block s.block).insts =
      (front (slots ++ [s]) F s.block ++ Is.map (brokenInst slots s.block)) ++
        s.PN.inst.mapValues (brokenValue slots) :: (Js.map (brokenInst slots s.block) ++
          ((slots.flatMap fun t => t.storeInsts (brokenValue slots) s.block) ++
            newStores slots s s.block)) := by
    have hmid : (F.block s.block).insts.map (brokenInst slots s.block) =
        Is.map (brokenInst slots s.block) ++ s.PN.inst.mapValues (brokenValue slots) ::
          Js.map (brokenInst slots s.block) := by
      rw [hsplit, List.map_append, List.map_cons, hphi]
    rw [block_beforeLoad, hmid]
    simp only [List.append_assoc, List.cons_append]
  have hbefore : ∀ J ∈ front (slots ++ [s]) F s.block ++ Is.map (brokenInst slots s.block),
      J.id ≠ s.PN.id := by
    intro J hJ
    rcases List.mem_append.mp hJ with hJ | hJ
    · rw [front] at hJ
      split at hJ
      · obtain ⟨t, ht, rfl⟩ := List.mem_map.mp (List.mem_reverse.mp hJ)
        rcases List.mem_append.mp ht with ht | ht
        · exact (hslots t ht).2
        · exact List.mem_singleton.mp ht ▸ hs.2
      · cases hJ
    · obtain ⟨K, hK, rfl⟩ := List.mem_map.mp hJ
      exact id_brokenInst_ne hslots (hIs K hK)
  have hafter : ∀ J ∈ Js.map (brokenInst slots s.block) ++
      ((slots.flatMap fun t => t.storeInsts (brokenValue slots) s.block) ++
        newStores slots s s.block), J.id ≠ s.PN.id := by
    intro J hJ
    rcases List.mem_append.mp hJ with hJ | hJ
    · obtain ⟨K, hK, rfl⟩ := List.mem_map.mp hJ
      exact id_brokenInst_ne hslots (hJs K hK)
    · exact hstores J hJ
  have hinsts := insertBefore_erase (I := s.loadInst)
    (r := Value.replace s.PN.id (.inst s.loadedValue)) hBB hbefore hafter hs.1
  rw [block_broken, brokenBlock]
  rw [BasicBlock.erase] at hinsts ⊢
  rw [BasicBlock.mk.injEq]
  refine ⟨hinsts.trans ?_, ?_, ?_⟩
  · rw [hsplit, List.map_append (f := brokenInst (slots ++ [s]) s.block), List.map_cons, hload,
      ← map_stores hslots hs, List.map_append, List.map_append, map_front rfl,
      map_brokenInst hslots fun J hJ _ => Ne.symm (hIs J hJ),
      map_brokenInst hslots fun J hJ _ => Ne.symm (hJs J hJ), front]
    have hkeep : s.loadInst.mapValues (Value.replace s.PN.id (.inst s.loadedValue)) = s.loadInst := by
      simp [Slot.loadInst, Instruction.mapValues, Op.mapValues, Value.replace, hs.2]
    rw [hkeep]
    simp only [List.append_assoc, List.cons_append]
  · rw [BasicBlock.insertBefore, block_beforeLoad]
    rfl
  · rw [BasicBlock.insertBefore, block_beforeLoad]
    exact mapValues_brokenTerm hslots

end

section
variable {F : Function} {slots : List Slot} {b : BlockId} {PN : PHINode} (hF : F.Valid)
include hF

/-- Breaking one more PHI adds a slot. -/
theorem breakPhi2AllocaAt_broken (h : Fresh F slots) (hb : b ∈ F.layout)
    (hPN : PN.inst ∈ (F.block b).insts) (hnew : ∀ s ∈ slots, s.PN.id ≠ PN.id) :
    ∃ s : Slot, s.block = b ∧ s.PN = PN ∧ Fresh F (slots ++ [s]) ∧
      breakPhi2AllocaAt (broken slots F) (b, PN.id) = broken (slots ++ [s]) F := by
  have hentries : ∀ e ∈ PN.incoming.map (fun p => (brokenValue slots p.1, p.2)), e.2 ∈ F.layout := by
    intro e he
    obtain ⟨p, hp, rfl⟩ := List.mem_map.mp he
    exact hF.incoming b hb _ hPN p.2 (List.mem_map_of_mem hp)
  generalize hslot : (broken slots F).freshInst = slot
  generalize hF₁ : (broken slots F).updateBlock F.entry
    (BasicBlock.insertFront ⟨slot, .ptr, .alloca PN.ty (.constInt 32 1)⟩) = F₁
  have hslotlt : slot < F₁.freshInst := by
    subst hF₁
    refine Function.lt_freshInst (Function.instIds_of_mem (b := F.entry)
      (I := ⟨slot, .ptr, .alloca PN.ty (.constInt 32 1)⟩) F.entry_mem_layout ?_)
    rw [Function.block_updateBlock]
    exact List.mem_cons_self
  have hlayout : F₁.layout = F.layout := hF₁ ▸ rfl
  rw [← hlayout] at hentries
  obtain ⟨is, hlen, hn, hstores, hle, his⟩ := foldl_storeIncoming slot hentries
  generalize hF₂ : (PN.incoming.map fun p => (brokenValue slots p.1, p.2)).foldl
    (storeIncoming slot) F₁ = F₂ at hstores hle his
  let s : Slot := ⟨b, PN, slot, is, F₂.freshInst⟩
  have hslotle : F.freshInst ≤ slot := hslot ▸ h.freshInst_le hF
  have hids : ∀ i ∈ s.ids, slot ≤ i := by
    intro i hi
    simp only [Slot.ids, List.mem_cons] at hi
    rcases hi with rfl | rfl | hi
    · exact Nat.le_refl _
    · exact Nat.le_of_lt (Nat.lt_of_lt_of_le hslotlt hle)
    · exact Nat.le_of_lt (Nat.lt_of_lt_of_le hslotlt (his i hi).1)
  have hold : ∀ t ∈ slots, ∀ i ∈ t.ids, i < slot := fun t ht i hi =>
    hslot ▸ Function.lt_freshInst (h.mem_instIds (h.incoming hF) ht hi)
  have hnodup : s.ids.Nodup := by
    refine List.nodup_cons.mpr ⟨fun hmem => ?_, List.nodup_cons.mpr ⟨fun hmem => ?_, hn⟩⟩
    · rcases List.mem_cons.mp hmem with heq | hmem
      · exact absurd (Nat.lt_of_lt_of_le hslotlt hle) (Nat.not_lt.mpr (Nat.le_of_eq heq.symm))
      · exact absurd hslotlt (Nat.not_lt.mpr (his slot hmem).1)
    · exact Nat.lt_irrefl _ (his _ hmem).2
  have hfresh : Fresh F (slots ++ [s]) := h.broken_append hb hPN hnew ⟨rfl, rfl⟩
    (fun i hi => Nat.le_trans hslotle (hids i hi)) (by simpa using hlen) hnodup
    fun i hi t ht hmem => Nat.not_lt.mpr (hids i hi) (hold t ht i hmem)
  refine ⟨s, rfl, rfl, hfresh, ?_⟩
  have hlt : PN.id < F.freshInst := F.lt_freshInst (F.instIds_of_mem hb hPN)
  have hne : ∀ i, F.freshInst ≤ i → i ≠ PN.id := fun i hi heq => Nat.not_lt.mpr hi (heq ▸ hlt)
  have hslots : ∀ t ∈ slots, t.loadedValue ≠ s.PN.id ∧ t.alloca ≠ s.PN.id := fun t ht =>
    ⟨hne _ (h.new t ht _ (List.mem_cons_of_mem _ List.mem_cons_self)),
      hne _ (h.new t ht _ List.mem_cons_self)⟩
  have hs : s.loadedValue ≠ s.PN.id ∧ s.alloca ≠ s.PN.id :=
    ⟨hne _ (Nat.le_trans hslotle (hids _ (List.mem_cons_of_mem _ List.mem_cons_self))),
      hne _ hslotle⟩
  have hbefore : F₂ = beforeLoad slots F s := by
    rw [hstores, ← hF₁]
    rfl
  have hbreak : breakPhi2AllocaAt (broken slots F) (b, PN.id) =
      ((F₂.updateBlock b (BasicBlock.insertBefore PN.id s.loadInst)).replaceAllUsesWith PN.id
        (.inst s.loadedValue)).updateBlock b (BasicBlock.erase PN.id) := by
    have hincoming : (PN.inst.mapValues (brokenValue slots)).op.incoming =
        PN.incoming.map fun p => (brokenValue slots p.1, p.2) := rfl
    rw [breakPhi2AllocaAt]
    simp only [h.find_phi hF hb hPN hnew, breakPhi, hincoming, hslot]
    have hty : (PN.inst.mapValues (brokenValue slots)).ty = PN.ty := rfl
    have hentry : (broken slots F).entry = F.entry := rfl
    rw [hty, hentry, hF₁, hF₂]
    rfl
  rw [hbreak, hbefore]
  refine Function.eq_of_block rfl rfl rfl fun x => ?_
  by_cases hx : x = b
  · subst hx
    rw [Function.block_updateBlock, Function.replaceAllUsesWith, Function.block_mapValues,
      Function.block_updateBlock]
    refine block_broken_append hslots hs hF.ids hb hPN hnew fun I hI => ?_
    rcases List.mem_append.mp hI with hI | hI
    · obtain ⟨t, ht, hI⟩ := List.mem_flatMap.mp hI
      obtain ⟨p, hp, rfl⟩ := List.mem_map.mp hI
      have hmem := (List.of_mem_zip (List.mem_filter.mp hp).1).1
      exact hne _ (h.new t ht _ (List.mem_cons_of_mem _ (List.mem_cons_of_mem _ hmem)))
    · obtain ⟨p, hp, rfl⟩ := List.mem_map.mp hI
      have hmem := (List.of_mem_zip (List.mem_filter.mp hp).1).1
      exact hne _ (Nat.le_trans hslotle
        (hids _ (List.mem_cons_of_mem _ (List.mem_cons_of_mem _ hmem))))
  · rw [Function.block_updateBlock_ne _ hx, Function.replaceAllUsesWith, Function.block_mapValues,
      Function.block_updateBlock_ne _ hx]
    exact block_broken_append_ne hslots hs hx

/-- The PHIs of a list, broken one after the other. -/
theorem foldl_breakPhi2AllocaAt {PHIs : List (BlockId × PHINode)} (h : Fresh F slots)
    (hmem : ∀ p ∈ PHIs, p.1 ∈ F.layout ∧ p.2.inst ∈ (F.block p.1).insts)
    (hn : (PHIs.map fun p => p.2.id).Nodup)
    (hnew : ∀ p ∈ PHIs, ∀ s ∈ slots, s.PN.id ≠ p.2.id) : ∃ slots' : List Slot,
      slots'.map (fun s => (s.block, s.PN)) = PHIs ∧ Fresh F (slots ++ slots') ∧
      (PHIs.map fun p => (p.1, p.2.id)).foldl breakPhi2AllocaAt (broken slots F) =
        broken (slots ++ slots') F := by
  induction PHIs generalizing slots with
  | nil => exact ⟨[], rfl, by simpa using h, by simp⟩
  | cons p PHIs ih =>
    obtain ⟨⟨hb, hPN⟩, hmem⟩ := List.forall_mem_cons.mp hmem
    obtain ⟨hp, hn⟩ := List.nodup_cons.mp hn
    obtain ⟨hnew₀, hnew⟩ := List.forall_mem_cons.mp hnew
    obtain ⟨s, hsb, hsPN, hfresh, heq⟩ := breakPhi2AllocaAt_broken hF h hb hPN hnew₀
    have hnew' : ∀ q ∈ PHIs, ∀ t ∈ slots ++ [s], t.PN.id ≠ q.2.id := by
      intro q hq t ht
      rcases List.mem_append.mp ht with ht | ht
      · exact hnew q hq t ht
      · rw [List.mem_singleton.mp ht, hsPN]
        exact fun heq => hp (List.mem_map.mpr ⟨q, hq, heq.symm⟩)
    obtain ⟨slots', hmap, hfresh', heq'⟩ := ih hfresh hmem hn hnew'
    refine ⟨s :: slots', ?_, ?_, ?_⟩
    · rw [List.map_cons, hmap, hsb, hsPN]
    · rwa [List.append_cons]
    · rw [List.map_cons, List.foldl_cons, heq, heq', List.append_assoc, List.singleton_append]

end

end VariOCL.IR.BreakPhi
