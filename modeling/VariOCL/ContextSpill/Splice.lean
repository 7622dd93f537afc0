import VariOCL.ContextSpill.Basic
import VariOCL.LoopInserter.Rewritten

/-! Functions with instructions put in at known places, where each user reads its own values. -/

namespace VariOCL.IR

/-- A PHI reads its entries by their blocks. -/
def Op.mapUses (f : Option BlockId → Value → Value) : Op → Op
  | .phi incoming => .phi (incoming.map fun p => (f (some p.2) p.1, p.2))
  | op => op.mapValues (f none)

/-- What is put in behind the PHIs of a block, before and after other instructions, what is read, and
the PHIs that go. -/
structure Splice where
  top : BlockId → List Instruction
  before : InstId → List Instruction
  after : InstId → List Instruction
  use : InstId → Option BlockId → Value → Value
  gone : List InstId

namespace Splice

def empty : Splice := ⟨fun _ => [], fun _ => [], fun _ => [], fun _ _ v => v, []⟩

def inst (sp : Splice) (I : Instruction) : Instruction := { I with op := I.op.mapUses (sp.use I.id) }

def around (sp : Splice) (I : Instruction) : List Instruction :=
  sp.before I.id ++ sp.inst I :: sp.after I.id

def phis (sp : Splice) (BB : BasicBlock) : List Instruction :=
  ((BB.insts.takeWhile (·.op.isPhi)).filter (·.id ∉ sp.gone)).map sp.inst

def rest (sp : Splice) (b : BlockId) (BB : BasicBlock) : List Instruction :=
  sp.top b ++ ((BB.insts.dropWhile (·.op.isPhi)).flatMap sp.around ++ sp.before BB.termId)

def block (sp : Splice) (b : BlockId) (BB : BasicBlock) : BasicBlock where
  insts := sp.phis BB ++ sp.rest b BB
  termId := BB.termId
  term := BB.term.mapValues (sp.use BB.termId none)

def Puts (sp : Splice) (I : Instruction) : Prop :=
  (∃ b, I ∈ sp.top b) ∨ (∃ j, I ∈ sp.before j) ∨ ∃ j, I ∈ sp.after j

/-- What is put in is new to `F`. -/
def New (sp : Splice) (F : Function) : Prop :=
  ∀ I, sp.Puts I → I.op.isPhi = false ∧ I.id ∉ F.instIds

def addTop (sp : Splice) (b : BlockId) (Is : List Instruction) : Splice :=
  { sp with top := fun x => if x = b then Is ++ sp.top x else sp.top x }

def addBefore (sp : Splice) (j : InstId) (Is : List Instruction) : Splice :=
  { sp with before := fun k => if k = j then sp.before k ++ Is else sp.before k }

def addAfter (sp : Splice) (j : InstId) (Is : List Instruction) : Splice :=
  { sp with after := fun k => if k = j then Is ++ sp.after k else sp.after k }

def mapUse (sp : Splice) (u : InstId) (f : Option BlockId → Value → Value) : Splice :=
  { sp with use := fun k q v => if k = u then f q (sp.use k q v) else sp.use k q v }

def mapValues (sp : Splice) (f : Value → Value) : Splice where
  top b := (sp.top b).map (Instruction.mapValues f)
  before j := (sp.before j).map (Instruction.mapValues f)
  after j := (sp.after j).map (Instruction.mapValues f)
  use k q v := f (sp.use k q v)
  gone := sp.gone

end Splice

/-- `G` is `F` with `sp` put in. -/
structure Function.Spliced (F : Function) (sp : Splice) (G : Function) : Prop where
  layout : G.layout = F.layout
  entry : G.entry = F.entry
  block : ∀ b ∈ F.layout, G.block b = sp.block b (F.block b)
  ids : G.instIds.Nodup
  new : sp.New F

section
variable {f g : Option BlockId → Value → Value} {k : Value → Value} {op : Op}

theorem Op.mapUses_of_not_phi (h : op.isPhi = false) : op.mapUses f = op.mapValues (f none) := by
  cases op with
  | phi incoming => cases h
  | _ => rfl

@[simp] theorem Op.isPhi_mapUses : (op.mapUses f).isPhi = op.isPhi := by cases op <;> rfl

@[simp] theorem Op.incomingBlocks_mapUses :
    (op.mapUses f).incomingBlocks = op.incomingBlocks := by
  cases op <;> simp [mapUses, mapValues, incomingBlocks]

theorem Op.incoming_mapUses :
    (op.mapUses f).incoming = op.incoming.map fun p => (f (some p.2) p.1, p.2) := by
  cases op <;> simp [mapUses, mapValues, incoming]

theorem Op.incomingFor_mapUses {q : Option BlockId} :
    (op.mapUses f).incomingFor q = (op.incomingFor q).map (f q) := by
  cases op with
  | phi incoming =>
    simp only [mapUses, incomingFor, List.find?_map, Option.map_map]
    cases h : incoming.find? ((fun p => decide (some p.2 = q)) ∘ fun p => (f (some p.2) p.1, p.2)) with
    | none =>
      have hnone : incoming.find? (fun p => decide (some p.2 = q)) = none := h
      rw [hnone]
      rfl
    | some p =>
      have hp : incoming.find? (fun p => decide (some p.2 = q)) = some p := h
      obtain rfl : some p.2 = q := by simpa using List.find?_some hp
      rw [hp]
      rfl
  | _ => rfl

theorem Op.mapValues_mapUses :
    (op.mapUses f).mapValues k = op.mapUses fun q v => k (f q v) := by
  cases op <;> simp [mapUses, mapValues]

theorem Op.mapUses_eq_self (h : ∀ q v, f q v = v) : op.mapUses f = op := by
  cases op with
  | phi incoming => simp [mapUses, h]
  | _ => exact (mapUses_of_not_phi rfl).trans (mapValues_eq_self fun v _ => h none v)

theorem Op.mapIncoming_mapUses {h : BlockId → Value → Value} (hphi : op.isPhi) :
    ContextSpill.mapIncoming h (op.mapUses f) =
      op.mapUses fun q v => (q.map fun b => h b (f q v)).getD (f q v) := by
  cases op with
  | phi incoming => simp [mapUses, ContextSpill.mapIncoming]
  | _ => cases hphi

end

/-! ### Where an instruction stands -/

/-- An instruction that is no PHI, and what stands before and after it behind the PHIs. -/
theorem BasicBlock.split_rest {BB : BasicBlock} {J : Instruction} (hn : BB.instIds.Nodup)
    (hJ : J ∈ BB.insts) (hphi : J.op.isPhi = false) :
    ∃ A B, BB.insts.dropWhile (·.op.isPhi) = A ++ J :: B ∧ (∀ I ∈ A, I.id ≠ J.id) ∧
      (∀ I ∈ B, I.id ≠ J.id) ∧ (∀ I ∈ BB.insts, I.op.isPhi → I.id ≠ J.id) ∧ BB.termId ≠ J.id := by
  have hids := (List.nodup_append.mp hn).1
  have hrest : J ∈ BB.insts.dropWhile (·.op.isPhi) := by
    rw [← List.takeWhile_append_dropWhile (p := (·.op.isPhi)) (l := BB.insts)] at hJ
    refine (List.mem_append.mp hJ).resolve_left fun hJ => ?_
    have := List.mem_takeWhile_imp (p := fun I : Instruction => I.op.isPhi) hJ
    exact Bool.false_ne_true (hphi.symm.trans this)
  obtain ⟨A, B, hsplit⟩ := List.append_of_mem hrest
  have hrestIds : ((BB.insts.dropWhile (·.op.isPhi)).map Instruction.id).Nodup :=
    ((List.dropWhile_sublist _).map _).nodup hids
  rw [hsplit, List.map_append, List.map_cons] at hrestIds
  obtain ⟨-, hB, hdisj⟩ := List.nodup_append.mp hrestIds
  refine ⟨A, B, hsplit, fun I hI => ?_, fun I hI h => ?_, fun I hI hI' h => ?_, fun h => ?_⟩
  · exact hdisj _ (List.mem_map_of_mem hI) _ List.mem_cons_self
  · exact (List.nodup_cons.mp hB).1 (h ▸ List.mem_map_of_mem hI)
  · rw [List.inj_on_of_nodup_map hids hI hJ h, hphi] at hI'
    cases hI'
  · exact (List.nodup_append.mp hn).2.2 _ (List.mem_map_of_mem hJ) _ List.mem_cons_self h.symm

section
variable {BB : BasicBlock} {j : InstId} {J : Instruction} {Is pre post : List Instruction}

theorem takeWhile_ne (hpre : ∀ I ∈ pre, I.id ≠ j) (hJ : J.id = j) :
    (pre ++ J :: post).takeWhile (·.id ≠ j) = pre ∧
      (pre ++ J :: post).dropWhile (·.id ≠ j) = J :: post := by
  have hne : ∀ I ∈ pre, decide (I.id ≠ j) = true := fun I hI => decide_eq_true (hpre I hI)
  rw [List.takeWhile_append_of_pos hne, List.dropWhile_append_of_pos hne]
  simp [hJ]

theorem BasicBlock.insts_insertAllBefore (h : BB.insts = pre ++ J :: post)
    (hpre : ∀ I ∈ pre, I.id ≠ j) (hJ : J.id = j) :
    (BB.insertAllBefore j Is).insts = pre ++ Is ++ J :: post := by
  rw [insertAllBefore, h, (takeWhile_ne hpre hJ).1, (takeWhile_ne hpre hJ).2]

theorem BasicBlock.insts_insertAllBefore_end (h : ∀ I ∈ BB.insts, I.id ≠ j) :
    (BB.insertAllBefore j Is).insts = BB.insts ++ Is := by
  have hne : ∀ I ∈ BB.insts, decide (I.id ≠ j) = true := fun I hI => decide_eq_true (h I hI)
  rw [insertAllBefore, List.takeWhile_eq_self_iff.mpr hne, List.dropWhile_eq_nil_iff.mpr hne,
    List.append_nil]

theorem BasicBlock.insts_insertAllAfter (h : BB.insts = pre ++ J :: post)
    (hpre : ∀ I ∈ pre, I.id ≠ j) (hJ : J.id = j) : (BB.insertAllAfter j Is).insts =
      pre ++ J :: (post.takeWhile (·.op.isPhi) ++ Is ++ post.dropWhile (·.op.isPhi)) := by
  simp only [insertAllAfter, h, (takeWhile_ne hpre hJ).1, (takeWhile_ne hpre hJ).2, List.tail_cons,
    List.take_succ_cons, List.take_zero, List.append_assoc, List.cons_append, List.nil_append]

theorem takeWhile_rest {Is : List Instruction} (h : ∀ I ∈ Is, I.op.isPhi = false) :
    Is.takeWhile (·.op.isPhi) = [] := takeWhile_isPhi (P := []) nofun h

theorem dropWhile_rest {Is : List Instruction} (h : ∀ I ∈ Is, I.op.isPhi = false) :
    Is.dropWhile (·.op.isPhi) = Is := dropWhile_isPhi (P := []) nofun h

end

/-! ### The blocks -/

namespace Splice

section
variable {F : Function} {sp : Splice} {b : BlockId} {BB : BasicBlock} {I J : Instruction} {i j : InstId}
  {Is : List Instruction} {f : Option BlockId → Value → Value} {k : Value → Value}

@[simp] theorem id_inst : (sp.inst I).id = I.id := rfl

@[simp] theorem isPhi_inst : (sp.inst I).op.isPhi = I.op.isPhi := Op.isPhi_mapUses

theorem isPhi_phis (hI : I ∈ sp.phis BB) : I.op.isPhi := by
  obtain ⟨J, hJ, rfl⟩ := List.mem_map.mp hI
  rw [isPhi_inst]
  exact List.mem_takeWhile_imp (p := fun I : Instruction => I.op.isPhi) (List.mem_filter.mp hJ).1

theorem puts_of_rest (hI : I ∈ sp.rest b BB) :
    sp.Puts I ∨ ∃ J ∈ BB.insts.dropWhile (·.op.isPhi), I = sp.inst J := by
  rcases List.mem_append.mp hI with hI | hI
  · exact .inl (.inl ⟨b, hI⟩)
  · rcases List.mem_append.mp hI with hI | hI
    · obtain ⟨J, hJ, hI⟩ := List.mem_flatMap.mp hI
      rcases List.mem_append.mp hI with hI | hI
      · exact .inl (.inr (.inl ⟨_, hI⟩))
      · rcases List.mem_cons.mp hI with rfl | hI
        · exact .inr ⟨J, hJ, rfl⟩
        · exact .inl (.inr (.inr ⟨_, hI⟩))
    · exact .inl (.inr (.inl ⟨_, hI⟩))

theorem New.isPhi_rest (h : sp.New F) (hBB : ∀ I ∈ BB.insts.dropWhile (·.op.isPhi), I.op.isPhi = false)
    (hI : I ∈ sp.rest b BB) : I.op.isPhi = false := by
  rcases puts_of_rest hI with hI | ⟨J, hJ, rfl⟩
  · exact (h I hI).1
  · rw [isPhi_inst]
    exact hBB J hJ

theorem New.takeWhile_block (h : sp.New F)
    (hBB : ∀ I ∈ BB.insts.dropWhile (·.op.isPhi), I.op.isPhi = false) :
    (sp.block b BB).insts.takeWhile (·.op.isPhi) = sp.phis BB :=
  takeWhile_isPhi (fun _ hI => isPhi_phis hI) fun _ hI => h.isPhi_rest hBB hI

theorem New.dropWhile_block (h : sp.New F)
    (hBB : ∀ I ∈ BB.insts.dropWhile (·.op.isPhi), I.op.isPhi = false) :
    (sp.block b BB).insts.dropWhile (·.op.isPhi) = sp.rest b BB :=
  dropWhile_isPhi (fun _ hI => isPhi_phis hI) fun _ hI => h.isPhi_rest hBB hI

theorem mem_block (hBB : ∀ I ∈ BB.insts.dropWhile (·.op.isPhi), I.op.isPhi = false)
    (hI : I ∈ (sp.block b BB).insts) :
    sp.Puts I ∨ ∃ J ∈ BB.insts, (J.op.isPhi → J.id ∉ sp.gone) ∧ I = sp.inst J := by
  rcases List.mem_append.mp hI with hI | hI
  · obtain ⟨J, hJ, rfl⟩ := List.mem_map.mp hI
    obtain ⟨hJ, hgone⟩ := List.mem_filter.mp hJ
    exact .inr ⟨J, (List.takeWhile_sublist _).subset hJ, fun _ => of_decide_eq_true hgone, rfl⟩
  · rcases puts_of_rest hI with hI | ⟨J, hJ, rfl⟩
    · exact .inl hI
    · exact .inr ⟨J, (List.dropWhile_sublist _).subset hJ,
        fun hphi => absurd ((hBB J hJ).symm.trans hphi) Bool.false_ne_true, rfl⟩

theorem inst_mem_block (hI : I ∈ BB.insts) (hgone : I.id ∉ sp.gone) :
    sp.inst I ∈ (sp.block b BB).insts := by
  rw [← List.takeWhile_append_dropWhile (p := (·.op.isPhi)) (l := BB.insts)] at hI
  rcases List.mem_append.mp hI with hI | hI
  · exact List.mem_append_left _ (List.mem_map_of_mem (List.mem_filter.mpr ⟨hI, decide_eq_true hgone⟩))
  · refine List.mem_append_right _ (List.mem_append_right _ (List.mem_append_left _ ?_))
    exact List.mem_flatMap.mpr ⟨I, hI, List.mem_append_right _ List.mem_cons_self⟩

theorem id_ne_of_mem_phis (hj : ∀ I ∈ BB.insts, I.op.isPhi → I.id ≠ j) (hI : I ∈ sp.phis BB) :
    I.id ≠ j := by
  obtain ⟨J, hJ, rfl⟩ := List.mem_map.mp hI
  have hJ := (List.mem_filter.mp hJ).1
  exact hj J ((List.takeWhile_sublist _).subset hJ)
    (List.mem_takeWhile_imp (p := fun I : Instruction => I.op.isPhi) hJ)

theorem id_ne_of_mem_around (hnew : ∀ I, sp.Puts I → I.id ≠ j) (hJ : J.id ≠ j)
    (hI : I ∈ sp.around J) : I.id ≠ j := by
  rcases List.mem_append.mp hI with hI | hI
  · exact hnew I (.inr (.inl ⟨_, hI⟩))
  · rcases List.mem_cons.mp hI with rfl | hI
    · exact hJ
    · exact hnew I (.inr (.inr ⟨_, hI⟩))

theorem around_addBefore_ne (hI : I.id ≠ j) : (sp.addBefore j Is).around I = sp.around I := by
  simp only [around, addBefore, if_neg hI]
  rfl

theorem around_addAfter_ne (hI : I.id ≠ j) : (sp.addAfter j Is).around I = sp.around I := by
  simp only [around, addAfter, if_neg hI]
  rfl

theorem phis_addBefore : (sp.addBefore j Is).phis BB = sp.phis BB := rfl

theorem phis_addAfter : (sp.addAfter j Is).phis BB = sp.phis BB := rfl

theorem rest_congr {sp' : Splice} (htop : sp'.top b = sp.top b)
    (hinst : ∀ I ∈ BB.insts, sp'.around I = sp.around I)
    (hterm : sp'.before BB.termId = sp.before BB.termId) : sp'.rest b BB = sp.rest b BB := by
  rw [rest, rest, htop, hterm,
    List.flatMap_congr fun I hI => hinst I ((List.dropWhile_sublist _).subset hI)]

/-- A place that is not in the block. -/
theorem block_addBefore_ne (hj : j ∉ BB.instIds) : (sp.addBefore j Is).block b BB = sp.block b BB := by
  have hrest : (sp.addBefore j Is).rest b BB = sp.rest b BB := by
    refine rest_congr rfl (fun I hI => around_addBefore_ne fun h => ?_) (if_neg fun h => ?_)
    · exact hj (h ▸ List.mem_append_left _ (List.mem_map_of_mem hI))
    · exact hj (h ▸ List.mem_append_right _ List.mem_cons_self)
  rw [block, hrest]
  rfl

theorem block_insertAllBefore_term (hn : BB.instIds.Nodup) (hnew : ∀ I, sp.Puts I → I.id ≠ BB.termId) :
    (sp.block b BB).insertAllBefore BB.termId Is = (sp.addBefore BB.termId Is).block b BB := by
  have hold : ∀ I ∈ BB.insts, I.id ≠ BB.termId := fun I hI h =>
    (List.nodup_append.mp hn).2.2 _ (List.mem_map_of_mem hI) _ List.mem_cons_self h
  have hne : ∀ I ∈ (sp.block b BB).insts, I.id ≠ BB.termId := by
    intro I hI
    rcases List.mem_append.mp hI with hI | hI
    · exact id_ne_of_mem_phis (fun J hJ _ => hold J hJ) hI
    · rcases puts_of_rest hI with hI | ⟨J, hJ, rfl⟩
      · exact hnew I hI
      · exact hold J ((List.dropWhile_sublist _).subset hJ)
  have hrest : (BB.insts.dropWhile (·.op.isPhi)).flatMap (sp.addBefore BB.termId Is).around =
      (BB.insts.dropWhile (·.op.isPhi)).flatMap sp.around :=
    List.flatMap_congr fun I hI => around_addBefore_ne (hold I ((List.dropWhile_sublist _).subset hI))
  have hbefore : (sp.addBefore BB.termId Is).before BB.termId = sp.before BB.termId ++ Is :=
    if_pos rfl
  refine BasicBlock.eq_of_insts ((BasicBlock.insts_insertAllBefore_end hne).trans ?_) rfl rfl
  simp only [block, rest, hrest, hbefore, List.append_assoc, phis_addBefore]
  rfl

section
variable (hn : BB.instIds.Nodup) (hnew : ∀ I, sp.Puts I → I.id ≠ J.id) (hJ : J ∈ BB.insts)
include hn hnew hJ

/-- The block around an instruction that is no PHI. -/
theorem block_split (hphi : J.op.isPhi = false) :
    ∃ A B, BB.insts.dropWhile (·.op.isPhi) = A ++ J :: B ∧ (∀ I ∈ A, I.id ≠ J.id) ∧
      (∀ I ∈ B, I.id ≠ J.id) ∧ BB.termId ≠ J.id ∧ (sp.block b BB).insts =
        (sp.phis BB ++ (sp.top b ++ (A.flatMap sp.around ++ sp.before J.id))) ++
          sp.inst J :: (sp.after J.id ++ (B.flatMap sp.around ++ sp.before BB.termId)) ∧
      ∀ I ∈ sp.phis BB ++ (sp.top b ++ (A.flatMap sp.around ++ sp.before J.id)), I.id ≠ J.id := by
  obtain ⟨A, B, hsplit, hA, hB, hphis, hterm⟩ := BasicBlock.split_rest hn hJ hphi
  refine ⟨A, B, hsplit, hA, hB, hterm, ?_, fun I hI => ?_⟩
  · simp only [block, rest, hsplit, List.flatMap_append, List.flatMap_cons, around, List.append_assoc,
      List.cons_append]
  · simp only [List.mem_append] at hI
    rcases hI with hI | hI | hI | hI
    · exact id_ne_of_mem_phis hphis hI
    · exact hnew I (.inl ⟨b, hI⟩)
    · obtain ⟨K, hK, hI⟩ := List.mem_flatMap.mp hI
      exact id_ne_of_mem_around hnew (hA K hK) hI
    · exact hnew I (.inr (.inl ⟨_, hI⟩))

theorem block_insertAllBefore (hphi : J.op.isPhi = false) :
    (sp.block b BB).insertAllBefore J.id Is = (sp.addBefore J.id Is).block b BB := by
  obtain ⟨A, B, hsplit, hA, hB, hterm, hinsts, hpre⟩ := block_split (b := b) hn hnew hJ hphi
  have hAround : ∀ {Ks : List Instruction}, (∀ I ∈ Ks, I.id ≠ J.id) →
      Ks.flatMap (sp.addBefore J.id Is).around = Ks.flatMap sp.around := fun hKs =>
    List.flatMap_congr fun I hI => around_addBefore_ne (hKs I hI)
  have hend : (sp.addBefore J.id Is).before BB.termId = sp.before BB.termId := if_neg hterm
  have hbefore : (sp.addBefore J.id Is).before J.id = sp.before J.id ++ Is := if_pos rfl
  refine BasicBlock.eq_of_insts ((BasicBlock.insts_insertAllBefore hinsts hpre rfl).trans ?_) rfl rfl
  simp only [block, rest, hsplit, List.flatMap_append, List.flatMap_cons, hAround hA, hAround hB,
    around, hend, hbefore, List.append_assoc, List.cons_append, phis_addBefore]
  rfl

/-- Behind an instruction that is no PHI. -/
theorem block_insertAllAfter (hphi : J.op.isPhi = false)
    (hrest : ∀ I ∈ sp.rest b BB, I.op.isPhi = false) :
    (sp.block b BB).insertAllAfter J.id Is = (sp.addAfter J.id Is).block b BB := by
  obtain ⟨A, B, hsplit, hA, hB, -, hinsts, hpre⟩ := block_split (b := b) hn hnew hJ hphi
  have hpost : ∀ I ∈ sp.after J.id ++ (B.flatMap sp.around ++ sp.before BB.termId),
      I.op.isPhi = false := by
    intro I hI
    refine hrest I ?_
    simp only [rest, hsplit, List.flatMap_append, List.flatMap_cons, around, List.mem_append,
      List.mem_cons] at hI ⊢
    rcases hI with hI | hI | hI
    · exact .inr (.inl (.inr (.inl (.inr (.inr hI)))))
    · exact .inr (.inl (.inr (.inr hI)))
    · exact .inr (.inr hI)
  have hAround : ∀ {Ks : List Instruction}, (∀ I ∈ Ks, I.id ≠ J.id) →
      Ks.flatMap (sp.addAfter J.id Is).around = Ks.flatMap sp.around := fun hKs =>
    List.flatMap_congr fun I hI => around_addAfter_ne (hKs I hI)
  have hafter : (sp.addAfter J.id Is).after J.id = Is ++ sp.after J.id := if_pos rfl
  have hput := @BasicBlock.insts_insertAllAfter _ _ _ Is _ _ hinsts hpre rfl
  rw [takeWhile_rest hpost, dropWhile_rest hpost, List.nil_append] at hput
  refine BasicBlock.eq_of_insts (hput.trans ?_) rfl rfl
  simp only [block, rest, hsplit, List.flatMap_append, List.flatMap_cons, hAround hA, hAround hB,
    around, hafter, List.append_assoc, List.cons_append, phis_addAfter]
  rfl

omit hnew in
/-- Behind the PHIs, when `J` is one of them. -/
theorem block_insertAllAfter_phi (hphi : J.op.isPhi) (hgone : J.id ∉ sp.gone)
    (hrest : ∀ I ∈ sp.rest b BB, I.op.isPhi = false) :
    (sp.block b BB).insertAllAfter J.id Is = (sp.addTop b Is).block b BB := by
  have hids := (List.nodup_append.mp hn).1
  have hmem : sp.inst J ∈ sp.phis BB := by
    have hput := inst_mem_block (b := b) hJ hgone
    refine (List.mem_append.mp hput).resolve_right fun h => ?_
    exact Bool.false_ne_true ((hrest _ h).symm.trans (isPhi_inst.trans hphi))
  obtain ⟨A, B, hsplit⟩ := List.append_of_mem hmem
  have hphiIds : ((sp.phis BB).map Instruction.id).Nodup := by
    have hsub : ((sp.phis BB).map Instruction.id).Sublist (BB.insts.map Instruction.id) := by
      rw [phis, List.map_map]
      exact (List.filter_sublist.trans (List.takeWhile_sublist _)).map _
    exact hsub.nodup hids
  rw [hsplit, List.map_append, List.map_cons] at hphiIds
  obtain ⟨-, -, hdisj⟩ := List.nodup_append.mp hphiIds
  have hA : ∀ I ∈ A, I.id ≠ J.id := fun I hI =>
    hdisj _ (List.mem_map_of_mem hI) _ List.mem_cons_self
  have hB : ∀ I ∈ B, I.op.isPhi := fun I hI =>
    @isPhi_phis sp BB I (hsplit ▸ List.mem_append_right _ (List.mem_cons_of_mem _ hI))
  have hinsts : (sp.block b BB).insts = A ++ sp.inst J :: (B ++ sp.rest b BB) := by
    rw [block, hsplit, List.append_assoc, List.cons_append]
  have hput := @BasicBlock.insts_insertAllAfter _ _ _ Is _ _ hinsts hA rfl
  rw [takeWhile_isPhi hB hrest, dropWhile_isPhi hB hrest] at hput
  refine BasicBlock.eq_of_insts (hput.trans ?_) rfl rfl
  have htop : (sp.addTop b Is).top b = Is ++ sp.top b := if_pos rfl
  have hphis : (sp.addTop b Is).phis BB = A ++ sp.inst J :: B := hsplit
  simp only [block, rest, htop, hphis, List.append_assoc, List.cons_append]
  rfl

end

/-! ### Places of other blocks -/

theorem block_addAfter_ne (hj : j ∉ BB.instIds) : (sp.addAfter j Is).block b BB = sp.block b BB := by
  have hrest : (sp.addAfter j Is).rest b BB = sp.rest b BB := rest_congr rfl (fun I hI =>
    around_addAfter_ne fun h => hj (h ▸ List.mem_append_left _ (List.mem_map_of_mem hI))) rfl
  rw [block, hrest]
  rfl

theorem block_addTop_ne {x : BlockId} (hx : b ≠ x) :
    (sp.addTop x Is).block b BB = sp.block b BB := by
  have hrest : (sp.addTop x Is).rest b BB = sp.rest b BB :=
    rest_congr (if_neg hx) (fun _ _ => rfl) rfl
  rw [block, hrest]
  rfl

/-! ### What is read -/

theorem mapValues_inst : (sp.inst I).mapValues k = (sp.mapValues k).inst I := by
  rw [Instruction.mapValues, inst, Op.mapValues_mapUses]
  rfl

theorem block_mapValues : (sp.block b BB).mapValues k = (sp.mapValues k).block b BB := by
  have hinst : (Instruction.mapValues k) ∘ sp.inst = (sp.mapValues k).inst :=
    funext fun I => mapValues_inst
  have haround : ∀ I, (sp.around I).map (Instruction.mapValues k) = (sp.mapValues k).around I := by
    intro I
    rw [around, List.map_append, List.map_cons, mapValues_inst]
    rfl
  refine BasicBlock.eq_of_insts ?_ rfl (Terminator.mapValues_mapValues _ _ _)
  simp only [BasicBlock.insts_mapValues, block, phis, rest, List.map_append, List.map_map, hinst,
    List.map_flatMap, haround]
  rfl

section
variable {u : InstId} {g : Instruction → Instruction}

/-- One user reads other values. -/
theorem insts_mapUse (hnew : ∀ I, sp.Puts I → g I = I)
    (hinst : ∀ I ∈ BB.insts, g (sp.inst I) = (sp.mapUse u f).inst I) :
    (sp.block b BB).insts.map g = ((sp.mapUse u f).block b BB).insts := by
  have hid : ∀ {Is : List Instruction}, (∀ I ∈ Is, sp.Puts I) → Is.map g = Is := fun h =>
    (List.map_congr_left fun I hI => hnew I (h I hI)).trans (List.map_id' _)
  have haround : ∀ I ∈ BB.insts.dropWhile (·.op.isPhi),
      (sp.around I).map g = (sp.mapUse u f).around I := by
    intro I hI
    rw [around, List.map_append, List.map_cons, hinst I ((List.dropWhile_sublist _).subset hI),
      hid fun J hJ => .inr (.inl ⟨_, hJ⟩), hid fun J hJ => .inr (.inr ⟨_, hJ⟩)]
    rfl
  have hphis : (sp.phis BB).map g = (sp.mapUse u f).phis BB := by
    rw [phis, List.map_map]
    exact List.map_congr_left fun I hI => hinst I
      ((List.takeWhile_sublist _).subset (List.mem_filter.mp hI).1)
  rw [block, List.map_append, hphis, rest, List.map_append, List.map_append,
    hid fun J hJ => .inl ⟨_, hJ⟩, hid fun J hJ => .inr (.inl ⟨_, hJ⟩), List.map_flatMap,
    List.flatMap_congr haround]
  rfl

theorem inst_mapUse_ne (h : I.id ≠ u) : (sp.mapUse u f).inst I = sp.inst I := by
  simp only [inst, mapUse, if_neg h]

theorem inst_mapUse (h : I.id = u) : (sp.mapUse u f).inst I =
    { I with op := I.op.mapUses fun q v => f q (sp.use u q v) } := by
  subst h
  simp [inst, mapUse]

theorem block_mapUse_ne (hu : u ∉ BB.instIds) : (sp.mapUse u f).block b BB = sp.block b BB := by
  have hinst : ∀ I ∈ BB.insts, (sp.mapUse u f).inst I = sp.inst I := fun I hI =>
    inst_mapUse_ne fun h => hu (h ▸ List.mem_append_left _ (List.mem_map_of_mem hI))
  have hne : BB.termId ≠ u := fun h => hu (h ▸ List.mem_append_right _ List.mem_cons_self)
  have hterm : (sp.mapUse u f).use BB.termId none = sp.use BB.termId none :=
    funext fun v => if_neg hne
  refine BasicBlock.eq_of_insts ?_ rfl (congrArg (Terminator.mapValues · BB.term) hterm)
  rw [← insts_mapUse (g := id) (fun _ _ => rfl) fun I hI => (hinst I hI).symm, List.map_id]

theorem block_replaceUsesIn (hnew : ∀ I, sp.Puts I → I.id ≠ u) :
    (sp.block b BB).replaceUsesIn u k = (sp.mapUse u fun _ => k).block b BB := by
  refine BasicBlock.eq_of_insts ?_ rfl ?_
  · refine insts_mapUse (fun I hI => if_neg (hnew I hI)) fun I _ => ?_
    by_cases hu : I.id = u
    · rw [inst_mapUse hu, if_pos (show (sp.inst I).id = u from hu), Instruction.mapValues, inst,
        Op.mapValues_mapUses, hu]
    · rw [inst_mapUse_ne hu, if_neg (show ¬(sp.inst I).id = u from hu)]
  · by_cases hu : BB.termId = u
    · have huse : (sp.mapUse u fun _ => k).use BB.termId none =
          fun v => k (sp.use BB.termId none v) := funext fun v => if_pos hu
      rw [BasicBlock.replaceUsesIn]
      simp only [block, if_pos hu, Terminator.mapValues_mapValues, huse]
    · have huse : (sp.mapUse u fun _ => k).use BB.termId none = sp.use BB.termId none :=
        funext fun v => if_neg hu
      exact (if_neg hu).trans (congrArg (Terminator.mapValues · BB.term) huse.symm)

/-- New entries of a PHI. -/
def entries (h : BlockId → Value → Value) (q : Option BlockId) (v : Value) : Value :=
  (q.map fun b => h b v).getD v

theorem block_setIncomingValues {h : BlockId → Value → Value} (hnew : ∀ I, sp.Puts I → I.id ≠ u)
    (hphi : ∀ I ∈ BB.insts, I.id = u → I.op.isPhi) (hterm : BB.termId ≠ u) :
    ContextSpill.setIncomingValues u h (sp.block b BB) = (sp.mapUse u (entries h)).block b BB := by
  refine BasicBlock.eq_of_insts ?_ rfl ?_
  · refine insts_mapUse (fun I hI => if_neg (hnew I hI)) fun I hI => ?_
    by_cases hu : I.id = u
    · rw [inst_mapUse hu, if_pos (show (sp.inst I).id = u from hu), inst,
        Op.mapIncoming_mapUses (hphi I hI hu), hu]
      rfl
    · rw [inst_mapUse_ne hu, if_neg (show ¬(sp.inst I).id = u from hu)]
  · have huse : (sp.mapUse u (entries h)).use BB.termId none = sp.use BB.termId none :=
      funext fun v => if_neg hterm
    exact congrArg (Terminator.mapValues · BB.term) huse.symm

/-- A PHI that goes. -/
theorem block_erase (hnew : ∀ I, sp.Puts I → I.id ≠ u)
    (hphi : ∀ I ∈ BB.insts, I.id = u → I.op.isPhi)
    (hBB : ∀ I ∈ BB.insts.dropWhile (·.op.isPhi), I.op.isPhi = false) :
    (sp.block b BB).erase u = { sp with gone := u :: sp.gone }.block b BB := by
  have hphis : (sp.phis BB).filter (·.id ≠ u) = { sp with gone := u :: sp.gone }.phis BB := by
    rw [phis, List.filter_map, List.filter_filter]
    refine congrArg _ (List.filter_congr fun I _ => Bool.eq_iff_iff.mpr ?_)
    rw [Bool.and_eq_true, decide_eq_true_eq, Function.comp_apply, decide_eq_true_eq,
      decide_eq_true_eq, List.mem_cons, not_or, id_inst]
  have hrest : (sp.rest b BB).filter (·.id ≠ u) = sp.rest b BB := by
    refine List.filter_eq_self.mpr fun I hI => decide_eq_true ?_
    rcases puts_of_rest hI with hI | ⟨J, hJ, rfl⟩
    · exact hnew I hI
    · exact fun h => Bool.false_ne_true ((hBB J hJ).symm.trans
        (hphi J ((List.dropWhile_sublist _).subset hJ) h))
  refine BasicBlock.eq_of_insts ?_ rfl rfl
  rw [BasicBlock.erase, block, List.filter_append, hphis, hrest]
  rfl

end

end

end Splice

end VariOCL.IR
