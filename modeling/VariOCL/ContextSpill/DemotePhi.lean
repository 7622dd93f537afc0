import VariOCL.ContextSpill.DemoteReg
import VariOCL.ContextSpill.StorePhi

/-! A function executes as before when one of its PHIs is kept in a slot. -/

namespace VariOCL

namespace IR

open Sim

theorem Op.mem_incoming_of_incomingFor {op : Op} {q : BlockId} {v : Value}
    (h : op.incomingFor (some q) = some v) : (v, q) ∈ op.incoming := by
  cases op with
  | phi incoming => exact BreakPhi.mem_of_incomingFor h
  | _ => cases h

theorem Op.fst_mem_operands {op : Op} {p : Value × BlockId} (h : p ∈ op.incoming) :
    p.1 ∈ op.operands := by
  cases op with
  | phi incoming => exact List.mem_map_of_mem h
  | _ => cases h

/-- A PHI gets the value of its entry. -/
theorem Machine.execPhis_value {Val : Type} {M : Machine Val} {e e₀ e' : Cells InstId Val}
    {pred : Option BlockId} {Is : List Instruction} {es : List (Act Val)} {I : Instruction}
    (h : M.execPhis e pred Is e₀ = some (e', es)) (hn : (Is.map Instruction.id).Nodup) (hI : I ∈ Is) :
    ∃ v x, I.op.incomingFor pred = some v ∧ M.read e v = some x ∧ e' I.id = some x := by
  induction Is generalizing e₀ es with
  | nil => cases hI
  | cons J Is ih =>
    obtain ⟨x, hx, h⟩ := Option.bind_eq_some_iff.mp h
    obtain ⟨v, hv, hval⟩ := Option.bind_eq_some_iff.mp hx
    obtain ⟨⟨e₁, es₁⟩, hrest, heq⟩ := Option.map_eq_some_iff.mp h
    cases heq
    obtain ⟨hJ, hn⟩ := List.nodup_cons.mp hn
    rcases List.mem_cons.mp hI with rfl | hI
    · exact ⟨v, x, hv, hval, (Machine.env_execPhis hrest hJ).trans (Cells.set_self ..)⟩
    · exact ih hrest hn hI

namespace ContextSpill

open LoopInserter

/-- The values are those of before, but for the PHI `i`, whose value has been loaded by `j`. -/
structure Loaded {Val : Type} (P : Val → Prop) (n : InstId) (num : Nat → Val) (lsz : Dims)
    (base cell : InstId → Val) (F : Function) (i j : InstId) (s t : State Val) : Prop where
  matched : F.Matched [i] P s t
  held : Held (sizesFrom n) num lsz base F.freshInst t
  loaded : ∀ x, s.env i = some x → t.env j = some x

/-- What holds in front of a block: the cell has what the PHI `I` of `b` is about to get. -/
def BeforeLoad {Val : Type} (P : Val → Prop) (M : Machine Val) (b : BlockId) (I : Instruction) (a : Val)
    (Rel : State Val → State Val → Prop) : Option BlockId → BlockId → State Val → State Val → Prop
  | none, _, s, t => Blank P s t
  | some q, c, s, t => Rel s t ∧ (c = b → ∀ v, I.op.incomingFor (some q) = some v → ∀ x,
      M.read s.env v = some x → t.mem a = some x)

section
variable {Val : Type} [DecidableEq Val] {M : Machine Val} {w : WorkItem Val} {num : Nat → Val}
  {lid lsz : Dims} {base cell : InstId → Val} {F : Function} {i j l m n : InstId}
  {s s₁ t t' : State Val}
  {I J : Instruction} {slots : List Instruction} {es es₁ : List (Act Val)} {keep : Act Val → Bool}
  {sp : Splice} {e : Cells InstId Val} {b c q : BlockId} {ns : InstId → List (InstId × Value)}
  {v : Value} {x : Val} {P : Val → Prop}

omit [DecidableEq Val] in
theorem Loaded.read (h : Loaded P n num lsz base cell F i j s t) (hv : M.read s.env v = some x) :
    M.read t.env (Value.replace i (.inst j) v) = some x := by
  by_cases hi : v = .inst i
  · subst hi
    rw [Value.replace, if_pos rfl]
    exact h.loaded x hv
  · rw [Value.replace, if_neg hi]
    exact h.matched.read hv fun k hk => List.mem_singleton.mp hk ▸ hi

omit [DecidableEq Val] in
theorem Loaded.frame (h : Loaded P n num lsz base cell F i j s t) (hR : Ready n slots F)
    (henv : ∀ j ≤ F.freshInst, t'.env j = t.env j) (hj : t'.env j = t.env j)
    (hmem : ∀ a, P a → t'.mem a = t.mem a) :
    Loaded P n num lsz base cell F i j s t' where
  matched := h.matched.frame (fun j hj => henv j (F.lt_freshInst hj).le) hmem
  held := h.held.frame (fun d => henv _ (F.lt_freshInst (hR.size_mem d)).le) (henv _ (Nat.le_refl _))
  loaded x hx := hj.trans (h.loaded x hx)

omit [DecidableEq Val] in
theorem Loaded.steady : Steady P (· = cell F.freshInst) (Loaded P n num lsz base cell F i j) where
  agree _ _ h := h.matched.mem
  frame _ _ _ _ h hm _ := ⟨⟨h.matched.known, h.matched.env, hm⟩, ⟨h.held.size, h.held.slot⟩, h.loaded⟩

omit [DecidableEq Val] in
theorem BeforeLoad.steady {p : Option BlockId} {a : Val} {Rel : State Val → State Val → Prop}
    (h : Steady P (· = a) Rel) : Steady P (· = a) (BeforeLoad P M b I a Rel p c) := by
  cases p with
  | none => exact Blank.steady
  | some q =>
    refine ⟨fun _ _ hb => h.agree _ _ hb.1, fun _ _ _ _ hb hm hC => ⟨h.frame _ _ _ _ hb.1 hm hC, ?_⟩⟩
    exact fun hcb v hv x hx => (hC a rfl).trans (hb.2 hcb v hv x hx)

omit [DecidableEq Val] in
/-- What a PHI gets from `c` is known at its end. -/
theorem Ready.incoming_value (hR : Ready n slots F) (hb : b ∈ F.layout) (hI : I ∈ (F.block b).insts)
    (hdef : ∀ j, F.DefinedAbove c (F.block c).termId j → (s.env j).isSome) :
    ∃ x, ∀ v, (v, c) ∈ I.op.incoming → M.read s.env v = some x := by
  by_cases hv : ∃ v, (v, c) ∈ I.op.incoming
  · obtain ⟨v, hv⟩ := hv
    have hsome : (M.read s.env v).isSome := by
      cases v with
      | inst j => exact hdef j (hR.definedAbove hb hI hv)
      | _ => rfl
    obtain ⟨x, hx⟩ := Option.isSome_iff_exists.mp hsome
    refine ⟨x, fun v' hv' => ?_⟩
    obtain rfl : v = v' := hR.ssa.unique b hb I hI _ hv _ hv' rfl
    exact hx
  · exact ⟨M.atom .undefValue, fun v hv' => absurd ⟨v, hv'⟩ hv⟩

/-! ### The places of the splice -/

section
variable (hR : Ready n slots F) (hfill : Filled F I l ns)
include hR hfill

theorem Filled.nil (hc : c ∈ F.layout) (hJ : J ∈ (F.block c).insts) : ns J.id = [] := by
  refine List.eq_nil_iff_forall_not_mem.mpr fun p hp => ?_
  obtain ⟨q, hq, hid, -⟩ := hfill.taken _ p hp
  exact F.termId_ne hR.valid hq hc hJ hid.symm

variable (hput : sp = phiSplice (sizesFrom n) (n + 5) (insert3DAllocaFor (sizesFrom n) F.freshInst I)
  I.id b l ns)
include hput

/-- Of an instruction that is no PHI, only the operands change. -/
theorem Filled.around (hc : c ∈ F.layout) (hJ : J ∈ (F.block c).insts) (hphi : J.op.isPhi = false) :
    sp.around J = (if J.id = n + 5 then [insert3DAllocaFor (sizesFrom n) F.freshInst I] else []) ++
      [J.mapValues (Value.replace I.id (.inst (l + 9)))] := by
  subst hput
  have hbefore : (phiSplice (sizesFrom n) (n + 5) (insert3DAllocaFor (sizesFrom n) F.freshInst I)
      I.id b l ns).before J.id =
        if J.id = n + 5 then [insert3DAllocaFor (sizesFrom n) F.freshInst I] else [] := by
    rw [phiSplice]
    dsimp only
    rw [hfill.nil hR hc hJ, List.flatMap_nil, List.append_nil]
  rw [Splice.around, hbefore, Splice.inst, Op.mapUses_of_not_phi hphi]
  rfl

/-- The entry gets the slot, and nothing else in front. -/
theorem Filled.entry (hI : I ∈ (F.block b).insts) (hphi : I.op.isPhi) (hlow : I.id < n) :
    sp.top F.entry = [] ∧ (∀ J ∈ sizes n ++ slots, sp.around J = [J]) ∧
      sp.around (allocaPoint n) = [insert3DAllocaFor (sizesFrom n) F.freshInst I, allocaPoint n] := by
  have hfacts : ∀ J ∈ sizes n ++ slots ++ [allocaPoint n], sp.around J =
      (if J.id = n + 5 then [insert3DAllocaFor (sizesFrom n) F.freshInst I] else []) ++ [J] := by
    intro J hJ
    have hmem := hR.headed.insts.subset hJ
    have hsame : J.mapValues (Value.replace I.id (.inst (l + 9))) = J := by
      have hop : J.op.mapValues (Value.replace I.id (.inst (l + 9))) = J.op :=
        Op.mapValues_eq_self fun v hv => if_neg fun heq =>
          Nat.not_lt.mpr (hR.headed.operands hJ (heq ▸ hv)).1 hlow
      rw [Instruction.mapValues, hop]
    rw [hfill.around hR hput F.entry_mem_layout hmem (hR.valid.entryPhis J hmem), hsame]
  have hids := hR.headed.nodup hR.valid
  rw [List.map_append] at hids
  refine ⟨?_, fun J hJ => ?_, ?_⟩
  · rw [hput]
    refine if_neg ?_
    rintro rfl
    exact Bool.false_ne_true ((hR.valid.entryPhis I hI).symm.trans hphi)
  · rw [hfacts J (List.mem_append_left _ hJ), if_neg, List.nil_append]
    exact (List.nodup_append.mp hids).2.2 _ (List.mem_map_of_mem hJ) _ List.mem_cons_self
  · rw [hfacts _ (List.mem_append_right _ List.mem_cons_self)]
    exact congrArg (· ++ [allocaPoint n]) (if_pos rfl)

/-! ### The blocks -/

variable (hM : Slots M w num lid lsz base cell m) (hm : m ≤ F.freshInst)
  (hkeep : ∀ x : Act Val, F.freshInst ≤ x.id → keep x = false) (hb : b ∈ F.layout)
  (hI : I ∈ (F.block b).insts) (hphi : I.op.isPhi)
include hM hm hkeep hI hphi

/-- The entry. -/
theorem Filled.enter_entry (hlow : I.id < n) (hblank : Blank P s t)
    (hphis : M.execPhis s.env none ((F.block F.entry).insts.takeWhile (·.op.isPhi)) s.env =
      some (e, es))
    (hx : M.execInsts w (head n slots F F.entry) ⟨e, s.mem⟩ = some (s₁, es₁))
    (hok : ∀ x ∈ es₁, ∀ a, x.address = some a → P a) : ∃ f ps t₁ ls,
    M.execPhis t.env none (sp.phis (F.block F.entry)) t.env = some (f, ps) ∧
      M.execInsts w (sp.top F.entry ++ (head n slots F F.entry).flatMap sp.around) ⟨f, t.mem⟩ =
        some (t₁, ls) ∧ Follows keep (OnlyCell (cell F.freshInst)) (es ++ es₁) (ps ++ ls) ∧
      Loaded P n num lsz base cell F I.id (l + 9) s₁ t₁ := by
  obtain ⟨htop, haround, hpoint⟩ := hfill.entry hR hput hI hphi hlow
  obtain ⟨f, ps, t₁, ls, hyphis, hy, hf, hmatched, hheld, hnone⟩ := hR.enter hM hm (Nat.le_refl _) hkeep
    htop haround hpoint hblank hphis hx hok
  refine ⟨f, ps, t₁, ls, hyphis, hy, hf, hmatched.mono (List.nil_subset _), hheld, fun x hx => ?_⟩
  rw [hnone _ (hR.headed.not_mem hlow)] at hx
  cases hx

include hb

/-- A block behind another one. -/
theorem Filled.enter_block (hkeepI : ∀ x : Act Val, x.id = I.id → keep x = false) (hc : c ∈ F.layout)
    (hbefore : BeforeLoad P M b I (cell F.freshInst) (Loaded P n num lsz base cell F I.id (l + 9))
      (some q) c s t)
    (hphis : M.execPhis s.env (some q) ((F.block c).insts.takeWhile (·.op.isPhi)) s.env =
      some (e, es)) :
    ∃ f ps t₁ ls, M.execPhis t.env (some q) (sp.phis (F.block c)) t.env = some (f, ps) ∧
      M.execInsts w (sp.top c) ⟨f, t.mem⟩ = some (t₁, ls) ∧
      Follows keep (OnlyCell (cell F.freshInst)) es (ps ++ ls) ∧
      Loaded P n num lsz base cell F I.id (l + 9) ⟨e, s.mem⟩ t₁ := by
  obtain ⟨hloaded, hcell⟩ := hbefore
  have hgone : sp.gone = [I.id] := hput ▸ rfl
  have huse : ∀ u p v, sp.use u p v = Value.replace I.id (.inst (l + 9)) v := fun _ _ _ => hput ▸ rfl
  have htop : sp.top c = if c = b then insert3DLoadFor (sizesFrom n) l
      (insert3DAllocaFor (sizesFrom n) F.freshInst I) else [] := hput ▸ rfl
  have henv₀ : ∀ j ∈ F.instIds, j ∉ sp.gone → t.env j = s.env j := fun j hj hmem =>
    hloaded.matched.env j hj (hgone ▸ hmem)
  obtain ⟨g, ps, hyphis, henv, hother, rfl⟩ := Function.Matched.execPhis hphis
    (fun J _ _ v _ x hx => huse J.id (some q) v ▸ hloaded.read hx) henv₀
  have hdropped : Follows keep (OnlyCell (cell F.freshInst)) es (es.filter fun x => x.id ∉ sp.gone) :=
    follows_filter es fun x hx => hkeepI x (by simpa [hgone] using hx)
  have hmatched : F.Matched [I.id] P ⟨e, s.mem⟩ ⟨g, t.mem⟩ :=
    hloaded.matched.phis hc hphis fun j hj hmem => henv j hj (hgone ▸ hmem)
  have hheld := hR.held_phis hloaded.held (Nat.le_refl _) hc hother
  rw [htop]
  by_cases hcb : c = b
  · -- the PHI gets its value, and the load reads the same one
    subst hcb
    have hn : (((F.block c).insts.takeWhile (·.op.isPhi)).map Instruction.id).Nodup :=
      ((List.takeWhile_sublist _).map _).nodup (List.nodup_append.mp (hR.valid.instIds_nodup hc)).1
    obtain ⟨v, x, hv, hval, hx⟩ := Machine.execPhis_value hphis hn (hR.valid.mem_takeWhile hc hI hphi)
    have hlt : ∀ j ≤ F.freshInst, j < l := fun j hj => Nat.lt_of_le_of_lt hj hfill.load
    obtain ⟨t₁, ls, hexec, hmem, hold, hload, hls⟩ := execInsts_insert3DLoadFor (n := l)
      (t := ⟨g, t.mem⟩) hM (show m ≤ (insert3DAllocaFor (sizesFrom n) F.freshInst I).id from hm)
      (fun d => hlt _ (F.lt_freshInst (hR.size_mem d)).le) hfill.load hheld.size hheld.slot
      (hcell rfl v hv x hval)
    refine ⟨g, _, t₁, ls, hyphis, ?_, ?_,
      hmatched.frame (fun j hj => hold j (hlt j (F.lt_freshInst hj).le)) fun a _ => congrFun hmem a,
      hheld.frame (fun d => hold _ (hlt _ (F.lt_freshInst (hR.size_mem d)).le))
      (hold _ hfill.load), fun y hy => ?_⟩
    · rw [if_pos rfl]
      exact hexec
    · have hall := hdropped.append (follows_nil fun y hy =>
        ⟨hkeep y (hfill.load.le.trans (hls y hy).1), (hls y hy).2⟩)
      rwa [List.append_nil] at hall
    · rw [hload, ← hy]
      exact hx.symm
  · refine ⟨g, _, ⟨g, t.mem⟩, [], hyphis, ?_, ?_, hmatched, hheld, fun x hx => ?_⟩
    · rw [if_neg hcb]
      rfl
    · rw [List.append_nil]
      exact hdropped
    · have hI' : I.id ∉ ((F.block c).insts.takeWhile (·.op.isPhi)).map Instruction.id := by
        intro hmem
        have hmem' := ((List.takeWhile_sublist _).map _).subset hmem
        exact hcb (F.eq_of_mem_instIds hR.valid.ids hc hb (List.mem_append_left _ hmem')
          (List.mem_append_left _ (List.mem_map_of_mem hI)))
      have hV : l + 9 ∉ ((F.block c).insts.takeWhile (·.op.isPhi)).map Instruction.id := by
        intro hmem
        have hlt := F.lt_freshInst (Function.mem_instIds.mpr
          ⟨c, hc, List.mem_append_left _ (((List.takeWhile_sublist _).map _).subset hmem)⟩)
        exact Nat.lt_irrefl _ ((hlt.trans hfill.load).trans_le (Nat.le_add_right l 9))
      exact (hother _ hV).trans (hloaded.loaded x ((Machine.env_execPhis hphis hI').symm.trans hx))

omit hM hm hkeep in
/-- An instruction. -/
theorem Filled.inst_body (hc : c ∈ F.layout) (hJ : J ∈ body n slots F c)
    (hloaded : Loaded P n num lsz base cell F I.id (l + 9) s t) (hx : M.execInst w J s = some (s₁, es))
    (hok : ∀ x ∈ es, ∀ a, x.address = some a → P a) : ∃ t' es',
    M.execInsts w (sp.around J) t = some (t', es') ∧
      Follows keep (OnlyCell (cell F.freshInst)) es es' ∧
      Loaded P n num lsz base cell F I.id (l + 9) s₁ t' := by
  have hmem := (List.dropWhile_sublist _).subset (mem_of_body hJ)
  have hJphi := hR.valid.phisFirst c hc J (mem_of_body hJ)
  have hpoint : J.id ≠ n + 5 := fun hid => hR.headed.not_mem_body hR.valid hc hJ
    (hid ▸ List.mem_map_of_mem (List.mem_append_right (sizes n ++ slots)
      (@List.mem_cons_self _ (allocaPoint n) [])))
  have hId : J.id ∈ F.instIds := F.instIds_of_mem hc hmem
  have hlt := F.lt_freshInst hId
  obtain ⟨t', hy, hmatched, -, hother, -⟩ := hloaded.matched.execInst
    (f := Value.replace I.id (.inst (l + 9))) hId hx hok fun v _ x hv => hloaded.read hv
  have hne : I.id ≠ J.id := by
    intro hid
    have hJI := F.inst_eq_of_id hR.valid.ids hc hb hmem hI hid.symm
    exact Bool.false_ne_true (hJphi.symm.trans (hJI ▸ hphi))
  refine ⟨t', es ++ [], ?_, ?_, hmatched, hloaded.held.frame (fun d => hother _ fun hid => ?_)
    (hother _ (Nat.ne_of_gt hlt)), fun x hx' => ?_⟩
  · rw [hfill.around hR hput hc hmem hJphi, if_neg hpoint, List.nil_append, Machine.execInsts, hy]
    rfl
  · rw [List.append_nil]
    exact .refl es
  · refine hR.headed.not_mem_body hR.valid hc hJ (hid ▸ ?_)
    rw [List.map_append, List.map_append]
    exact List.mem_append_left _ (List.mem_append_left _ (mem_ids_sizes (d.isLt.trans (by decide))))
  · obtain ⟨v, hv⟩ := Machine.env_execInst hx
    have hVne : l + 9 ≠ J.id := Nat.ne_of_gt ((hlt.trans hfill.load).trans_le (Nat.le_add_right l 9))
    rw [hv, Cells.set_ne _ _ hne] at hx'
    exact (hother _ hVne).trans (hloaded.loaded x hx')

omit hphi in
/-- The end of a block. -/
theorem Filled.leave (hP : ¬ P (cell F.freshInst)) (hc : c ∈ F.layout) {a : Option Nat}
    (hloaded : Loaded P n num lsz base cell F I.id (l + 9) s t)
    (hdef : ∀ j, F.DefinedAbove c (F.block c).termId j → (s.env j).isSome)
    (htaken : M.taken s.env (F.block c).term = some a) : ∃ t' es',
    M.execInsts w (sp.before (F.block c).termId) t = some (t', es') ∧
      Follows keep (OnlyCell (cell F.freshInst)) [] es' ∧
      M.taken t'.env ((F.block c).term.mapValues (sp.use (F.block c).termId none)) = some a ∧
      Loaded P n num lsz base cell F I.id (l + 9) s t' ∧
      ∀ d ∈ F.succs c, BeforeLoad P M b I (cell F.freshInst)
        (Loaded P n num lsz base cell F I.id (l + 9)) (some c) d s t' := by
  have huse : sp.use (F.block c).termId none = Value.replace I.id (.inst (l + 9)) := hput ▸ rfl
  have hpoint : (F.block c).termId ≠ n + 5 := fun hid => F.termId_ne hR.valid hc F.entry_mem_layout
    (hR.headed.insts.subset (List.mem_append_right (sizes n ++ slots)
      (@List.mem_cons_self _ (allocaPoint n) []))) hid.symm
  have hbefore : sp.before (F.block c).termId = ((ns (F.block c).termId).map fun p =>
      (p.1, Value.replace I.id (.inst (l + 9)) p.2)).flatMap fun p =>
        insert3DStoreFor (sizesFrom n) p.1 p.2 F.freshInst := by
    rw [hput, phiSplice, List.flatMap_map]
    dsimp only
    rw [if_neg hpoint, List.nil_append]
    rfl
  obtain ⟨x, hx⟩ := hR.incoming_value (M := M) hb hI hdef
  have hentry : ∀ p ∈ ns (F.block c).termId, M.read s.env p.2 = some x := by
    intro p hp
    obtain ⟨q, hq, hid, hin⟩ := hfill.taken _ p hp
    obtain rfl := F.eq_of_termId hR.valid hq hc hid
    exact hx p.2 hin
  have hlow : ∀ {j}, j ≤ F.freshInst → j < F.freshInst + 1 := Nat.lt_succ_of_le
  have hout : ∀ p ∈ ns (F.block c).termId, ∀ j, Value.replace I.id (.inst (l + 9)) p.2 = .inst j →
      j < F.freshInst + 1 ∨ l ≤ j := by
    intro p hp j hj
    by_cases hI' : p.2 = .inst I.id
    · rw [hI', Value.replace, if_pos rfl] at hj
      exact .inr (Value.inst.inj hj ▸ Nat.le_add_right l 9)
    · rw [Value.replace, if_neg hI'] at hj
      have hsome := hentry p hp
      rw [hj] at hsome
      exact .inl (hlow (F.lt_freshInst
        (hloaded.matched.known j (Option.isSome_iff_exists.mpr ⟨x, hsome⟩))).le)
  have hps : ∀ p ∈ (ns (F.block c).termId).map fun p =>
      (p.1, Value.replace I.id (.inst (l + 9)) p.2), F.freshInst + 1 ≤ p.1 ∧ p.1 + 10 ≤ l :=
    List.forall_mem_map.mpr (hfill.later _)
  obtain ⟨t', ls, hexec, hmem, hcell, hold, hls⟩ := execInsts_stores (S := sizesFrom n) (t := t) hM hm
    (fun d => hlow (F.lt_freshInst (hR.size_mem d)).le) (Nat.lt_succ_self _) hloaded.held.size
    hloaded.held.slot hps (List.forall_mem_map.mpr fun p hp => hloaded.read (hentry p hp))
    (List.forall_mem_map.mpr hout)
  have hloaded' := hloaded.frame hR (fun j hj => hold j (.inl (hlow hj)))
    (hold _ (.inr (Nat.le_add_right l 9))) fun a ha => hmem a fun h => hP (h ▸ ha)
  refine ⟨t', ls, hbefore ▸ hexec, follows_nil fun y hy =>
    ⟨hkeep y ((Nat.le_succ _).trans (hls y hy).1), (hls y hy).2⟩, ?_, hloaded', fun d _ =>
      ⟨hloaded', fun _ v hv y hy => ?_⟩⟩
  · rw [huse]
    exact Machine.Reads.taken (fun v _ x hv => hloaded'.read hv) htaken
  · have hin := Op.mem_incoming_of_incomingFor hv
    obtain ⟨r, hr, -⟩ := hfill.stored _ hin
    rw [← hy, hx v hin]
    exact hcell fun hnil => List.not_mem_nil (List.map_eq_nil_iff.mp hnil ▸ hr)

/-- A PHI kept in a slot. -/
theorem Filled.simulated (hP : ¬ P (cell F.freshInst))
    (hkeepI : ∀ x : Act Val, x.id = I.id → keep x = false) (hlow : I.id < n) :
    sp.Simulated F M w (fun x => ∀ a, x.address = some a → P a) keep
      (OnlyCell (cell F.freshInst)) (head n slots F) (body n slots F)
      (BeforeLoad P M b I (cell F.freshInst) (Loaded P n num lsz base cell F I.id (l + 9)))
      (Loaded P n num lsz base cell F I.id (l + 9)) where
  split c _ := hR.headed.split hR.valid c
  enter pred c s t e es s₁ es₁ hholds hbefore hphis hx hok := by
    cases pred with
    | none =>
      obtain rfl : c = F.entry := hholds.1
      exact hfill.enter_entry hR hput hM hm hkeep hI hphi hlow hbefore hphis hx hok
    | some p =>
      have hne : c ≠ F.entry := by
        rintro rfl
        exact hR.valid.entryPreds p hholds.1.1 hholds.1.2.2
      rw [head, if_neg hne] at hx ⊢
      cases hx
      obtain ⟨f, ps, t₁, ls, hyphis, hy, hf, hloaded⟩ :=
        hfill.enter_block hR hput hM hm hkeep hb hI hphi
        hkeepI (hholds.1.mem hR.valid) hbefore hphis
      refine ⟨f, ps, t₁, ls, hyphis, ?_, ?_, hloaded⟩
      · rwa [List.flatMap_nil, List.append_nil]
      · rwa [List.append_nil]
  inst c hc J hJ s t s' es hloaded hx hok :=
    hfill.inst_body hR hput hb hI hphi hc hJ hloaded hx hok
  leave c hc _ s t a hloaded hdef htaken :=
    hfill.leave hR hput hM hm hkeep hb hI hP hc hloaded hdef htaken

end

end

end ContextSpill

end IR

end VariOCL
