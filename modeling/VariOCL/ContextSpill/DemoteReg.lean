import VariOCL.ContextSpill.Spills

/-! A function executes as before when one of its values is kept in a slot. -/

namespace VariOCL.IR.ContextSpill

open Sim LoopInserter

/-- The values are those of before, and the cell has that of `i`. -/
structure Saved {Val : Type} (P : Val → Prop) (n : InstId) (num : Nat → Val) (lsz : Dims)
    (base cell : InstId → Val) (F : Function) (i : InstId) (s t : State Val) : Prop where
  matched : F.Matched [] P s t
  held : Held (sizesFrom n) num lsz base F.freshInst t
  saved : ∀ x, s.env i = some x → t.mem (cell F.freshInst) = some x

/-- What holds in front of a block: each PHI reads its value. -/
def BeforePhis {Val : Type} (P : Val → Prop) (M : Machine Val) (F : Function) (sp : Splice)
    (Rel : State Val → State Val → Prop) : Option BlockId → BlockId → State Val → State Val → Prop
  | none, _, s, t => Blank P s t
  | some q, b, s, t => Rel s t ∧ ∀ J ∈ (F.block b).insts, J.op.isPhi → ∀ v,
      J.op.incomingFor (some q) = some v → ∀ x, M.read s.env v = some x →
        M.read t.env (sp.use J.id (some q) v) = some x

section
variable {Val : Type} [DecidableEq Val] {M : Machine Val} {w : WorkItem Val} {num : Nat → Val}
  {lid lsz : Dims} {base cell : InstId → Val} {F : Function} {l m n : InstId} {s s₁ t t' : State Val}
  {I J : Instruction} {slots : List Instruction} {es es₁ : List (Act Val)} {keep : Act Val → Bool}
  {sp sp' : Splice} {e : Cells InstId Val} {b c : BlockId} {ns : InstId → List InstId} {i j u : InstId}
  {q : Option BlockId} {v : Value} {x : Val} {P : Val → Prop}

omit [DecidableEq Val] in
theorem Saved.frame (h : Saved P n num lsz base cell F i s t) (hR : Ready n slots F)
    (henv : ∀ j ≤ F.freshInst, t'.env j = t.env j) (hmem : t'.mem = t.mem) :
    Saved P n num lsz base cell F i s t' where
  matched := h.matched.frame (fun j hj => henv j (F.lt_freshInst hj).le) fun a _ => congrFun hmem a
  held := h.held.frame (fun d => henv _ (F.lt_freshInst (hR.size_mem d)).le) (henv _ (Nat.le_refl _))
  saved x hx := (congrFun hmem _).trans (h.saved x hx)

omit [DecidableEq Val] in
theorem Blank.steady {C : Val → Prop} : Steady P C (Blank P) :=
  ⟨fun _ _ h => h.mem, fun _ _ _ _ h hm _ => ⟨h.env, h.none, hm⟩⟩

omit [DecidableEq Val] in
theorem Saved.steady : Steady P (· = cell F.freshInst) (Saved P n num lsz base cell F i) where
  agree _ _ h := h.matched.mem
  frame _ _ _ _ h hm hC := ⟨⟨h.matched.known, h.matched.env, hm⟩, ⟨h.held.size, h.held.slot⟩,
    fun x hx => (hC _ rfl).trans (h.saved x hx)⟩

omit [DecidableEq Val] in
theorem BeforePhis.steady {C : Val → Prop} {Rel : State Val → State Val → Prop}
    (h : Steady P C Rel) : Steady P C (BeforePhis P M F sp Rel q b) := by
  cases q with
  | none => exact Blank.steady
  | some q =>
    exact ⟨fun _ _ hb => h.agree _ _ hb.1, fun _ _ _ _ hb hm hC => ⟨h.frame _ _ _ _ hb.1 hm hC, hb.2⟩⟩

/-- The loads in front of a place. -/
theorem Saved.loads (h : Saved P n num lsz base cell F i s t) (hR : Ready n slots F)
    (hM : Slots M w num lid lsz base cell m) (hm : m ≤ F.freshInst)
    (hkeep : ∀ x : Act Val, F.freshInst ≤ x.id → keep x = false)
    (hns : Reloads (sizesFrom n) (n + 5) (insert3DAllocaFor (sizesFrom n) F.freshInst I) i F ns sp)
    (hneed : F.Needs i j → (s.env i).isSome) : ∃ t' ls,
    M.execInsts w ((ns j).flatMap fun l => insert3DLoadFor (sizesFrom n) l
        (insert3DAllocaFor (sizesFrom n) F.freshInst I)) t = some (t', ls) ∧
      Saved P n num lsz base cell F i s t' ∧ (∀ l ∈ ns j, t'.env (l + 9) = s.env i) ∧
      Follows keep (OnlyCell (cell F.freshInst)) [] ls := by
  by_cases hne : ns j = []
  · rw [hne]
    exact ⟨t, [], rfl, h, fun l hl => absurd hl List.not_mem_nil, .refl _⟩
  obtain ⟨x, hx⟩ := Option.isSome_iff_exists.mp (hneed (hns.needed j hne))
  obtain ⟨t', ls, hexec, hmem, hold, hval, hls⟩ := @execInsts_loads _ _ _ _ _ _ _ _ _ _ _
    (F.freshInst + 1) t _ (insert3DAllocaFor (sizesFrom n) F.freshInst I) (ns j) hM hm
    (fun d => (F.lt_freshInst (hR.size_mem d)).trans (Nat.lt_succ_self _)) (Nat.lt_succ_self _)
    h.held.size h.held.slot (hns.ordered j) (hns.later j) fun _ => h.saved x hx
  refine ⟨t', ls, hexec, h.frame hR (fun j hj => hold j (Nat.lt_succ_of_le hj)) hmem,
    fun l hl => (hval l hl).trans hx.symm, follows_nil fun y hy => ?_⟩
  exact ⟨hkeep y ((Nat.le_succ _).trans (hls y hy).1), (hls y hy).2⟩

omit [DecidableEq Val] in
/-- What is read after the loads. -/
theorem Saved.read (h : Saved P n num lsz base cell F i s t)
    (hns : Reloads (sizesFrom n) (n + 5) (insert3DAllocaFor (sizesFrom n) F.freshInst I) i F ns sp)
    (hloaded : ∀ l ∈ ns (F.place u q), t.env (l + 9) = s.env i) (hq : F.ReadsAt u q)
    (hv : M.read s.env v = some x) : M.read t.env (sp.use u q v) = some x := by
  rcases hns.use u q v hq with heq | ⟨rfl, l, hl, heq⟩
  · rw [heq]
    exact h.matched.read hv fun j hj => absurd hj List.not_mem_nil
  · rw [heq]
    exact (hloaded l hl).trans hv

/-- The store behind the value. -/
theorem Saved.store (hmatched : F.Matched [] P s t)
    (hheld : Held (sizesFrom n) num lsz base F.freshInst t) (hR : Ready n slots F)
    (hM : Slots M w num lid lsz base cell m) (hm : m ≤ F.freshInst) (hl : F.freshInst < l)
    (hkeep : ∀ x : Act Val, F.freshInst ≤ x.id → keep x = false) (hP : ¬ P (cell F.freshInst))
    (hi : s.env i = some x) : ∃ t' ls,
    M.execInsts w (insert3DStoreFor (sizesFrom n) l (.inst i) F.freshInst) t = some (t', ls) ∧
      Saved P n num lsz base cell F i s t' ∧ Follows keep (OnlyCell (cell F.freshInst)) [] ls := by
  have hmem : i ∈ F.instIds := hmatched.known i (hi ▸ rfl)
  have hti : M.read t.env (.inst i) = some x := (hmatched.env i hmem List.not_mem_nil).trans hi
  have hlt : ∀ j ≤ F.freshInst, j < l := fun j hj => Nat.lt_of_le_of_lt hj hl
  obtain ⟨t', ls, hexec, hcell, hold, hls⟩ := execInsts_insert3DStoreFor (n := l) hM hm
    (fun d => hlt _ (F.lt_freshInst (hR.size_mem d)).le) hl hheld.size hheld.slot hti
    fun j hj => .inl (Value.inst.inj hj ▸ hlt _ (F.lt_freshInst hmem).le)
  refine ⟨t', ls, hexec, ⟨hmatched.frame (fun j hj => hold j (.inl (hlt _ (F.lt_freshInst hj).le)))
      fun a ha => ?_,
    hheld.frame (fun d => hold _ (.inl (hlt _ (F.lt_freshInst (hR.size_mem d)).le))) (hold _ (.inl hl)),
    fun y hy => ?_⟩, follows_nil fun y hy => ?_⟩
  · rw [hcell]
    exact Cells.set_ne _ x fun h => hP (h ▸ ha)
  · rw [hcell, ← hy, hi]
    exact Cells.set_self ..
  · exact ⟨hkeep y (hl.le.trans (hls y hy).1), (hls y hy).2⟩

/-! ### The places of the splice -/

section
variable (hR : Ready n slots F)
  (hns : Reloads (sizesFrom n) (n + 5) (insert3DAllocaFor (sizesFrom n) F.freshInst I) I.id F ns sp)
  (hfront : I.id ∉ (sizes n ++ slots ++ [allocaPoint n]).map Instruction.id)
include hR hns hfront

/-- The front of the entry uses nothing that is demoted. -/
theorem Reloads.front (hJ : J ∈ sizes n ++ slots ++ [allocaPoint n]) :
    ns J.id = [] ∧ ∀ v, sp.use J.id none v = v := by
  have hnone : ns J.id = [] := by
    by_contra hne
    have hread := (hns.needed _ hne).operand hR.valid F.entry_mem_layout (hR.headed.insts.subset hJ)
    obtain ⟨hlow, hhigh⟩ := hR.headed.operands hJ hread
    obtain ⟨d, hd⟩ := Nat.exists_eq_add_of_le hlow
    have hmem := @mem_ids_sizes n d (Nat.lt_of_add_lt_add_left (hd ▸ hhigh))
    refine hfront ?_
    rw [hd, List.map_append, List.map_append]
    exact List.mem_append_left _ (List.mem_append_left _ hmem)
  refine ⟨hnone, fun v => ?_⟩
  rcases hns.use J.id none v (.inl rfl) with heq | ⟨-, l, hl, -⟩
  · exact heq
  · rw [Function.place, hnone] at hl
    cases hl

end

/-! ### The blocks -/

section
variable (hR : Ready n slots F) (hM : Slots M w num lid lsz base cell m) (hm : m ≤ F.freshInst)
  (hkeep : ∀ x : Act Val, F.freshInst ≤ x.id → keep x = false) (hP : ¬ P (cell F.freshInst))
  (hns : Reloads (sizesFrom n) (n + 5) (insert3DAllocaFor (sizesFrom n) F.freshInst I) I.id F ns sp)
  (hb : b ∈ F.layout) (hI : I ∈ (F.block b).insts) (hl : F.freshInst < l)
  (hstore : sp' = sp.store b I (insert3DStoreFor (sizesFrom n) l (.inst I.id) F.freshInst))

include hR hns hI hstore

/-- The entry gets the slot, and nothing else in front. -/
theorem Reloads.entry (hfront : I.id ∉ (sizes n ++ slots ++ [allocaPoint n]).map Instruction.id) :
    sp'.top F.entry = [] ∧ (∀ J ∈ sizes n ++ slots, sp'.around J = [J]) ∧
      sp'.around (allocaPoint n) = [insert3DAllocaFor (sizesFrom n) F.freshInst I, allocaPoint n] := by
  have hbefore : sp'.before = sp.before := hstore ▸ Splice.before_store
  have huse : sp'.use = sp.use := hstore ▸ Splice.use_store
  have hfacts : ∀ J ∈ sizes n ++ slots ++ [allocaPoint n],
      sp'.around J = (if J.id = n + 5 then [insert3DAllocaFor (sizesFrom n) F.freshInst I] else []) ++
        [J] := by
    intro J hJ
    obtain ⟨hnone, hsame⟩ := hns.front hR hfront hJ
    have hafter : sp'.after J.id = [] := by
      rw [hstore, Splice.after_store (hns.after _)]
      refine if_neg ?_
      rintro ⟨-, hid⟩
      exact hfront (hid ▸ List.mem_map_of_mem hJ)
    have hphi := hR.valid.entryPhis J (hR.headed.insts.subset hJ)
    have hinst : sp'.inst J = J := by
      rw [Splice.inst, Op.mapUses_of_not_phi hphi, huse, Op.mapValues_eq_self fun v _ => hsame v]
    rw [Splice.around, hbefore, hns.before, hnone, hafter, hinst, List.flatMap_nil, List.append_nil]
  have hids := hR.headed.nodup hR.valid
  rw [List.map_append] at hids
  refine ⟨?_, fun J hJ => ?_, ?_⟩
  · rw [hstore, Splice.top_store (hns.top _), if_neg]
    rintro ⟨hphi, rfl⟩
    exact Bool.false_ne_true ((hR.valid.entryPhis I hI).symm.trans hphi)
  · rw [hfacts J (List.mem_append_left _ hJ), if_neg, List.nil_append]
    exact (List.nodup_append.mp hids).2.2 _ (List.mem_map_of_mem hJ) _ List.mem_cons_self
  · rw [hfacts _ (List.mem_append_right _ List.mem_cons_self)]
    exact congrArg (· ++ [allocaPoint n]) (if_pos rfl)

include hM hm hkeep

/-- The entry. -/
theorem Reloads.enter_entry
    (hfront : I.id ∉ (sizes n ++ slots ++ [allocaPoint n]).map Instruction.id) (hblank : Blank P s t)
    (hphis : M.execPhis s.env none ((F.block F.entry).insts.takeWhile (·.op.isPhi)) s.env =
      some (e, es))
    (hx : M.execInsts w (head n slots F F.entry) ⟨e, s.mem⟩ = some (s₁, es₁))
    (hok : ∀ x ∈ es₁, ∀ a, x.address = some a → P a) : ∃ f ps t₁ ls,
    M.execPhis t.env none (sp'.phis (F.block F.entry)) t.env = some (f, ps) ∧
      M.execInsts w (sp'.top F.entry ++ (head n slots F F.entry).flatMap sp'.around) ⟨f, t.mem⟩ =
        some (t₁, ls) ∧ Follows keep (OnlyCell (cell F.freshInst)) (es ++ es₁) (ps ++ ls) ∧
      Saved P n num lsz base cell F I.id s₁ t₁ := by
  obtain ⟨htop, haround, hpoint⟩ := hns.entry hR hI hstore hfront
  obtain ⟨f, ps, t₁, ls, hyphis, hy, hf, hmatched, hheld, hnone⟩ := hR.enter hM hm (Nat.le_refl _) hkeep
    htop haround hpoint hblank hphis hx hok
  refine ⟨f, ps, t₁, ls, hyphis, hy, hf, hmatched, hheld, fun x hx => ?_⟩
  rw [hnone _ hfront] at hx
  cases hx

include hb hl hP

/-- A block behind another one. -/
theorem Reloads.enter_block (hc : c ∈ F.layout)
    (hbefore : BeforePhis P M F sp' (Saved P n num lsz base cell F I.id) (some j) c s t)
    (hphis : M.execPhis s.env (some j) ((F.block c).insts.takeWhile (·.op.isPhi)) s.env =
      some (e, es)) :
    ∃ f ps t₁ ls, M.execPhis t.env (some j) (sp'.phis (F.block c)) t.env = some (f, ps) ∧
      M.execInsts w (sp'.top c) ⟨f, t.mem⟩ = some (t₁, ls) ∧
      Follows keep (OnlyCell (cell F.freshInst)) es (ps ++ ls) ∧
      Saved P n num lsz base cell F I.id ⟨e, s.mem⟩ t₁ := by
  have huse : sp'.use = sp.use := hstore ▸ Splice.use_store
  have hgone : sp'.gone = [] := hstore ▸ Splice.gone_store.trans hns.gone
  obtain ⟨hsaved, hreads⟩ := hbefore
  have henv₀ : ∀ j ∈ F.instIds, j ∉ sp'.gone → t.env j = s.env j := fun j hj _ =>
    hsaved.matched.env j hj List.not_mem_nil
  obtain ⟨g, ps, hyphis, henv, hother, rfl⟩ := Function.Matched.execPhis hphis
    (fun J hJ _ => hreads J ((List.takeWhile_sublist _).subset hJ)
      (List.mem_takeWhile_imp (p := fun I : Instruction => I.op.isPhi) hJ)) henv₀
  have hkept : (es.filter fun x => x.id ∉ sp'.gone) = es :=
    List.filter_eq_self.mpr fun x _ => decide_eq_true (hgone ▸ List.not_mem_nil)
  rw [hkept] at hyphis
  have hmatched : F.Matched [] P ⟨e, s.mem⟩ ⟨g, t.mem⟩ :=
    hsaved.matched.phis hc hphis fun j hj _ => henv j hj (hgone ▸ List.not_mem_nil)
  have hheld := hR.held_phis hsaved.held (Nat.le_refl _) hc hother
  have htop : sp'.top c = if I.op.isPhi ∧ c = b then
      insert3DStoreFor (sizesFrom n) l (.inst I.id) F.freshInst else [] :=
    hstore ▸ Splice.top_store (hns.top c)
  rw [htop]
  by_cases hcase : I.op.isPhi ∧ c = b
  · -- `I` is one of the PHIs
    obtain ⟨hphi, rfl⟩ := hcase
    obtain ⟨x, hx⟩ := Option.isSome_iff_exists.mp
      (Machine.isSome_execPhis hphis (.inl (List.mem_map_of_mem (hR.valid.mem_takeWhile hc hI hphi))))
    obtain ⟨t₁, ls, hexec, hsaved', hf⟩ :=
      Saved.store (s := ⟨e, s.mem⟩) hmatched hheld hR hM hm hl hkeep hP hx
    refine ⟨g, es, t₁, ls, hyphis, ?_, ?_, hsaved'⟩
    · rw [if_pos ⟨hphi, rfl⟩]
      exact hexec
    · have hall := (Follows.refl es).append hf
      rwa [List.append_nil] at hall
  · refine ⟨g, es, ⟨g, t.mem⟩, [], hyphis, ?_, ?_, hmatched, hheld, fun x hx => ?_⟩
    · rw [if_neg hcase]
      rfl
    · rw [List.append_nil]
      exact .refl es
    · refine hsaved.saved x ((Machine.env_execPhis hphis fun hmem => hcase ?_) ▸ hx)
      obtain ⟨J, hJ, hid⟩ := List.mem_map.mp hmem
      have hJc := (List.takeWhile_sublist _).subset hJ
      obtain rfl := F.inst_eq_of_id hR.valid.ids hc hb hJc hI hid
      exact ⟨List.mem_takeWhile_imp (p := fun I : Instruction => I.op.isPhi) hJ,
        F.eq_of_mem_instIds hR.valid.ids hc hb (List.mem_append_left _ (List.mem_map_of_mem hJc))
          (List.mem_append_left _ (List.mem_map_of_mem hI))⟩

/-- An instruction, with its loads and the store. -/
theorem Reloads.inst_body (hc : c ∈ F.layout) (hJ : J ∈ body n slots F c)
    (hsaved : Saved P n num lsz base cell F I.id s t) (hx : M.execInst w J s = some (s₁, es))
    (hok : ∀ x ∈ es, ∀ a, x.address = some a → P a) : ∃ t' es',
    M.execInsts w (sp'.around J) t = some (t', es') ∧
      Follows keep (OnlyCell (cell F.freshInst)) es es' ∧ Saved P n num lsz base cell F I.id s₁ t' := by
  have hbefore : sp'.before = sp.before := hstore ▸ Splice.before_store
  have huse : sp'.use = sp.use := hstore ▸ Splice.use_store
  have hmem := (List.dropWhile_sublist _).subset (mem_of_body hJ)
  have hphi := hR.valid.phisFirst c hc J (mem_of_body hJ)
  have hpoint : J.id ≠ n + 5 := fun hid => hR.headed.not_mem_body hR.valid hc hJ
    (hid ▸ List.mem_map_of_mem (List.mem_append_right (sizes n ++ slots)
      (@List.mem_cons_self _ (allocaPoint n) [])))
  obtain ⟨t₁, ls₁, hloads, hsaved₁, hloaded, hf₁⟩ :=
    hsaved.loads (j := J.id) hR hM hm hkeep hns fun hneed =>
    Machine.isSome_read_of_execInst hx _ (hneed.operand hR.valid hc hmem)
  have hId : J.id ∈ F.instIds := F.instIds_of_mem hc hmem
  obtain ⟨t₂, hy, hmatched, hself, hother, hcell⟩ :=
    hsaved₁.matched.execInst (f := sp.use J.id none) hId hx
    hok fun v _ x hv => hsaved₁.read hns hloaded (.inl rfl) hv
  have hheld : Held (sizesFrom n) num lsz base F.freshInst t₂ := by
    refine hsaved₁.held.frame (fun d => hother _ fun hid => ?_) (hother _ fun hid => ?_)
    · refine hR.headed.not_mem_body hR.valid hc hJ (hid ▸ ?_)
      rw [List.map_append, List.map_append]
      exact List.mem_append_left _ (List.mem_append_left _ (mem_ids_sizes (d.isLt.trans (by decide))))
    · exact Nat.lt_irrefl _ (F.lt_freshInst (hid ▸ hId))
  have hinst : sp'.inst J = J.mapValues (sp.use J.id none) := by
    rw [Splice.inst, Op.mapUses_of_not_phi hphi, huse]
    rfl
  have hafter : sp'.after J.id = if I.op.isPhi = false ∧ J.id = I.id then
      insert3DStoreFor (sizesFrom n) l (.inst I.id) F.freshInst else [] :=
    hstore ▸ Splice.after_store (hns.after _)
  have hexec : M.execInsts w (sp'.before J.id ++ [sp'.inst J]) t = some (t₂, ls₁ ++ (es ++ [])) := by
    rw [hbefore, hns.before, if_neg hpoint, List.nil_append]
    refine Machine.execInsts_append_of_some hloads ?_
    rw [hinst, Machine.execInsts, hy]
    rfl
  have haround : sp'.around J = (sp'.before J.id ++ [sp'.inst J]) ++ sp'.after J.id := by
    rw [Splice.around, List.append_assoc, List.singleton_append]
  have hf : Follows keep (OnlyCell (cell F.freshInst)) es (ls₁ ++ (es ++ [])) := by
    rw [List.append_nil]
    exact hf₁.append (.refl es)
  rw [haround, hafter]
  by_cases hid : J.id = I.id
  · obtain rfl := F.inst_eq_of_id hR.valid.ids hc hb hmem hI hid
    obtain ⟨x, hx⟩ := Option.isSome_iff_exists.mp (Machine.isSome_execInsts (j := J.id)
      (show M.execInsts w [J] s = some (s₁, es ++ []) by rw [Machine.execInsts, hx]; rfl)
      (.inl List.mem_cons_self))
    obtain ⟨t₃, ls₃, hexec₃, hsaved₃, hf₃⟩ := Saved.store hmatched hheld hR hM hm hl hkeep hP hx
    refine ⟨t₃, (ls₁ ++ (es ++ [])) ++ ls₃, ?_, ?_, hsaved₃⟩
    · rw [if_pos ⟨hphi, rfl⟩]
      exact Machine.execInsts_append_of_some hexec hexec₃
    · simpa only [List.append_nil] using hf.append hf₃
  · refine ⟨t₂, ls₁ ++ (es ++ []), ?_, hf, hmatched, hheld, fun x hx' => ?_⟩
    · rw [if_neg fun h => hid h.2, List.append_nil]
      exact hexec
    · obtain ⟨v, hv⟩ := Machine.env_execInst hx
      rw [hcell _ hP]
      refine hsaved₁.saved x ?_
      rw [hv, Cells.set_ne _ _ (Ne.symm hid)] at hx'
      exact hx'

omit hb hI hl hP in
/-- The end of a block. -/
theorem Reloads.leave (hc : c ∈ F.layout) {a : Option Nat}
    (hsaved : Saved P n num lsz base cell F I.id s t)
    (hdef : ∀ j, F.DefinedAbove c (F.block c).termId j → (s.env j).isSome)
    (htaken : M.taken s.env (F.block c).term = some a) : ∃ t' es',
    M.execInsts w (sp'.before (F.block c).termId) t = some (t', es') ∧
      Follows keep (OnlyCell (cell F.freshInst)) [] es' ∧
      M.taken t'.env ((F.block c).term.mapValues (sp'.use (F.block c).termId none)) = some a ∧
      Saved P n num lsz base cell F I.id s t' ∧
      ∀ d ∈ F.succs c, BeforePhis P M F sp' (Saved P n num lsz base cell F I.id) (some c) d s t' := by
  have hbefore : sp'.before = sp.before := hstore ▸ Splice.before_store
  have huse : sp'.use = sp.use := hstore ▸ Splice.use_store
  have hpoint : (F.block c).termId ≠ n + 5 := fun hid => F.termId_ne hR.valid hc F.entry_mem_layout
    (hR.headed.insts.subset (List.mem_append_right (sizes n ++ slots)
      (@List.mem_cons_self _ (allocaPoint n) []))) hid.symm
  have hneed : F.Needs I.id (F.block c).termId → (s.env I.id).isSome := by
    intro hneed
    generalize hu : (F.block c).termId = u at hneed
    cases hneed with
    | inst hd hJ _ _ => exact absurd hu.symm (F.termId_ne hR.valid hc hd hJ)
    | term hd hread =>
      obtain rfl := F.eq_of_termId hR.valid hc hd hu
      exact Machine.isSome_read_of_taken htaken _ hread
    | phi hd hJ hp =>
      have hq := hR.valid.incoming _ hd _ hJ _ (Op.snd_mem_incomingBlocks hp)
      obtain rfl := F.eq_of_termId hR.valid hc hq hu
      exact hdef _ (hR.definedAbove hd hJ hp)
  obtain ⟨t₁, ls, hloads, hsaved₁, hloaded, hf⟩ := hsaved.loads hR hM hm hkeep hns hneed
  refine ⟨t₁, ls, ?_, hf, ?_, hsaved₁, fun d hd => ⟨hsaved₁, fun J hJ hphi v hv x hx => ?_⟩⟩
  · rw [hbefore, hns.before, if_neg hpoint, List.nil_append]
    exact hloads
  · rw [huse]
    exact Machine.Reads.taken (fun v _ x hv => hsaved₁.read hns hloaded (.inl rfl) hv) htaken
  · rw [huse]
    exact hsaved₁.read (u := J.id) (q := some c) hns hloaded
      (.inr ⟨d, hR.valid.closed c hc d hd, J, hJ, rfl, hphi⟩) hx

/-- A value kept in a slot. -/
theorem Reloads.simulated
    (hfront : I.id ∉ (sizes n ++ slots ++ [allocaPoint n]).map Instruction.id) :
    sp'.Simulated F M w (fun x => ∀ a, x.address = some a → P a) keep
      (OnlyCell (cell F.freshInst)) (head n slots F) (body n slots F)
      (BeforePhis P M F sp' (Saved P n num lsz base cell F I.id))
      (Saved P n num lsz base cell F I.id) where
  split c _ := hR.headed.split hR.valid c
  enter pred c s t e es s₁ es₁ hholds hbefore hphis hx hok := by
    cases pred with
    | none =>
      obtain rfl : c = F.entry := hholds.1
      exact hns.enter_entry hR hM hm hkeep hI hstore hfront hbefore hphis hx hok
    | some p =>
      have hne : c ≠ F.entry := by
        rintro rfl
        exact hR.valid.entryPreds p hholds.1.1 hholds.1.2.2
      rw [head, if_neg hne] at hx ⊢
      cases hx
      obtain ⟨f, ps, t₁, ls, hyphis, hy, hf, hsaved⟩ :=
        hns.enter_block hR hM hm hkeep hP hb hI hl hstore (hholds.1.mem hR.valid) hbefore hphis
      refine ⟨f, ps, t₁, ls, hyphis, ?_, ?_, hsaved⟩
      · rwa [List.flatMap_nil, List.append_nil]
      · rwa [List.append_nil]
  inst c hc J hJ s t s' es hsaved hx hok :=
    hns.inst_body hR hM hm hkeep hP hb hI hl hstore hc hJ hsaved hx hok
  leave c hc _ s t a hsaved hdef htaken := hns.leave hR hM hm hkeep hstore hc hsaved hdef htaken

end

end

end VariOCL.IR.ContextSpill
