import VariOCL.LoopInserter.BodyRun

/-! The three loops around a region enumerate the work-group. -/

namespace VariOCL.IR.LoopInserter

open Sim

local instance neZero_dims : NeZero 3 := Nat.instNeZeroSucc

section
variable {Val : Type} [DecidableEq Val] (F : Function) (M : Machine Val) (W : Dims → WorkItem Val)
  (RN : MxPARegion) (Exit Barrier Pred : BlockId)

/-- The work-items run the region of `F` one after the other, each from the state in which the one
before it ended. -/
inductive RunInTurn : State Val → List Dims → State Val → Prop
  | nil (s : State Val) : RunInTurn s [] s
  | snoc {s t t' : State Val} {lids : List Dims} {lid : Dims} {es : List (Act Val)} :
      RunInTurn s lids t →
      RunsRegion F M (W lid) RN.BBSet (some Pred) RN.Entry t es (some Exit) Barrier t' →
      RunInTurn s (lids ++ [lid]) t'

/-- A work-item of the group that gets its turn runs from the entry of the region to its exit. -/
def AlwaysExits (lsz : Dims) (s : State Val) : Prop :=
  ∀ lids lid, lids ++ [lid] <+: workItems lsz → ∀ t,
    RunInTurn F M W RN Exit Barrier Pred s lids t →
    ∃ es t', RunsRegion F M (W lid) RN.BBSet (some Pred) RN.Entry t es (some Exit) Barrier t'

end

section
variable {Val : Type} [DecidableEq Val] (G : Function) (M : Machine Val) (w : WorkItem Val)
  (RN : MxPARegion) (Exit Barrier : BlockId) (L : Fin 3 → DWLoop) (i32 : BitVec 32 → Val)
  (lsz : Dims)

/-- Control is in the loops, neither in the region nor at the barrier, and no count wraps. -/
def Between (c : Config Val) : Prop :=
  ∃ p b s, c = .inside p b s ∧ b ∉ RN.BBSet ∧ b ≠ Barrier ∧ ∀ d, b = (L d).LatchBB →
    ∃ l, s.env (L d).IV = some (i32 l) ∧ l < lsz d ∧ (l + 1).toNat = l.toNat + 1

/-- The body runs once, from the entry of the region to its exit, with the local id `lid`. -/
def BodyOf (lid : Dims) (cs : List (Config Val)) : Prop :=
  ∃ s s', Path (G.Goes M w) (.inside (some (L 0).LoopHeader) RN.Entry s) cs
      (.inside (some Exit) (L 0).LatchBB s') ∧
    ∀ c ∈ cs, ∃ p b t, c = .inside p b t ∧ b ∈ RN.BBSet ∧ HasId L i32 t lid

end

section
variable {Val : Type} [DecidableEq Val] {F G : Function} {M : Machine Val} {w : WorkItem Val}
  {W : Dims → WorkItem Val} {RN : MxPARegion} {Exit Barrier Pred : BlockId} {L : Fin 3 → DWLoop}
  {f : Value → Value} {gone : List InstId} {i32 : BitVec 32 → Val} {lsz : Dims}
  {p : Option BlockId} {b : BlockId} {s s₀ : State Val}

theorem ThreeLoops.not_mem_region (hL : ThreeLoops F G RN Exit Barrier L)
    (h : Loopable F RN Exit Barrier Pred) {d : Fin 3} (hb : b ∈ (L d).blocks) :
    b ∉ RN.BBSet ∧ b ≠ Barrier := by
  have hbarrier : Barrier ∈ F.layout := h.closed _ (h.subset _ h.exit_mem) _
    (h.exit_succs ▸ List.mem_cons_self)
  exact ⟨fun hmem => hL.blocks_new d b hb (h.subset b hmem),
    fun heq => hL.blocks_new d b hb (heq ▸ hbarrier)⟩

omit [DecidableEq Val] in
theorem ThreeLoops.between (hL : ThreeLoops F G RN Exit Barrier L)
    (h : Loopable F RN Exit Barrier Pred) {d : Fin 3} (hb : b ∈ (L d).blocks)
    (hne : b ≠ (L d).LatchBB) : Between RN Barrier L i32 lsz (.inside p b s) := by
  obtain ⟨hregion, hbarrier⟩ := hL.not_mem_region h hb
  refine ⟨p, b, s, rfl, hregion, hbarrier, fun e he => ?_⟩
  by_cases hde : d = e
  · exact absurd (hde ▸ he) hne
  · have hlatch : (L e).LatchBB ∈ (L e).blocks := by simp [DWLoop.blocks]
    exact absurd (he ▸ hlatch) (hL.blocks_disjoint d e hde b hb)

omit [DecidableEq Val] in
theorem ThreeLoops.between_latch (hL : ThreeLoops F G RN Exit Barrier L)
    (h : Loopable F RN Exit Barrier Pred) {d : Fin 3} {l : BitVec 32} (hlt : l < lsz d)
    (hl : s.env (L d).IV = some (i32 l)) :
    Between RN Barrier L i32 lsz (.inside p (L d).LatchBB s) := by
  have hlatch : ∀ e, (L e).LatchBB ∈ (L e).blocks := fun e => by simp [DWLoop.blocks]
  obtain ⟨hregion, hbarrier⟩ := hL.not_mem_region h (hlatch d)
  refine ⟨p, _, s, rfl, hregion, hbarrier, fun e he => ?_⟩
  by_cases hde : d = e
  · subst hde
    exact ⟨l, hl, hlt, toNat_succ hlt⟩
  · exact absurd (he ▸ hlatch e) (hL.blocks_disjoint d e hde _ (hlatch d))

/-- What the three levels have in common. -/
theorem ThreeLoops.turns (hL : ThreeLoops F G RN Exit Barrier L)
    (h : Loopable F RN Exit Barrier Pred) {d : Fin 3} {LoopBody : BlockId}
    {Inv : Nat → State Val → Prop} {items : BitVec 32 → List Dims}
    (hinv : ∀ n s i v, i ∈ (L d).ids → Inv n s → Inv n (s.define i v))
    (hturn : ∀ l < lsz d, ∀ s, Inv l.toNat s → s.env (L d).IV = some (i32 l) → ∃ cs p s',
        Path (G.Goes M w) (.inside (some (L d).LoopHeader) LoopBody s) cs
          (.inside p (L d).LatchBB s') ∧
        Bodies (Between RN Barrier L i32 lsz) (BodyOf G M w RN Exit L i32) (items l) cs ∧
        Inv (l.toNat + 1) s' ∧ s'.env (L d).IV = some (i32 l)) :
    Turns G M w i32 lsz (L d) d LoopBody Inv (Between RN Barrier L i32 lsz)
      (BodyOf G M w RN Exit L i32) items where
  inv := hinv
  preheader p s := by
    have hd := hL.blocks_nodup d
    simp only [List.nodup_cons, List.mem_cons, List.not_mem_nil, or_false, not_or] at hd
    exact hL.between h (d := d) (by simp [DWLoop.blocks]) (Ne.symm hd.1.1)
  header p s := by
    have hd := hL.blocks_nodup d
    simp only [List.nodup_cons, List.mem_cons, List.not_mem_nil, or_false, not_or] at hd
    exact hL.between h (d := d) (by simp [DWLoop.blocks]) (Ne.symm hd.1.2.1)
  loopEnd p s := by
    have hd := hL.blocks_nodup d
    simp only [List.nodup_cons, List.mem_cons, List.not_mem_nil, or_false, not_or] at hd
    exact hL.between h (d := d) (by simp [DWLoop.blocks]) (Ne.symm hd.1.2.2)
  latch p s l hlt hl := hL.between_latch h hlt hl
  turn := hturn

omit [DecidableEq Val] in
theorem ThreeLoops.define_env (hL : ThreeLoops F G RN Exit Barrier L) {d e : Fin 3} (hde : d ≠ e)
    {i : InstId} (hi : i ∈ (L d).ids) (v : Val) : (s.define i v).env (L e).IV = s.env (L e).IV :=
  State.define_ne v fun heq => hL.ids_disjoint d e hde i hi (heq ▸ List.mem_cons_self)

theorem ThreeLoops.pre_ne_latch (hL : ThreeLoops F G RN Exit Barrier L) (d : Fin 3) :
    (L d).LoopPreheader ≠ (L d).LatchBB := by
  have hd := hL.blocks_nodup d
  simp only [List.nodup_cons, List.mem_cons, List.not_mem_nil, or_false, not_or] at hd
  exact Ne.symm hd.1.1

/-- The state is that of `F` after the first `k` work-items. -/
def Done (F : Function) (M : Machine Val) (W : Dims → WorkItem Val) (RN : MxPARegion)
    (Exit Barrier Pred : BlockId) (gone : List InstId) (lsz : Dims) (s₀ : State Val) (k : Nat)
    (s : State Val) : Prop :=
  ∃ t, RunInTurn F M W RN Exit Barrier Pred s₀ ((workItems lsz).take k) t ∧ AgreesOff F gone t s

theorem Done.define {k : Nat} {d : Fin 3} {i : InstId}
    (hs : Done F M W RN Exit Barrier Pred gone lsz s₀ k s)
    (hL : ThreeLoops F G RN Exit Barrier L) (hi : i ∈ (L d).ids) (v : Val) :
    Done F M W RN Exit Barrier Pred gone lsz s₀ k (s.define i v) := by
  obtain ⟨t, ht, hagree⟩ := hs
  refine ⟨t, ht, hagree.mem, fun j hj hleft => ?_⟩
  have hne : j ≠ i := fun heq => Nat.not_lt.mpr (hL.ids_new d i hi) (heq ▸ hj)
  exact (State.define_ne v hne).trans (hagree.env j hj hleft)

variable (hR : Replaces F G RN Exit Barrier Pred L f gone) (h : Loopable F RN Exit Barrier Pred)
  (hL : ThreeLoops F G RN Exit Barrier L) (hA : AnswersTags F RN gone M w W i32)
  (hM : Counts M i32 lsz) (hbody : AlwaysExits F M W RN Exit Barrier Pred lsz s₀)
include hR h hL hA hM hbody

/-- One turn of the innermost loop is the turn of one work-item. -/
theorem Replaces.body {lid : Dims} (hlid : InGroup lsz lid)
    (hs : Done F M W RN Exit Barrier Pred gone lsz s₀ (position lsz lid) s)
    (hid : HasId L i32 s lid) : ∃ cs p s',
      Path (G.Goes M w) (.inside (some (L 0).LoopHeader) RN.Entry s) cs
        (.inside p (L 0).LatchBB s') ∧
      Bodies (Between RN Barrier L i32 lsz) (BodyOf G M w RN Exit L i32) [lid] cs ∧
      Done F M W RN Exit Barrier Pred gone lsz s₀ (position lsz lid + 1) s' ∧
      HasId L i32 s' lid := by
  obtain ⟨t, ht, hagree⟩ := hs
  have htake : (workItems lsz).take (position lsz lid + 1) =
      (workItems lsz).take (position lsz lid) ++ [lid] := by
    rw [List.take_add_one, getElem?_workItems hlid, Option.toList_some]
  obtain ⟨es, t', hrun⟩ := hbody _ lid (htake ▸ List.take_prefix _ _) t ht
  obtain ⟨es', s', hrun', ht', hid'⟩ := hR.runs h hL hA hM hrun rfl rfl h.entry_involved
    (hR.sound_entry h hA) hagree hid
  have hname : (some Pred).map (nameIn RN Pred L RN.Entry) = some (L 0).LoopHeader := by
    rw [Option.map_some, nameIn, if_pos rfl, rename, if_pos rfl]
  rw [hname] at hrun'
  obtain ⟨cs, hpath, hcs, -⟩ := hrun'.path
  have hkeep : ∀ d, ∀ b ∈ RN.BBSet, ∀ I ∈ (G.block b).insts, I.id ≠ (L d).IV := by
    intro d b hb I hI heq
    obtain ⟨g, u, hblock⟩ := hR.block (h.subset b hb)
    rw [hblock] at hI
    obtain ⟨K, hK, rfl⟩ := List.mem_map.mp hI
    obtain ⟨J, hJ, rfl⟩ := List.mem_map.mp (List.mem_filter.mp hK).1
    have hlt := F.lt_freshInst (F.instIds_of_mem (h.subset b hb) hJ)
    exact Nat.not_lt.mpr (hL.ids_new d _ List.mem_cons_self) (heq ▸ hlt)
  refine ⟨cs, _, s', hpath, .single ⟨s, s', hpath, fun c hc => ?_⟩, ⟨t', ?_, ht'⟩, hid'⟩
  · obtain ⟨p, b, u, rfl, hb, hu⟩ := hcs c hc
    exact ⟨p, b, u, rfl, hb, fun d => (hu _ (hkeep d)).trans (hid d)⟩
  · rw [htake]
    exact .snoc ht hrun

variable (hpos : ∀ d, 0 < lsz d) {l1 l2 : BitVec 32}
include hpos

theorem Replaces.runs₀ (hl1 : l1 < lsz 1) (hl2 : l2 < lsz 2)
    (hs : Done F M W RN Exit Barrier Pred gone lsz s₀
      ((l2.toNat * (lsz 1).toNat + l1.toNat) * (lsz 0).toNat) s)
    (h1 : s.env (L 1).IV = some (i32 l1)) (h2 : s.env (L 2).IV = some (i32 l2)) : ∃ cs s',
      Path (G.Goes M w) (.inside p (L 0).LoopPreheader s) cs
        (.inside (some (L 0).LoopEnd) (L 1).LatchBB s') ∧
      Bodies (Between RN Barrier L i32 lsz) (BodyOf G M w RN Exit L i32)
        ((upTo (lsz 0)).flatMap fun l0 => [localId l2 l1 l0]) cs ∧
      Done F M W RN Exit Barrier Pred gone lsz s₀
        ((l2.toNat * (lsz 1).toNat + (l1.toNat + 1)) * (lsz 0).toNat) s' ∧
      s'.env (L 1).IV = some (i32 l1) ∧ s'.env (L 2).IV = some (i32 l2) := by
  have ht : Turns G M w i32 lsz (L 0) 0 RN.Entry
      (fun n s => Done F M W RN Exit Barrier Pred gone lsz s₀
          ((l2.toNat * (lsz 1).toNat + l1.toNat) * (lsz 0).toNat + n) s ∧
        s.env (L 1).IV = some (i32 l1) ∧ s.env (L 2).IV = some (i32 l2))
      (Between RN Barrier L i32 lsz) (BodyOf G M w RN Exit L i32)
      (fun l0 => [localId l2 l1 l0]) := by
    refine hL.turns h ?_ ?_
    · rintro n s i v hi ⟨hs, h1, h2⟩
      exact ⟨hs.define hL hi v, (hL.define_env (by decide) hi v).trans h1,
        (hL.define_env (by decide) hi v).trans h2⟩
    · rintro l hl s ⟨hs, h1, h2⟩ h0
      have hid : HasId L i32 s (localId l2 l1 l) := by
        intro d
        match d with
        | 0 => exact h0
        | 1 => exact h1
        | 2 => exact h2
      have hlid : InGroup lsz (localId l2 l1 l) := by
        intro d
        match d with
        | 0 => exact hl
        | 1 => exact hl1
        | 2 => exact hl2
      obtain ⟨cs, p, s', hpath, hbodies, hs', hid'⟩ := hR.body h hL hA hM hbody hlid hs hid
      exact ⟨cs, p, s', hpath, hbodies, ⟨hs', hid' 1, hid' 2⟩, hid' 0⟩
  obtain ⟨cs, s', hpath, hbodies, hs', h1', h2'⟩ :=
    hL.inner.runs hM (hL.ids_nodup 0) (hL.pre_ne_latch 0) (hpos 0) ht ⟨hs, h1, h2⟩
  refine ⟨cs, s', hpath, hbodies, ?_, h1', h2'⟩
  rwa [← Nat.succ_mul, Nat.succ_eq_add_one, Nat.add_assoc] at hs'

theorem Replaces.runs₁ (hl2 : l2 < lsz 2)
    (hs : Done F M W RN Exit Barrier Pred gone lsz s₀
      (l2.toNat * ((lsz 1).toNat * (lsz 0).toNat)) s)
    (h2 : s.env (L 2).IV = some (i32 l2)) : ∃ cs s',
      Path (G.Goes M w) (.inside p (L 1).LoopPreheader s) cs
        (.inside (some (L 1).LoopEnd) (L 2).LatchBB s') ∧
      Bodies (Between RN Barrier L i32 lsz) (BodyOf G M w RN Exit L i32)
        ((upTo (lsz 1)).flatMap fun l1 => (upTo (lsz 0)).flatMap fun l0 => [localId l2 l1 l0]) cs ∧
      Done F M W RN Exit Barrier Pred gone lsz s₀
        ((l2.toNat + 1) * ((lsz 1).toNat * (lsz 0).toNat)) s' ∧
      s'.env (L 2).IV = some (i32 l2) := by
  have ht : Turns G M w i32 lsz (L 1) 1 (L 0).LoopPreheader
      (fun n s => Done F M W RN Exit Barrier Pred gone lsz s₀
          ((l2.toNat * (lsz 1).toNat + n) * (lsz 0).toNat) s ∧
        s.env (L 2).IV = some (i32 l2))
      (Between RN Barrier L i32 lsz) (BodyOf G M w RN Exit L i32)
      (fun l1 => (upTo (lsz 0)).flatMap fun l0 => [localId l2 l1 l0]) := by
    refine hL.turns h ?_ ?_
    · rintro n s i v hi ⟨hs, h2⟩
      exact ⟨hs.define hL hi v, (hL.define_env (by decide) hi v).trans h2⟩
    · rintro l hl s ⟨hs, h2⟩ h1
      obtain ⟨cs, s', hpath, hbodies, hs', h1', h2'⟩ :=
        hR.runs₀ h hL hA hM hbody hpos hl hl2 hs h1 h2
      exact ⟨cs, _, s', hpath, hbodies, ⟨hs', h2'⟩, h1'⟩
  rw [← Nat.mul_assoc] at hs
  obtain ⟨cs, s', hpath, hbodies, hs', h2'⟩ :=
    hL.middle.runs hM (hL.ids_nodup 1) (hL.pre_ne_latch 1) (hpos 1) ht ⟨hs, h2⟩
  refine ⟨cs, s', hpath, hbodies, ?_, h2'⟩
  rwa [← Nat.succ_mul, Nat.succ_eq_add_one, Nat.mul_assoc] at hs'

/-- An arrival at the outermost preheader gives each work-item its turn. -/
theorem Replaces.enumerates : ∃ cs s' t,
    Path (G.Goes M w) (.inside p (L 2).LoopPreheader s₀) cs
        (.inside (some (L 2).LoopEnd) Barrier s') ∧
      Bodies (Between RN Barrier L i32 lsz) (BodyOf G M w RN Exit L i32) (workItems lsz) cs ∧
      RunInTurn F M W RN Exit Barrier Pred s₀ (workItems lsz) t ∧ AgreesOff F gone t s' := by
  have ht : Turns G M w i32 lsz (L 2) 2 (L 1).LoopPreheader
      (fun n s => Done F M W RN Exit Barrier Pred gone lsz s₀
        (n * ((lsz 1).toNat * (lsz 0).toNat)) s)
      (Between RN Barrier L i32 lsz) (BodyOf G M w RN Exit L i32)
      (fun l2 => (upTo (lsz 1)).flatMap fun l1 =>
        (upTo (lsz 0)).flatMap fun l0 => [localId l2 l1 l0]) := by
    refine hL.turns h (fun n s i v hi hs => hs.define hL hi v) ?_
    intro l hl s hs h2
    obtain ⟨cs, s', hpath, hbodies, hs', h2'⟩ := hR.runs₁ h hL hA hM hbody hpos hl hs h2
    exact ⟨cs, _, s', hpath, hbodies, hs', h2'⟩
  have hstart : Done F M W RN Exit Barrier Pred gone lsz s₀
      (0 * ((lsz 1).toNat * (lsz 0).toNat)) s₀ := by
    rw [Nat.zero_mul]
    exact ⟨s₀, .nil s₀, rfl, fun _ _ _ => rfl⟩
  obtain ⟨cs, s', hpath, hbodies, t, hturns, hagree⟩ :=
    hL.outer.runs hM (hL.ids_nodup 2) (hL.pre_ne_latch 2) (hpos 2) ht hstart
  have hall : (workItems lsz).take ((lsz 2).toNat * ((lsz 1).toNat * (lsz 0).toNat)) =
      workItems lsz := by
    rw [← Nat.mul_assoc, ← groupSize, ← length_workItems, List.take_length]
  rw [hall] at hturns
  refine ⟨cs, s', t, hpath, ?_, hturns, hagree⟩
  simp only [workItems, List.map_eq_flatMap]
  exact hbodies

end

theorem agreesOff_tagCalls {Val : Type} {F : Function} {RN : MxPARegion} {gone : List InstId}
    {s s' : State Val} : AgreesOff (tagCalls F RN) gone s s' ↔ AgreesOff F gone s s' := by
  constructor
  · exact fun h => ⟨h.mem, freshInst_tagCalls F RN ▸ h.env⟩
  · exact fun h => ⟨h.mem, (freshInst_tagCalls F RN).symm ▸ h.env⟩

/-- Every arrival at the outermost loop runs the body, which is the code of the region, once for each
work-item, in the order of `workItems` and with its id in the induction variables, as the work-items
run the region in turn, and then goes on to the barrier.  The tags tell the calls that are replaced,
which ask for the id of the work-item, from those that are left. -/
theorem insertLoops_enumerates {order : Function → BlockId → List BlockId} {F : Function}
    {DT : DominatorTree} {RN : MxPARegion} {Exit Barrier Pred : BlockId} (horder : PredOrder order)
    (h : Loopable F RN Exit Barrier Pred) (hDT : TreeFor F DT RN Pred) :
    ∃ G DT' L f gone, insertLoops order RN F DT = .ok (G, DT') ∧
      ThreeLoops F G RN Exit Barrier L ∧ Replaces F G RN Exit Barrier Pred L f gone ∧
      ∀ (Val : Type) [DecidableEq Val] (M : Machine Val) (w : WorkItem Val)
        (W : Dims → WorkItem Val) (i32 : BitVec 32 → Val) (lsz : Dims) (p : Option BlockId)
        (s : State Val), Answers F RN gone M w W i32 → Counts M i32 lsz → (∀ d, 0 < lsz d) →
        AlwaysExits (tagCalls F RN) M W RN Exit Barrier Pred lsz s →
        ((workItems lsz).length = groupSize lsz ∧
          ∀ lid, InGroup lsz lid → (workItems lsz)[position lsz lid]? = some lid) ∧
        ∃ cs s' t, Path (G.Goes M w) (.inside p (L 2).LoopPreheader s) cs
            (.inside (some (L 2).LoopEnd) Barrier s') ∧
          Bodies (Between RN Barrier L i32 lsz) (BodyOf G M w RN Exit L i32) (workItems lsz) cs ∧
          RunInTurn (tagCalls F RN) M W RN Exit Barrier Pred s (workItems lsz) t ∧
          AgreesOff F gone t s' := by
  obtain ⟨G, DT', L, hbuild, hloops, f, gone, hreplaces⟩ := h.insertLoops_eq hDT horder
  refine ⟨G, DT', L, f, gone, hbuild, hloops, hreplaces, ?_⟩
  intro Val _ M w W i32 lsz p s hA hM hpos hbody
  obtain ⟨cs, s', t, hpath, hbodies, hturns, hagree⟩ :=
    hreplaces.tagCalls.enumerates h.tagCalls hloops.tagCalls hA.tagCalls hM hbody hpos (p := p)
  exact ⟨⟨length_workItems lsz, fun lid hlid => getElem?_workItems hlid⟩, cs, s', t, hpath,
    hbodies, hturns, agreesOff_tagCalls.mp hagree⟩

/-! ### A region of one block -/

/-- Machine words as values, in a group of size `lsz`. -/
def words (lsz : Dims) : Machine (BitVec 32) where
  atom
    | .constInt _ n => BitVec.ofNat 32 n
    | _ => 0
  eval
    | _, .other "add" _, [a, b] => a + b
    | _, .other "mul" _, [a, b] => a * b
    | _, .other "icmp ult" _, [a, b] => if a.ult b then 1 else 0
    | _, .trunc _, [a] => a
    | _, _, _ => 0
  truth v := v != 0
  caseOf := BitVec.toNat
  alloca _ _ _ := .ret 0
  call
    | some "get_local_size", [d] => .ret (if d = 0 then lsz 0 else if d = 1 then lsz 1 else lsz 2)
    | _, _ => .ret 0

theorem counts_words (lsz : Dims) : Counts (words lsz) id lsz where
  const n := rfl
  add a b := rfl
  ult a b := by
    simp only [words]
    split <;> simp_all
  localSize d := by
    match d with
    | 0 => rfl
    | 1 => rfl
    | 2 => rfl

/-- The work-item with the local id `lid`. -/
def wordItem (lid : Dims) : WorkItem (BitVec 32)
  | "get_local_id", [d, _] => some (if d = 0 then lid 0 else if d = 1 then lid 1 else lid 2)
  | _, _ => none

/-- The region squares a local id. -/
def squares : Function where
  name := "squares"
  entry := 0
  rest := [1, 2]
  block
    | 0 => ⟨[], 0, .br 1⟩
    | 1 => ⟨[⟨1, .int 64, .call (some "get_local_id") [.constInt 32 0]⟩,
        ⟨2, .int 32, .trunc (.inst 1)⟩,
        ⟨3, .int 32, .other "mul" [.inst 2, .inst 2]⟩], 4, .br 2⟩
    | _ => ⟨[barrierCall 5], 6, .ret none⟩

def squares_region : MxPARegion := ⟨[1], 1, some 1⟩

theorem squares_loopable : Loopable squares squares_region 1 2 0 where
  closed := by unfold Function.Closed; decide
  ids := by decide
  exit := rfl
  subset := by decide
  root := by decide
  entry_mem := by decide
  exit_mem := by decide
  leaves := rfl
  barrier := by decide
  pred := .refl
  enters := by decide
  outside := by decide
  entered u v huv hu hnu hv := by
    obtain rfl := List.mem_singleton.mp hv
    simp only [squares, Function.layout, List.mem_cons, List.not_mem_nil, or_false] at hu
    rcases hu with rfl | rfl | rfl
    · exact ⟨rfl, rfl⟩
    · exact absurd List.mem_cons_self hnu
    · cases huv

theorem squares_valid : squares.Valid where
  nodup := by decide
  closed := by unfold Function.Closed; decide
  entryPreds := by decide
  ids := by decide
  phisFirst := by decide
  entryPhis := by decide
  incoming := by decide

theorem squares_answers (gone : List InstId) (lsz : Dims) :
    Answers squares squares_region gone (words lsz) (fun _ _ => none) wordItem id where
  valid := squares_valid
  ssa := Function.definesBeforeUse_of_local (by decide) (by decide) (by decide)
  oneArgument b hb I hI name args hop _ := by
    obtain rfl := List.mem_singleton.mp hb
    simp only [squares, List.mem_cons, List.not_mem_nil, or_false] at hI
    rcases hI with rfl | rfl | rfl
    · cases hop
      rfl
    · cases hop
    · cases hop
  truncs b hb T hT htrunc _ := by
    have hall : ∀ b ∈ squares.layout, ∀ T ∈ (squares.block b).insts,
        T.op.isTrunc → T.ty = .int 32 := by decide
    exact hall b hb T hT htrunc
  trunc l := rfl
  localId lid d := by
    match d with
    | 0 => rfl
    | 1 => rfl
    | 2 => rfl
  others lid name v := by
    rw [wordItem]
    simp

theorem squares_tagged : (tagCalls squares squares_region).block 1 =
    ⟨[⟨1, .int 64, .call (some "get_local_id") [.constInt 32 0, .constInt 32 0]⟩,
      ⟨2, .int 32, .trunc (.inst 1)⟩, ⟨3, .int 32, .other "mul" [.inst 2, .inst 2]⟩], 4, .br 2⟩ := by
  decide

theorem squares_alwaysExits (lsz : Dims) (s : State (BitVec 32)) :
    AlwaysExits (tagCalls squares squares_region) (words lsz) wordItem squares_region 1 2 0 lsz s := by
  intro lids lid _ t _
  have hx : (tagCalls squares squares_region).Exec (words lsz) (wordItem lid) (.inside (some 0) 1 t)
      [.value 1 (lid 0), .value 2 (lid 0), .value 3 (lid 0 * lid 0), .branch 4 (some 0)]
      (.inside (some 1) 2
        (((t.define 1 (lid 0)).define 2 (lid 0)).define 3 (lid 0 * lid 0))) := by
    refine .branch (i := 0) ?_ rfl
    have hname : "get_local_id" ∈ idBuiltins := by decide
    rw [squares_tagged]
    simp [hname, Machine.execBlock, Machine.execPhis, Machine.execInsts, Machine.execInst,
      Machine.readAll, Machine.read, Machine.perform, Machine.taken, Op.isPhi, Op.operands,
      Op.mapValues, Proc.run, words, wordItem, State.define]
  exact ⟨_, _, .step (by decide) hx (.leave _ (by decide))⟩

theorem insertLoops_enumerates_squares : ∃ G DT' L f gone,
    insertLoops Function.predEdges squares_region squares squares.dominatorTree = .ok (G, DT') ∧
      Replaces squares G squares_region 1 2 0 L f gone ∧
      ∀ s : State (BitVec 32), ∃ cs s' t,
        Path (G.Goes (words (localId 1 3 2)) fun _ _ => none)
          (.inside (some 0) (L 2).LoopPreheader s) cs (.inside (some (L 2).LoopEnd) 2 s') ∧
        Bodies (Between squares_region 2 L id (localId 1 3 2))
          (BodyOf G (words (localId 1 3 2)) (fun _ _ => none) squares_region 1 L id)
          (workItems (localId 1 3 2)) cs ∧
        RunInTurn (tagCalls squares squares_region) (words (localId 1 3 2)) wordItem squares_region
          1 2 0 s (workItems (localId 1 3 2)) t ∧ AgreesOff squares gone t s' := by
  have horder : PredOrder Function.predEdges := fun _ _ _ => Iff.rfl
  obtain ⟨G, DT', L, f, gone, hbuild, -, hreplaces, hrun⟩ :=
    insertLoops_enumerates horder squares_loopable treeFor_dominatorTree
  refine ⟨G, DT', L, f, gone, hbuild, hreplaces, fun s => ?_⟩
  exact (hrun (BitVec 32) (words (localId 1 3 2)) (fun _ _ => none) wordItem id (localId 1 3 2)
    (some 0) s (squares_answers gone _) (counts_words _) (by decide) (squares_alwaysExits _ s)).2

end VariOCL.IR.LoopInserter
