import VariOCL.ContextSpill.Above
import VariOCL.ContextSpill.LocalForm

/-! After the pass the work-items of a group can share their registers. -/

namespace VariOCL.IR

open Sim

/-! ### Code on other registers -/

section
variable {Val : Type} {M : Machine Val} {e e' : Cells InstId Val} {T : Terminator}

theorem Machine.taken_congr (h : ∀ j, .inst j ∈ T.operands → e' j = e j) :
    M.taken e' T = M.taken e T := by
  have hread : ∀ v ∈ T.operands, M.read e' v = M.read e v := by
    intro v hv
    cases v with
    | inst j => exact h j hv
    | _ => rfl
  cases T with
  | br d => rfl
  | condBr c d d' => rw [taken, taken, hread c List.mem_cons_self]
  | switch c d cs => rw [taken, taken, hread c List.mem_cons_self]
  | ret v =>
    have hall : M.readAll e' v.toList = M.readAll e v.toList := readAll_congr h
    rw [taken, taken, hall]
  | unreachable => rfl

variable [DecidableEq Val] {w : WorkItem Val} {m : Cells Val Val} {t : State Val}
  {es : List (Act Val)} {I : Instruction} {Is : List Instruction} {BB : BasicBlock}
  {pred : Option BlockId} {i : Option Nat} {D : InstId → Prop}

theorem Machine.execInst_congr (h : ∀ j, .inst j ∈ I.op.operands → e' j = e j)
    (hx : M.execInst w I ⟨e, m⟩ = some (t, es)) : ∃ x, t.env = e.set I.id x ∧
      M.execInst w I ⟨e', m⟩ = some (⟨e'.set I.id x, t.mem⟩, es) := by
  obtain ⟨vs, hvs, hx⟩ := Option.bind_eq_some_iff.mp hx
  obtain ⟨p, hp, hx⟩ := Option.bind_eq_some_iff.mp hx
  obtain ⟨r, hr, heq⟩ := Option.map_eq_some_iff.mp hx
  cases heq
  refine ⟨r.1, rfl, ?_⟩
  rw [execInst, readAll_congr h, hvs, Option.bind_some, hp, Option.bind_some, hr, Option.map_some]

/-- Each instruction reads what is above it, or in `D`. -/
def ReadsFrom (D : InstId → Prop) (Is : List Instruction) : Prop :=
  ∀ A I B, Is = A ++ I :: B → ∀ j, .inst j ∈ I.op.operands → D j ∨ j ∈ A.map Instruction.id

theorem Machine.execInsts_congr (hreads : ReadsFrom D Is) (h : ∀ j, D j → e' j = e j)
    (hx : M.execInsts w Is ⟨e, m⟩ = some (t, es)) : ∃ t', M.execInsts w Is ⟨e', m⟩ = some (t', es) ∧
      t'.mem = t.mem ∧ ∀ j, D j ∨ j ∈ Is.map Instruction.id → t'.env j = t.env j := by
  induction Is generalizing D e e' m es with
  | nil =>
    cases hx
    exact ⟨_, rfl, rfl, fun j hj => h j (hj.resolve_right List.not_mem_nil)⟩
  | cons I Is ih =>
    obtain ⟨⟨⟨e₁, m₁⟩, es₁⟩, hI, hx⟩ := Option.bind_eq_some_iff.mp hx
    obtain ⟨⟨t₂, es₂⟩, hIs, heq⟩ := Option.map_eq_some_iff.mp hx
    cases heq
    obtain ⟨x, rfl, hI'⟩ := execInst_congr (fun j hj =>
      h j ((hreads [] I Is rfl j hj).resolve_right List.not_mem_nil)) hI
    have hreads' : ReadsFrom (fun j => D j ∨ j = I.id) Is := fun A J B hsplit j hj =>
      (hreads (I :: A) J B (congrArg (I :: ·) hsplit) j hj).elim (fun hj => .inl (.inl hj)) fun hj =>
        (List.mem_cons.mp hj).imp_left .inr
    have hagree : ∀ j, D j ∨ j = I.id → e'.set I.id x j = e.set I.id x j := by
      intro j hj
      by_cases hji : j = I.id
      · rw [hji, Cells.set_self, Cells.set_self]
      · rw [Cells.set_ne _ _ hji, Cells.set_ne _ _ hji, h j (hj.resolve_right hji)]
    obtain ⟨t', hx', hmem, henv⟩ := ih hreads' hagree hIs
    refine ⟨t', ?_, hmem, fun j hj => henv j ?_⟩
    · rw [execInsts, hI', Option.bind_some, hx', Option.map_some]
    · rw [List.map_cons, List.mem_cons, ← or_assoc] at hj
      exact hj

theorem Machine.execBlock_of_not_phi {s : State Val} (h : ∀ I ∈ BB.insts, I.op.isPhi = false) :
    M.execBlock w BB pred s = (M.execInsts w BB.insts s).bind fun t =>
      (M.taken t.1.env BB.term).map fun i => (i, t.1, t.2 ++ [.branch BB.termId i]) := by
  rw [execBlock, takeWhile_rest h, dropWhile_rest h]
  rfl

/-- A block does the same on registers that agree on what it reads of other blocks. -/
theorem Machine.execBlock_congr (hphi : ∀ I ∈ BB.insts, I.op.isPhi = false)
    (hreads : ReadsFrom D BB.insts)
    (hterm : ∀ j, .inst j ∈ BB.term.operands → D j ∨ j ∈ BB.insts.map Instruction.id)
    (h : ∀ j, D j → e' j = e j) (hx : M.execBlock w BB pred ⟨e, m⟩ = some (i, t, es)) :
    ∃ t', M.execBlock w BB pred ⟨e', m⟩ = some (i, t', es) ∧ t'.mem = t.mem := by
  rw [execBlock_of_not_phi hphi] at hx ⊢
  obtain ⟨⟨t₁, es₁⟩, hIs, hx⟩ := Option.bind_eq_some_iff.mp hx
  obtain ⟨k, hk, heq⟩ := Option.map_eq_some_iff.mp hx
  cases heq
  obtain ⟨t', hIs', hmem, henv⟩ := execInsts_congr hreads h hIs
  refine ⟨t', ?_, hmem⟩
  have hterm' := taken_congr (M := M) fun j hj => henv j (hterm j hj)
  rw [hIs', Option.bind_some, hterm', hk, Option.map_some]

end

namespace ContextSpill

open LoopInserter
open BreakPhi (SSA)

/-! ### What all of them have in their registers -/

/-- The local sizes and the addresses of the slots, which are those of every work-item. -/
structure Common {Val : Type} (n : InstId) (slots : List Instruction) (num : Nat → Val) (lsz : Dims)
    (base : InstId → Val) (e : Cells InstId Val) : Prop where
  size : (sizesFrom n).Known num lsz e
  slot : ∀ I ∈ slots, e I.id = some (base I.id)

section
variable {Val : Type} [DecidableEq Val] {M : Machine Val} {w : WorkItem Val} {num : Nat → Val}
  {lid lsz : Dims} {base cell : InstId → Val} {G : Function} {n : InstId} {s t : State Val}
  {slots : List Instruction} {es : List (Act Val)} {e e' : Cells InstId Val}

omit [DecidableEq Val] in
theorem Common.congr (h : Common n slots num lsz base e)
    (hsame : ∀ j ∈ (sizes n ++ slots).map Instruction.id, e' j = e j) :
    Common n slots num lsz base e' where
  size d := (hsame _ (by
    rw [List.map_append]
    exact List.mem_append_left _ (mem_ids_sizes (d.isLt.trans (by decide))))).trans (h.size d)
  slot I hI := (hsame _ (by
    rw [List.map_append]
    exact List.mem_append_right _ (List.mem_map_of_mem hI))).trans (h.slot I hI)

omit [DecidableEq Val] in
theorem Common.agree {j : InstId} (h : Common n slots num lsz base e)
    (h' : Common n slots num lsz base e') (hj : held n [] slots j) : e' j = e j := by
  rcases hj with hj | rfl | rfl | hj
  · cases hj
  · exact (h'.size 0).trans (h.size 0).symm
  · exact (h'.size 1).trans (h.size 1).symm
  · obtain ⟨I, hI, rfl⟩ := List.mem_map.mp hj
    exact (h'.slot I hI).trans (h.slot I hI).symm

/-- Each slot gets the address of its array. -/
theorem env_execInsts_slots (hM : Slots M w num lid lsz base cell n)
    (hslots : ∀ I ∈ slots, ∃ m J, n ≤ m ∧ I = insert3DAllocaFor (sizesFrom n) m J)
    (hids : (slots.map Instruction.id).Nodup) (hx : M.execInsts w slots s = some (t, es)) :
    ∀ I ∈ slots, t.env I.id = some (base I.id) := by
  induction slots generalizing s es with
  | nil => exact fun I hI => absurd hI List.not_mem_nil
  | cons I Is ih =>
    obtain ⟨hI, hIs⟩ := List.forall_mem_cons.mp hslots
    obtain ⟨hnot, hnodup⟩ := List.nodup_cons.mp hids
    obtain ⟨⟨s₁, es₁⟩, hxI, hx⟩ := Option.bind_eq_some_iff.mp hx
    obtain ⟨⟨t₁, es₂⟩, hxIs, heq⟩ := Option.map_eq_some_iff.mp hx
    cases heq
    obtain ⟨m, J, hm, rfl⟩ := hI
    refine List.forall_mem_cons.mpr ⟨?_, ih hIs hnodup hxIs⟩
    obtain ⟨x, hsize⟩ := Option.isSome_iff_exists.mp
      (Machine.isSome_read_of_execInst hxI _ List.mem_cons_self)
    rw [execInst_slot hM hm hsize] at hxI
    cases hxI
    exact (Machine.env_execInsts hxIs hnot).trans (State.define_self ..)

/-- The front of the entry sets them, whatever was there before. -/
theorem Headed.common (h : Headed n slots G) (hG : G.Valid) (hM : Slots M w num lid lsz base cell n)
    (hx : M.execInsts w (G.block G.entry).insts s = some (t, es)) :
    Common n slots num lsz base t.env := by
  obtain ⟨rest, hrest⟩ := h.insts
  have hids := (List.nodup_append.mp (hG.instIds_nodup G.entry_mem_layout)).1
  rw [← hrest, List.append_assoc, List.map_append, List.nodup_append] at hids
  obtain ⟨hfront, -, hdisj⟩ := hids
  rw [List.map_append, List.nodup_append] at hfront
  rw [← hrest, List.append_assoc, List.append_assoc, Machine.execInsts_append] at hx
  obtain ⟨⟨s₁, es₁⟩, hsizes, hx₁⟩ := Option.bind_eq_some_iff.mp hx
  obtain ⟨⟨t₁, es₂⟩, hx₂, heq⟩ := Option.map_eq_some_iff.mp hx₁
  cases heq
  rw [Machine.execInsts_append] at hx₂
  obtain ⟨⟨s₂, es₃⟩, hslots, hx₃⟩ := Option.bind_eq_some_iff.mp hx₂
  obtain ⟨⟨t₂, es₄⟩, hrest', heq⟩ := Option.map_eq_some_iff.mp hx₃
  cases heq
  obtain ⟨vs, -, hvs, -, hemit⟩ := emits_sizes (t := s) (n := n) hM
  obtain ⟨s', ls, hsizes', hwin, -⟩ := hemit s .start
  rw [hsizes'] at hsizes
  cases hsizes
  have hafter : ∀ j ∈ (sizes n ++ slots).map Instruction.id, t₂.env j = s₂.env j := fun j hj =>
    Machine.env_execInsts hrest' fun hmem => hdisj j hj j hmem rfl
  refine Common.congr ⟨fun d => ?_, env_execInsts_slots hM h.slots hfront.2.1 hslots⟩ hafter
  refine (Machine.env_execInsts hslots fun hmem => ?_).trans (hwin.new d _ (hvs d))
  exact hfront.2.2 _ (mem_ids_sizes (d.isLt.trans (by decide))) _ hmem rfl

end

/-! ### The group -/

section
variable {Val : Type} [DecidableEq Val] {M : Machine Val} {w : WorkItem Val} {num : Nat → Val}
  {lid lsz : Dims} {base cell : InstId → Val} {G : Function} {n : InstId} {s t : State Val}
  {slots : List Instruction} {es : List (Act Val)} {b : BlockId} {pred : Option BlockId}
  {d : Config Val} {e e' : Cells InstId Val} {m : Cells Val Val}

theorem Rises.held_not_mem (hG : Rises n [] slots G) (hb : b ∈ G.layout) (hne : b ≠ G.entry)
    {j : InstId} (hj : j ∈ (sizes n ++ slots).map Instruction.id) :
    j ∉ (G.block b).insts.map Instruction.id := by
  intro hmem
  obtain ⟨K, hK, rfl⟩ := List.mem_map.mp hj
  have hK := hG.ready.headed.insts.subset (List.mem_append_left _ hK)
  exact hne (G.eq_of_mem_instIds hG.ready.valid.ids hb G.entry_mem_layout (List.mem_append_left _ hmem)
    (List.mem_append_left _ (List.mem_map_of_mem hK)))

theorem Rises.readsFrom (hG : Rises n [] slots G) (hphi : ∀ I ∈ (G.block b).insts, I.op.isPhi = false)
    (hb : b ∈ G.layout) (hr : G.Reachable b) :
    ReadsFrom (fun j => held n [] slots j ∧ b ≠ G.entry) (G.block b).insts ∧
      ∀ j, .inst j ∈ (G.block b).term.operands →
        (held n [] slots j ∧ b ≠ G.entry) ∨ j ∈ (G.block b).insts.map Instruction.id := by
  have hout : ∀ {j}, held n [] slots j → j ∉ (G.block b).insts.map Instruction.id → b ≠ G.entry := by
    rintro j hj hnot rfl
    obtain ⟨K, hK, rfl⟩ := List.mem_map.mp (mem_front_of_held hj)
    exact hnot (List.mem_map_of_mem (hG.ready.headed.insts.subset (List.mem_append_left _ hK)))
  refine ⟨fun A I B hsplit j hj => ?_, fun j hj => ?_⟩
  · have hI : I ∈ (G.block b).insts := hsplit ▸ List.mem_append_right _ List.mem_cons_self
    rcases hG.reads.inst b hb I hI (hphi I hI) _ hj hr j rfl with habove | ⟨hheld, hnot⟩
    · refine .inr ?_
      have hids : (G.block b).instIds =
          A.map Instruction.id ++ I.id :: (B.map Instruction.id ++ [(G.block b).termId]) := by
        rw [BasicBlock.instIds, hsplit, List.map_append, List.map_cons, List.append_assoc]
        rfl
      exact mem_of_sublist_pair (hids ▸ hG.ready.valid.instIds_nodup hb) (hids ▸ habove)
    · exact .inl ⟨hheld, hout hheld hnot⟩
  · rcases hG.reads.term b hb _ hj hr j rfl with habove | ⟨hheld, hnot⟩
    · exact .inr (mem_of_sublist_last habove)
    · exact .inl ⟨hheld, hout hheld hnot⟩

variable (hG : Rises n [] slots G)
  (hphi : ∀ b ∈ G.layout, ∀ I ∈ (G.block b).insts, I.op.isPhi = false)
include hG hphi

theorem Rises.common_execBlock (hM : Slots M w num lid lsz base cell n) (hent : G.Entered pred b)
    (hcommon : pred ≠ none → Common n slots num lsz base s.env) {i : Option Nat}
    (hx : M.execBlock w (G.block b) pred s = some (i, t, es)) : Common n slots num lsz base t.env := by
  have hb := hent.mem hG.ready.valid
  rw [Machine.execBlock_of_not_phi (hphi b hb)] at hx
  obtain ⟨⟨t₁, es₁⟩, hIs, hx⟩ := Option.bind_eq_some_iff.mp hx
  obtain ⟨k, -, heq⟩ := Option.map_eq_some_iff.mp hx
  cases heq
  by_cases hbe : b = G.entry
  · subst hbe
    exact hG.ready.headed.common hG.ready.valid hM hIs
  · have hpred : pred ≠ none := by
      rintro rfl
      exact hbe hent
    exact (hcommon hpred).congr fun j hj => Machine.env_execInsts hIs (hG.held_not_mem hb hbe hj)

theorem Rises.common_exec (hM : Slots M w num lid lsz base cell n) (hent : G.Entered pred b)
    (hcommon : pred ≠ none → Common n slots num lsz base s.env)
    (hx : G.Exec M w (.inside pred b s) es d) : Common n slots num lsz base d.state.env := by
  cases hx with
  | branch hx _ => exact hG.common_execBlock hphi hM hent hcommon hx
  | ret hx => exact hG.common_execBlock hphi hM hent hcommon hx

/-- A block does on the common registers what it does on those of the work-item. -/
theorem Rises.exec_congr (hent : G.Entered pred b) (hcommon : pred ≠ none →
      Common n slots num lsz base e ∧ Common n slots num lsz base e')
    (hx : G.Exec M w (.inside pred b ⟨e, m⟩) es d) :
    ∃ t', G.Exec M w (.inside pred b ⟨e', m⟩) es (d.place.config t') ∧ t'.mem = d.state.mem := by
  have hb := hent.mem hG.ready.valid
  obtain ⟨hreads, hterm⟩ := hG.readsFrom (hphi b hb) hb hent.reachable
  have hagree : ∀ j, held n [] slots j ∧ b ≠ G.entry → e' j = e j := by
    rintro j ⟨hj, hbe⟩
    have hpred : pred ≠ none := by
      rintro rfl
      exact hbe hent
    exact (hcommon hpred).1.agree (hcommon hpred).2 hj
  cases hx with
  | branch hx hd =>
    obtain ⟨t', hx', hmem⟩ := Machine.execBlock_congr (hphi b hb) hreads hterm hagree hx
    exact ⟨t', .branch hx' hd, hmem⟩
  | ret hx =>
    obtain ⟨t', hx', hmem⟩ := Machine.execBlock_congr (hphi b hb) hreads hterm hagree hx
    exact ⟨t', .ret hx', hmem⟩

end

/-- The work-item is at the same place, and its registers and those of all of them have the sizes and
the slots once it has left the entry. -/
structure Merges {Val : Type} (G : Function) (n : InstId) (slots : List Instruction) (num : Nat → Val)
    (lsz : Dims) (base : InstId → Val) (c : (Place × Cells InstId Val) × Cells Val Val)
    (c' : Place × State Val) : Prop where
  place : c'.1 = c.1.1
  mem : c'.2.mem = c.2
  entered : ∀ pred b, c.1.1 = .inside pred b → G.Entered pred b
  common : ∀ q b, c.1.1 = .inside (some q) b →
    Common n slots num lsz base c.1.2 ∧ Common n slots num lsz base c'.2.env

section
variable {ι Val : Type} [DecidableEq ι] [DecidableEq Val] {M : ι → Machine Val}
  {w : ι → WorkItem Val} {num : Nat → Val} {lid : ι → Dims} {lsz : Dims} {base : InstId → Val}
  {cell : ι → InstId → Val} {G : Function} {n : InstId} {slots : List Instruction}
  (hG : Rises n [] slots G) (hphi : ∀ b ∈ G.layout, ∀ I ∈ (G.block b).insts, I.op.isPhi = false)
  (hM : ∀ v, Slots (M v) (w v) num (lid v) lsz base (cell v) n)
include hG hphi hM

omit [DecidableEq ι] in
/-- Whoever makes a step leaves the sizes and the slots to the others. -/
theorem Rises.together : Together (G.ExecOwn M w) (G.ExecShared M w) (fun _ => True) (fun _ => true)
    (fun _ _ => False) fun _ => Merges G n slots num lsz base := by
  rintro i ⟨⟨p, e⟩, m⟩ ⟨p', e', m'⟩ es ⟨⟨q, f⟩, k⟩ ⟨rfl, rfl, hent, hcommon⟩ hx -
  cases p' with
  | returned => cases hx
  | inside pred b =>
    have hent := hent pred b rfl
    have hcommon : pred ≠ none → Common n slots num lsz base e ∧ Common n slots num lsz base e' := by
      intro hpred
      obtain ⟨q, rfl⟩ := Option.ne_none_iff_exists'.mp hpred
      exact hcommon q b rfl
    obtain ⟨t', hx', hmem⟩ := hG.exec_congr hphi hent hcommon hx
    have hown := hG.common_exec hphi (hM i) hent (fun h => (hcommon h).1) hx
    have hall := hG.common_exec hphi (hM i) hent (fun h => (hcommon h).2) hx'
    rw [Place.place_config] at hx'
    rw [Place.state_config] at hmem hown hall
    refine ⟨es, (q, t'), hx', .refl es, ⟨rfl, hmem, fun pred' b' hq => ?_, fun _ _ _ => ⟨hown, hall⟩⟩,
      fun j _ l l' hj => ⟨hj.place, hmem, hj.entered, fun q b h => ⟨(hj.common q b h).1, hall⟩⟩⟩
    obtain rfl : q = .inside pred' b' := hq
    cases hx with
    | branch _ hd => exact Function.entered_of_branch (hent.mem hG.ready.valid) hent.reachable hd

theorem Rises.merges [Nonempty ι] {m : Cells Val Val} {ts : List (ι × List (Act Val))}
    {c : Items ι Val} (hr : Replay (Turn (G.ExecOwn M w)) (G.items ι m) ts c) : ∃ c' : Merged ι Val,
    Replay (Turn (G.ExecShared M w)) (G.merged ι m) ts c' ∧ (∀ v, c'.own v = (c.own v).1) ∧
      c'.shared.mem = c.shared := by
  obtain ⟨ts', c', hr', hf, hR⟩ := (hG.together hphi hM).run (t := G.merged ι m) hr
    (fun _ _ _ _ => trivial) fun v =>
      ⟨rfl, rfl, fun pred b h => by cases h; rfl, fun q b h => by cases h⟩
  have hts : ts' = ts := by simpa [keptTurns] using hf.keptTurns
  obtain ⟨v⟩ := ‹Nonempty ι›
  exact ⟨c', hts ▸ hr', fun v => (hR v).place, (hR v).mem⟩

end

/-- A run through `F₀` is one through `G` on common registers. -/
theorem Onto.merges {ι Val : Type} [DecidableEq ι] [Nonempty ι] [DecidableEq Val]
    {M : ι → Machine Val} {w : ι → WorkItem Val} {num : Nat → Val} {lid : ι → Dims} {lsz : Dims}
    {base : InstId → Val} {cell : ι → InstId → Val} {F₀ G : Function} {n : InstId}
    {slots slots' : List Instruction} {keep : Act Val → Bool} {X : InstId → Prop} {P : Val → Prop}
    (h : Onto M w cell keep X P F₀ n slots G) (hG : Rises n [] slots' G)
    (hphi : ∀ b ∈ G.layout, ∀ I ∈ (G.block b).insts, I.op.isPhi = false)
    (hM : ∀ v, Slots (M v) (w v) num (lid v) lsz base (cell v) n) {m : Cells Val Val}
    {ts : List (ι × List (Act Val))} {c : Items ι Val}
    (hr : Replay (Turn (F₀.ExecOwn M w)) (F₀.items ι m) ts c)
    (hoff : ∀ x ∈ ts, ∀ y ∈ x.2, y.KeepsOff cell F₀.freshInst) :
    ∃ ts' c', Replay (Turn (G.ExecShared M w)) (G.merged ι m) ts' c' ∧
      keptTurns keep ts' = keptTurns keep ts ∧ (∀ v, c'.own v = (c.own v).1) ∧
      c.shared.AgreeOn P c'.shared.mem := by
  obtain ⟨ts₁, c₁, hr₁, hkept, -, hsame⟩ := h.spills m ts c hr hoff
  obtain ⟨c₂, hr₂, hplace, hmem⟩ := hG.merges hphi hM hr₁
  exact ⟨ts₁, c₂, hr₂, hkept, fun v => (hplace v).trans (hsame.place v), hmem ▸ hsame.mem⟩

/-- All work-items can use the registers of one: whatever they do in `F`, in any order, they do in the
function with the slots on common registers, turn by turn, and with the same memory. -/
theorem runOnFunction_sharesRegisters {ι Val : Type} [DecidableEq ι] [Nonempty ι] [DecidableEq Val]
    {M : ι → Machine Val} {w : ι → WorkItem Val} {num : Nat → Val} {lid : ι → Dims} {lsz : Dims}
    {base : InstId → Val} {elem : Val → Nat → Val} {F G : Function}
    {users : Function → InstId → List InstId} (hF : SSA F) (hops : F.OperandsDefined)
    (hdef : F.DefinesBeforeUse) (husers : ∀ H i u, u ∈ users H i ↔ u ∈ H.useList i)
    (hM : WorkGroup M w num lid lsz base elem F.freshInst) (h : runOnFunction users F = .ok G)
    {m : Cells Val Val} {ts : List (ι × List (Act Val))} {c : Items ι Val}
    (hr : Replay (Turn (F.ExecOwn M w)) (F.items ι m) ts c)
    (hoff : ∀ x ∈ ts, ∀ y ∈ x.2,
      y.KeepsOff (fun v => slotCell base elem lsz (lid v)) F.freshInst) :
    ∃ ts' c', Replay (Turn (G.ExecShared M w)) (G.merged ι m) ts' c' ∧
      keptTurns (remains F) ts' = keptTurns (remains F) ts ∧
      (∀ v, c'.own v = (c.own v).1) ∧
      c.shared.AgreeOn (fun a => ∀ v k, F.freshInst ≤ k → a ≠ slotCell base elem lsz (lid v) k)
        c'.shared.mem := by
  obtain ⟨slots, honto⟩ := onto_runOnFunction hF hops husers hM h
  obtain ⟨slots', hG⟩ := rises_runOnFunction hF hops hdef husers h
  obtain ⟨-, hphi⟩ := left_runOnFunction hF hops husers h
  exact honto.merges hG hphi hM.slots hr hoff

/-- The work-items that take turns end in the same block of registers. -/
theorem runOnFunction_sharesRegisters_swap : ∃ G ts c, runOnFunction Function.useList swap = .ok G ∧
    Replay (Turn (G.ExecShared (fun _ => swapMachine) swapId)) (G.merged Bool fun _ => none) ts c ∧
      (∀ v, c.own v = .returned) ∧ keptTurns (remains swap) ts = swapKept := by
  obtain ⟨G, hG⟩ := swap_ok
  obtain ⟨d, hr, hd⟩ := run_swapRun
  obtain ⟨ts, c, hr', hkept, hplace, -⟩ := runOnFunction_sharesRegisters swap_ssa
    swap_operandsDefined swap_definesBeforeUse (fun _ _ _ => .rfl) swap_workGroup hG hr
    keepsOff_swapRun
  exact ⟨G, ts, c, hG, hr', fun v => (hplace v).trans (hd v), hkept.trans (by decide)⟩

end ContextSpill

end VariOCL.IR
