import VariOCL.IR.Sound
import VariOCL.LoopInserter.MoveCalls

/-! The function with its uniform calls at the front of the entry runs as the one without: the calls
return there what they return at their old places. -/

namespace VariOCL.IR.LoopInserter

open Sim

/-- The functions of the work-group return without a memory access. -/
def ReturnsAtOnce {Val : Type} (M : Machine Val) : Prop :=
  ∀ name ∈ uniformBIFs, ∀ vs, ∃ v, M.call (some name) vs = .ret v

/-- The state `s` with the values of the moved calls. -/
def withCalls {Val : Type} (E : Cells InstId Val) (s : State Val) : State Val :=
  s.onto ⟨E, fun _ => none⟩

/-- It is done by something that stays. -/
def keeps {Val : Type} (F : Function) (x : Act Val) : Bool :=
  x.id ∉ (movedCalls F).map Instruction.id

/-! ### The calls at the front -/

section
variable {Val : Type} {M : Machine Val} {w : WorkItem Val} {F G : Function} {I : Instruction}
  {e E : Cells InstId Val} {m : Cells Val Val}

theorem perform_isUniformBIFCall (hM : ReturnsAtOnce M) (h : isUniformBIFCall I) (vs : List Val) :
    ∃ v, M.perform w I.id I.ty I.op vs = some (.ret v) := by
  obtain ⟨i, ty, op⟩ := I
  cases op with
  | call callee args =>
    cases callee with
    | none => cases h
    | some name =>
      have hname : name ∈ uniformBIFs := List.contains_iff_mem.mp h
      obtain ⟨v, hv⟩ := hM name hname vs
      have hother : ∀ n ∈ uniformBIFs, n ≠ "barrier" ∧ n ∉ idBuiltins := by decide
      obtain ⟨hbarrier, hid⟩ := hother name hname
      exact ⟨v, by simp only [Machine.perform, if_neg hbarrier, if_neg hid, hv]⟩
  | _ => cases h

variable [DecidableEq Val]

/-- What the calls leave when they are executed first. -/
structure Front (M : Machine Val) (w : WorkItem Val) (F : Function) (m : Cells Val Val)
    (E : Cells InstId Val) (front : List (Act Val)) : Prop where
  exec : M.execInsts w (movedCalls F) ⟨fun _ => none, m⟩ = some (⟨E, m⟩, front)
  computed : ∀ c ∈ movedCalls F, M.Computed w E c
  ids : ∀ x ∈ front, x.id ∈ (movedCalls F).map Instruction.id

theorem execInsts_calls {cs : List Instruction} (hM : ReturnsAtOnce M)
    (hcs : ∀ c ∈ cs, isUniformBIFCall c) (hn : (cs.map Instruction.id).Nodup)
    (hord : ∀ pre c post, cs = pre ++ c :: post → ∀ j, .inst j ∈ c.op.operands →
      j ∈ pre.map Instruction.id) (m : Cells Val Val) : ∃ E es,
      M.execInsts w cs ⟨fun _ => none, m⟩ = some (⟨E, m⟩, es) ∧
        (∀ c ∈ cs, M.Computed w E c) ∧ ∀ x ∈ es, x.id ∈ cs.map Instruction.id := by
  induction cs using List.reverseRecOn with
  | nil => exact ⟨fun _ => none, [], rfl, nofun, nofun⟩
  | append_singleton cs c ih =>
    rw [List.map_append, List.map_singleton] at hn ⊢
    have hnot : ∀ i ∈ cs.map Instruction.id, i ≠ c.id := fun i hi =>
      (List.nodup_append.mp hn).2.2 i hi c.id List.mem_cons_self
    obtain ⟨E, es, hexec, hcomp, hids⟩ := ih
      (fun d hd => hcs d (List.mem_append_left _ hd)) (List.nodup_append.mp hn).1
      fun pre d post hsplit => hord pre d (post ++ [c]) (by rw [hsplit]; simp)
    have hops := hord cs c [] rfl
    obtain ⟨vs, hvs⟩ := Machine.exists_readAll (M := M) (e := E) fun j hj => by
      obtain ⟨d, hd, rfl⟩ := List.mem_map.mp (hops j hj)
      obtain ⟨-, v, -, -, hv⟩ := hcomp d hd
      rw [hv]
      rfl
    obtain ⟨v, hv⟩ := perform_isUniformBIFCall (w := w) hM
      (hcs c (List.mem_append_right _ List.mem_cons_self)) vs
    have hc := Machine.execInst_of_ret (s := ⟨E, m⟩) vs hvs hv
    have hself : ∀ j ∈ cs.map Instruction.id, E.set c.id v j = E j := fun j hj =>
      Cells.set_ne _ _ (hnot j hj)
    refine ⟨E.set c.id v, es ++ ([.value c.id v] ++ []),
      Machine.execInsts_append_of_some hexec ?_, ?_, ?_⟩
    · rw [Machine.execInsts, hc]
      rfl
    · intro d hd
      rcases List.mem_append.mp hd with hd | hd
      · refine (hcomp d hd).mono (fun j hj => hself j ?_) (hself _ (List.mem_map_of_mem hd))
        obtain ⟨pre, post, rfl⟩ := List.append_of_mem hd
        have hj := hord pre d (post ++ [c]) (by simp) j hj
        rw [List.map_append]
        exact List.mem_append_left _ hj
      · rw [List.mem_singleton.mp hd]
        exact ⟨vs, v, (Machine.readAll_congr fun j hj => hself j (hops j hj)).trans hvs, hv,
          Cells.set_self ..⟩
    · intro x hx
      rcases List.mem_append.mp hx with hx | hx
      · exact List.mem_append_left _ (hids x hx)
      · rw [List.append_nil, List.mem_singleton] at hx
        rw [hx]
        exact List.mem_append_right _ List.mem_cons_self

theorem exists_front (hF : F.Valid) (hM : ReturnsAtOnce M) (hord : MovedInOrder F)
    (m : Cells Val Val) : ∃ E front, Front M w F m E front := by
  obtain ⟨E, front, hexec, hcomp, hids⟩ := execInsts_calls (w := w) hM (fun c hc => by
    obtain ⟨-, -, -, hbif⟩ := (mem_movedCalls hF).mp hc
    exact hbif) (nodup_movedCalls hF) hord m
  exact ⟨E, front, hexec, hcomp, hids⟩

end

/-! ### What is left runs on the values of the calls -/

section
variable {Val : Type} {M : Machine Val} {w : WorkItem Val} {F G : Function} {c I : Instruction}
  {e e' e'' E : Cells InstId Val} {s t : State Val} {i : InstId} {v : Val} {vs : List Val}
  {pred : Option BlockId} {Is : List Instruction} {es : List (Act Val)}

/-- Calls that have been executed at their old places have returned what they return at the front. -/
def Agrees (F : Function) (E e : Cells InstId Val) : Prop :=
  ∀ i ∈ (movedCalls F).map Instruction.id, ∀ v, e i = some v → E i = some v

theorem Agrees.set (h : Agrees F E e) (hv : i ∈ (movedCalls F).map Instruction.id → E i = some v) :
    Agrees F E (e.set i v) := by
  intro j hj x hx
  by_cases hji : j = i
  · subst hji
    rw [Cells.set_self] at hx
    rw [hv hj, hx]
  · rw [Cells.set_ne _ _ hji] at hx
    exact h j hj x hx

theorem Agrees.onto (h : Agrees F E e) (hi : i ∈ (movedCalls F).map Instruction.id) :
    e.onto E i = E i := by
  cases he : e i with
  | none => rw [Cells.onto, he, Option.none_or]
  | some v => rw [Cells.onto_eq_some he, h i hi v he]

@[simp] theorem mem_withCalls : (withCalls E s).mem = s.mem := by
  funext a
  exact Option.or_none

@[simp] theorem env_withCalls : (withCalls E s).env = s.env.onto E := rfl

theorem withCalls_define (h : Agrees F E s.env) (hi : i ∈ (movedCalls F).map Instruction.id)
    (hv : E i = some v) : withCalls E (s.define i v) = withCalls E s := by
  have henv : (s.env.set i v).onto E = s.env.onto E := by
    rw [Cells.set_onto]
    funext j
    by_cases hji : j = i
    · subst hji
      rw [Cells.set_self, h.onto hi, hv]
    · rw [Cells.set_ne _ _ hji]
  rw [withCalls, withCalls, State.onto, State.onto, State.define, henv]

/-- A moved call has at its old place the value it has at the front. -/
theorem computed_execInst (h : M.Computed w E c) (hag : Agrees F E s.env)
    (hops : ∀ j, .inst j ∈ c.op.operands → j ∈ (movedCalls F).map Instruction.id)
    (hvs : M.readAll s.env c.op.operands = some vs) [DecidableEq Val] :
    ∃ v, M.execInst w c s = some (s.define c.id v, [.value c.id v]) ∧ E c.id = some v := by
  obtain ⟨us, v, hus, hv, hid⟩ := h
  have honto := (Machine.readAll_congr fun j hj => hag.onto (hops j hj)).trans hus
  obtain rfl := Option.some.inj ((Machine.readAll_onto hvs E).symm.trans honto)
  exact ⟨v, Machine.execInst_of_ret vs hvs hv, hid⟩

theorem execPhis_withCalls
    (hread : ∀ I ∈ Is, ∀ v, I.op.incomingFor pred = some v → (M.read e v).isSome) :
    M.execPhis (e.onto E) pred Is (e'.onto E) =
      (M.execPhis e pred Is e').map fun r => (r.1.onto E, r.2) := by
  induction Is generalizing e' with
  | nil => rfl
  | cons I Is ih =>
    obtain ⟨hI, hIs⟩ := List.forall_mem_cons.mp hread
    rw [Machine.execPhis, Machine.execPhis]
    cases hinc : I.op.incomingFor pred with
    | none => rfl
    | some v =>
      obtain ⟨x, hx⟩ := Option.isSome_iff_exists.mp (hI v hinc)
      rw [Option.bind_some, Option.bind_some, Machine.read_onto hx, hx, Option.bind_some,
        Option.bind_some, ← Cells.set_onto, ih hIs, Option.map_map, Option.map_map]
      rfl

theorem keeps_execPhis (hIs : ∀ I ∈ Is, I.id ∉ (movedCalls F).map Instruction.id)
    (hag : Agrees F E e') (h : M.execPhis e pred Is e' = some (e'', es)) :
    Agrees F E e'' ∧ es.filter (keeps F) = es := by
  induction Is generalizing e' es with
  | nil =>
    cases h
    exact ⟨hag, rfl⟩
  | cons I Is ih =>
    obtain ⟨hI, hIs⟩ := List.forall_mem_cons.mp hIs
    obtain ⟨v, -, h⟩ := Option.bind_eq_some_iff.mp h
    obtain ⟨⟨e₁, es₁⟩, hrest, heq⟩ := Option.map_eq_some_iff.mp h
    cases heq
    obtain ⟨hag', hes⟩ := ih hIs (hag.set fun h => absurd h hI) hrest
    have hkeep : keeps F (.value I.id v : Act Val) := decide_eq_true hI
    exact ⟨hag', by rw [List.filter_cons_of_pos hkeep, hes]⟩

theorem taken_withCalls {t : Terminator} (h : ∀ j, .inst j ∈ t.operands → (e j).isSome) :
    M.taken (e.onto E) t = M.taken e t := by
  cases ht : M.taken e t with
  | some k => exact Machine.taken_onto ht E
  | none =>
    obtain ⟨xs, hxs⟩ := Machine.exists_readAll (M := M) h
    cases t with
    | br d => cases ht
    | unreachable => rfl
    | ret v => simp [Machine.taken, Terminator.operands] at ht hxs; simp [ht] at hxs
    | condBr c d d' =>
      obtain ⟨x, hx, -⟩ := Option.bind_eq_some_iff.mp hxs
      rw [Machine.taken, hx] at ht
      cases ht
    | switch c d cs =>
      obtain ⟨x, hx, -⟩ := Option.bind_eq_some_iff.mp hxs
      rw [Machine.taken, hx] at ht
      cases ht

variable [DecidableEq Val]

theorem execInst_withCalls (hvs : M.readAll s.env I.op.operands = some vs) :
    M.execInst w I (withCalls E s) =
      (M.execInst w I s).map fun r => (withCalls E r.1, r.2) := by
  rw [Machine.execInst, Machine.execInst, env_withCalls, Machine.readAll_onto hvs, hvs,
    Option.bind_some, Option.bind_some, mem_withCalls]
  cases M.perform w I.id I.ty I.op vs with
  | none => rfl
  | some p =>
    cases hp : p.run s.mem with
    | none => simp [hp]
    | some r =>
      have hstate : withCalls E ⟨s.env.set I.id r.1, r.2.1⟩ =
          ⟨(s.env.onto E).set I.id r.1, r.2.1⟩ := by
        rw [← Cells.set_onto]
        exact congrArg (State.mk _) mem_withCalls
      simp only [hp, Option.bind_some, Option.map_some, hstate]

/-- What is needed of a list of instructions: every one finds its operands. -/
def Readable (M : Machine Val) (w : WorkItem Val) (Is : List Instruction) (s : State Val) : Prop :=
  ∀ pre I post, Is = pre ++ I :: post → ∀ t es, M.execInsts w pre s = some (t, es) →
    ∃ vs, M.readAll t.env I.op.operands = some vs

theorem Readable.tail (h : Readable M w (I :: Is) s) (hI : M.execInst w I s = some (t, es)) :
    Readable M w Is t := by
  intro pre J post hsplit u es' hpre
  refine h (I :: pre) J post (by rw [hsplit, List.cons_append]) u (es ++ es') ?_
  rw [Machine.execInsts, hI, Option.bind_some, hpre, Option.map_some]

/-- Without its moved calls, a list does the same on the values they have. -/
theorem execInsts_withCalls (hE : Front M w F m E front) (hord : MovedInOrder F)
    (hIs : ∀ I ∈ Is, isUniformBIFCall I → I ∈ movedCalls F)
    (hids : ∀ I ∈ Is, I.id ∈ (movedCalls F).map Instruction.id ↔ isUniformBIFCall I)
    (hread : Readable M w Is s) (hag : Agrees F E s.env) :
    M.execInsts w (Is.filter fun I => !isUniformBIFCall I) (withCalls E s) =
        (M.execInsts w Is s).map (fun r => (withCalls E r.1, r.2.filter (keeps F))) ∧
      ∀ t es, M.execInsts w Is s = some (t, es) → Agrees F E t.env := by
  induction Is generalizing s with
  | nil =>
    refine ⟨rfl, fun t es h => ?_⟩
    cases h
    exact hag
  | cons I Is ih =>
    obtain ⟨hI, hIs⟩ := List.forall_mem_cons.mp hIs
    obtain ⟨hidI, hids⟩ := List.forall_mem_cons.mp hids
    obtain ⟨vs, hvs⟩ := hread [] I Is rfl s [] rfl
    rw [Machine.execInsts]
    cases hbif : isUniformBIFCall I with
    | true =>
      have hc := hI hbif
      have hops : ∀ j, .inst j ∈ I.op.operands → j ∈ (movedCalls F).map Instruction.id := by
        intro j hj
        obtain ⟨pre, post, hsplit⟩ := List.append_of_mem hc
        rw [hsplit, List.map_append]
        exact List.mem_append_left _ (hord pre I post hsplit j hj)
      obtain ⟨v, hexec, hv⟩ := computed_execInst (hE.computed I hc) hag hops hvs
      have hid := hidI.mpr hbif
      obtain ⟨heq, hend⟩ := ih hIs hids (hread.tail hexec) (hag.set fun _ => hv)
      rw [List.filter_cons_of_neg (by simp [hbif]), hexec, Option.bind_some,
        ← withCalls_define hag hid hv, heq]
      have hdrop : keeps F (.value I.id v : Act Val) = false := decide_eq_false fun h => h hid
      constructor
      · rw [Option.map_map]
        congr 1
        funext r
        simp [hdrop]
      · intro t es h
        obtain ⟨r, hr, heq⟩ := Option.map_eq_some_iff.mp h
        cases heq
        exact hend r.1 r.2 hr
    | false =>
      have hid : I.id ∉ (movedCalls F).map Instruction.id := by simp [hidI, hbif]
      rw [List.filter_cons_of_pos (by simp [hbif]), Machine.execInsts, execInst_withCalls hvs]
      cases hexec : M.execInst w I s with
      | none => exact ⟨rfl, fun _ _ h => by cases h⟩
      | some r =>
        obtain ⟨t, es⟩ := r
        obtain ⟨x, hx⟩ := Machine.env_execInst hexec
        have hag' : Agrees F E t.env := by
          rw [hx]
          exact hag.set fun h => absurd h hid
        obtain ⟨heq, hend⟩ := ih hIs hids (hread.tail hexec) hag'
        have hkeep : es.filter (keeps F) = es := List.filter_eq_self.mpr fun y hy =>
          decide_eq_true (by rwa [Machine.id_of_execInst hexec hy])
        rw [Option.map_some, Option.bind_some, Option.bind_some, heq, Option.map_map,
          Option.map_map]
        constructor
        · congr 1
          funext r
          simp [hkeep]
        · intro u es' h
          obtain ⟨r, hr, heq⟩ := Option.map_eq_some_iff.mp h
          cases heq
          exact hend r.1 r.2 hr

end

/-! ### Blocks -/

section
variable {Val : Type} [DecidableEq Val] {M : Machine Val} {w : WorkItem Val} {F G : Function}
  {E : Cells InstId Val} {m : Cells Val Val} {s t : State Val} {b : BlockId} {p : BlockId}
  {pred : Option BlockId} {es front : List (Act Val)} {pre post : List Instruction}
  {c c' : Config Val}

theorem Moved.phis (h : Moved F G) (hF : F.Valid) (hb : b ∈ F.layout) :
    (G.block b).insts.takeWhile (·.op.isPhi) = (F.block b).insts.takeWhile (·.op.isPhi) ∧
      (G.block b).insts.dropWhile (·.op.isPhi) = (if b = F.entry then movedCalls F else []) ++
        ((F.block b).insts.dropWhile (·.op.isPhi)).filter fun I => !isUniformBIFCall I := by
  have hP : ∀ I ∈ (F.block b).insts.takeWhile (·.op.isPhi), I.op.isPhi := fun I hI =>
    List.mem_takeWhile_imp (p := fun I : Instruction => I.op.isPhi) hI
  have hkept : ((F.block b).insts.takeWhile (·.op.isPhi)).filter (fun I => !isUniformBIFCall I) =
      (F.block b).insts.takeWhile (·.op.isPhi) := by
    refine List.filter_eq_self.mpr fun I hI => ?_
    cases hbif : isUniformBIFCall I with
    | true => exact absurd ((isPhi_of_isUniformBIFCall hbif).symm.trans (hP I hI)) Bool.false_ne_true
    | false => rfl
  have hcalls : ∀ I ∈ if b = F.entry then movedCalls F else [], I.op.isPhi = false := by
    intro I hI
    split at hI
    · obtain ⟨-, -, -, hbif⟩ := (mem_movedCalls hF).mp hI
      exact isPhi_of_isUniformBIFCall hbif
    · cases hI
  have hR : ∀ I ∈ (if b = F.entry then movedCalls F else []) ++
      ((F.block b).insts.dropWhile (·.op.isPhi)).filter (fun I => !isUniformBIFCall I),
        I.op.isPhi = false := by
    intro I hI
    rcases List.mem_append.mp hI with hI | hI
    · exact hcalls I hI
    · exact hF.phisFirst b hb I (List.mem_filter.mp hI).1
  have hinsts : (G.block b).insts = (F.block b).insts.takeWhile (·.op.isPhi) ++
      ((if b = F.entry then movedCalls F else []) ++
        ((F.block b).insts.dropWhile (·.op.isPhi)).filter fun I => !isUniformBIFCall I) := by
    rw [h.insts b hb]
    nth_rewrite 1 [← List.takeWhile_append_dropWhile (p := fun I : Instruction => I.op.isPhi)
      (l := (F.block b).insts)]
    rw [List.filter_append, hkept]
    by_cases hbe : b = F.entry
    · subst hbe
      have hnil : (F.block F.entry).insts.takeWhile (·.op.isPhi) = [] := by
        refine List.eq_nil_iff_forall_not_mem.mpr fun I hI => ?_
        have hphi := hF.entryPhis I ((List.takeWhile_sublist _).subset hI)
        exact Bool.false_ne_true (hphi.symm.trans (hP I hI))
      rw [hnil, List.nil_append, List.nil_append]
    · rw [if_neg hbe, List.nil_append, List.nil_append]
  rw [hinsts]
  exact ⟨takeWhile_isPhi hP hR, dropWhile_isPhi hP hR⟩

/-- The states of the two functions between the same blocks. -/
inductive Beside (F : Function) (E : Cells InstId Val) (m : Cells Val Val) :
    Config Val → Config Val → Prop
  | start : Beside F E m (.inside none F.entry ⟨fun _ => none, m⟩)
      (.inside none F.entry ⟨fun _ => none, m⟩)
  | inside {p b : BlockId} {s : State Val} : b ≠ F.entry → Agrees F E s.env →
      Beside F E m (.inside (some p) b s) (.inside (some p) b (withCalls E s))
  | returned (s : State Val) : Beside F E m (.returned s) (.returned (withCalls E s))

omit [DecidableEq Val] in
theorem Beside.eq_inside {c' : Config Val} (h : Beside F E m (.inside pred b s) c') :
    ∃ s', c' = .inside pred b s' := by
  cases h with
  | start => exact ⟨_, rfl⟩
  | inside _ _ => exact ⟨_, rfl⟩

omit [DecidableEq Val] in
theorem Beside.inside_eq {c : Config Val} (h : Beside F E m c (.inside pred b s')) :
    ∃ s, c = .inside pred b s := by
  cases h with
  | start => exact ⟨_, rfl⟩
  | inside _ _ => exact ⟨_, rfl⟩

/-- In a block, `G` does what `F` does without its calls; in the entry it makes them all first. -/
theorem Moved.execUpTo (h : Moved F G) (hF : F.Valid) (hssa : F.DefinesBeforeUse)
    (hord : MovedInOrder F) (hE : Front M w F m E front)
    {s' : State Val} (hs : Beside F E m (.inside pred b s) (.inside pred b s'))
    (hholds : F.Holds (.inside pred b s))
    (hsplit : (F.block b).insts.dropWhile (·.op.isPhi) = pre ++ post) :
    M.execUpTo w (G.block b) pred ((if b = F.entry then movedCalls F else []) ++
        pre.filter fun I => !isUniformBIFCall I) s' =
      (M.execUpTo w (F.block b) pred pre s).map (fun r => (withCalls E r.1,
        (if b = F.entry then front else []) ++ r.2.filter (keeps F))) ∧
      ∀ t es, M.execUpTo w (F.block b) pred pre s = some (t, es) → Agrees F E t.env := by
  have hb := hholds.1.mem hF
  have hpre : ∀ I ∈ pre, I ∈ (F.block b).insts := fun I hI =>
    (List.dropWhile_sublist _).subset (hsplit ▸ List.mem_append_left post hI)
  have hP : ∀ I ∈ (F.block b).insts.takeWhile (·.op.isPhi),
      I ∈ (F.block b).insts ∧ I.id ∉ (movedCalls F).map Instruction.id := by
    intro I hI
    have hmem := (List.takeWhile_sublist _).subset hI
    have hphi := List.mem_takeWhile_imp (p := fun I : Instruction => I.op.isPhi) hI
    refine ⟨hmem, fun hid => ?_⟩
    have hbif := (id_mem_movedCalls hF hb hmem).mp hid
    exact Bool.false_ne_true ((isPhi_of_isUniformBIFCall hbif).symm.trans hphi)
  have hag : Agrees F E s.env := by
    cases hs with
    | start => exact nofun
    | inside _ hag => exact hag
  -- once the PHIs have their values, and at the front the calls, the lists are in step
  have hrest : ∀ e es₁, M.execPhis s.env pred ((F.block b).insts.takeWhile (·.op.isPhi)) s.env =
      some (e, es₁) → (M.execInsts w (pre.filter fun I => !isUniformBIFCall I)
        (withCalls E ⟨e, s.mem⟩) = (M.execInsts w pre ⟨e, s.mem⟩).map
          (fun r => (withCalls E r.1, r.2.filter (keeps F))) ∧
        ∀ t es, M.execInsts w pre ⟨e, s.mem⟩ = some (t, es) → Agrees F E t.env) ∧
        es₁.filter (keeps F) = es₁ := by
    intro e es₁ hphis
    obtain ⟨hag', hkeep⟩ := keeps_execPhis (fun I hI => (hP I hI).2) hag hphis
    refine ⟨execInsts_withCalls hE hord (fun I hI hbif => (mem_movedCalls hF).mpr
      ⟨b, hb, hpre I hI, hbif⟩) (fun I hI => id_mem_movedCalls hF hb (hpre I hI)) ?_ hag', hkeep⟩
    intro pre' I post' hsplit' t es ht
    have hsplit : (F.block b).insts.dropWhile (·.op.isPhi) = pre' ++ I :: (post' ++ post) := by
      rw [hsplit, hsplit', List.append_assoc, List.cons_append]
    have ht : M.execUpTo w (F.block b) pred pre' s = some (t, es₁ ++ es) := by
      rw [Machine.execUpTo, hphis, Option.bind_some, ht, Option.map_some]
    exact Machine.exists_readAll (hholds.operands hF hssa hsplit ht)
  have hphis := (h.phis hF hb).1
  rw [Machine.execUpTo, Machine.execUpTo, hphis]
  constructor
  · cases hs with
    | start =>
      have hnil : (F.block F.entry).insts.takeWhile (·.op.isPhi) = [] := by
        refine List.eq_nil_iff_forall_not_mem.mpr fun I hI => ?_
        have hphi := List.mem_takeWhile_imp (p := fun I : Instruction => I.op.isPhi) hI
        exact Bool.false_ne_true ((hF.entryPhis I (hP I hI).1).symm.trans hphi)
      have hstate : withCalls E ⟨fun _ => none, m⟩ = ⟨E, m⟩ := by
        rw [withCalls, State.onto]
        congr 1
        funext a
        exact Option.or_none
      obtain ⟨⟨heq, -⟩, -⟩ := hrest (fun _ => none) [] (by rw [hnil]; rfl)
      rw [hstate] at heq
      rw [hnil, if_pos rfl, if_pos rfl, Machine.execPhis, Option.bind_some, Option.bind_some,
        Machine.execInsts_append, hE.exec, Option.bind_some, heq, Option.map_map, Option.map_map,
        Option.map_map]
      rfl
    | inside hne _ =>
      have hread : ∀ I ∈ (F.block b).insts.takeWhile (·.op.isPhi), ∀ v,
          I.op.incomingFor (some _) = some v → (M.read s.env v).isSome := fun I hI v hv =>
        hholds.incoming hF hssa (hP I hI).1 hv
      rw [if_neg hne, if_neg hne, env_withCalls, execPhis_withCalls hread]
      cases hx : M.execPhis s.env (some _) ((F.block b).insts.takeWhile (·.op.isPhi)) s.env with
      | none => rfl
      | some r =>
        obtain ⟨⟨heq, -⟩, hkeep⟩ := hrest r.1 r.2 hx
        have hstate : (⟨r.1.onto E, (withCalls E s).mem⟩ : State Val) =
            withCalls E ⟨r.1, s.mem⟩ := rfl
        rw [Option.map_some, Option.bind_some, Option.bind_some, List.nil_append, hstate, heq,
          Option.map_map, Option.map_map]
        congr 1
        funext t
        simp [hkeep]
  · intro t es hx
    obtain ⟨⟨e, es₁⟩, hphis, hx⟩ := Option.bind_eq_some_iff.mp hx
    obtain ⟨⟨u, es₂⟩, hinsts, heq⟩ := Option.map_eq_some_iff.mp hx
    cases heq
    exact (hrest e es₁ hphis).1.2 u es₂ hinsts

omit [DecidableEq Val] in
theorem filter_keeps_front (h : ∀ x ∈ front, x.id ∈ (movedCalls F).map Instruction.id) :
    (if b = F.entry then front else []).filter (keeps F) = [] := by
  refine List.filter_eq_nil_iff.mpr fun x hx => ?_
  have hx : x ∈ front := by
    split at hx
    · exact hx
    · cases hx
  simpa [keeps] using h x hx

theorem Moved.execBlock (h : Moved F G) (hF : F.Valid) (hssa : F.DefinesBeforeUse)
    (hord : MovedInOrder F) (hE : Front M w F m E front)
    {s' : State Val} (hs : Beside F E m (.inside pred b s) (.inside pred b s'))
    (hholds : F.Holds (.inside pred b s)) :
    M.execBlock w (G.block b) pred s' = (M.execBlock w (F.block b) pred s).map (fun r =>
        (r.1, withCalls E r.2.1, (if b = F.entry then front else []) ++ r.2.2.filter (keeps F))) ∧
      ∀ i t es, M.execBlock w (F.block b) pred s = some (i, t, es) → Agrees F E t.env := by
  have hb := hholds.1.mem hF
  obtain ⟨heq, hag⟩ := h.execUpTo hF hssa hord hE hs hholds (List.append_nil _).symm
  rw [Machine.execBlock_eq, Machine.execBlock_eq, (h.phis hF hb).2, heq, h.term, h.termId]
  cases hx : M.execUpTo w (F.block b) pred ((F.block b).insts.dropWhile (·.op.isPhi)) s with
  | none => exact ⟨rfl, nofun⟩
  | some r =>
    rw [Option.map_some, Option.bind_some, Option.bind_some, env_withCalls,
      taken_withCalls (hholds.terminator hF hssa hx), Option.map_map]
    constructor
    · congr 1
      funext i
      have hterm : keeps F (.branch (F.block b).termId i : Act Val) =
          true := decide_eq_true (termId_not_mem_movedCalls hF hb)
      simp [hterm]
    · intro i t es h
      obtain ⟨i, -, heq⟩ := Option.map_eq_some_iff.mp h
      cases heq
      exact hag r.1 r.2 hx

/-- Beside each other, at what has a value in `F`. -/
def InStep (F : Function) (E : Cells InstId Val) (m : Cells Val Val) (c c' : Config Val) : Prop :=
  F.Holds c ∧ Beside F E m c c'

theorem Moved.simulates (h : Moved F G) (hF : F.Valid) (hssa : F.DefinesBeforeUse)
    (hord : MovedInOrder F) (hE : Front M w F m E front) :
    Simulates (keeps F) (InStep F E m) (F.Exec M w) (G.Exec M w) := by
  rintro c c' es d ⟨hholds, hc⟩ hx
  have hstep := hholds.step hF hx
  cases hx with
  | @branch pred b d i s t _ hx hd =>
    obtain ⟨s', rfl⟩ := hc.eq_inside
    obtain ⟨heq, hag⟩ := h.execBlock hF hssa hord hE hc hholds
    rw [hx, Option.map_some] at heq
    rw [← h.succs] at hd
    refine ⟨_, _, .single (.branch heq hd), ?_, hstep, .inside ?_ (hag _ _ _ hx)⟩
    · simp [filter_keeps_front hE.ids]
    · rintro rfl
      rw [h.succs] at hd
      exact hF.entryPreds b (hholds.1.mem hF) (List.mem_of_getElem? hd)
  | @ret pred b s t _ hx =>
    obtain ⟨s', rfl⟩ := hc.eq_inside
    obtain ⟨heq, -⟩ := h.execBlock hF hssa hord hE hc hholds
    rw [hx, Option.map_some] at heq
    refine ⟨_, _, .single (.ret heq), ?_, hstep, .returned _⟩
    simp [filter_keeps_front hE.ids]

theorem Moved.simulated (h : Moved F G) (hF : F.Valid) (hssa : F.DefinesBeforeUse)
    (hord : MovedInOrder F) (hE : Front M w F m E front) :
    Simulates (keeps F) (fun c' c => InStep F E m c c') (G.Exec M w) (F.Exec M w) := by
  rintro c' c es d ⟨hholds, hc⟩ hx
  cases hx with
  | @branch pred b d i s' t' _ hx hd =>
    obtain ⟨s, rfl⟩ := hc.inside_eq
    obtain ⟨heq, hag⟩ := h.execBlock hF hssa hord hE hc hholds
    rw [hx] at heq
    obtain ⟨⟨j, t, es'⟩, hx', heq⟩ := Option.map_eq_some_iff.mp heq.symm
    cases heq
    rw [h.succs] at hd
    have hstep : F.Exec M w (.inside pred b s) es' (.inside (some b) d t) := .branch hx' hd
    refine ⟨es', _, .single hstep, ?_, hholds.step hF hstep, .inside ?_ (hag _ _ _ hx')⟩
    · simp [filter_keeps_front hE.ids]
    · rintro rfl
      exact hF.entryPreds b (hholds.1.mem hF) (List.mem_of_getElem? hd)
  | @ret pred b s' t' _ hx =>
    obtain ⟨s, rfl⟩ := hc.inside_eq
    obtain ⟨heq, -⟩ := h.execBlock hF hssa hord hE hc hholds
    rw [hx] at heq
    obtain ⟨⟨j, t, es'⟩, hx', heq⟩ := Option.map_eq_some_iff.mp heq.symm
    cases heq
    have hstep : F.Exec M w (.inside pred b s) es' (.returned t) := .ret hx'
    refine ⟨es', _, .single hstep, ?_, hholds.step hF hstep, .returned t⟩
    simp [filter_keeps_front hE.ids]

/-! ### Executions of one instruction -/

variable {es' : List (Act Val)} {s' : State Val} {u : InstId} {I : Instruction}

/-- What is executed has been the same, and every value is there with others. -/
def Alongside (F : Function) (es es' : List (Act Val)) (s s' : State Val) : Prop :=
  es'.filter (keeps F) = es.filter (keeps F) ∧ s'.mem = s.mem ∧ s.env.Le s'.env

/-- The instructions that stay are executed in `G` as in `F`, on the same values; the calls are, on
the same operands. -/
structure SameValues (M : Machine Val) (w : WorkItem Val) (m : Cells Val Val) (F G : Function) :
    Prop where
  uses : ∀ es u s, u ∉ (movedCalls F).map Instruction.id → F.Arrives M w (F.start m) es u s →
    ∃ es' s', G.Arrives M w (G.start m) es' u s' ∧ Alongside F es es' s s'
  only : ∀ es' u s', u ∉ (movedCalls F).map Instruction.id → G.Arrives M w (G.start m) es' u s' →
    ∃ es s, F.Arrives M w (F.start m) es u s ∧ Alongside F es es' s s'
  calls : ∀ c ∈ movedCalls F, ∀ es s, F.Arrives M w (F.start m) es c.id s → ∃ es' s',
    G.Arrives M w (G.start m) es' c.id s' ∧ ∀ j, .inst j ∈ c.op.operands → s'.env j = s.env j

theorem alongside_withCalls {es₁ es₂ : List (Act Val)} (hE : Front M w F m E front)
    (h : es₂.filter (keeps F) = es₁.filter (keeps F)) (s : State Val) (es : List (Act Val)) :
    Alongside F (es₁ ++ es) (es₂ ++ ((if b = F.entry then front else []) ++ es.filter (keeps F))) s
      (withCalls E s) := by
  refine ⟨?_, mem_withCalls, fun i v hv => Cells.onto_eq_some hv E⟩
  simp [h, filter_keeps_front hE.ids]

omit [DecidableEq Val] in
theorem inStep_start : InStep F E m (.inside none F.entry ⟨fun _ => none, m⟩)
    (.inside none F.entry ⟨fun _ => none, m⟩) := ⟨⟨rfl, nofun⟩, .start⟩

/-- Nothing is left out where an instruction that stays is next. -/
theorem head?_filter (hF : F.Valid) (hb : b ∈ F.layout)
    (hpost : ∀ I ∈ post, I ∈ (F.block b).insts)
    (hu : (post.head?.map Instruction.id).getD (F.block b).termId ∉
      (movedCalls F).map Instruction.id) :
    (post.filter fun I => !isUniformBIFCall I).head? = post.head? := by
  cases post with
  | nil => rfl
  | cons I post =>
    rw [List.head?_cons, Option.map_some, Option.getD_some,
      id_mem_movedCalls hF hb (hpost I List.mem_cons_self)] at hu
    rw [List.filter_cons_of_pos (by simpa using hu), List.head?_cons, List.head?_cons]

theorem Moved.uses (h : Moved F G) (hF : F.Valid) (hssa : F.DefinesBeforeUse)
    (hord : MovedInOrder F) (hE : Front M w F m E front)
    (hu : u ∉ (movedCalls F).map Instruction.id) (hx : F.Arrives M w (F.start m) es u s) :
    ∃ es' s', G.Arrives M w (G.start m) es' u s' ∧ Alongside F es es' s s' := by
  obtain ⟨hrun, hsplit, hup⟩ := hx
  obtain ⟨es₂, c', hrun', hes, hholds, hc⟩ :=
    (h.simulates hF hssa hord hE).run hrun inStep_start
  obtain ⟨s', rfl⟩ := hc.eq_inside
  have hb := hholds.1.mem hF
  obtain ⟨heq, -⟩ := h.execUpTo hF hssa hord hE hc hholds hsplit
  rw [hup, Option.map_some] at heq
  rw [← h.entry] at hrun'
  have hrest := (h.phis hF hb).2
  rw [hsplit, List.filter_append, ← List.append_assoc] at hrest
  have harrives := Function.Arrives.intro hrun' hrest heq
  rw [head?_filter hF hb (fun I hI => (List.dropWhile_sublist _).subset
    (hsplit ▸ List.mem_append_right _ hI)) hu, h.termId] at harrives
  exact ⟨_, _, harrives, alongside_withCalls hE hes _ _⟩

/-- Where an instruction that stays is next in `G`, it is next in `F`. -/
theorem exists_split {R pre' post' : List Instruction} {q : Instruction → Bool}
    (h : R.filter q = pre' ++ post') :
    ∃ pre post, R = pre ++ post ∧ pre.filter q = pre' ∧ post.head? = post'.head? := by
  obtain ⟨l₁, l₂, rfl, rfl, rfl⟩ := List.filter_eq_append_iff.mp h
  refine ⟨l₁ ++ l₂.takeWhile fun I => !q I, l₂.dropWhile fun I => !q I, ?_, ?_, ?_⟩
  · rw [List.append_assoc, List.takeWhile_append_dropWhile]
  · rw [List.filter_append]
    refine (congrArg _ (List.filter_eq_nil_iff.mpr fun I hI => ?_)).trans (List.append_nil _)
    simpa using List.mem_takeWhile_imp (p := fun I : Instruction => !q I) hI
  · rw [List.head?_filter, List.find?_eq_head?_dropWhile_not]

theorem Moved.only (h : Moved F G) (hF : F.Valid) (hssa : F.DefinesBeforeUse)
    (hord : MovedInOrder F) (hE : Front M w F m E front)
    (hu : u ∉ (movedCalls F).map Instruction.id) (hx : G.Arrives M w (G.start m) es' u s') :
    ∃ es s, F.Arrives M w (F.start m) es u s ∧ Alongside F es es' s s' := by
  obtain ⟨hrun, hsplit, hup⟩ := hx
  rename_i pred b s₀ es₁ es₂ pre' post'
  rw [Function.start, h.entry] at hrun
  obtain ⟨es₃, c, hrun', hes, hholds, hc⟩ :=
    (h.simulated hF hssa hord hE).run hrun inStep_start
  obtain ⟨s, rfl⟩ := hc.inside_eq
  have hb := hholds.1.mem hF
  rw [(h.phis hF hb).2] at hsplit
  obtain ⟨y, rfl, hkept⟩ : ∃ y, pre' = (if b = F.entry then movedCalls F else []) ++ y ∧
      ((F.block b).insts.dropWhile (·.op.isPhi)).filter (fun I => !isUniformBIFCall I) =
        y ++ post' := by
    rcases List.append_eq_append_iff.mp hsplit with ⟨y, hy, hkept⟩ | ⟨y, hy, rfl⟩
    · exact ⟨y, hy, hkept⟩
    · cases y with
      | nil => exact ⟨[], by rw [List.append_nil, hy, List.append_nil], rfl⟩
      | cons c y =>
        refine absurd ?_ hu
        have hc : c ∈ if b = F.entry then movedCalls F else [] :=
          hy ▸ List.mem_append_right _ List.mem_cons_self
        split at hc
        · exact List.mem_map_of_mem hc
        · cases hc
  obtain ⟨pre, post, hF', rfl, hhead⟩ := exists_split hkept
  obtain ⟨heq, -⟩ := h.execUpTo hF hssa hord hE hc hholds hF'
  rw [hup] at heq
  obtain ⟨⟨t, es⟩, hup', heq⟩ := Option.map_eq_some_iff.mp heq.symm
  cases heq
  have harrives := Function.Arrives.intro hrun' hF' hup'
  rw [hhead, ← h.termId] at harrives
  exact ⟨_, _, harrives, alongside_withCalls hE hes.symm _ _⟩

theorem Moved.arrives_call (h : Moved F G) (hF : F.Valid) (hssa : F.DefinesBeforeUse)
    (hord : MovedInOrder F) (hE : Front M w F m E front) {c : Instruction}
    (hc : c ∈ movedCalls F) (hx : F.Arrives M w (F.start m) es c.id s) :
    (∀ j, .inst j ∈ c.op.operands → (s.env j).isSome) ∧ Agrees F E s.env := by
  generalize hid : c.id = u at hx
  obtain ⟨hrun, hsplit, hup⟩ := hx
  rename_i pred b s₀ es₁ es₂ pre post
  obtain ⟨-, c', -, -, hholds, hbeside⟩ := (h.simulates hF hssa hord hE).run hrun inStep_start
  obtain ⟨s', rfl⟩ := hbeside.eq_inside
  have hb := hholds.1.mem hF
  obtain ⟨d, hd, hcd, -⟩ := (mem_movedCalls hF).mp hc
  refine ⟨?_, (h.execUpTo hF hssa hord hE hbeside hholds hsplit).2 _ _ hup⟩
  cases post with
  | nil =>
    have hterm : c.id = (F.block b).termId := hid
    exact absurd (hterm ▸ List.mem_map_of_mem hc) (termId_not_mem_movedCalls hF hb)
  | cons I post =>
    have hI := (List.dropWhile_sublist _).subset
      (hsplit ▸ List.mem_append_right pre List.mem_cons_self)
    rw [F.inst_eq_of_id hF.ids hd hb hcd hI hid]
    exact hholds.operands hF hssa hsplit hup

/-- Where a call is next in `F`, its operands are what they are at the front of `G`. -/
theorem Moved.calls (h : Moved F G) (hF : F.Valid) (hssa : F.DefinesBeforeUse)
    (hord : MovedInOrder F) (hE : Front M w F m E front) {c : Instruction}
    (hc : c ∈ movedCalls F) (hx : F.Arrives M w (F.start m) es c.id s) : ∃ es' s',
      G.Arrives M w (G.start m) es' c.id s' ∧ ∀ j, .inst j ∈ c.op.operands → s'.env j = s.env j := by
  obtain ⟨pre, post, hcalls⟩ := List.append_of_mem hc
  have hexec := hE.exec
  rw [hcalls, Machine.execInsts_append] at hexec
  obtain ⟨⟨t, es₁⟩, hpre, hexec⟩ := Option.bind_eq_some_iff.mp hexec
  obtain ⟨⟨t', es₂⟩, hpost, heq⟩ := Option.map_eq_some_iff.mp hexec
  obtain ⟨rfl, -⟩ := Prod.mk.inj heq
  -- what the calls in front of `c` leave stays there
  have hkeep : ∀ j ∈ pre.map Instruction.id, E j = t.env j := by
    intro j hj
    refine Machine.env_execInsts hpost fun hmem => ?_
    have hn := nodup_movedCalls hF
    rw [hcalls, List.map_append] at hn
    exact (List.nodup_append.mp hn).2.2 j hj j hmem rfl
  have hphis := h.phis hF F.entry_mem_layout
  rw [if_pos rfl, hcalls, List.append_assoc, List.cons_append] at hphis
  have hnil : (F.block F.entry).insts.takeWhile (·.op.isPhi) = [] := by
    refine List.eq_nil_iff_forall_not_mem.mpr fun I hI => ?_
    have hphi := List.mem_takeWhile_imp (p := fun I : Instruction => I.op.isPhi) hI
    exact Bool.false_ne_true
      ((hF.entryPhis I ((List.takeWhile_sublist _).subset hI)).symm.trans hphi)
  have hup : M.execUpTo w (G.block G.entry) none pre ⟨fun _ => none, m⟩ = some (t, [] ++ es₁) := by
    rw [Machine.execUpTo, h.entry, hphis.1, hnil, Machine.execPhis, Option.bind_some, hpre,
      Option.map_some]
  refine ⟨[] ++ ([] ++ es₁), t, .intro (.refl (G.start m)) (h.entry ▸ hphis.2) hup,
    fun j hj => ?_⟩
  have hjpre := hord pre c post hcalls j hj
  have hjmem : j ∈ (movedCalls F).map Instruction.id := by
    rw [hcalls, List.map_append]
    exact List.mem_append_left _ hjpre
  obtain ⟨hsome, hag⟩ := h.arrives_call hF hssa hord hE hc hx
  obtain ⟨v, hv⟩ := Option.isSome_iff_exists.mp (hsome j hj)
  rw [hv, ← hkeep j hjpre, hag j hjmem v hv]

/-- The calls may be moved exactly if each uses only constants, arguments, globals and calls that are
moved in front of it. -/
theorem moveUniformBIFCallsToEntry_correct (hF : F.Valid) (hssa : F.DefinesBeforeUse)
    (hM : ReturnsAtOnce M) : ((moveUniformBIFCallsToEntry F).DefinesBeforeUse ∧
      ∀ m, SameValues M w m F (moveUniformBIFCallsToEntry F)) ↔ MovedInOrder F := by
  have h := moved_moveUniformBIFCallsToEntry hF
  constructor
  · exact fun hG => h.inOrder hF hG.1
  · intro hord
    refine ⟨h.definesBeforeUse hF hssa hord, fun m => ?_⟩
    obtain ⟨E, front, hE⟩ := exists_front (w := w) hF hM hord m
    constructor
    · exact fun es u s hu hx => h.uses hF hssa hord hE hu hx
    · exact fun es' u s' hu hx => h.only hF hssa hord hE hu hx
    · exact fun c hc es s hx => h.calls hF hssa hord hE hc hx

end

/-! ### Two functions -/

/-- Every call returns one. -/
def ones : Machine Nat where
  atom _ := 0
  eval _ _ vs := vs.sum
  truth v := v != 0
  caseOf := id
  alloca i _ _ := .ret i
  call _ _ := .ret 1

/-- In a branch, the local size of the last dimension. -/
def lastSize : Function where
  name := "last_size"
  entry := 0
  rest := [1, 2]
  block
    | 0 => ⟨[], 1, .condBr (.argument 0) 1 2⟩
    | 1 => ⟨[⟨2, .int 32, .call (some "get_work_dim") []⟩,
        ⟨3, .int 32, .call (some "get_local_size") [.inst 2]⟩,
        ⟨4, .void, .store (.inst 3) (.argument 1)⟩], 5, .br 2⟩
    | _ => ⟨[], 6, .ret none⟩

theorem lastSize_valid : lastSize.Valid where
  nodup := by decide
  closed := by unfold Function.Closed; decide
  entryPreds := by decide
  ids := by decide
  phisFirst := by decide
  entryPhis := by decide
  incoming := by decide

theorem lastSize_movedInOrder : MovedInOrder lastSize := by
  have hcalls : movedCalls lastSize = [⟨2, .int 32, .call (some "get_work_dim") []⟩,
      ⟨3, .int 32, .call (some "get_local_size") [.inst 2]⟩] := by decide
  intro pre c post h j hj
  rw [hcalls] at h
  match pre with
  | [] =>
    obtain ⟨rfl, -⟩ := List.cons.inj h
    cases hj
  | [d] =>
    obtain ⟨rfl, -⟩ := List.cons.inj h
    obtain ⟨-, h⟩ := List.cons.inj h
    obtain ⟨rfl, -⟩ := List.cons.inj h
    cases hj with
    | head _ => exact List.mem_singleton_self 2
    | tail _ hj => cases hj
  | _ :: _ :: pre =>
    have hlen := congrArg List.length h
    simp at hlen

theorem moveUniformBIFCallsToEntry_correct_lastSize :
    (moveUniformBIFCallsToEntry lastSize).DefinesBeforeUse ∧ ∀ m, SameValues ones
      (fun _ _ => none) m lastSize (moveUniformBIFCallsToEntry lastSize) :=
  (moveUniformBIFCallsToEntry_correct lastSize_valid
    (Function.definesBeforeUse_of_local (by decide) (by decide) (by decide))
    fun _ _ _ => ⟨1, rfl⟩).mpr lastSize_movedInOrder

/-- The local size of a dimension that is read from memory. -/
def chosenSize : Function where
  name := "chosen_size"
  entry := 0
  rest := [1]
  block
    | 0 => ⟨[], 1, .br 1⟩
    | _ => ⟨[⟨2, .int 32, .load (.argument 0)⟩,
        ⟨3, .int 32, .call (some "get_local_size") [.inst 2]⟩,
        ⟨4, .void, .store (.inst 3) (.argument 1)⟩], 5, .ret none⟩

theorem chosenSize_valid : chosenSize.Valid where
  nodup := by decide
  closed := by unfold Function.Closed; decide
  entryPreds := by decide
  ids := by decide
  phisFirst := by decide
  entryPhis := by decide
  incoming := by decide

/-- The call is moved above the load of its dimension. -/
theorem moveUniformBIFCallsToEntry_chosenSize : chosenSize.Valid ∧ chosenSize.DefinesBeforeUse ∧
    ¬ (moveUniformBIFCallsToEntry chosenSize).DefinesBeforeUse := by
  refine ⟨chosenSize_valid, Function.definesBeforeUse_of_local (by decide) (by decide) (by decide),
    fun hG => ?_⟩
  have hord := (moved_moveUniformBIFCallsToEntry chosenSize_valid).inOrder chosenSize_valid hG
  have hcalls : movedCalls chosenSize =
      [] ++ ⟨3, .int 32, .call (some "get_local_size") [.inst 2]⟩ :: [] := by decide
  exact List.not_mem_nil (hord _ _ _ hcalls 2 List.mem_cons_self)

end VariOCL.IR.LoopInserter
