import VariOCL.ContextSpill.Edits
import VariOCL.IR.Arrives
import VariOCL.Sim.Turns

/-! Runs of a function with instructions put in, beside the runs of the function itself. -/

namespace VariOCL

namespace IR

open Sim

/-- What holds of the states of the two functions at the front of a block (`Before`) and within it
(`Rel`), and what carries it on.  The instructions of `head` are executed with the PHIs. -/
structure Splice.Simulated {Val : Type} [DecidableEq Val] (sp : Splice) (F : Function)
    (M : Machine Val) (w : WorkItem Val) (ok : Act Val → Prop) (keep : Act Val → Bool)
    (Q : Act Val → Prop) (head body : BlockId → List Instruction)
    (Before : Option BlockId → BlockId → State Val → State Val → Prop)
    (Rel : State Val → State Val → Prop) : Prop where
  split : ∀ b ∈ F.layout, (F.block b).insts.dropWhile (·.op.isPhi) = head b ++ body b
  enter : ∀ pred b s t e es s₁ es₁, F.Holds (.inside pred b s) → Before pred b s t →
    M.execPhis s.env pred ((F.block b).insts.takeWhile (·.op.isPhi)) s.env = some (e, es) →
    M.execInsts w (head b) ⟨e, s.mem⟩ = some (s₁, es₁) → (∀ x ∈ es₁, ok x) →
    ∃ f ps t₁ ls, M.execPhis t.env pred (sp.phis (F.block b)) t.env = some (f, ps) ∧
      M.execInsts w (sp.top b ++ (head b).flatMap sp.around) ⟨f, t.mem⟩ = some (t₁, ls) ∧
      Follows keep Q (es ++ es₁) (ps ++ ls) ∧ Rel s₁ t₁
  inst : ∀ b ∈ F.layout, ∀ I ∈ body b, ∀ s t s' es, Rel s t → M.execInst w I s = some (s', es) →
    (∀ x ∈ es, ok x) → ∃ t' es', M.execInsts w (sp.around I) t = some (t', es') ∧
      Follows keep Q es es' ∧ Rel s' t'
  leave : ∀ b ∈ F.layout, F.Reachable b → ∀ s t i, Rel s t →
    (∀ j, F.DefinedAbove b (F.block b).termId j → (s.env j).isSome) →
    M.taken s.env (F.block b).term = some i → ∃ t' es',
      M.execInsts w (sp.before (F.block b).termId) t = some (t', es') ∧ Follows keep Q [] es' ∧
      M.taken t'.env ((F.block b).term.mapValues (sp.use (F.block b).termId none)) = some i ∧
      Rel s t' ∧ ∀ d ∈ F.succs b, Before (some b) d s t'

/-- The same place, in states that are related. -/
inductive Config.Placed {Val : Type} (Before : Option BlockId → BlockId → State Val → State Val → Prop)
    (Rel : State Val → State Val → Prop) : Config Val → Config Val → Prop
  | inside {pred : Option BlockId} {b : BlockId} {s t : State Val} : Before pred b s t →
      Placed Before Rel (.inside pred b s) (.inside pred b t)
  | returned {s t : State Val} : Rel s t → Placed Before Rel (.returned s) (.returned t)

section
variable {Val : Type} [DecidableEq Val] {sp : Splice} {F G : Function} {M : Machine Val}
  {w : WorkItem Val} {ok : Act Val → Prop} {keep : Act Val → Bool} {Q : Act Val → Prop}
  {head body : BlockId → List Instruction}
  {Before : Option BlockId → BlockId → State Val → State Val → Prop}
  {Rel : State Val → State Val → Prop} {pred : Option BlockId} {b : BlockId} {s s' t : State Val}
  {c c' d : Config Val} {es : List (Act Val)} {i : Option Nat} {Is : List Instruction}
  (h : sp.Simulated F M w ok keep Q head body Before Rel)
include h

theorem Splice.Simulated.insts (hb : b ∈ F.layout) (hIs : ∀ I ∈ Is, I ∈ body b) (hrel : Rel s t)
    (hx : M.execInsts w Is s = some (s', es)) (hok : ∀ x ∈ es, ok x) :
    ∃ t' es', M.execInsts w (Is.flatMap sp.around) t = some (t', es') ∧ Follows keep Q es es' ∧
      Rel s' t' := by
  induction Is generalizing s t es with
  | nil =>
    cases hx
    exact ⟨t, [], rfl, .refl _, hrel⟩
  | cons I Is ih =>
    obtain ⟨hI, hIs⟩ := List.forall_mem_cons.mp hIs
    obtain ⟨⟨s₁, es₁⟩, hxI, hx⟩ := Option.bind_eq_some_iff.mp hx
    obtain ⟨⟨s₂, es₂⟩, hxs, heq⟩ := Option.map_eq_some_iff.mp hx
    cases heq
    obtain ⟨hok₁, hok₂⟩ := List.forall_mem_append.mp hok
    obtain ⟨t₁, ls₁, hyI, hf₁, hrel₁⟩ := h.inst b hb I hI s t s₁ es₁ hrel hxI hok₁
    obtain ⟨t₂, ls₂, hys, hf₂, hrel₂⟩ := ih hIs hrel₁ hxs hok₂
    exact ⟨t₂, ls₁ ++ ls₂, Machine.execInsts_append_of_some hyI hys, hf₁.append hf₂, hrel₂⟩

theorem Splice.Simulated.execBlock (hsp : F.Spliced sp G) (hF : F.Valid)
    (hholds : F.Holds (.inside pred b s)) (hbefore : Before pred b s t)
    (hx : M.execBlock w (F.block b) pred s = some (i, s', es)) (hok : ∀ x ∈ es, ok x) :
    ∃ t' es', M.execBlock w (G.block b) pred t = some (i, t', es') ∧ Follows keep Q es es' ∧
      Rel s' t' ∧ ∀ d ∈ F.succs b, Before (some b) d s' t' := by
  have hb := hholds.1.mem hF
  have hdef : ∀ j, F.DefinedAbove b (F.block b).termId j → (s'.env j).isSome := by
    intro j hj
    have hx' := hx
    rw [Machine.execBlock_eq] at hx'
    obtain ⟨⟨r, es'⟩, hup, hx'⟩ := Option.bind_eq_some_iff.mp hx'
    obtain ⟨k, -, heq⟩ := Option.map_eq_some_iff.mp hx'
    cases heq
    exact hholds.above hF (List.append_nil _).symm hup rfl hj
  obtain ⟨⟨e, es₁⟩, hphis, hx⟩ := Option.bind_eq_some_iff.mp hx
  obtain ⟨⟨s₂, es₂⟩, hrest, hx⟩ := Option.bind_eq_some_iff.mp hx
  obtain ⟨k, htaken, heq⟩ := Option.map_eq_some_iff.mp hx
  cases heq
  dsimp only at hrest htaken hok hdef ⊢
  rw [h.split b hb, Machine.execInsts_append] at hrest
  obtain ⟨⟨s₁, es₃⟩, hhead, hrest⟩ := Option.bind_eq_some_iff.mp hrest
  obtain ⟨⟨s₂, es₄⟩, hbody, heq⟩ := Option.map_eq_some_iff.mp hrest
  cases heq
  have hok₃ : ∀ x ∈ es₃, ok x := fun x hx =>
    hok x (List.mem_append_left _ (List.mem_append_right _ (List.mem_append_left _ hx)))
  have hok₄ : ∀ x ∈ es₄, ok x := fun x hx =>
    hok x (List.mem_append_left _ (List.mem_append_right _ (List.mem_append_right _ hx)))
  obtain ⟨f, ps, t₁, ls, hphis', hhead', hf₁, hrel₁⟩ :=
    h.enter pred b s t e es₁ s₁ es₃ hholds hbefore hphis hhead hok₃
  obtain ⟨t₂, ls₂, hbody', hf₂, hrel₂⟩ := h.insts hb (fun I hI => hI) hrel₁ hbody hok₄
  obtain ⟨t₃, ls₃, hend, hf₃, htaken', hrel₃, hnext⟩ :=
    h.leave b hb hholds.1.reachable s₂ t₂ i hrel₂ hdef htaken
  have hexec := Machine.execInsts_append_of_some hhead'
    (Machine.execInsts_append_of_some hbody' hend)
  have hlist : sp.rest b (F.block b) = (sp.top b ++ (head b).flatMap sp.around) ++
      ((body b).flatMap sp.around ++ sp.before (F.block b).termId) := by
    rw [Splice.rest, h.split b hb, List.flatMap_append]
    simp only [List.append_assoc]
  refine ⟨t₃, ps ++ (ls ++ (ls₂ ++ ls₃)) ++ [.branch (F.block b).termId i], ?_, ?_, hrel₃, hnext⟩
  · rw [Machine.execBlock, hsp.block b hb, hsp.new.takeWhile_block (hF.phisFirst b hb),
      hsp.new.dropWhile_block (hF.phisFirst b hb), hphis', Option.bind_some, hlist, hexec,
      Option.bind_some]
    exact Option.map_eq_some_iff.mpr ⟨i, htaken', rfl⟩
  · have hall := (hf₁.append (hf₂.append hf₃)).append
      (.refl [Act.branch (F.block b).termId i])
    simpa only [List.append_assoc, List.append_nil] using hall

theorem Splice.Simulated.step (hsp : F.Spliced sp G) (hF : F.Valid) (hholds : F.Holds c)
    (hc : c.Placed Before Rel c') (hx : F.Exec M w c es d) (hok : ∀ x ∈ es, ok x) :
    ∃ es' d', G.Exec M w c' es' d' ∧ Follows keep Q es es' ∧ d.Placed Before Rel d' := by
  cases hx with
  | @branch pred b d i s s' _ hx hd =>
    cases hc with
    | inside hbefore =>
      obtain ⟨t', es', hx', hf, -, hnext⟩ := h.execBlock hsp hF hholds hbefore hx hok
      refine ⟨es', _, .branch hx' ?_, hf, .inside (hnext d (List.mem_of_getElem? hd))⟩
      rw [hsp.succs (hholds.1.mem hF)]
      exact hd
  | @ret pred b s s' _ hx =>
    cases hc with
    | inside hbefore =>
      obtain ⟨t', es', hx', hf, hrel, -⟩ := h.execBlock hsp hF hholds hbefore hx hok
      exact ⟨es', _, .ret hx', hf, .returned hrel⟩

end

end IR

end VariOCL
