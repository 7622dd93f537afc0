import VariOCL.ControlDep.Basic
import VariOCL.IR.Edit

/-! ImplicitCdgBarriers.cpp: barriers put around the blocks that control a barrier. -/

namespace VariOCL.IR

namespace ImplicitCdgBarriers

/-- `BarSet`, each barrier call by the block that holds it. -/
def barSet (F : Function) : List BlockId :=
  F.layout.flatMap fun X => ((F.block X).insts.filter Instruction.isBarrier).map fun _ => X

def BBsCtrl (F : Function) (CD : ControlDep) : List BlockId :=
  (barSet F).flatMap fun Y => F.layout.filter fun X =>
    (CD.isIterativelyCtrlDep X Y && X != Y) || (CD.isReverselyIterativelyCtrlDep X Y && X != Y)

def hasBackEdge (F : Function) (BB : BlockId) : Bool :=
  (F.predEdges BB).any fun Pred => F.dominates BB Pred

/-- The body of the loop over `BBsCtrl`; `DT` is the dominator tree of the function `F₀`. -/
def insertAround (F₀ F : Function) (BB : BlockId) : Function :=
  let F := F.createBarrierAtFirstNonPHI BB
  let F := F.createBarrierBeforeTerminator BB
  if hasBackEdge F₀ BB then F
  else (F.succs BB).foldl Function.createBarrierAtFirstNonPHI F

def runOnFunction (F : Function) : Function :=
  (BBsCtrl F (ControlDep.runOnFunction {} F)).foldl (insertAround F) F

/-- `G` has a barrier in `B` that `F` has not. -/
def InsertsBarrierIn (F G : Function) (B : BlockId) : Prop :=
  ∃ I ∈ (G.block B).insts, I.isBarrier ∧ I ∉ (F.block B).insts

/-- Some barrier of `F` is iteratively control dependent on `Z`.  The search marks the block it starts
from, so that `isIterativelyCtrlDep Z Z` says nothing of the branch of `Z`; here one dependence at
least leads to the barrier. -/
def ControlsABarrier (F : Function) (Z : BlockId) : Prop :=
  ∃ Y ∈ F.layout, hasBarrier (F.block Y) ∧ Relation.TransGen (ControlDep.CtrlDep F) Z Y

/-- The blocks the loop over `ctrl` puts a barrier in. -/
def Touched (F : Function) (ctrl : List BlockId) (B : BlockId) : Prop :=
  ∃ BB ∈ ctrl, B = BB ∨ hasBackEdge F BB = false ∧ B ∈ F.succs BB

/-- `G` is `F` with new barrier calls in the blocks of `T` and nothing else changed. -/
structure Extends (F G : Function) (T : BlockId → Prop) : Prop where
  layout : G.layout = F.layout
  term : ∀ b, (G.block b).term = (F.block b).term
  keep : ∀ b, ¬ T b → G.block b = F.block b
  new : ∀ b, T b → ∃ I ∈ (G.block b).insts, I.isBarrier ∧ F.freshInst ≤ I.id
  fresh : F.freshInst ≤ G.freshInst

theorem Extends.refl (F : Function) : Extends F F fun _ => False :=
  ⟨rfl, fun _ => rfl, fun _ _ => rfl, fun _ h => h.elim, Nat.le_refl _⟩

theorem Extends.congr {F G : Function} {T T' : BlockId → Prop} (h : Extends F G T)
    (hT : ∀ b, T b ↔ T' b) : Extends F G T' := by
  have : T = T' := funext fun b => propext (hT b)
  exact this ▸ h

theorem Extends.add {F G H : Function} {T : BlockId → Prop} {b : BlockId} (h : Extends F G T)
    (hadd : G.BarrierAdded H b) : Extends F H fun x => T x ∨ x = b where
  layout := hadd.layout.trans h.layout
  term x := (hadd.term x).trans (h.term x)
  keep x hx := by
    rw [not_or] at hx
    rw [hadd.other x hx.2, h.keep x hx.1]
  new x hx := by
    by_cases hxb : x = b
    · subst hxb
      exact ⟨_, (hadd.insts _).mpr (.inl rfl), rfl, h.fresh⟩
    · rw [hadd.other x hxb]
      exact h.new x (hx.resolve_right hxb)
  fresh := h.fresh.trans hadd.fresh

theorem Extends.addAll {F : Function} :
    ∀ {bs : List BlockId} {G : Function} {T : BlockId → Prop}, Extends F G T →
      Extends F (bs.foldl Function.createBarrierAtFirstNonPHI G) fun x => T x ∨ x ∈ bs := by
  intro bs
  induction bs with
  | nil => intro G T h; exact h.congr fun b => by simp
  | cons b bs ih =>
    intro G T h
    refine (ih (h.add (G.barrierAdded_firstNonPHI b))).congr fun x => ?_
    rw [List.mem_cons, or_assoc]

theorem Extends.insertAround {F G : Function} {T : BlockId → Prop} {BB : BlockId}
    (h : Extends F G T) : Extends F (insertAround F G BB) fun x =>
      T x ∨ x = BB ∨ hasBackEdge F BB = false ∧ x ∈ F.succs BB := by
  have h₁ := h.add (G.barrierAdded_firstNonPHI BB)
  have h₂ := h₁.add ((G.createBarrierAtFirstNonPHI BB).barrierAdded_beforeTerminator BB)
  simp only [ImplicitCdgBarriers.insertAround]
  by_cases hback : hasBackEdge F BB = true
  · rw [if_pos hback]
    exact h₂.congr fun x => by simp [hback]
  · rw [if_neg hback]
    refine h₂.addAll.congr fun x => ?_
    have hsuccs : ((G.createBarrierAtFirstNonPHI BB).createBarrierBeforeTerminator BB).succs BB =
        F.succs BB := congrArg Terminator.successors (h₂.term BB)
    rw [hsuccs]
    simp only [Bool.not_eq_true] at hback
    tauto

theorem extends_foldl {F : Function} :
    ∀ {ctrl : List BlockId} {G : Function} {T : BlockId → Prop}, Extends F G T →
      Extends F (ctrl.foldl (insertAround F) G) fun x => T x ∨ Touched F ctrl x := by
  intro ctrl
  induction ctrl with
  | nil => intro G T h; exact h.congr fun b => by simp [Touched]
  | cons BB ctrl ih =>
    intro G T h
    refine (ih h.insertAround).congr fun x => ?_
    simp only [Touched, List.mem_cons, exists_eq_or_imp]
    exact or_assoc

theorem extends_runOnFunction (F : Function) :
    Extends F (runOnFunction F) (Touched F (BBsCtrl F (ControlDep.runOnFunction {} F))) :=
  (extends_foldl (Extends.refl F)).congr fun b => by simp

theorem insertsBarrierIn_iff {F : Function} {B : BlockId} (hB : B ∈ F.layout) :
    InsertsBarrierIn F (runOnFunction F) B ↔
      Touched F (BBsCtrl F (ControlDep.runOnFunction {} F)) B := by
  have h := extends_runOnFunction F
  constructor
  · rintro ⟨I, hI, _, hnew⟩
    by_contra hB
    exact hnew (h.keep B hB ▸ hI)
  · intro ht
    obtain ⟨I, hI, hbar, hle⟩ := h.new B ht
    refine ⟨I, hI, hbar, fun hold => ?_⟩
    exact absurd (F.lt_freshInst (F.instIds_of_mem hB hold)) (Nat.not_lt.mpr hle)

theorem mem_barSet {F : Function} {Y : BlockId} :
    Y ∈ barSet F ↔ Y ∈ F.layout ∧ hasBarrier (F.block Y) := by
  simp only [barSet, List.mem_flatMap, List.mem_map, List.mem_filter, hasBarrier, List.any_eq_true]
  constructor
  · rintro ⟨X, hX, I, hI, rfl⟩
    exact ⟨hX, I, hI⟩
  · rintro ⟨hY, I, hI⟩
    exact ⟨Y, hY, I, hI, rfl⟩

theorem mem_BBsCtrl {F : Function} {CD : ControlDep} {X : BlockId} :
    X ∈ BBsCtrl F CD ↔ X ∈ F.layout ∧ ∃ Y ∈ barSet F, X ≠ Y ∧
      (CD.isIterativelyCtrlDep X Y ∨ CD.isReverselyIterativelyCtrlDep X Y) := by
  simp only [BBsCtrl, List.mem_flatMap, List.mem_filter, Bool.or_eq_true, Bool.and_eq_true,
    bne_iff_ne]
  constructor
  · rintro ⟨Y, hY, hX, h⟩
    exact ⟨hX, Y, hY, by tauto⟩
  · rintro ⟨hX, Y, hY, h⟩
    exact ⟨Y, hY, hX, by tauto⟩

/-- The blocks the pass puts a barrier in without their controlling one themselves: the joins of
the iterated dominance frontier of a barrier, and the successors of collected blocks. -/
def Unguarded (F : Function) (B : BlockId) : Prop :=
  (∃ Y ∈ barSet F, B ≠ Y ∧ (ControlDep.runOnFunction {} F).isReverselyIterativelyCtrlDep B Y) ∨
  ∃ X ∈ BBsCtrl F (ControlDep.runOnFunction {} F), hasBackEdge F X = false ∧ B ∈ F.succs X

theorem touched_iff {F : Function} (hF : F.Closed) {B : BlockId} :
    Touched F (BBsCtrl F (ControlDep.runOnFunction {} F)) B ↔ B ∈ F.layout ∧ (Unguarded F B ∨
      ∃ Y ∈ barSet F, B ≠ Y ∧ (ControlDep.runOnFunction {} F).isIterativelyCtrlDep B Y) := by
  constructor
  · rintro ⟨X, hX, rfl | hsucc⟩
    · obtain ⟨hB, Y, hY, hne, h | h⟩ := mem_BBsCtrl.mp hX
      · exact ⟨hB, .inr ⟨Y, hY, hne, h⟩⟩
      · exact ⟨hB, .inl (.inl ⟨Y, hY, hne, h⟩)⟩
    · exact ⟨hF X (mem_BBsCtrl.mp hX).1 B hsucc.2, .inl (.inr ⟨X, hX, hsucc⟩)⟩
  · rintro ⟨hB, (⟨Y, hY, hne, h⟩ | ⟨X, hX, hsucc⟩) | ⟨Y, hY, hne, h⟩⟩
    · exact ⟨B, mem_BBsCtrl.mpr ⟨hB, Y, hY, hne, .inr h⟩, .inl rfl⟩
    · exact ⟨X, hX, .inr hsucc⟩
    · exact ⟨B, mem_BBsCtrl.mpr ⟨hB, Y, hY, hne, .inl h⟩, .inl rfl⟩

theorem ControlsABarrier.of_walk {F : Function} {Z W : BlockId}
    (hZW : Relation.ReflTransGen (ControlDep.CtrlDep F) Z W) (h : ControlsABarrier F W) :
    ControlsABarrier F Z := by
  obtain ⟨Y, hY, hbar, hWY⟩ := h
  exact ⟨Y, hY, hbar, hWY.trans_right hZW⟩

/-- Between different blocks the search finds what it is asked for. -/
theorem transGen_of_isIterativelyCtrlDep {F : Function} {Z B : BlockId} (hne : Z ≠ B)
    (h : (ControlDep.runOnFunction {} F).isIterativelyCtrlDep Z B) :
    Relation.TransGen (ControlDep.CtrlDep F) Z B := by
  rw [ControlDep.isIterativelyCtrlDep_iff (ControlDep.mem_layout_of_isIterativelyCtrlDep h)] at h
  exact (Relation.reflTransGen_iff_eq_or_transGen.mp h).resolve_left hne.symm

theorem isIterativelyCtrlDep_of_isCtrlDep {F : Function} {Z B : BlockId} (hB : B ∈ F.layout)
    (h : ControlDep.isCtrlDep F Z B) : (ControlDep.runOnFunction {} F).isIterativelyCtrlDep Z B := by
  have hZB := ControlDep.ctrlDep_of_isCtrlDep hB h
  exact (ControlDep.isIterativelyCtrlDep_iff hZB.1).mpr (.single hZB)

/-- A chain of control dependences that ends in another block than it starts from has a last step
that comes from another block. -/
theorem exists_last_step {F : Function} {Z B : BlockId} (hne : Z ≠ B)
    (h : Relation.TransGen (ControlDep.CtrlDep F) Z B) :
    ∃ W, W ≠ B ∧ Relation.ReflTransGen (ControlDep.CtrlDep F) Z W ∧ ControlDep.CtrlDep F W B := by
  induction h with
  | single hZB => exact ⟨Z, hne, .refl, hZB⟩
  | @tail X B hZX hXB ih =>
    by_cases hX : X = B
    · subst hX
      exact ih hne
    · exact ⟨X, hX, hZX.to_reflTransGen, hXB⟩

/-- What controls a block that is collected because it controls a barrier controls that barrier. -/
theorem controlsABarrier_of_touched {F : Function} (hF : F.Closed) {B Z : BlockId}
    (hB : Touched F (BBsCtrl F (ControlDep.runOnFunction {} F)) B)
    (hZB : Relation.TransGen (ControlDep.CtrlDep F) Z B)
    (hun : Unguarded F B → ControlsABarrier F Z) : ControlsABarrier F Z := by
  obtain ⟨_, h | ⟨Y, hY, hne, hBY⟩⟩ := (touched_iff hF).mp hB
  · exact hun h
  · have hY := mem_barSet.mp hY
    exact ⟨Y, hY.1, hY.2, hZB.trans (transGen_of_isIterativelyCtrlDep hne hBY)⟩

theorem hasBarrier_runOnFunction {F : Function} {B : BlockId} :
    hasBarrier ((runOnFunction F).block B) ↔
      hasBarrier (F.block B) ∨ Touched F (BBsCtrl F (ControlDep.runOnFunction {} F)) B := by
  have h := extends_runOnFunction F
  by_cases hB : Touched F (BBsCtrl F (ControlDep.runOnFunction {} F)) B
  · obtain ⟨I, hI, hbar, -⟩ := h.new B hB
    exact iff_of_true (List.any_eq_true.mpr ⟨I, hI, hbar⟩) (.inr hB)
  · rw [h.keep B hB]
    exact (or_iff_left hB).symm

theorem controlsABarrier_runOnFunction {F : Function} {Z : BlockId} :
    ControlsABarrier (runOnFunction F) Z ↔ ∃ B ∈ F.layout, (hasBarrier (F.block B) ∨
      Touched F (BBsCtrl F (ControlDep.runOnFunction {} F)) B) ∧
        Relation.TransGen (ControlDep.CtrlDep F) Z B := by
  have h := extends_runOnFunction F
  have hsuccs : (runOnFunction F).succs = F.succs := by
    funext b
    rw [Function.succs, Function.succs, h.term]
  simp only [ControlsABarrier, ControlDep.ctrlDep_congr h.layout hsuccs, h.layout,
    hasBarrier_runOnFunction]

/-- The first equivalence is about the blocks that get barriers and other blocks that control them.
The second is about what follows for the branches, those of the blocks themselves included: where the
work-items agreed on all that control a barrier, they do so after the pass. -/
theorem no_new_divergence_iff (F : Function) (hF : F.Closed) :
    ((∀ B ∈ F.layout, InsertsBarrierIn F (runOnFunction F) B → ∀ Z ≠ B,
      (ControlDep.runOnFunction {} F).isIterativelyCtrlDep Z B → ControlsABarrier F Z) ↔
      ∀ B ∈ F.layout, Unguarded F B → ∀ Z ≠ B, ControlDep.isCtrlDep F Z B →
        ControlsABarrier F Z) ∧
    ((∀ agree : BlockId → Prop, (∀ Z, ControlsABarrier F Z → agree Z) →
      ∀ Z, ControlsABarrier (runOnFunction F) Z → agree Z) ↔
      ∀ B ∈ F.layout, Unguarded F B → ∀ Z, ControlDep.isCtrlDep F Z B → ControlsABarrier F Z) := by
  refine ⟨⟨fun h B hB hun Z hne hdep => ?_, fun h B hB hins Z hne hdep => ?_⟩,
    fun h B hB hun Z hdep => ?_, fun h agree hagree Z hZ => hagree Z ?_⟩
  · refine h B hB ?_ Z hne (isIterativelyCtrlDep_of_isCtrlDep hB hdep)
    exact (insertsBarrierIn_iff hB).mpr ((touched_iff hF).mpr ⟨hB, .inl hun⟩)
  · have hZB := transGen_of_isIterativelyCtrlDep hne hdep
    refine controlsABarrier_of_touched hF ((insertsBarrierIn_iff hB).mp hins) hZB fun hun => ?_
    obtain ⟨W, hWB, hZW, hstep⟩ := exists_last_step hne hZB
    exact .of_walk hZW (h B hB hun W hWB hstep.2.2)
  · refine h (ControlsABarrier F) (fun _ hZ => hZ) Z (controlsABarrier_runOnFunction.mpr
      ⟨B, hB, .inr ((touched_iff hF).mpr ⟨hB, .inl hun⟩), ?_⟩)
    exact .single (ControlDep.ctrlDep_of_isCtrlDep hB hdep)
  · obtain ⟨B, hB, hbar | htouched, hZB⟩ := controlsABarrier_runOnFunction.mp hZ
    · exact ⟨B, hB, hbar, hZB⟩
    · refine controlsABarrier_of_touched hF htouched hZB fun hun => ?_
      obtain ⟨W, hZW, hstep⟩ := Relation.TransGen.tail'_iff.mp hZB
      exact .of_walk hZW (h B hB hun W hstep.2.2)

/-- A barrier on one arm, and after it a join that a branch on the other arm can bypass. -/
def joinPastBarrier : Function where
  name := "k"
  entry := 0
  rest := [1, 2, 3, 4, 5]
  block
    | 0 => ⟨[], 10, .condBr (.argument 0) 1 2⟩
    | 1 => ⟨[barrierCall 1], 11, .br 3⟩
    | 2 => ⟨[], 12, .condBr (.argument 1) 3 4⟩
    | 3 => ⟨[], 13, .br 5⟩
    | 4 => ⟨[], 14, .br 5⟩
    | _ => ⟨[], 15, .ret none⟩

theorem no_new_divergence_iff_joinPastBarrier :
    ((∀ B ∈ joinPastBarrier.layout, InsertsBarrierIn joinPastBarrier
      (runOnFunction joinPastBarrier) B → ∀ Z ≠ B,
      (ControlDep.runOnFunction {} joinPastBarrier).isIterativelyCtrlDep Z B →
        ControlsABarrier joinPastBarrier Z) ↔
      ∀ B ∈ joinPastBarrier.layout, Unguarded joinPastBarrier B → ∀ Z ≠ B,
        ControlDep.isCtrlDep joinPastBarrier Z B → ControlsABarrier joinPastBarrier Z) ∧
    ((∀ agree : BlockId → Prop, (∀ Z, ControlsABarrier joinPastBarrier Z → agree Z) →
      ∀ Z, ControlsABarrier (runOnFunction joinPastBarrier) Z → agree Z) ↔
      ∀ B ∈ joinPastBarrier.layout, Unguarded joinPastBarrier B → ∀ Z,
        ControlDep.isCtrlDep joinPastBarrier Z B → ControlsABarrier joinPastBarrier Z) :=
  no_new_divergence_iff joinPastBarrier (by simp only [Function.Closed]; decide)

theorem not_controlsABarrier_joinPastBarrier : ¬ ControlsABarrier joinPastBarrier 2 := by
  rintro ⟨Y, hY, hbar, hdep⟩
  have hreach := (ControlDep.isIterativelyCtrlDep_iff (by decide)).mpr hdep.to_reflTransGen
  have hnone : ∀ Y ∈ joinPastBarrier.layout, hasBarrier (joinPastBarrier.block Y) →
      (ControlDep.runOnFunction {} joinPastBarrier).isIterativelyCtrlDep 2 Y = false := by decide
  exact Bool.false_ne_true ((hnone Y hY hbar).symm.trans hreach)

/-- The join 3 gets a barrier, and the branch of block 2 that controls it controlled none; work-items
that agree on all other branches agreed on those that control a barrier, and no longer do. -/
theorem new_divergence :
    (¬ ∀ F : Function, F.Closed → ∀ B ∈ F.layout, InsertsBarrierIn F (runOnFunction F) B → ∀ Z ≠ B,
      (ControlDep.runOnFunction {} F).isIterativelyCtrlDep Z B → ControlsABarrier F Z) ∧
    ¬ ∀ F : Function, F.Closed → ∀ agree : BlockId → Prop, (∀ Z, ControlsABarrier F Z → agree Z) →
      ∀ Z, ControlsABarrier (runOnFunction F) Z → agree Z := by
  have hclosed : joinPastBarrier.Closed := by simp only [Function.Closed]; decide
  have hins : InsertsBarrierIn joinPastBarrier (runOnFunction joinPastBarrier) 3 := by
    simp only [InsertsBarrierIn]
    decide
  have hdep : ControlDep.isCtrlDep joinPastBarrier 2 3 := by decide
  refine ⟨fun h => ?_, fun h => ?_⟩
  · exact not_controlsABarrier_joinPastBarrier (h joinPastBarrier hclosed 3 (by decide) hins 2
      (by decide) (isIterativelyCtrlDep_of_isCtrlDep (by decide) hdep))
  · have htouched := (insertsBarrierIn_iff (by decide)).mp hins
    refine h joinPastBarrier hclosed (· ≠ 2) (fun Z hZ heq => ?_) 2 ?_ rfl
    · exact not_controlsABarrier_joinPastBarrier (heq ▸ hZ)
    · exact controlsABarrier_runOnFunction.mpr ⟨3, by decide, .inr htouched,
        .single (ControlDep.ctrlDep_of_isCtrlDep (by decide) hdep)⟩

end ImplicitCdgBarriers

end VariOCL.IR
