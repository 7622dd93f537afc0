import VariOCL.ControlDep.Frontier

/-! The transitive closures after a sequence of runs on one `ControlDep` object, which keeps the
digraphs of the earlier functions. -/

namespace VariOCL.IR

open Relation (ReflTransGen)

/-- `DF->find(y) != DF->end()`: the blocks that the entry reaches have a dominance frontier. -/
def Function.hasDominanceFrontier (F : Function) (y : BlockId) : Bool :=
  F.layout.contains y && (Graph.reachFrom F.succs F.layout F.entry).contains y

namespace ControlDep

/-- `DirectedDFS::dfs(G, v)`, from the map of the blocks marked so far. -/
def dfs (G : Digraph) : Nat → List BlockId → BlockId → Option (List BlockId)
  | 0, _, _ => none
  | n + 1, Marked, v =>
    (G.adj v).foldlM (fun Marked X => if X ∈ Marked then some Marked else dfs G n Marked X)
      (Marked ++ [v])

/-- Every block that a search looks up is a key of `adj` already, so that no lookup inserts one. -/
def Digraph.Closed (G : Digraph) : Prop := ∀ v ∈ G.nodes, ∀ w ∈ G.adj v, w ∈ G.nodes

section
variable {G : Digraph} {n : Nat} {Marked : List BlockId} {u v x : BlockId}

/-- As many calls as there are blocks suffice. -/
theorem Digraph.Closed.dfs_eq (hG : G.Closed) (hv : v ∈ G.nodes) (hMarked : v ∉ Marked)
    (hn : Graph.unseen G.nodes Marked ≤ n) :
    dfs G n Marked v = some (Graph.visit G.adj n Marked v) := by
  induction n generalizing Marked v with
  | zero => exact absurd (Graph.unseen_lt hv hMarked) (by omega)
  | succ n ih =>
    have hfold : ∀ (Xs M : List BlockId), Xs ⊆ G.adj v → Graph.unseen G.nodes M ≤ n →
        Xs.foldlM (fun M X => if X ∈ M then some M else dfs G n M X) M =
          some (Xs.foldl (Graph.visit G.adj n) M) := by
      intro Xs
      induction Xs with
      | nil => exact fun M _ _ => rfl
      | cons X Xs ihXs =>
        intro M hXs hM
        obtain ⟨hX, hXs⟩ := List.cons_subset.mp hXs
        have hXmem := hG v hv X hX
        obtain ⟨new, hnew⟩ := Graph.visit_spec hG n M X hXmem hM
        have hstep : (if X ∈ M then some M else dfs G n M X) = some (Graph.visit G.adj n M X) := by
          split
          · cases n <;> simp [Graph.visit, *]
          · exact ih hXmem ‹_› hM
        rw [List.foldlM_cons, hstep]
        apply ihXs _ hXs
        rw [hnew.split]
        exact (Graph.unseen_mono (List.subset_append_left M new)).trans hM
    have hlt := Graph.unseen_lt hv hMarked
    rw [dfs, Graph.visit, if_neg hMarked]
    exact hfold _ _ (List.Subset.refl _) (by omega)

theorem Digraph.Closed.dfs_ends (hG : G.Closed) (hv : v ∈ G.nodes) :
    ∃ n, dfs G n [] v = some (directedDFS G v) :=
  ⟨_, hG.dfs_eq hv List.not_mem_nil (Graph.unseen_le_length _ _)⟩

end

/-! ### A sequence of runs -/

/-- The relation of one of the functions, between blocks of that function. -/
def RelatedInOne (rel : Function → BlockId → BlockId → Bool) (Fs : List Function)
    (X Y : BlockId) : Prop :=
  ∃ F ∈ Fs, Related (rel F) F.layout X Y

section
variable {rel : Function → BlockId → BlockId → Bool} {Fs : List Function} {F : Function}
  {X Y u x : BlockId}

def addRelations (rel : Function → BlockId → BlockId → Bool) (Fs : List Function) (G : Digraph) :
    Digraph :=
  Fs.foldl (fun G F => addRelation (rel F) F.layout G) G

theorem mem_nodes_addRelations {G : Digraph} :
    u ∈ (addRelations rel Fs G).nodes ↔ u ∈ G.nodes ∨ ∃ F ∈ Fs, u ∈ F.layout := by
  induction Fs generalizing G with
  | nil => simp [addRelations]
  | cons F Fs ih =>
    have := ih (G := addRelation (rel F) F.layout G)
    rw [addRelations] at this ⊢
    rw [List.foldl_cons, this, mem_nodes_addRelation]
    simp [or_assoc]

theorem mem_adj_addRelations {G : Digraph} :
    x ∈ (addRelations rel Fs G).adj u ↔ x ∈ G.adj u ∨ RelatedInOne rel Fs u x := by
  induction Fs generalizing G with
  | nil => simp [addRelations, RelatedInOne]
  | cons F Fs ih =>
    have := ih (G := addRelation (rel F) F.layout G)
    rw [addRelations] at this ⊢
    rw [List.foldl_cons, this, mem_adj_addRelation]
    simp [RelatedInOne, Related, or_assoc]

theorem closed_addRelations : (addRelations rel Fs {}).Closed := by
  intro v _ w hw
  obtain ⟨F, hF, -, hmem, -⟩ := (mem_adj_addRelations.mp hw).resolve_left List.not_mem_nil
  exact mem_nodes_addRelations.mpr (.inr ⟨F, hF, hmem⟩)

/-- No edge leaves the blocks of a function whose blocks are in no other one. -/
theorem reach_addRelations (hF : F ∈ Fs)
    (hdisj : ∀ F' ∈ Fs, ∀ b ∈ F'.layout, b ∈ F.layout → F' = F) (hX : X ∈ F.layout) :
    Graph.Reach (addRelations rel Fs {}).adj X Y ↔ ReflTransGen (Related (rel F) F.layout) X Y := by
  constructor
  · intro h
    induction h with
    | refl => exact .refl
    | @tail v w _ hw ih =>
      have hv : v ∈ F.layout := by
        cases ih with
        | refl => exact hX
        | tail _ h => exact h.2.1
      obtain ⟨F', hF', hrel⟩ := (mem_adj_addRelations.mp hw).resolve_left List.not_mem_nil
      obtain rfl := hdisj F' hF' v hrel.1 hv
      exact ih.tail hrel
  · exact ReflTransGen.mono (fun v w h => mem_adj_addRelations.mpr (.inr ⟨F, hF, h⟩)) _ _

/-- A chain that ends in a block of the function stays in it. -/
theorem related_iff (hrel : ∀ a b, b ∈ F.layout → rel F a b = true → a ∈ F.layout)
    (hY : Y ∈ F.layout) :
    ReflTransGen (Related (rel F) F.layout) X Y ↔ ReflTransGen (fun a b => rel F a b = true) X Y := by
  constructor
  · exact ReflTransGen.mono (fun _ _ h => h.2.2) _ _
  · intro h
    induction h using ReflTransGen.head_induction_on with
    | refl => exact .refl
    | @head a c hac _ ih =>
      have hc : c ∈ F.layout := by
        cases ih using ReflTransGen.head_induction_on with
        | refl => exact hY
        | head h _ => exact h.1
      exact .head ⟨hrel a c hc hac, hc, hac⟩ ih

theorem runs_CDG (self : ControlDep) :
    (Fs.foldl runOnFunction self).CDG = addRelations isCtrlDep Fs self.CDG := by
  induction Fs generalizing self with
  | nil => rfl
  | cons F Fs ih => exact ih _

theorem runs_RCDG (self : ControlDep) :
    (Fs.foldl runOnFunction self).RCDG = addRelations isReverselyCtrlDep Fs self.RCDG := by
  induction Fs generalizing self with
  | nil => rfl
  | cons F Fs ih => exact ih _

/-- The closure of the last run is that of the digraph of all runs. -/
theorem reachable_computeTC {T : TransitiveClosure}
    (hF : F ∈ Fs) (hdisj : ∀ F' ∈ Fs, ∀ b ∈ F'.layout, b ∈ F.layout → F' = F) (hX : X ∈ F.layout) :
    (T.computeTC (addRelations rel Fs {})).reachable X Y = true ↔
      ReflTransGen (Related (rel F) F.layout) X Y := by
  have hnode : X ∈ (addRelations rel Fs {}).nodes := mem_nodes_addRelations.mpr (.inr ⟨F, hF, hX⟩)
  simp only [TransitiveClosure.reachable, TransitiveClosure.computeTC, List.contains_iff_mem,
    hnode, if_true, directedDFS]
  rw [Graph.mem_reachFrom closed_addRelations hnode, reach_addRelations hF hdisj hX]

theorem mem_layout_of_isReverselyCtrlDep (h : isReverselyCtrlDep F X Y = true) : X ∈ F.layout := by
  rw [isReverselyCtrlDep, List.contains_iff_mem, Function.dominanceFrontier] at h
  split at h
  · exact (List.mem_filter.mp h).1
  · cases h

/-- After the last of a sequence of runs on functions without common blocks, the iterated
dependences of that function are the chains of its dependences, and every search has ended. -/
theorem closure_of_runs (Fs : List Function) (F : Function)
    (hdisj : (Fs ++ [F]).Pairwise fun A B => ∀ b ∈ A.layout, b ∉ B.layout)
    (hX : X ∈ F.layout) (hY : Y ∈ F.layout) :
    let self := (Fs ++ [F]).foldl runOnFunction {}
    (self.isIterativelyCtrlDep X Y = true ↔ ReflTransGen (fun a b => isCtrlDep F a b = true) X Y) ∧
      ((∀ F' ∈ Fs ++ [F], ∀ b ∈ F'.layout, F'.hasDominanceFrontier b = true) →
        (self.isReverselyIterativelyCtrlDep X Y = true ↔
          ReflTransGen (fun a b => isReverselyCtrlDep F a b = true) X Y)) ∧
      ∀ G, G = self.CDG ∨ G = self.RCDG → G.Closed ∧
        ∀ s ∈ G.nodes, ∃ n, dfs G n [] s = some (directedDFS G s) := by
  have hmem : F ∈ Fs ++ [F] := List.mem_append_right _ List.mem_cons_self
  have honly : ∀ F' ∈ Fs ++ [F], ∀ b ∈ F'.layout, b ∈ F.layout → F' = F := by
    intro F' hF' b hb hbF
    rcases List.mem_append.mp hF' with hF' | hF'
    · exact absurd hbF ((List.pairwise_append.mp hdisj).2.2 F' hF' F List.mem_cons_self b hb)
    · exact List.mem_singleton.mp hF'
  intro self
  have hlast : self = runOnFunction (Fs.foldl runOnFunction {}) F := by
    simp only [self, List.foldl_append, List.foldl_cons, List.foldl_nil]
  have hCDG : self.CDG = addRelations isCtrlDep (Fs ++ [F]) {} := runs_CDG _
  have hRCDG : self.RCDG = addRelations isReverselyCtrlDep (Fs ++ [F]) {} := runs_RCDG _
  refine ⟨?_, fun _ => ?_, ?_⟩
  · have htc : self.TCCDG = (Fs.foldl runOnFunction {}).TCCDG.computeTC self.CDG := by rw [hlast]; rfl
    rw [isIterativelyCtrlDep, htc, hCDG, reachable_computeTC hmem honly hX]
    exact related_iff (fun a b hb h => (ctrlDep_of_isCtrlDep hb h).1) hY
  · have htc : self.TCRCDG = (Fs.foldl runOnFunction {}).TCRCDG.computeTC self.RCDG := by
      rw [hlast]; rfl
    rw [isReverselyIterativelyCtrlDep, htc, hRCDG, reachable_computeTC hmem honly hX]
    exact related_iff (fun a b _ h => mem_layout_of_isReverselyCtrlDep h) hY
  · rintro G (rfl | rfl)
    · rw [hCDG]
      exact ⟨closed_addRelations, fun s hs => closed_addRelations.dfs_ends hs⟩
    · rw [hRCDG]
      exact ⟨closed_addRelations, fun s hs => closed_addRelations.dfs_ends hs⟩

/-- A loop of one block. -/
def oneLoop : Function where
  name := "one_loop"
  entry := 4
  rest := [5, 6]
  block
    | 4 => ⟨[], 4, .br 5⟩
    | 5 => ⟨[], 5, .condBr (.argument 0) 5 6⟩
    | b => ⟨[], b, .ret none⟩

theorem closure_of_runs_twoFunctions :
    let self := ([oneLoop] ++ [twoExits]).foldl runOnFunction {}
    (self.isIterativelyCtrlDep 0 2 = true ↔
        ReflTransGen (fun a b => isCtrlDep twoExits a b = true) 0 2) ∧
      (self.isReverselyIterativelyCtrlDep 0 2 = true ↔
        ReflTransGen (fun a b => isReverselyCtrlDep twoExits a b = true) 0 2) ∧
      ∀ G, G = self.CDG ∨ G = self.RCDG → G.Closed ∧
        ∀ s ∈ G.nodes, ∃ n, dfs G n [] s = some (directedDFS G s) := by
  have h := closure_of_runs [oneLoop] twoExits (X := 0) (Y := 2) (by decide) (by decide) (by decide)
  exact ⟨h.1, h.2.1 (by decide), h.2.2⟩

end

end ControlDep

end VariOCL.IR
