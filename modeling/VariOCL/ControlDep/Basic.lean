import VariOCL.IR.Basic

/-! `ControlDep` of control_dependence.{h,cpp}: control dependence from the post-dominator tree,
its reverse from the dominance frontier, and the transitive closures of both. -/

namespace VariOCL.IR

open Relation (ReflTransGen)

/-! ### LLVM's post-dominator tree and dominance frontier -/

/-- `PostDominatorTree::getRoots`: the blocks without successors. -/
def Function.exits (F : Function) : List BlockId := F.layout.filter fun b => (F.succs b).isEmpty

/-- `DT[b] != NULL`: only blocks that reach an exit are in the post-dominator tree. -/
def Function.inPostDomTree (F : Function) (b : BlockId) : Bool :=
  (Graph.reachFrom F.succs F.layout b).any fun e => F.exits.contains e

def Function.postDominates (F : Function) (a b : BlockId) : Bool :=
  a == b || !(Graph.reachFrom (fun x => (F.succs x).filter (· ≠ a)) F.layout b).any
    fun e => F.exits.contains e

def Function.strictPostDominators (F : Function) (b : BlockId) : List BlockId :=
  F.layout.filter fun a => a != b && F.inPostDomTree a && F.postDominates a b

/-- `getIDom` in the post-dominator tree; `none` is the virtual root. -/
def Function.ipdom (F : Function) (b : BlockId) : Option BlockId :=
  (F.strictPostDominators b).find? fun a =>
    (F.strictPostDominators b).all fun c => F.postDominates c a

def Function.postDomChildren (F : Function) (b : BlockId) : List BlockId :=
  F.layout.filter fun c => F.inPostDomTree c && F.ipdom c == some b

/-- LLVM's `DominanceFrontier`; a block that is not reachable from the entry has no entry in it. -/
def Function.dominanceFrontier (F : Function) (y : BlockId) : List BlockId :=
  if F.layout.contains y && (Graph.reachFrom F.succs F.layout F.entry).contains y then
    F.layout.filter fun x =>
      ((F.predEdges x).any fun p =>
        (Graph.reachFrom F.succs F.layout F.entry).contains p && F.dominates y p) &&
      !(F.dominates y x && y != x)
  else []

/-! ### The pass -/

namespace ControlDep

/-- `ControlDep::calculate` at the tree node of `BB`: the frontier it leaves in `Frontiers[BB]`. -/
def calculate (F : Function) : Nat → BlockId → List BlockId
  | 0, _ => []
  | n + 1, BB =>
    let local_ := (F.predEdges BB).filter fun P => F.inPostDomTree P && F.ipdom P != some BB
    let up := (F.postDomChildren BB).flatMap fun IDominee =>
      (calculate F n IDominee).filter fun x => !(BB != x && F.postDominates BB x)
    local_ ++ up

def frontiers (F : Function) (BB : BlockId) : List BlockId :=
  if F.inPostDomTree BB then calculate F F.layout.length BB else []

/-- `isCtrlDep(X, Y)`: `Y` is control dependent on `X`. -/
def isCtrlDep (F : Function) (X Y : BlockId) : Bool := (frontiers F Y).contains X

def isReverselyCtrlDep (F : Function) (X Y : BlockId) : Bool := (F.dominanceFrontier Y).contains X

/-- The keys of the map `adj` and the vector stored at each key. -/
structure Digraph where
  nodes : List BlockId := []
  adj : BlockId → List BlockId := fun _ => []

def Digraph.addNode (G : Digraph) (v : BlockId) : Digraph :=
  { G with nodes := if G.nodes.contains v then G.nodes else G.nodes ++ [v] }

def Digraph.addEdge (G : Digraph) (v w : BlockId) : Digraph :=
  { G.addNode v with adj := fun u => if u = v then G.adj v ++ [w] else G.adj u }

/-- The vertices `DirectedDFS(G, s)` marks. -/
def directedDFS (G : Digraph) (s : BlockId) : List BlockId := Graph.reachFrom G.adj G.nodes s

structure TransitiveClosure where
  all : BlockId → Option (List BlockId) := fun _ => none

def TransitiveClosure.computeTC (T : TransitiveClosure) (G : Digraph) : TransitiveClosure where
  all A := if G.nodes.contains A then some (directedDFS G A) else T.all A

def TransitiveClosure.reachable (T : TransitiveClosure) (v w : BlockId) : Bool :=
  match T.all v with
  | some marked => marked.contains w
  | none => false

/-- The loops of `runOnFunction` that put a relation on the blocks of the function in a digraph. -/
def addRelation (rel : BlockId → BlockId → Bool) (layout : List BlockId) (G : Digraph) : Digraph :=
  layout.foldl (fun G X =>
    layout.foldl (fun G Y => if rel X Y then G.addEdge X Y else G) (G.addNode X)) G

end ControlDep

structure ControlDep where
  CDG : ControlDep.Digraph := {}
  TCCDG : ControlDep.TransitiveClosure := {}
  RCDG : ControlDep.Digraph := {}
  TCRCDG : ControlDep.TransitiveClosure := {}

namespace ControlDep

def runOnFunction (self : ControlDep) (F : Function) : ControlDep :=
  let CDG := addRelation (isCtrlDep F) F.layout self.CDG
  let RCDG := addRelation (isReverselyCtrlDep F) F.layout self.RCDG
  { CDG := CDG, TCCDG := self.TCCDG.computeTC CDG
    RCDG := RCDG, TCRCDG := self.TCRCDG.computeTC RCDG }

def isIterativelyCtrlDep (self : ControlDep) (X Y : BlockId) : Bool := self.TCCDG.reachable X Y

def isReverselyIterativelyCtrlDep (self : ControlDep) (X Y : BlockId) : Bool :=
  self.TCRCDG.reachable X Y

/-! ### The closures are reachability -/

@[simp] theorem Digraph.adj_addNode (G : Digraph) (v : BlockId) : (G.addNode v).adj = G.adj := rfl

@[simp] theorem Digraph.mem_nodes_addNode {G : Digraph} {u v : BlockId} :
    u ∈ (G.addNode v).nodes ↔ u ∈ G.nodes ∨ u = v := by
  simp only [addNode]
  split
  · rename_i h
    simp only [List.contains_iff_mem] at h
    constructor
    · exact .inl
    · rintro (h' | rfl) <;> assumption
  · simp

@[simp] theorem Digraph.nodes_addEdge (G : Digraph) (v w : BlockId) :
    (G.addEdge v w).nodes = (G.addNode v).nodes := rfl

@[simp] theorem Digraph.mem_adj_addEdge {G : Digraph} {u v w x : BlockId} :
    x ∈ (G.addEdge v w).adj u ↔ x ∈ G.adj u ∨ u = v ∧ x = w := by
  simp only [addEdge]
  split
  · rename_i h
    subst h
    simp
  · rename_i h
    simp [h]

theorem mem_nodes_addRow {rel : BlockId → BlockId → Bool} {X u : BlockId} :
    ∀ {ys : List BlockId} {G : Digraph}, X ∈ G.nodes →
      (u ∈ (ys.foldl (fun G Y => if rel X Y then G.addEdge X Y else G) G).nodes ↔ u ∈ G.nodes) := by
  intro ys
  induction ys with
  | nil => intro G _; rfl
  | cons y ys ih =>
    intro G hX
    simp only [List.foldl_cons]
    split
    · rw [ih (by simp)]
      simp only [Digraph.nodes_addEdge, Digraph.mem_nodes_addNode]
      exact ⟨fun h => h.elim id (fun h => h ▸ hX), .inl⟩
    · exact ih hX

theorem mem_adj_addRow {rel : BlockId → BlockId → Bool} {X u x : BlockId} :
    ∀ {ys : List BlockId} {G : Digraph},
      (x ∈ (ys.foldl (fun G Y => if rel X Y then G.addEdge X Y else G) G).adj u ↔
        x ∈ G.adj u ∨ u = X ∧ x ∈ ys ∧ rel X x = true) := by
  intro ys
  induction ys with
  | nil => intro G; simp
  | cons y ys ih =>
    intro G
    simp only [List.foldl_cons]
    rw [ih]
    by_cases h : rel X y = true
    · rw [if_pos h, Digraph.mem_adj_addEdge, List.mem_cons]
      constructor
      · rintro ((h1 | ⟨rfl, rfl⟩) | ⟨rfl, h1, h2⟩)
        · exact .inl h1
        · exact .inr ⟨rfl, .inl rfl, h⟩
        · exact .inr ⟨rfl, .inr h1, h2⟩
      · rintro (h1 | ⟨rfl, rfl | h1, h2⟩)
        · exact .inl (.inl h1)
        · exact .inl (.inr ⟨rfl, rfl⟩)
        · exact .inr ⟨rfl, h1, h2⟩
    · rw [if_neg h, List.mem_cons]
      constructor
      · rintro (h1 | ⟨rfl, h1, h2⟩)
        · exact .inl h1
        · exact .inr ⟨rfl, .inr h1, h2⟩
      · rintro (h1 | ⟨rfl, rfl | h1, h2⟩)
        · exact .inl h1
        · exact absurd h2 h
        · exact .inr ⟨rfl, h1, h2⟩

theorem addRelation_spec {rel : BlockId → BlockId → Bool} {layout : List BlockId} :
    ∀ {xs : List BlockId} {G : Digraph} {u x : BlockId},
      let H := xs.foldl (fun G X =>
        layout.foldl (fun G Y => if rel X Y then G.addEdge X Y else G) (G.addNode X)) G
      (u ∈ H.nodes ↔ u ∈ G.nodes ∨ u ∈ xs) ∧
      (x ∈ H.adj u ↔ x ∈ G.adj u ∨ u ∈ xs ∧ x ∈ layout ∧ rel u x = true) := by
  intro xs
  induction xs with
  | nil => intro G u x; simp
  | cons X xs ih =>
    intro G u x
    simp only [List.foldl_cons]
    obtain ⟨hn, ha⟩ := ih (u := u) (x := x)
      (G := layout.foldl (fun G Y => if rel X Y then G.addEdge X Y else G) (G.addNode X))
    rw [hn, ha, mem_nodes_addRow (by simp), mem_adj_addRow]
    simp only [Digraph.mem_nodes_addNode, Digraph.adj_addNode, List.mem_cons]
    constructor
    · tauto
    · constructor
      · rintro ((h | ⟨rfl, h⟩) | h)
        · exact .inl h
        · exact .inr ⟨.inl rfl, h⟩
        · exact .inr ⟨.inr h.1, h.2⟩
      · rintro (h | ⟨rfl | h, h'⟩)
        · exact .inl (.inl h)
        · exact .inl (.inr ⟨rfl, h'⟩)
        · exact .inr ⟨h, h'⟩

theorem mem_nodes_addRelation {rel : BlockId → BlockId → Bool} {layout : List BlockId}
    {G : Digraph} {u : BlockId} :
    u ∈ (addRelation rel layout G).nodes ↔ u ∈ G.nodes ∨ u ∈ layout :=
  (addRelation_spec (x := u)).1

theorem mem_adj_addRelation {rel : BlockId → BlockId → Bool} {layout : List BlockId}
    {G : Digraph} {u x : BlockId} :
    x ∈ (addRelation rel layout G).adj u ↔
      x ∈ G.adj u ∨ u ∈ layout ∧ x ∈ layout ∧ rel u x = true :=
  addRelation_spec.2

/-- Along edges of a relation between the blocks of the function. -/
def Related (rel : BlockId → BlockId → Bool) (layout : List BlockId) (X Y : BlockId) : Prop :=
  X ∈ layout ∧ Y ∈ layout ∧ rel X Y = true

theorem reachable_addRelation {rel : BlockId → BlockId → Bool} {layout : List BlockId}
    {T : TransitiveClosure} {X Y : BlockId} (hX : X ∈ layout) :
    (T.computeTC (addRelation rel layout {})).reachable X Y = true ↔
      ReflTransGen (Related rel layout) X Y := by
  have hnodes : ∀ u, u ∈ (addRelation rel layout {}).nodes ↔ u ∈ layout := by
    intro u; rw [mem_nodes_addRelation]; simp
  have hadj : ∀ u x, x ∈ (addRelation rel layout {}).adj u ↔ Related rel layout u x := by
    intro u x; rw [mem_adj_addRelation]; simp [Related]
  have hX' : X ∈ (addRelation rel layout {}).nodes := (hnodes X).mpr hX
  simp only [TransitiveClosure.reachable, TransitiveClosure.computeTC, List.contains_iff_mem, hX',
    if_true, directedDFS]
  rw [Graph.mem_reachFrom (fun u _ y hy => (hnodes y).mpr ((hadj u y).mp hy).2.1) hX']
  have : (fun x y => y ∈ (addRelation rel layout {}).adj x) = Related rel layout := by
    funext u x; exact propext (hadj u x)
  rw [Graph.Reach, this]

/-- One control dependence between blocks of the function. -/
def CtrlDep (F : Function) : BlockId → BlockId → Prop := Related (isCtrlDep F) F.layout

theorem isIterativelyCtrlDep_iff {F : Function} {X Y : BlockId} (hX : X ∈ F.layout) :
    (runOnFunction {} F).isIterativelyCtrlDep X Y = true ↔ ReflTransGen (CtrlDep F) X Y :=
  reachable_addRelation hX

theorem mem_layout_of_isIterativelyCtrlDep {F : Function} {X Y : BlockId}
    (h : (runOnFunction {} F).isIterativelyCtrlDep X Y = true) : X ∈ F.layout := by
  by_contra hX
  have : X ∉ (addRelation (isCtrlDep F) F.layout {}).nodes := by
    rw [mem_nodes_addRelation]; simpa using hX
  simp [isIterativelyCtrlDep, runOnFunction, TransitiveClosure.reachable,
    TransitiveClosure.computeTC, this] at h

theorem mem_layout_of_mem_calculate {F : Function} :
    ∀ {n : Nat} {BB X : BlockId}, X ∈ calculate F n BB → X ∈ F.layout := by
  intro n
  induction n with
  | zero => intro BB X h; cases h
  | succ n ih =>
    intro BB X h
    rcases List.mem_append.mp h with h | h
    · exact (Function.mem_predEdges.mp (List.mem_filter.mp h).1).1
    · obtain ⟨c, _, hc⟩ := List.mem_flatMap.mp h
      exact ih (List.mem_filter.mp hc).1

theorem ctrlDep_of_isCtrlDep {F : Function} {X Y : BlockId} (hY : Y ∈ F.layout)
    (h : isCtrlDep F X Y = true) : CtrlDep F X Y := by
  refine ⟨?_, hY, h⟩
  simp only [isCtrlDep, frontiers, List.contains_iff_mem] at h
  split at h
  · exact mem_layout_of_mem_calculate h
  · cases h

/-- Control dependence is a matter of the blocks and their branches. -/
theorem ctrlDep_congr {F G : Function} (hlayout : G.layout = F.layout) (hsuccs : G.succs = F.succs) :
    CtrlDep G = CtrlDep F := by
  have hpreds : G.predEdges = F.predEdges := by
    funext b
    rw [Function.predEdges, Function.predEdges, hlayout, hsuccs]
  have hexits : G.exits = F.exits := by rw [Function.exits, Function.exits, hlayout, hsuccs]
  have hin : G.inPostDomTree = F.inPostDomTree := by
    funext b
    rw [Function.inPostDomTree, Function.inPostDomTree, hlayout, hsuccs, hexits]
  have hpost : G.postDominates = F.postDominates := by
    funext a b
    rw [Function.postDominates, Function.postDominates, hlayout, hsuccs, hexits]
  have hstrict : G.strictPostDominators = F.strictPostDominators := by
    funext b
    rw [Function.strictPostDominators, Function.strictPostDominators, hlayout, hin, hpost]
  have hipdom : G.ipdom = F.ipdom := by
    funext b
    rw [Function.ipdom, Function.ipdom, hstrict, hpost]
  have hchildren : G.postDomChildren = F.postDomChildren := by
    funext b
    rw [Function.postDomChildren, Function.postDomChildren, hlayout, hin, hipdom]
  have hcalculate : ∀ n, calculate G n = calculate F n := by
    intro n
    induction n with
    | zero => rfl
    | succ n ih =>
      funext b
      rw [calculate, calculate, hpreds, hin, hipdom, hchildren, ih, hpost]
  have hdep : isCtrlDep G = isCtrlDep F := by
    funext X Y
    rw [isCtrlDep, isCtrlDep, frontiers, frontiers, hin, hlayout, hcalculate]
  rw [CtrlDep, CtrlDep, hdep, hlayout]

end ControlDep

end VariOCL.IR
