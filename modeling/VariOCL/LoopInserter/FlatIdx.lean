import Mathlib.Data.List.Basic
import Mathlib.Data.BitVec
import Mathlib.Tactic.Ring
import Mathlib.Tactic.Linarith

/-! The slot of a work-item in a context array, computed by generated 32-bit code. -/

namespace VariOCL.IR

/-- A local id or a local size, by dimension. -/
abbrev Dims := Fin 3 → BitVec 32

/-- The instructions `Builder` inserts for an index or a size. -/
inductive I32
  | getLocalId (dim : Fin 3)
  | getLocalSize (dim : Fin 3)
  | mul (a b : I32)
  | add (a b : I32)

/-- The work-item with local id `lid` in a group of size `lsz`. -/
def I32.eval (lid lsz : Dims) : I32 → BitVec 32
  | .getLocalId d => lid d
  | .getLocalSize d => lsz d
  | .mul a b => a.eval lid lsz * b.eval lid lsz
  | .add a b => a.eval lid lsz + b.eval lid lsz

namespace LoopInserter

/-- The index of every context store and reload of a region. -/
def FlatIdx : I32 :=
  .add (.add (.mul (.mul (.getLocalId 2) (.getLocalSize 0)) (.getLocalSize 1))
      (.mul (.getLocalId 1) (.getLocalSize 0)))
    (.getLocalId 0)

/-- The element count of every context array. -/
def Flat3DSize : I32 := .mul (.mul (.getLocalSize 2) (.getLocalSize 1)) (.getLocalSize 0)

end LoopInserter

namespace ContextSpill

def Flat3DSize : I32 := .mul (.mul (.getLocalSize 2) (.getLocalSize 1)) (.getLocalSize 0)

/-- The index in `insert3DLoadFor`. -/
def insert3DLoadFor_FlatIdx : I32 :=
  .add (.add (.mul (.mul (.getLocalId 2) (.getLocalSize 0)) (.getLocalSize 1))
      (.mul (.getLocalId 1) (.getLocalSize 0)))
    (.getLocalId 0)

/-- The index in `insert3DStoreFor`. -/
def insert3DStoreFor_FlatIdx : I32 :=
  .add (.add (.mul (.mul (.getLocalId 2) (.getLocalSize 0)) (.getLocalSize 1))
      (.mul (.getLocalId 1) (.getLocalSize 0)))
    (.getLocalId 0)

end ContextSpill

/-! ### The order of the work-items -/

/-- The values of an induction variable that starts at 0 and stays below `n`. -/
def upTo (n : BitVec 32) : List (BitVec 32) := (List.range n.toNat).map (BitVec.ofNat 32)

def localId (l2 l1 l0 : BitVec 32) : Dims
  | 0 => l0
  | 1 => l1
  | 2 => l2

/-- Dimension 0 is the innermost loop. -/
def workItems (lsz : Dims) : List Dims :=
  (upTo (lsz 2)).flatMap fun l2 => (upTo (lsz 1)).flatMap fun l1 =>
    (upTo (lsz 0)).map fun l0 => localId l2 l1 l0

/-- Elements of a nest of two loops, the inner one of `n` turns. -/
theorem getElem?_flatMap_of_length {α β : Type*} {f : α → List β} {n : Nat}
    (hf : ∀ a, (f a).length = n) (xs : List α) (i : Nat) {j : Nat} (hj : j < n) :
    (xs.flatMap f)[i * n + j]? = xs[i]?.bind fun a => (f a)[j]? := by
  induction xs generalizing i with
  | nil => rfl
  | cons x xs ih =>
    rw [List.flatMap_cons]
    cases i with
    | zero =>
      rw [Nat.zero_mul, Nat.zero_add, List.getElem?_append_left (by rw [hf]; exact hj)]
      rfl
    | succ i =>
      rw [List.getElem?_append_right (by rw [hf]; nlinarith), hf, List.getElem?_cons_succ, ← ih i]
      congr 1
      rw [Nat.succ_mul]
      omega

theorem length_flatMap_of_length {α β : Type*} {f : α → List β} {n : Nat}
    (hf : ∀ a, (f a).length = n) (xs : List α) : (xs.flatMap f).length = xs.length * n := by
  simp [List.length_flatMap, hf]

@[simp] theorem length_upTo (n : BitVec 32) : (upTo n).length = n.toNat := by simp [upTo]

theorem getElem?_upTo {n l : BitVec 32} (h : l < n) : (upTo n)[l.toNat]? = some l := by
  rw [BitVec.lt_def] at h
  simp [upTo, h]

/-- `lid` is the id of a work-item of the group. -/
def InGroup (lsz lid : Dims) : Prop := ∀ d, lid d < lsz d

/-- The position of a work-item in mixed radix. -/
def position (lsz lid : Dims) : Nat :=
  ((lid 2).toNat * (lsz 1).toNat + (lid 1).toNat) * (lsz 0).toNat + (lid 0).toNat

def groupSize (lsz : Dims) : Nat := (lsz 2).toNat * (lsz 1).toNat * (lsz 0).toNat

theorem length_workItems (lsz : Dims) : (workItems lsz).length = groupSize lsz := by
  rw [workItems, length_flatMap_of_length (n := (lsz 1).toNat * (lsz 0).toNat), length_upTo,
    groupSize, Nat.mul_assoc]
  intro l2
  rw [length_flatMap_of_length (n := (lsz 0).toNat), length_upTo]
  intro l1
  rw [List.length_map, length_upTo]

theorem localId_eq (lid : Dims) : localId (lid 2) (lid 1) (lid 0) = lid := by
  funext d
  match d with
  | 0 => rfl
  | 1 => rfl
  | 2 => rfl

theorem getElem?_workItems {lsz lid : Dims} (h : InGroup lsz lid) :
    (workItems lsz)[position lsz lid]? = some lid := by
  have h0 := BitVec.lt_def.mp (h 0)
  have h1 := BitVec.lt_def.mp (h 1)
  have hinner : (lid 1).toNat * (lsz 0).toNat + (lid 0).toNat < (lsz 1).toNat * (lsz 0).toNat := by
    nlinarith
  have hlen : ∀ l2 l1, ((upTo (lsz 0)).map fun l0 => localId l2 l1 l0).length = (lsz 0).toNat := by
    simp
  have hpos : position lsz lid = (lid 2).toNat * ((lsz 1).toNat * (lsz 0).toNat) +
      ((lid 1).toNat * (lsz 0).toNat + (lid 0).toNat) := by
    rw [position]
    ring
  rw [hpos, workItems, getElem?_flatMap_of_length _ _ _ hinner, getElem?_upTo (h 2),
    Option.bind_some, getElem?_flatMap_of_length (hlen _) _ _ h0, getElem?_upTo (h 1),
    Option.bind_some, List.getElem?_map, getElem?_upTo (h 0), Option.map_some, localId_eq]
  intro l2
  rw [length_flatMap_of_length (hlen l2), length_upTo]

theorem position_lt {lsz lid : Dims} (h : InGroup lsz lid) :
    position lsz lid < groupSize lsz := by
  rw [← length_workItems]
  exact (List.getElem?_eq_some_iff.mp (getElem?_workItems h)).1

/-! ### The generated code -/

theorem eval_FlatIdx (lid lsz : Dims) :
    LoopInserter.FlatIdx.eval lid lsz = BitVec.ofNat 32 (position lsz lid) := by
  simp only [LoopInserter.FlatIdx, I32.eval, position, BitVec.ofNat_add, BitVec.ofNat_mul,
    BitVec.ofNat_toNat, BitVec.setWidth_eq]
  ring

theorem eval_Flat3DSize (lid lsz : Dims) :
    LoopInserter.Flat3DSize.eval lid lsz = BitVec.ofNat 32 (groupSize lsz) := by
  simp only [LoopInserter.Flat3DSize, I32.eval, groupSize, BitVec.ofNat_mul, BitVec.ofNat_toNat,
    BitVec.setWidth_eq]

/-- The copies in the other pass are the same instructions. -/
structure SpillAgrees : Prop where
  size : ContextSpill.Flat3DSize = LoopInserter.Flat3DSize
  load : ContextSpill.insert3DLoadFor_FlatIdx = LoopInserter.FlatIdx
  store : ContextSpill.insert3DStoreFor_FlatIdx = LoopInserter.FlatIdx

section
variable {lsz lid lid' : Dims}

theorem toNat_FlatIdx (h : InGroup lsz lid) (hsize : groupSize lsz ≤ 2 ^ 31) :
    (LoopInserter.FlatIdx.eval lid lsz).toNat = position lsz lid := by
  have := position_lt h
  rw [eval_FlatIdx, BitVec.toNat_ofNat, Nat.mod_eq_of_lt (by omega)]

theorem toInt_FlatIdx (h : InGroup lsz lid) (hsize : groupSize lsz ≤ 2 ^ 31) :
    (LoopInserter.FlatIdx.eval lid lsz).toInt = position lsz lid := by
  have hlt := position_lt h
  have hnat := toNat_FlatIdx h hsize
  rw [BitVec.toInt_eq_toNat_of_lt (by omega), hnat]

theorem toNat_Flat3DSize (lid : Dims) (hsize : groupSize lsz ≤ 2 ^ 31) :
    (LoopInserter.Flat3DSize.eval lid lsz).toNat = groupSize lsz := by
  rw [eval_Flat3DSize, BitVec.toNat_ofNat, Nat.mod_eq_of_lt (by omega)]

theorem FlatIdx_injective (h : InGroup lsz lid) (h' : InGroup lsz lid')
    (hsize : groupSize lsz ≤ 2 ^ 31)
    (heq : LoopInserter.FlatIdx.eval lid lsz = LoopInserter.FlatIdx.eval lid' lsz) :
    lid = lid' := by
  have hpos : position lsz lid = position lsz lid' := by
    rw [← toNat_FlatIdx h hsize, heq, toNat_FlatIdx h' hsize]
  have hget := getElem?_workItems h
  rw [hpos, getElem?_workItems h'] at hget
  exact (Option.some.inj hget).symm

end

/-- Each work-item has a slot of its own in a context array, at its place in the order of the
loops; the index is signed. -/
theorem context_slots {lsz : Dims} (hsize : groupSize lsz ≤ 2 ^ 31) :
    (∀ lid, InGroup lsz lid →
      0 ≤ (LoopInserter.FlatIdx.eval lid lsz).toInt ∧
      (LoopInserter.FlatIdx.eval lid lsz).toInt < (LoopInserter.Flat3DSize.eval lid lsz).toNat ∧
      (workItems lsz)[(LoopInserter.FlatIdx.eval lid lsz).toNat]? = some lid) ∧
    (∀ lid lid', InGroup lsz lid → InGroup lsz lid' →
      LoopInserter.FlatIdx.eval lid lsz = LoopInserter.FlatIdx.eval lid' lsz → lid = lid') ∧
    (∀ lid, (workItems lsz).length = (LoopInserter.Flat3DSize.eval lid lsz).toNat) ∧
    SpillAgrees := by
  refine ⟨fun lid h => ?_, fun lid lid' h h' => FlatIdx_injective h h' hsize, fun lid => ?_,
    rfl, rfl, rfl⟩
  · have hlt := position_lt h
    rw [toInt_FlatIdx h hsize, toNat_Flat3DSize lid hsize, toNat_FlatIdx h hsize]
    exact ⟨Int.natCast_nonneg _, Int.ofNat_lt.mpr hlt, getElem?_workItems h⟩
  · rw [length_workItems, toNat_Flat3DSize lid hsize]

def twoByThreeByFour : Dims := localId 2 3 4

theorem context_slots_twoByThreeByFour :
    (∀ lid, InGroup twoByThreeByFour lid →
      0 ≤ (LoopInserter.FlatIdx.eval lid twoByThreeByFour).toInt ∧
      (LoopInserter.FlatIdx.eval lid twoByThreeByFour).toInt <
        (LoopInserter.Flat3DSize.eval lid twoByThreeByFour).toNat ∧
      (workItems twoByThreeByFour)[(LoopInserter.FlatIdx.eval lid twoByThreeByFour).toNat]? =
        some lid) ∧
    (∀ lid lid', InGroup twoByThreeByFour lid → InGroup twoByThreeByFour lid' →
      LoopInserter.FlatIdx.eval lid twoByThreeByFour =
        LoopInserter.FlatIdx.eval lid' twoByThreeByFour → lid = lid') ∧
    (∀ lid, (workItems twoByThreeByFour).length =
      (LoopInserter.Flat3DSize.eval lid twoByThreeByFour).toNat) ∧
    SpillAgrees :=
  context_slots (by decide)

example : LoopInserter.FlatIdx.eval (localId 1 2 3) twoByThreeByFour = 23 := by decide

end VariOCL.IR
