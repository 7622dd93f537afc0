import Mathlib.Tactic.Linarith
import Mathlib.Tactic.Ring
import VariOCL.IR.Uses
import VariOCL.Sim.Loop

/-! The loops of `CleanupPHIs` on the entries of the PHIs: what is removed while it is indexed, and
what is left after all starts over. -/

namespace VariOCL.IR.BarrierTailReplication

open Sim

abbrev Entry := Value × BlockId

/-! ### The loop over the entries of a PHI -/

/-- `e` is the number of entries that are left. -/
structure Entries where
  incoming : List Entry
  i : Nat := 0
  changed : Bool := false
  PHIRemoved : Bool := false
  deriving DecidableEq

section
variable (isSuccessor : BlockId → Bool)

/-- The body of the loop.  After `i = 0; continue` the loop goes on with entry 1. -/
def entryStep (s : Entries) : Except Unit (Option Entries) :=
  match s.incoming[s.i]? with
  | none => .ok none
  | some p =>
    if isSuccessor p.2 then .ok (some { s with i := s.i + 1 })
    else
      let incoming := s.incoming.eraseIdx s.i
      .ok (some ⟨incoming, 1, true, incoming.isEmpty⟩)

def cleanupEntries (fuel : Nat) (incoming : List Entry) : Except Unit Entries :=
  loop (entryStep isSuccessor) () fuel ⟨incoming, 0, false, false⟩

end

/-! ### What one PHI is left with -/

section
variable (live : Entry → Bool)

/-- The second entry is not looked at once the first one has been removed. -/
def swept : List Entry → List Entry
  | [] => []
  | p :: rest =>
    if live p then p :: rest.filter live else rest.take 1 ++ (rest.drop 1).filter live

variable {live} {l l' : List Entry} {isSuccessor : BlockId → Bool}

theorem filter_swept : (swept live l).filter live = l.filter live := by
  cases l with
  | nil => rfl
  | cons p rest =>
    rw [swept]
    split
    · rename_i hp
      simp [hp]
    · rename_i hp
      rw [List.filter_append, List.filter_filter, List.filter_cons_of_neg hp]
      conv => rhs; rw [← List.take_append_drop 1 rest, List.filter_append]
      simp

/-- Where the first two entries are not both stale, all stale entries go. -/
theorem swept_eq_filter (h : ∀ p q rest, l = p :: q :: rest → live p ∨ live q) :
    swept live l = l.filter live := by
  match l with
  | [] => rfl
  | [p] => by_cases hp : live p = true <;> simp [swept, hp]
  | p :: q :: rest =>
    by_cases hp : live p = true
    · simp [swept, hp]
    · have hq := (h p q rest rfl).resolve_left hp
      simp [swept, hp, hq]

theorem swept_eq_nil : swept live l = [] ↔ l = [] ∨ ∃ p, l = [p] ∧ live p = false := by
  match l with
  | [] => simp [swept]
  | [p] => by_cases hp : live p = true <;> simp [swept, hp]
  | p :: q :: rest => by_cases hp : live p = true <;> simp [swept, hp]

/-- Only the first entry can be a stale one. -/
theorem live_of_mem_drop_swept {p : Entry} (h : p ∈ (swept live l).drop 1) : live p = true := by
  match l with
  | [] => simp [swept] at h
  | [q] => by_cases hq : live q = true <;> simp [swept, hq] at h
  | q :: r :: rest =>
    by_cases hq : live q = true
    · simp only [swept, hq, if_true, List.drop_succ_cons, List.drop_zero] at h
      exact (List.mem_filter.mp h).2
    · simp only [swept, hq, Bool.false_eq_true, if_false, List.take_succ_cons, List.take_zero,
        List.drop_succ_cons, List.drop_zero, List.cons_append, List.nil_append] at h
      exact (List.mem_filter.mp h).2

/-- The state of the loop once the first entry has been looked at. -/
structure EntriesInv (live : Entry → Bool) (l : List Entry) (s : Entries) : Prop where
  started : 0 < s.i
  left : swept live l = s.incoming.take 1 ++ (s.incoming.drop 1).filter live
  seen : ∀ p ∈ (s.incoming.take s.i).drop 1, live p
  unchanged : s.changed = false → s.incoming = l ∧ ∀ p ∈ l.take s.i, live p
  changed : s.changed = true → ∃ p ∈ l, live p = false
  removed : s.PHIRemoved = (s.changed && s.incoming.isEmpty)

theorem filter_eraseIdx {α : Type} {q : α → Bool} {xs : List α} {i : Nat} {x : α}
    (hx : xs[i]? = some x) (hq : q x = false) : (xs.eraseIdx i).filter q = xs.filter q := by
  induction xs generalizing i with
  | nil => rfl
  | cons y ys ih =>
    cases i with
    | zero =>
      cases hx
      simp [hq]
    | succ i => simp [List.filter_cons, ih hx]

theorem entryStep_cases {s t : Entries} (ht : entryStep isSuccessor s = .ok (some t)) :
    ∃ p, s.incoming[s.i]? = some p ∧
      (isSuccessor p.2 = true ∧ t = { s with i := s.i + 1 } ∨
        isSuccessor p.2 = false ∧
          t = ⟨s.incoming.eraseIdx s.i, 1, true, (s.incoming.eraseIdx s.i).isEmpty⟩) := by
  unfold entryStep at ht
  split at ht
  · cases ht
  · rename_i p hp
    refine ⟨p, hp, ?_⟩
    cases hlive : isSuccessor p.2 with
    | true =>
      rw [hlive, if_pos rfl] at ht
      cases ht
      exact .inl ⟨rfl, rfl⟩
    | false =>
      rw [hlive, if_neg Bool.false_ne_true] at ht
      cases ht
      exact .inr ⟨rfl, rfl⟩

theorem EntriesInv.first {t : Entries} (ht : entryStep isSuccessor ⟨l, 0, false, false⟩ =
    .ok (some t)) : EntriesInv (fun p => isSuccessor p.2) l t := by
  obtain ⟨p, hp, ⟨hlive, rfl⟩ | ⟨hstale, rfl⟩⟩ := entryStep_cases ht
  · cases l with
    | nil => cases hp
    | cons q rest =>
      cases hp
      exact ⟨Nat.one_pos, by simp [swept, hlive], by simp, fun _ => ⟨rfl, by simpa using hlive⟩,
        nofun, rfl⟩
  · cases l with
    | nil => cases hp
    | cons q rest =>
      cases hp
      refine ⟨Nat.one_pos, by simp [swept, hstale], ?_, nofun,
        fun _ => ⟨p, List.mem_cons_self, hstale⟩, by simp⟩
      intro x hx
      cases rest with
      | nil => simp at hx
      | cons y ys => simp at hx

theorem EntriesInv.step {s t : Entries} (h : EntriesInv (fun p => isSuccessor p.2) l s)
    (ht : entryStep isSuccessor s = .ok (some t)) : EntriesInv (fun p => isSuccessor p.2) l t := by
  obtain ⟨incoming, i, changed, PHIRemoved⟩ := s
  obtain ⟨p, hp, ⟨hlive, rfl⟩ | ⟨hstale, rfl⟩⟩ := entryStep_cases ht
  · simp only at hp hlive
    have htake : incoming.take (i + 1) = incoming.take i ++ [p] := by
      rw [List.take_add_one, hp]
      rfl
    refine ⟨Nat.succ_pos i, h.left, ?_, ?_, h.changed, h.removed⟩
    · intro q hq
      simp only [htake] at hq
      rcases List.mem_append.mp (List.mem_of_mem_drop hq) with hmem | hmem
      · have hlen : 1 ≤ (incoming.take i).length := by
          have := (List.getElem?_eq_some_iff.mp hp).1
          rw [List.length_take]
          have := h.started
          simp only at this
          omega
        rw [List.drop_append_of_le_length hlen] at hq
        rcases List.mem_append.mp hq with hq | hq
        · exact h.seen q hq
        · rw [List.mem_singleton.mp hq]
          exact hlive
      · rw [List.mem_singleton.mp hmem]
        exact hlive
    · intro hch
      obtain ⟨hl, hseen⟩ := h.unchanged hch
      simp only at hl
      subst hl
      refine ⟨rfl, fun q hq => ?_⟩
      simp only [htake] at hq
      rcases List.mem_append.mp hq with hq | hq
      · exact hseen q hq
      · rw [List.mem_singleton.mp hq]
        exact hlive
  · simp only at hp hstale
    have hi : 0 < i := h.started
    obtain ⟨k, rfl⟩ := Nat.exists_eq_add_of_le' hi
    have hswept := h.left
    have hstaleMem : ∃ p ∈ l, isSuccessor p.2 = false := by
      cases changed with
      | true => exact h.changed rfl
      | false =>
        obtain ⟨hl, -⟩ := h.unchanged rfl
        exact ⟨p, hl ▸ List.mem_of_getElem? hp, hstale⟩
    cases incoming with
    | nil => cases hp
    | cons q rest =>
      have hrest : rest[k]? = some p := hp
      refine ⟨Nat.one_pos, ?_, ?_, nofun, fun _ => hstaleMem, by simp⟩
      · rw [hswept]
        have hfilter := filter_eraseIdx (q := fun p : Entry => isSuccessor p.2) hrest hstale
        simp [hfilter]
      · intro x hx
        simp at hx

def entriesMeasure (s : Entries) : Nat :=
  s.incoming.length * (s.incoming.length + 1) + (s.incoming.length - s.i)

theorem entryStep_decreases {s t : Entries} (ht : entryStep isSuccessor s = .ok (some t)) :
    entriesMeasure t < entriesMeasure s := by
  obtain ⟨p, hp, ⟨-, rfl⟩ | ⟨-, rfl⟩⟩ := entryStep_cases ht
  · have := (List.getElem?_eq_some_iff.mp hp).1
    simp only [entriesMeasure]
    omega
  · have hlt := (List.getElem?_eq_some_iff.mp hp).1
    have hlen : (s.incoming.eraseIdx s.i).length + 1 = s.incoming.length := by
      rw [List.length_eraseIdx_of_lt hlt]
      omega
    simp only [entriesMeasure, ← hlen]
    have : ((s.incoming.eraseIdx s.i).length + 1) * ((s.incoming.eraseIdx s.i).length + 1 + 1) =
      (s.incoming.eraseIdx s.i).length * ((s.incoming.eraseIdx s.i).length + 1) +
        2 * ((s.incoming.eraseIdx s.i).length + 1) := by ring
    omega

theorem EntriesInv.final {s : Entries} (h : EntriesInv (fun p => isSuccessor p.2) l s)
    (hs : entryStep isSuccessor s = .ok none) :
    s.incoming = swept (fun p => isSuccessor p.2) l ∧
      s.changed = l.any (fun p => !isSuccessor p.2) := by
  have hlen : s.incoming.length ≤ s.i := by
    unfold entryStep at hs
    split at hs
    · exact List.getElem?_eq_none_iff.mp ‹_›
    · split at hs <;> cases hs
  have hseen := h.seen
  rw [List.take_of_length_le hlen] at hseen
  constructor
  · rw [h.left, List.filter_eq_self.mpr hseen, List.take_append_drop]
  · cases hch : s.changed with
    | true =>
      obtain ⟨p, hp, hstale⟩ := h.changed hch
      exact (List.any_eq_true.mpr ⟨p, hp, by rw [hstale]; rfl⟩).symm
    | false =>
      obtain ⟨hl, hlive⟩ := h.unchanged hch
      rw [← hl, List.take_of_length_le hlen] at hlive
      refine (List.any_eq_false.mpr fun p hp => ?_).symm
      simp [hlive p (hl ▸ hp)]

theorem cleanupEntries_spec {fuel : Nat} (hfuel : l.length * (l.length + 2) < fuel) :
    ∃ r, cleanupEntries isSuccessor fuel l = .ok r ∧
      r.incoming = swept (fun p => isSuccessor p.2) l ∧
      r.changed = l.any (fun p => !isSuccessor p.2) ∧
      r.PHIRemoved = (r.changed && r.incoming.isEmpty) := by
  have hstep : ∀ s, (s = ⟨l, 0, false, false⟩ ∨ EntriesInv (fun p => isSuccessor p.2) l s) →
      entryStep isSuccessor s = .ok none ∨ ∃ t, entryStep isSuccessor s = .ok (some t) ∧
        (t = ⟨l, 0, false, false⟩ ∨ EntriesInv (fun p => isSuccessor p.2) l t) ∧
          entriesMeasure t < entriesMeasure s := by
    intro s hs
    cases h : entryStep isSuccessor s with
    | error e =>
      unfold entryStep at h
      split at h
      · cases h
      · split at h <;> cases h
    | ok o =>
      cases o with
      | none => exact .inl rfl
      | some t =>
        refine .inr ⟨t, rfl, .inr ?_, entryStep_decreases h⟩
        rcases hs with rfl | hs
        · exact .first h
        · exact hs.step h
  have hmeasure : entriesMeasure ⟨l, 0, false, false⟩ < fuel := by
    have : l.length * (l.length + 2) = l.length * (l.length + 1) + l.length := by ring
    simp only [entriesMeasure]
    omega
  obtain ⟨r, hloop, hr⟩ := loop_ends () hstep (.inl rfl) hmeasure
  have hfinal := (loop_reaches hloop).2
  refine ⟨r, hloop, ?_⟩
  rcases hr with rfl | hr
  · cases l with
    | nil => exact ⟨rfl, rfl, rfl⟩
    | cons p rest =>
      simp only [entryStep, List.getElem?_cons_zero] at hfinal
      split at hfinal <;> cases hfinal
  · exact ⟨(hr.final hfinal).1, (hr.final hfinal).2, hr.removed⟩

theorem swept_map {f : Entry → Entry} (hf : ∀ p, live (f p) = live p) :
    swept live (l.map f) = (swept live l).map f := by
  have hfilter : ∀ xs : List Entry, (xs.map f).filter live = (xs.filter live).map f := by
    intro xs
    rw [List.filter_map]
    exact congrArg _ (List.filter_congr fun p _ => hf p)
  cases l with
  | nil => rfl
  | cons p rest =>
    rw [List.map_cons, swept, swept, hf]
    split
    · rw [List.map_cons, hfilter]
    · rw [List.map_append, List.map_take, ← hfilter, List.map_drop]

end

/-! ### What the PHIs of a block are left with -/

section
variable (live : Entry → Bool)

def sweptPhi (PN : PHINode) : PHINode :=
  { PN with incoming := BarrierTailReplication.swept live PN.incoming }

def livePhi (PN : PHINode) : PHINode :=
  { PN with incoming := PN.incoming.filter live }

/-- The only entry is stale. -/
def loneStale (PN : PHINode) : Bool :=
  match PN.incoming with
  | [p] => !live p
  | _ => false

def firstTwoStale (PN : PHINode) : Bool :=
  match PN.incoming with
  | p :: q :: _ => !live p && !live q
  | _ => false

/-- A PHI that the loop comes back to. -/
def sweptTwice (PN : PHINode) : List PHINode :=
  if PN.incoming.isEmpty then [PN]
  else if (PN.incoming.filter live).isEmpty then []
  else [livePhi live PN]

/-- The PHIs the loop ends with: it starts over whenever it has deleted one. -/
def sweptPhis : List PHINode → List PHINode
  | [] => []
  | PN :: rest =>
    (if (PN :: rest).any (loneStale live) then sweptTwice live PN else [sweptPhi live PN]) ++
      sweptPhis rest

/-- The PHIs the loop should end with. -/
def livePhis (phis : List PHINode) : List PHINode :=
  (phis.filter fun PN => PN.incoming.any live).map (livePhi live)

/-- Where two stale entries come first, a later PHI has to send the loop back. -/
def CleansUp : List PHINode → Prop
  | [] => True
  | PN :: rest => PN.incoming ≠ [] ∧ (firstTwoStale live PN → rest.any (loneStale live)) ∧
      CleansUp rest

variable {live} {PN : PHINode} {pre post L : List PHINode}

theorem loneStale_iff :
    loneStale live PN = true ↔ PN.incoming ≠ [] ∧ swept live PN.incoming = [] := by
  rw [swept_eq_nil, loneStale]
  match PN.incoming with
  | [] => simp
  | [p] => simp
  | p :: q :: rest => simp

theorem swept_eq_of_not_firstTwoStale (h : firstTwoStale live PN = false) :
    swept live PN.incoming = PN.incoming.filter live := by
  refine swept_eq_filter fun p q rest heq => ?_
  rw [firstTwoStale, heq] at h
  simpa [or_iff_not_imp_left] using h

theorem sweptTwice_of_loneStale (h : loneStale live PN = true) : sweptTwice live PN = [] := by
  obtain ⟨hne, hnil⟩ := loneStale_iff.mp h
  have hfilter : PN.incoming.filter live = [] := by rw [← filter_swept, hnil]; rfl
  simp [sweptTwice, hne, hfilter]

/-- A PHI that has been swept already. -/
def Half (live : Entry → Bool) (PN : PHINode) : Prop :=
  loneStale live PN = false → sweptTwice live PN = [sweptPhi live PN]

theorem firstTwoStale_swept : firstTwoStale live (sweptPhi live PN) = false := by
  rw [firstTwoStale, sweptPhi]
  split
  · rename_i p q rest heq
    have hq : q ∈ (swept live PN.incoming).drop 1 := by
      simp only at heq
      rw [heq]
      exact List.mem_cons_self
    simp [live_of_mem_drop_swept hq]
  · rfl

theorem half_swept : Half live (sweptPhi live PN) := by
  intro h
  have hfirst : firstTwoStale live (sweptPhi live PN) = false := firstTwoStale_swept
  have hswept := swept_eq_of_not_firstTwoStale hfirst
  have hlone := mt loneStale_iff.mpr (Bool.not_eq_true _ ▸ h)
  by_cases hempty : (sweptPhi live PN).incoming = []
  · have : sweptPhi live (sweptPhi live PN) = sweptPhi live PN := by
      rw [sweptPhi, hempty]
      simp only [swept]
      rw [← hempty]
    rw [this, sweptTwice, hempty]
    rfl
  · have hne : (sweptPhi live PN).incoming.filter live ≠ [] := fun hnil =>
      hlone ⟨hempty, hswept.trans hnil⟩
    rw [sweptTwice, if_neg (by simpa using hempty), if_neg (by simpa using hne)]
    rw [livePhi, ← hswept]
    rfl

theorem sweptPhis_append (h : ∀ PN ∈ pre, Half live PN) :
    sweptPhis live (pre ++ post) = pre.flatMap (sweptTwice live) ++ sweptPhis live post := by
  induction pre with
  | nil => rfl
  | cons PN pre ih =>
    rw [List.cons_append, sweptPhis, ih fun P hP => h P (List.mem_cons_of_mem _ hP),
      List.flatMap_cons, List.append_assoc]
    congr 1
    split
    · rfl
    · rename_i hany
      have hPN : loneStale live PN = false := by
        rw [List.any_cons, Bool.or_eq_true, not_or] at hany
        exact Bool.eq_false_iff.mpr hany.1
      exact (h PN List.mem_cons_self hPN).symm

theorem sweptTwice_swept (h : loneStale live PN = false) :
    sweptTwice live (sweptPhi live PN) = sweptTwice live PN := by
  have hlone := mt loneStale_iff.mpr (Bool.not_eq_true _ ▸ h)
  have hempty : (sweptPhi live PN).incoming = [] ↔ PN.incoming = [] := by
    constructor
    · exact fun hnil => not_not.mp fun hne => hlone ⟨hne, hnil⟩
    · intro hnil
      simp [sweptPhi, hnil, swept]
  have hfilter : (sweptPhi live PN).incoming.filter live = PN.incoming.filter live :=
    filter_swept
  by_cases hnil : PN.incoming = []
  · have : sweptPhi live PN = PN := by
      simp only [sweptPhi, hnil, swept]
      rw [← hnil]
    rw [this]
  · have hnil' := mt hempty.mp hnil
    have hclean : livePhi live (sweptPhi live PN) = livePhi live PN := by
      rw [livePhi, hfilter]
      rfl
    have hne : (sweptPhi live PN).incoming.isEmpty = false := by simpa using hnil'
    have hne' : PN.incoming.isEmpty = false := by simpa using hnil
    simp only [sweptTwice, hfilter, hclean, hne, hne', Bool.false_eq_true, if_false]

/-- What the loop ends with if `pre` lies behind it and `post` ahead. -/
def endsWith (live : Entry → Bool) (pre post : List PHINode) : List PHINode :=
  (if post.any (loneStale live) then pre.flatMap (sweptTwice live) else pre) ++ sweptPhis live post

theorem endsWith_restart (hpre : ∀ PN ∈ pre, Half live PN) (h : loneStale live PN = true) :
    endsWith live [] (pre ++ post) = endsWith live pre (PN :: post) := by
  have hany : (PN :: post).any (loneStale live) = true := by simp [h]
  rw [endsWith, endsWith, hany, if_pos rfl, List.flatMap_nil, ite_self, List.nil_append,
    sweptPhis_append hpre, sweptPhis, hany, if_pos rfl, sweptTwice_of_loneStale h, List.nil_append]

theorem endsWith_next (h : loneStale live PN = false) :
    endsWith live (pre ++ [sweptPhi live PN]) post = endsWith live pre (PN :: post) := by
  have hany : (PN :: post).any (loneStale live) = post.any (loneStale live) := by simp [h]
  rw [endsWith, endsWith, sweptPhis, hany]
  cases hpost : post.any (loneStale live) with
  | true =>
    simp only [if_true, List.flatMap_append, List.flatMap_cons, List.flatMap_nil, List.append_nil,
      sweptTwice_swept h, List.append_assoc]
  | false =>
    simp only [Bool.false_eq_true, if_false, List.append_assoc]

theorem endsWith_done : endsWith live pre [] = pre := by simp [endsWith, sweptPhis]

end

end VariOCL.IR.BarrierTailReplication
