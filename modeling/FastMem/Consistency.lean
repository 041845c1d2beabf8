import Mathlib.Data.Set.Card
import FastMem.Sequential

/-!
# The representation invariant

A share between calls is consistent: the chains of every key hold exactly the
ACTIVE slots, each in the bucket of its image; the free list holds no ACTIVE slot
and every other slot that may be used; `records` counts the ACTIVE slots; no image
write is in progress.

Inside `fm_core_insert_row` one slot is out: it has been taken off the free list
and is not ACTIVE yet.  `Consistent` has it as a parameter, so that slot
allocation can be described by the same structure.
-/

namespace FastMem

open Conc

variable {n : Nat} {W PK : Type} {cfg : ShareCfg n W PK} {t : Nat} {s s' : Share n W}

/-- Slot `i` lies in a chunk of the share. -/
def Share.Grown (s : Share n W) (i : Int) : Prop := ∃ u, u < slotCount s.chunkCnt ∧ i = i32 u

/-- The share is consistent, with the index `C` and the free list `F`, apart from
the slots in `out`. -/
structure Consistent (cfg : ShareCfg n W PK) (s : Share n W) (C : Index) (F : List Int)
    (out : Set Int) : Prop where
  index : s.Indexed C
  index_mem : ∀ k, k < cfg.keys → ∀ b i, i ∈ C k b ↔ s.state i = .active ∧
    cfg.keyBucket k (s.data i) = b
  index_other : ∀ k, cfg.keys ≤ k → ∀ b, C k b = []
  free : s.FreeList F
  free_inactive : ∀ i ∈ F, s.state i ≠ .active
  free_grown : ∀ i ∈ F, s.Grown i
  free_all : ∀ u, u < slotCount s.chunkCnt → u < cfg.maxRecords → s.state (i32 u) ≠ .active →
    i32 u ∈ F ∨ i32 u ∈ out
  out_spec : ∀ i ∈ out, s.state i ≠ .active ∧ s.Grown i ∧ i ∉ F
  records : s.records = {i | s.state i = .active}.ncard
  active_grown : ∀ i, s.state i = .active → s.Grown i
  seq_even : ∀ i, s.seq i % 2 = 0
  chunks : s.chunkCnt ≤ cfg.chunkCap

/-- Up to the capacity the slots of the chunks fit into 32 bits. -/
theorem slotCount_of_le {c : Nat} (hc : c ≤ cfg.chunkCap) :
    slotCount c = c * 4096 ∧ c * 4096 + 4096 ≤ 2 ^ 32 := by
  have hcap : cfg.chunkCap < 2 ^ 20 := by
    unfold ShareCfg.chunkCap chunkSize
    omega
  have heq : slotCount c = c * 4096 % 2 ^ 32 := rfl
  omega

/-- No slot of a chunk is -1. -/
theorem grown_ne_null (hc : s.chunkCnt ≤ cfg.chunkCap) {i : Int} (hi : s.Grown i) :
    i ≠ nullSlot := by
  obtain ⟨u, hu, rfl⟩ := hi
  obtain ⟨heq, hle⟩ := slotCount_of_le hc
  exact i32_ne_null (by omega)

/-- Slots of the chunk that would be added next do not exist yet. -/
theorem not_grown_of_chunk (hc : s.chunkCnt ≤ cfg.chunkCap) {i : Int}
    (hi : u32 i / chunkSize = s.chunkCnt) : ¬ s.Grown i := by
  rintro ⟨u, hu, rfl⟩
  obtain ⟨heq, hle⟩ := slotCount_of_le hc
  rw [u32_i32 (by omega)] at hi
  rw [heq] at hu
  unfold chunkSize at hi
  omega

section

variable {C : Index} {F : List Int} {out : Set Int}

/-- A slot is in one chain of each key. -/
theorem Consistent.index_disjoint (h : Consistent cfg s C F out) :
    ∀ k b b' i, i ∈ C k b → i ∈ C k b' → b = b' := by
  intro k b b' i hi hi'
  by_cases hk : k < cfg.keys
  · exact ((h.index_mem k hk b i).mp hi).2.symm.trans ((h.index_mem k hk b' i).mp hi').2
  · rw [h.index_other k (by omega)] at hi
    cases hi

/-- The slots of the chains are ACTIVE. -/
theorem Consistent.active_of_mem (h : Consistent cfg s C F out) {k b : Nat} {i : Int}
    (hi : i ∈ C k b) : s.state i = .active := by
  by_cases hk : k < cfg.keys
  · exact ((h.index_mem k hk b i).mp hi).1
  · rw [h.index_other k (by omega)] at hi
    cases hi

/-- There are finitely many slots. -/
theorem grown_finite (s : Share n W) : {i | s.Grown i}.Finite := by
  refine ((Set.finite_lt_nat (slotCount s.chunkCnt)).image i32).subset fun i hi => ?_
  obtain ⟨u, hu, rfl⟩ := hi
  exact ⟨u, hu, rfl⟩

/-- There are finitely many rows. -/
theorem Consistent.active_finite (h : Consistent cfg s C F out) :
    {i | s.state i = .active}.Finite :=
  (grown_finite s).subset h.active_grown

end

/-- Locks play no part in consistency. -/
theorem Consistent.setOwner {C : Index} {F : List Int} {out : Set Int}
    (h : Consistent cfg s C F out) (o : Option Nat) (l : Lock) :
    Consistent cfg (s.setOwner o l) C F out := by
  cases l <;> exact { h with }

/-- A fresh share is consistent. -/
theorem consistent_fresh (cfg : ShareCfg n W PK) (data : Int → Image n W) :
    Consistent cfg (Share.fresh data) (fun _ _ => []) [] ∅ where
  index := fun _ _ => rfl
  index_mem := by
    intro k _ b i
    simp [Share.fresh]
  index_other := fun _ _ _ => rfl
  free := rfl
  free_inactive := by simp
  free_grown := by simp
  free_all := by
    intro u hu
    simp [Share.fresh, slotCount] at hu
  out_spec := by simp
  records := by simp [Share.fresh]
  active_grown := by
    intro i hi
    cases hi
  seq_even := by
    intro i
    rfl
  chunks := Nat.zero_le _

/-- The same share with another free list. -/
def Share.withFree (s : Share n W) (next : Int → Int) (head : Int) : Share n W :=
  { s with freeNext := next, freeHead := head }

/-- Putting a slot in front of the free list. -/
theorem runs_freeSlot (idx : Int) :
    (machine cfg).Runs t (freeSlot idx) s ()
      (s.withFree (Function.update s.freeNext idx s.freeHead) idx) :=
  runs_access rfl (runs_access rfl (runs_last rfl))

/-- The numbers of the `m` slots from `lo` on. -/
def slotsFrom (lo m : Nat) : List Int := (List.range m).map fun j => i32 (lo + j)

/-- The slots from an index on. -/
theorem mem_slotsFrom {lo m : Nat} {i : Int} : i ∈ slotsFrom lo m ↔ ∃ j,
    j < m ∧ i = i32 (lo + j) := by
  simp only [slotsFrom, List.mem_map, List.mem_range]
  constructor
  · rintro ⟨j, hj, rfl⟩
    exact ⟨j, hj, rfl⟩
  · rintro ⟨j, hj, rfl⟩
    exact ⟨j, hj, rfl⟩

/-- One slot more. -/
theorem slotsFrom_succ (lo m : Nat) : slotsFrom lo (m + 1) = slotsFrom lo m ++ [i32 (lo + m)] := by
  simp [slotsFrom, List.range_succ]

/-- Pushing fresh slots puts them in front of the free list, in ascending order. -/
theorem runs_pushSlots (cfg : ShareCfg n W PK) (t lo m : Nat) {F : List Int} (hF : s.FreeList F)
    (hlt : lo + m < 2 ^ 32) (hnew : ∀ i ∈ slotsFrom lo m, i ∉ F) :
    ∃ fn fh, (machine cfg).Runs t (pushSlots lo m) s () (s.withFree fn fh) ∧
      (s.withFree fn fh).FreeList (slotsFrom lo m ++ F) := by
  induction m generalizing s F with
  | zero => exact ⟨s.freeNext, s.freeHead, runs_pure, hF⟩
  | succ m ih =>
      have hidx : i32 (lo + m) ∉ F := hnew _ (mem_slotsFrom.mpr ⟨m, by omega, rfl⟩)
      have hpush : (s.withFree (Function.update s.freeNext (i32 (lo + m)) s.freeHead)
          (i32 (lo + m))).FreeList (i32 (lo + m) :: F) :=
        IsChain.push hF hidx (i32_ne_null (by omega))
      obtain ⟨fn, fh, hruns, hlist⟩ := ih hpush (by omega) (by
        intro i hi hmem
        rcases List.mem_cons.mp hmem with rfl | hmem
        · obtain ⟨j, hj, heq⟩ := mem_slotsFrom.mp hi
          have := i32_inj (by omega) (by omega) heq
          omega
        · exact hnew i (by rw [slotsFrom_succ]; exact List.mem_append_left _ hi) hmem)
      refine ⟨fn, fh, runs_then (runs_freeSlot _) hruns, ?_⟩
      rw [slotsFrom_succ, List.append_assoc]
      exact hlist

/-- What comes before `k` in the list of keys. -/
theorem range_prefix {m k : Nat} {pre post : List Nat} (h : List.range m = pre ++ k :: post) :
    pre = List.range k := by
  have hlen := congrArg List.length h
  simp only [List.length_range, List.length_append, List.length_cons] at hlen
  have hk : pre.length = k := by
    have hget := congrArg (fun l => l[pre.length]?) h
    simpa [show pre.length < m by omega] using hget
  have htake := congrArg (List.take pre.length) h
  rw [List.take_left, List.take_range, Nat.min_eq_left (by omega)] at htake
  rw [← htake, hk]

end FastMem
