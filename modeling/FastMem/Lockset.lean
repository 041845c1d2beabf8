import Mathlib.Data.List.Basic
import Mathlib.Data.List.Induction
import Mathlib.Tactic.Tauto
import Mathlib.Order.Basic
import FastMem.Core

/-!
# The lock set of a key-changing update

`fm_core_update_row` collects the buckets it must lock, sorts them with an
insertion sort, and then locks and unlocks them in two loops that skip a pair
equal to its neighbour.  Here is what these loops do to the collected list: it
comes out sorted, with the same pairs; the acquire loop takes the pairs
`distinct none ls`, which are strictly ascending, and the release loop gives
back exactly these, in the opposite order.
-/

namespace FastMem

variable {n : Nat} {W PK : Type}

/-- The order the pairs are locked in: by key, then by bucket. -/
def pairLt (v w : Nat × Nat) : Prop := v.1 < w.1 ∨ v.1 = w.1 ∧ v.2 < w.2

/-- The sort key orders pairs by key and then by bucket. -/
theorem locksetKey_eq {v : Nat × Nat} (h : v.2 < 2 ^ 32) : locksetKey v = v.1 * 2 ^ 32 + v.2 := by
  unfold locksetKey
  rw [← Nat.shiftLeft_add_eq_or_of_lt h, Nat.shiftLeft_eq]

/-- The order of the sort keys is the order of the pairs. -/
theorem pairLt_of_key_lt {v w : Nat × Nat} (hv : v.2 < 2 ^ 32) (hw : w.2 < 2 ^ 32)
    (h : locksetKey v < locksetKey w) : pairLt v w := by
  rw [locksetKey_eq hv, locksetKey_eq hw] at h
  unfold pairLt
  omega

/-- Pairs with the same sort key are the same. -/
theorem eq_of_key_eq {v w : Nat × Nat} (hv : v.2 < 2 ^ 32) (hw : w.2 < 2 ^ 32)
    (h : locksetKey v = locksetKey w) : v = w := by
  rw [locksetKey_eq hv, locksetKey_eq hw] at h
  exact Prod.ext (by omega) (by omega)

/-- An insertion adds its pair. -/
theorem mem_sortInsert {v p : Nat × Nat} {ps : List (Nat × Nat)} :
    p ∈ sortInsert v ps ↔ p = v ∨ p ∈ ps := by
  induction ps with
  | nil => simp [sortInsert]
  | cons q ps ih =>
      unfold sortInsert
      split
      · simp
      · simp [ih]; tauto

/-- Inserting into a prefix that descends from its end keeps it descending. -/
theorem sortInsert_pairwise {v : Nat × Nat} {ps : List (Nat × Nat)}
    (h : ps.Pairwise fun p q => locksetKey q ≤ locksetKey p) :
    (sortInsert v ps).Pairwise fun p q => locksetKey q ≤ locksetKey p := by
  induction ps with
  | nil => simp [sortInsert]
  | cons q ps ih =>
      obtain ⟨hq, hps⟩ := List.pairwise_cons.mp h
      unfold sortInsert
      split
      · rename_i hle
        refine List.pairwise_cons.mpr ⟨fun p hp => ?_, h⟩
        rcases List.mem_cons.mp hp with rfl | hp
        · exact hle
        · exact (hq p hp).trans hle
      · rename_i hgt
        refine List.pairwise_cons.mpr ⟨fun p hp => ?_, ih hps⟩
        rcases mem_sortInsert.mp hp with rfl | hp
        · omega
        · exact hq p hp

/-- The insertion sort of a collected list, on top of a sorted prefix. -/
theorem sort_spec (vs : List (Nat × Nat)) :
    ∀ ps : List (Nat × Nat), (ps.Pairwise fun p q => locksetKey q ≤ locksetKey p) →
      ((vs.foldl (fun done v => sortInsert v done) ps).Pairwise
        fun p q => locksetKey q ≤ locksetKey p) ∧
      ∀ p, p ∈ vs.foldl (fun done v => sortInsert v done) ps ↔ p ∈ vs ∨ p ∈ ps := by
  induction vs with
  | nil => intro ps h; simpa using h
  | cons v vs ih =>
      intro ps h
      obtain ⟨hs, hm⟩ := ih (sortInsert v ps) (sortInsert_pairwise h)
      refine ⟨hs, fun p => ?_⟩
      rw [List.foldl_cons, hm, mem_sortInsert, List.mem_cons]
      tauto

variable (cfg : ShareCfg n W PK) (old new : Image n W)

/-- A key adds the buckets of both its images. -/
theorem mem_addToLockset {ls : List (Nat × Nat)} {k : Nat} {p : Nat × Nat} :
    p ∈ addToLockset cfg old new ls k ↔
      p ∈ ls ∨ p = (k, cfg.keyBucket k new) ∨ p = (k, cfg.keyBucket k old) := by
  unfold addToLockset
  by_cases hn : (k, cfg.keyBucket k new) ∈ ls <;> by_cases ho : (k, cfg.keyBucket k old) ∈ ls <;>
    simp only [hn, ho, if_true, if_false, List.append_nil, List.mem_append, List.mem_singleton]
  · refine ⟨Or.inl, ?_⟩
    rintro (h | rfl | rfl) <;> assumption
  · refine ⟨by tauto, ?_⟩
    rintro (h | rfl | rfl)
    · exact Or.inl h
    · exact Or.inl hn
    · exact Or.inr rfl
  · refine ⟨by tauto, ?_⟩
    rintro (h | rfl | rfl)
    · exact Or.inl h
    · exact Or.inr rfl
    · exact Or.inl ho
  · tauto

theorem mem_collected {ks : List Nat} {p : Nat × Nat} :
    ∀ ls : List (Nat × Nat), p ∈ ks.foldl (addToLockset cfg old new) ls ↔
      p ∈ ls ∨ ∃ k ∈ ks, p = (k, cfg.keyBucket k new) ∨ p = (k, cfg.keyBucket k old) := by
  induction ks with
  | nil => simp
  | cons k ks ih =>
      intro ls
      rw [List.foldl_cons, ih, mem_addToLockset]
      simp only [List.mem_cons, exists_eq_or_imp, or_assoc]

/-- The lock set holds the old and the new bucket of every changed key, and
nothing else. -/
theorem mem_lockset {p : Nat × Nat} :
    p ∈ lockset cfg old new ↔
      ∃ k ∈ changedKeys cfg old new, p = (k, cfg.keyBucket k new) ∨
      p = (k, cfg.keyBucket k old) := by
  unfold lockset
  rw [List.mem_reverse, (sort_spec _ [] List.Pairwise.nil).2, mem_collected]
  simp

/-- The lock set is sorted. -/
theorem lockset_sorted :
    (lockset cfg old new).Pairwise fun p q => locksetKey p ≤ locksetKey q := by
  unfold lockset
  rw [List.pairwise_reverse]
  exact (sort_spec _ [] List.Pairwise.nil).1

/-- Its buckets fit into 32 bits. -/
theorem lockset_bucket_lt {p : Nat × Nat} (h : p ∈ lockset cfg old new) : p.2 < 2 ^ 32 := by
  obtain ⟨k, _, rfl | rfl⟩ := (mem_lockset cfg old new).mp h
  · exact (cfg.keyBucket_lt k new).trans (cfg.keydef k).nbuckets_lt
  · exact (cfg.keyBucket_lt k old).trans (cfg.keydef k).nbuckets_lt

variable {cfg old new}

/-- The pairs the acquire loop locks, when the pair before the list is `prev`. -/
def distinct : Option (Nat × Nat) → List (Nat × Nat) → List (Nat × Nat)
  | _, [] => []
  | prev, v :: vs => if prev = some v then distinct (some v) vs else v :: distinct (some v) vs

/-- The pairs the release loop unlocks. -/
def released : List (Nat × Nat) → List (Nat × Nat)
  | [] => []
  | v :: vs => if vs.head? = some v then released vs else v :: released vs

/-- Leaving duplicates out adds nothing. -/
theorem distinct_subset {prev : Option (Nat × Nat)} {vs : List (Nat × Nat)} {p : Nat × Nat}
    (h : p ∈ distinct prev vs) : p ∈ vs := by
  induction vs generalizing prev with
  | nil => simp [distinct] at h
  | cons v vs ih =>
      unfold distinct at h
      split at h
      · exact List.mem_cons_of_mem _ (ih h)
      · rcases List.mem_cons.mp h with rfl | h
        · exact List.mem_cons_self
        · exact List.mem_cons_of_mem _ (ih h)

/-- It loses nothing but what was there just before. -/
theorem mem_distinct {prev : Option (Nat × Nat)} {vs : List (Nat × Nat)} {p : Nat × Nat}
    (h : p ∈ vs) : p ∈ distinct prev vs ∨ prev = some p := by
  induction vs generalizing prev with
  | nil => simp at h
  | cons v vs ih =>
      unfold distinct
      rcases List.mem_cons.mp h with rfl | h
      · split
        · exact Or.inr (by assumption)
        · exact Or.inl List.mem_cons_self
      · rcases ih h with hd | hv
        · left
          split
          · exact hd
          · exact List.mem_cons_of_mem _ hd
        · cases hv
          split
          · exact Or.inr (by assumption)
          · exact Or.inl List.mem_cons_self

/-- In a sorted list, the pairs taken by the acquire loop ascend strictly, and
lie above the pair before the list. -/
theorem distinct_ascending {vs : List (Nat × Nat)} (hb : ∀ p ∈ vs, p.2 < 2 ^ 32)
    (hs : vs.Pairwise fun p q => locksetKey p ≤ locksetKey q) :
    ∀ prev : Option (Nat × Nat), (∀ q, prev = some q → q.2 < 2 ^ 32 ∧
        ∀ p ∈ vs, locksetKey q ≤ locksetKey p) →
      (distinct prev vs).Pairwise pairLt ∧
        ∀ q, prev = some q → ∀ p ∈ distinct prev vs, pairLt q p := by
  induction vs with
  | nil => intro prev _; simp [distinct]
  | cons v vs ih =>
      intro prev hprev
      obtain ⟨hv, hvs⟩ := List.pairwise_cons.mp hs
      have hbv : v.2 < 2 ^ 32 := hb v List.mem_cons_self
      obtain ⟨hpw, habove⟩ := ih (fun p hp => hb p (List.mem_cons_of_mem _ hp)) hvs (some v)
        (by rintro q ⟨⟩; exact ⟨hbv, hv⟩)
      have hlt : ∀ q, prev = some q → prev ≠ some v → pairLt q v := by
        intro q hq hne
        obtain ⟨hbq, hle⟩ := hprev q hq
        refine pairLt_of_key_lt hbq hbv ?_
        refine lt_of_le_of_ne (hle v List.mem_cons_self) fun heq => hne ?_
        rw [hq, eq_of_key_eq hbq hbv heq]
      unfold distinct
      split
      · rename_i hpv
        refine ⟨hpw, fun q hq p hp => ?_⟩
        rw [hpv] at hq
        exact habove q hq p hp
      · rename_i hne
        refine ⟨List.pairwise_cons.mpr ⟨fun p hp => habove v rfl p hp, hpw⟩, ?_⟩
        intro q hq p hp
        have hqv := hlt q hq hne
        rcases List.mem_cons.mp hp with rfl | hp
        · exact hqv
        · have hvp := habove v rfl p hp
          unfold pairLt at hqv hvp ⊢
          omega

/-- A pair at the end is left out if it is the one before it. -/
theorem distinct_append {vs : List (Nat × Nat)} {v : Nat × Nat} :
    ∀ prev : Option (Nat × Nat), distinct prev (vs ++ [v]) =
      distinct prev vs ++ if (vs.getLast?.or prev) = some v then [] else [v] := by
  induction vs with
  | nil =>
      intro prev
      by_cases h : prev = some v <;> simp [distinct, h]
  | cons u vs ih =>
      intro prev
      have hlast : ((u :: vs).getLast?.or prev) = (vs.getLast?.or (some u)) := by
        cases vs with
        | nil => simp
        | cons w ws => simp [List.getLast?_cons]
      rw [List.cons_append, hlast]
      unfold distinct
      split
      · rw [ih]
      · rw [ih, List.cons_append]

/-- The release loop gives back what the acquire loop took, in the opposite
order. -/
theorem released_reverse (vs : List (Nat × Nat)) :
    released vs.reverse = (distinct none vs).reverse := by
  induction vs using List.reverseRecOn with
  | nil => rfl
  | append_singleton vs v ih =>
      rw [List.reverse_append, List.reverse_singleton, List.singleton_append, distinct_append]
      unfold released
      rw [List.head?_reverse, Option.or_none]
      split
      · simpa using ih
      · rw [ih]; simp

/-- The bucket locks of a list of pairs, the last taken first. -/
def bucketLocks (vs : List (Nat × Nat)) : List Lock := (vs.map fun v => .bucket v.1 v.2).reverse

section

variable {cfg : ShareCfg n W PK} {old new : Image n W}

/-- Records that compare equal on a key have the same hash under it. -/
def HashRespects (cfg : ShareCfg n W PK) : Prop :=
  ∀ k, k < cfg.keys → ∀ a b, (cfg.keydef k).ops.cmpRecRec a b = 0 →
    (cfg.keydef k).ops.hashRec a = (cfg.keydef k).ops.hashRec b

/-- With at most 64 keys no changed key is left out. -/
theorem changedKeys_eq (hkeys : cfg.keys ≤ 64) : changedKeys cfg old new =
    (List.range cfg.keys).filter fun k => (cfg.keydef k).ops.cmpRecRec old new ≠ 0 := by
  have hlen : ((List.range cfg.keys).filter fun k =>
      (cfg.keydef k).ops.cmpRecRec old new ≠ 0).length ≤ maxChangedKeys := by
    refine (List.length_filter_le _ _).trans ?_
    rw [List.length_range]
    exact hkeys
  unfold changedKeys
  rw [List.take_of_length_le hlen]
  refine (List.map_congr_left fun k hk => ?_).trans (List.map_id _)
  have hk' : k < cfg.keys := List.mem_range.mp (List.mem_of_mem_filter hk)
  exact Nat.mod_eq_of_lt (by omega)

/-- The changed keys are those on which the images differ. -/
theorem mem_changedKeys (hkeys : cfg.keys ≤ 64) {k : Nat} :
    k ∈ changedKeys cfg old new ↔ k < cfg.keys ∧ (cfg.keydef k).ops.cmpRecRec old new ≠ 0 := by
  rw [changedKeys_eq hkeys]
  simp

/-- No key is among them twice. -/
theorem changedKeys_nodup (hkeys : cfg.keys ≤ 64) : (changedKeys cfg old new).Nodup := by
  rw [changedKeys_eq hkeys]
  exact List.nodup_range.filter _

/-- A key an update does not change keeps its bucket. -/
theorem keyBucket_eq_of_not_mem (hkeys : cfg.keys ≤ 64) (hhash : HashRespects cfg) {k : Nat}
    (hk : k < cfg.keys) (hnot : k ∉ changedKeys cfg old new) :
    cfg.keyBucket k new = cfg.keyBucket k old := by
  have hcmp : (cfg.keydef k).ops.cmpRecRec old new = 0 := by
    by_contra hne
    exact hnot ((mem_changedKeys hkeys).mpr ⟨hk, hne⟩)
  unfold ShareCfg.keyBucket
  rw [hhash k hk old new hcmp]

end

end FastMem
