import FastMem.Events
import FastMem.FailedCalls

/-!
# The locks of a key-changing update

The pairs that an update locks are settled by the lock set alone: whatever the accesses of
an update answer, and whatever others do in between, the bucket locks it takes are the
distinct pairs of its lock set, in ascending order, and every exit releases the same pairs
in the opposite order.
-/

namespace FastMem

open Conc

variable {n : Nat} {W PK : Type} {cfg : ShareCfg n W PK} {old new : Image n W} {α β : Type}

/-- The array of `fm_core_update_row` for the changed keys `ks`: collected and sorted. -/
def locksetOf (cfg : ShareCfg n W PK) (old new : Image n W) (ks : List Nat) : List (Nat × Nat) :=
  ((ks.foldl (addToLockset cfg old new) []).foldl (fun done v => sortInsert v done) []).reverse

/-- The lock set of an update is the one of its changed keys. -/
theorem lockset_eq : lockset cfg old new = locksetOf cfg old new (changedKeys cfg old new) := rfl

/-- An insertion makes the list longer by one. -/
theorem length_sortInsert (v : Nat × Nat) (ps : List (Nat × Nat)) :
    (sortInsert v ps).length = ps.length + 1 := by
  induction ps with
  | nil => rfl
  | cons p ps ih =>
    unfold sortInsert
    split
    · rfl
    · rw [List.length_cons, ih, List.length_cons]

/-- Sorting keeps the length. -/
theorem length_sort (vs ps : List (Nat × Nat)) :
    (vs.foldl (fun done v => sortInsert v done) ps).length = vs.length + ps.length := by
  induction vs generalizing ps with
  | nil => simp
  | cons v vs ih =>
    rw [List.foldl_cons, ih, length_sortInsert, List.length_cons]
    omega

/-- A key adds two locks at most. -/
theorem length_addToLockset (cfg : ShareCfg n W PK) (old new : Image n W)
    (ls : List (Nat × Nat)) (k : Nat) : (addToLockset cfg old new ls k).length ≤ ls.length + 2 := by
  by_cases hnew : (k, cfg.keyBucket k new) ∈ ls <;> by_cases hold : (k,
    cfg.keyBucket k old) ∈ ls <;>
    simp [addToLockset, hnew, hold]

theorem length_collected (cfg : ShareCfg n W PK) (old new : Image n W) (ks : List Nat)
    (ls : List (Nat × Nat)) :
    (ks.foldl (addToLockset cfg old new) ls).length ≤ ls.length + 2 * ks.length := by
  induction ks generalizing ls with
  | nil => simp
  | cons k ks ih =>
    have hrest := ih (addToLockset cfg old new ls k)
    have hround := length_addToLockset cfg old new ls k
    rw [List.foldl_cons, List.length_cons]
    omega

/-- A changed key brings at most two pairs. -/
theorem length_locksetOf (cfg : ShareCfg n W PK) (old new : Image n W) (ks : List Nat) :
    (locksetOf cfg old new ks).length ≤ 2 * ks.length := by
  have hcollected := length_collected cfg old new ks []
  rw [locksetOf, List.length_reverse, length_sort]
  simpa using hcollected

/-- The lock set holds the buckets of the old and the new image, and no others. -/
theorem mem_locksetOf {ks : List Nat} {p : Nat × Nat} :
    p ∈ locksetOf cfg old new ks ↔
      ∃ k ∈ ks, p = (k, cfg.keyBucket k new) ∨ p = (k, cfg.keyBucket k old) := by
  rw [locksetOf, List.mem_reverse, (sort_spec _ [] List.Pairwise.nil).2, mem_collected]
  simp

/-- It is sorted. -/
theorem locksetOf_sorted (cfg : ShareCfg n W PK) (old new : Image n W) (ks : List Nat) :
    (locksetOf cfg old new ks).Pairwise fun p q => locksetKey p ≤ locksetKey q := by
  rw [locksetOf, List.pairwise_reverse]
  exact (sort_spec _ [] List.Pairwise.nil).1

/-- Its buckets fit into 32 bits. -/
theorem locksetOf_bucket_lt {ks : List Nat} {p : Nat × Nat} (h : p ∈ locksetOf cfg old new ks) :
    p.2 < 2 ^ 32 := by
  obtain ⟨k, -, rfl | rfl⟩ := mem_locksetOf.mp h
  · exact (cfg.keyBucket_lt k new).trans (cfg.keydef k).nbuckets_lt
  · exact (cfg.keyBucket_lt k old).trans (cfg.keydef k).nbuckets_lt

/-- No more keys change than the lock set has room for. -/
theorem length_changedKeys : (changedKeys cfg old new).length ≤ maxChangedKeys := by
  rw [changedKeys, List.length_map, List.length_take]
  exact Nat.min_le_left ..

/-- What a call does to the lock of a bucket. -/
inductive BucketEvent
  | lock (v : Nat × Nat)
  | unlock (v : Nat × Nat)

/-- The accesses that take or release the lock of a bucket. -/
def Act.bucketEvent : Act n W → Option BucketEvent
  | .lock (.bucket k b) => some (.lock (k, b))
  | .unlock (.bucket k b) => some (.unlock (k, b))
  | _ => none

/-- The bucket events of a program, on every path through it. -/
abbrev Locks (cfg : ShareCfg n W PK) (p : Core n W PK α) (Q : List BucketEvent → α → Prop) : Prop :=
  Prog.Emits (S := coreSig n W PK) (procBody cfg) Act.bucketEvent p Q

/-- An action that is no lock operation is no bucket lock. -/
theorem bucketEvent_quiet (a : Act n W) (ha : a.quiet = true) : a.bucketEvent = none := by
  cases a <;> first | rfl | cases ha

/-- A program without lock operations takes no bucket lock. -/
theorem Silent.locks {p : Core n W PK α} (hp : Silent p) : Locks cfg p fun es _ => es = [] :=
  Prog.emits_none bucketEvent_quiet silent_procBody hp

variable {Q : List BucketEvent → α → Prop} {R : List BucketEvent → β → Prop}

/-- The bucket locks of one program after another. -/
theorem Locks.bind {p : Core n W PK α} {f : α → Core n W PK β} (hp : Locks cfg p Q)
    (hf : ∀ es a, Q es a → Locks cfg (f a) fun es' b => R (es ++ es') b) : Locks cfg (p >>= f) R :=
  Prog.Emits.bind hp hf

/-- A silent part of a program leaves the events to the rest. -/
theorem Silent.locks_bind {p : Core n W PK α} {f : α → Core n W PK β} (hp : Silent p)
    (hf : ∀ a, Locks cfg (f a) R) : Locks cfg (p >>= f) R := by
  refine hp.locks.bind fun es a hes => ?_
  subst hes
  exact hf a

/-- A result takes no bucket lock. -/
theorem locks_pure {a : α} (h : Q [] a) : Locks cfg (pure a) Q := Prog.emits_ret h

/-- Taking a bucket lock. -/
theorem locks_lock (v : Nat × Nat) :
    Locks cfg (access (.lock (.bucket v.1 v.2))) fun es (_ : Unit) => es = [.lock v] :=
  Prog.emits_perform fun _ => rfl

/-- Giving one back. -/
theorem locks_unlock (v : Nat × Nat) :
    Locks cfg (access (.unlock (.bucket v.1 v.2))) fun es (_ : Unit) => es = [.unlock v] :=
  Prog.emits_perform fun _ => rfl

/-- The lock of a row is no bucket lock. -/
theorem locks_row (idx : Int) :
    Locks cfg (access (.lock (.row idx))) fun es (_ : Unit) => es = [] :=
  Prog.emits_perform fun _ => rfl

/-- The release of a row is no bucket lock. -/
theorem locks_unlockRow (idx : Int) :
    Locks cfg (access (.unlock (.row idx))) fun es (_ : Unit) => es = [] :=
  Prog.emits_perform fun _ => rfl

/-- Each lock of a sorted list is taken once. -/
theorem locks_lockAll (vs : List (Nat × Nat)) (prev : Option (Nat × Nat)) :
    Locks cfg (lockAll prev vs) fun es _ => es = (distinct prev vs).map .lock := by
  induction vs generalizing prev with
  | nil => exact locks_pure rfl
  | cons v vs ih =>
    unfold lockAll unlessSame distinct
    by_cases hprev : prev = some v
    · simp only [hprev, if_true]
      exact Silent.locks_bind (only_pure _) fun _ => ih _
    · simp only [hprev, if_false]
      refine (locks_lock v).bind fun es _ hes => (ih (some v)).imp fun es' _ hes' => ?_
      rw [hes, hes', List.map_cons, List.singleton_append]

/-- Each is given back once. -/
theorem locks_unlockAll (vs : List (Nat × Nat)) :
    Locks cfg (unlockAll vs) fun es _ => es = (released vs).map .unlock := by
  induction vs with
  | nil => exact locks_pure rfl
  | cons v vs ih =>
    unfold unlockAll unlessSame released
    by_cases hnext : vs.head? = some v
    · simp only [hnext, if_true]
      exact Silent.locks_bind (only_pure _) fun _ => ih
    · simp only [hnext, if_false]
      refine (locks_unlock v).bind fun es _ hes => ih.imp fun es' _ hes' => ?_
      rw [hes, hes', List.map_cons, List.singleton_append]

/-- They are given back in reverse. -/
theorem locks_release (vs : List (Nat × Nat)) :
    Locks cfg (unlockAll vs.reverse) fun es _ => es = (distinct none vs).reverse.map .unlock := by
  refine (locks_unlockAll vs.reverse).imp fun es _ hes => ?_
  rw [hes, released_reverse]

/-- The bucket events of an update that locks the pairs `ps`. -/
def lockRound (ps : List (Nat × Nat)) : List BucketEvent := ps.map .lock ++ ps.reverse.map .unlock

/-- An exit of an update: it releases the pairs that it holds and returns. -/
theorem locks_exit (vs : List (Nat × Nat)) (r : α) :
    Locks cfg (do unlockAll vs.reverse; pure r)
      fun es x => x = r ∧ es = (distinct none vs).reverse.map .unlock := by
  refine (locks_release vs).bind fun es _ hes => locks_pure ⟨rfl, ?_⟩
  rw [hes, List.append_nil]

/-- A step that does not touch the bucket locks. -/
theorem locks_skip {p : Core n W PK α} {f : α → Core n W PK β}
    (hp : Locks cfg p fun es _ => es = [])
    (hf : ∀ a, Locks cfg (f a) R) : Locks cfg (p >>= f) R := by
  refine hp.bind fun es a hes => ?_
  subst hes
  exact hf a

/-- An update takes its lock set once and gives it back. -/
theorem locks_updateRow (idx : Int) (g : Nat) (old new scratch : Image n W) :
    Locks cfg (updateRow cfg idx g old new scratch)
      fun es _ => es = lockRound (distinct none (lockset cfg old new)) := by
  have hexit : ∀ r : WriteResult, Locks cfg (do unlockAll (lockset cfg old new).reverse; pure r)
      fun es _ => (distinct none (lockset cfg old new)).map .lock ++ es =
        lockRound (distinct none (lockset cfg old new)) := by
    intro r
    refine (locks_exit _ r).imp fun es _ hes => ?_
    rw [hes.2, lockRound]
  refine Prog.Emits.ite ?_ ?_
  · intro hnone
    have hempty : lockset cfg old new = [] := by rw [lockset_eq, hnone]; rfl
    rw [hempty]
    refine locks_skip (locks_row idx) fun _ => (silent_verifySlot ..).locks_bind fun valid => ?_
    refine Prog.Emits.ite (fun _ => ?_) fun _ => ?_
    · refine (silent_writeImage ..).locks_bind fun _ => locks_skip (locks_unlockRow idx) fun _ => ?_
      exact locks_pure rfl
    · exact locks_skip (locks_unlockRow idx) fun _ => locks_pure rfl
  · intro _
    refine (locks_lockAll (lockset cfg old new) none).bind fun es _ hes => ?_
    subst hes
    refine (loads_dupChecks ..).silent.locks_bind fun dup => ?_
    cases dup with
    | some k => exact hexit _
    | none =>
      refine locks_skip (locks_row idx) fun _ => (silent_verifySlot ..).locks_bind fun valid => ?_
      refine Prog.Emits.ite (fun _ => ?_) fun _ => ?_
      · refine (silent_writeImage ..).locks_bind fun _ =>
          (silent_moveKeys ..).locks_bind fun _ => ?_
        exact locks_skip (locks_unlockRow idx) fun _ => hexit _
      · exact locks_skip (locks_unlockRow idx) fun _ => hexit _

theorem locks_updateRowLocked (idx : Int) (g : Nat) (old new scratch : Image n W) :
    Locks cfg (updateRowLocked cfg idx g old new scratch)
      fun es r => es = if r.rc = .deleted then [] else lockRound
        (distinct none (lockset cfg old new)) := by
  have hexit : ∀ r : WriteResult, r.rc ≠ .deleted →
      Locks cfg (do unlockAll (lockset cfg old new).reverse; pure r)
        fun es x => (distinct none (lockset cfg old new)).map .lock ++ es =
          if x.rc = .deleted then [] else lockRound (distinct none (lockset cfg old new)) := by
    intro r hr
    refine (locks_exit _ r).imp fun es x hx => ?_
    rw [hx.1, hx.2, if_neg hr, lockRound]
  refine (silent_verifySlot ..).locks_bind fun valid => Prog.Emits.ite (fun _ => ?_) fun _ => ?_
  · refine Prog.Emits.ite (fun hnone => ?_) fun _ => ?_
    · have hempty : lockset cfg old new = [] := by rw [lockset_eq, hnone]; rfl
      rw [hempty]
      exact (silent_writeImage ..).locks_bind fun _ => locks_pure rfl
    · refine (locks_lockAll (lockset cfg old new) none).bind fun es _ hes => ?_
      subst hes
      refine (loads_dupChecks ..).silent.locks_bind fun dup => ?_
      cases dup with
      | some k => exact hexit _ (by simp)
      | none =>
        refine (silent_writeImage ..).locks_bind fun _ =>
          (silent_moveKeys ..).locks_bind fun _ => ?_
        exact hexit _ (by simp)
  · exact locks_pure rfl

/-- The distinct pairs that an update of the keys `ks` has to lock, in ascending order. -/
structure LockOrder (cfg : ShareCfg n W PK) (old new : Image n W) (ks : List Nat)
    (ps : List (Nat × Nat)) : Prop where
  ascending : ps.Pairwise pairLt
  mem : ∀ p, p ∈ ps ↔ ∃ k ∈ ks, p = (k, cfg.keyBucket k old) ∨ p = (k, cfg.keyBucket k new)

/-- Without its duplicates the lock set is in strict order. -/
theorem lockOrder_distinct (ks : List Nat) :
    LockOrder cfg old new ks (distinct none (locksetOf cfg old new ks)) := by
  have hascending := distinct_ascending (fun p hp => locksetOf_bucket_lt hp)
    (locksetOf_sorted cfg old new ks) none (by simp)
  refine ⟨hascending.1, fun p => ?_⟩
  have hmem : p ∈ distinct none (locksetOf cfg old new ks) ↔ p ∈ locksetOf cfg old new ks := by
    constructor
    · exact distinct_subset
    · intro hp
      exact (mem_distinct hp).resolve_right (by simp)
  rw [hmem, mem_locksetOf]
  simp only [or_comm]

/-- **The lock set of a key-changing update.**  For any changed keys, as many as the array
has room for, and any buckets: what is collected and sorted has at most two pairs for each
key, namely its old and its new bucket; the acquire loop takes the distinct pairs, each
once and in ascending order, and a release loop gives back each of them once.  Every way
through an update that gets as far as the locks takes and releases the pairs of its changed
keys so. -/
theorem lock_set_of_update (cfg : ShareCfg n W PK) (old new : Image n W) :
    (∀ ks : List Nat, ks.length ≤ maxChangedKeys →
      (locksetOf cfg old new ks).length ≤ 2 * maxChangedKeys ∧
      (∀ p, p ∈ locksetOf cfg old new ks ↔ ∃ k ∈ ks, p = (k, cfg.keyBucket k old) ∨
        p = (k, cfg.keyBucket k new)) ∧
      ∃ ps, LockOrder cfg old new ks ps ∧
        Locks cfg (lockAll none (locksetOf cfg old new ks)) (fun es _ => es = ps.map .lock) ∧
        Locks cfg (unlockAll (locksetOf cfg old new ks).reverse) fun es _ => es =
          ps.reverse.map .unlock) ∧
    (changedKeys cfg old new).length ≤ maxChangedKeys ∧
    ∃ ps, LockOrder cfg old new (changedKeys cfg old new) ps ∧
      ∀ idx g scratch,
        Locks cfg (updateRow cfg idx g old new scratch) (fun es _ => es = lockRound ps) ∧
        Locks cfg (updateRowLocked cfg idx g old new scratch)
          fun es r => es = if r.rc = .deleted then [] else lockRound ps := by
  refine ⟨fun ks hks => ⟨?_, fun p => ?_, ?_⟩, length_changedKeys, ?_⟩
  · have hlen := length_locksetOf cfg old new ks
    omega
  · rw [mem_locksetOf]
    simp only [or_comm]
  · exact ⟨_, lockOrder_distinct ks, locks_lockAll _ none, locks_release _⟩
  · refine ⟨_, lockOrder_distinct (changedKeys cfg old new), fun idx g scratch => ⟨?_, ?_⟩⟩
    · exact locks_updateRow idx g old new scratch
    · exact locks_updateRowLocked idx g old new scratch

/-- Where the old and the new bucket of a key coincide, its pair is collected twice, and an
update of a row takes and releases its lock once. -/
theorem lock_set_of_update_same_bucket :
    locksetOf (wordTable 1) (fun _ => 3) (fun _ => 7) [0] = [(0, 3), (0, 3)] ∧
      ∃ s es r s', (machine (wordTable 1)).Traces 0
          (updateRow (wordTable 1) 0 0 (fun _ => 3) (fun _ => 7) fun _ => 0) s es r s' ∧
          r.rc = .ok ∧
        es.filterMap Act.bucketEvent = [.lock (0, 3), .unlock (0, 3)] := by
  have heval : ((machine (wordTable 1)).eval 0 200 (insertRow (wordTable 1) (fun _ => 3) fun _ => 0)
      (Share.fresh fun _ _ => 0)).any (fun x => ((machine (wordTable 1)).eval 0 200
        (updateRow (wordTable 1) 0 0 (fun _ => 3) (fun _ => 7) fun _ => 0) x.2).any
          (·.1.rc = .ok)) = true := by
    decide +kernel
  obtain ⟨⟨_, s⟩, -, hupdate⟩ := (Option.any_eq_true _ _).mp heval
  obtain ⟨⟨r, s'⟩, hupdate, hok⟩ := (Option.any_eq_true _ _).mp hupdate
  have hok : r.rc = .ok := by simpa using hok
  obtain ⟨es, htrace⟩ := (Machine.Runs.of_eval hupdate).traces
  obtain ⟨-, -, ps, horder, hupdates⟩ := lock_set_of_update (wordTable 1) (fun _ => 3) fun _ => 7
  have hevents := (hupdates 0 0 fun _ => 0).1 es r htrace.path
  have hmem : ∀ p, p ∈ ps ↔ p = (0, 3) := by
    intro p
    rw [horder.mem p]
    have hchanged : changedKeys (wordTable 1) (fun _ => 3) (fun _ => 7) = [0] := by decide
    have hold : (wordTable 1).keyBucket 0 (fun _ => 3) = 3 := by decide
    have hnew : (wordTable 1).keyBucket 0 (fun _ => 7) = 3 := by decide
    simp [hchanged, hold, hnew]
  have hps : ps = [(0, 3)] := by
    cases ps with
    | nil => exact absurd ((hmem (0, 3)).mpr rfl) (by simp)
    | cons p ps =>
      obtain rfl := (hmem p).mp List.mem_cons_self
      cases ps with
      | nil => rfl
      | cons q ps =>
        obtain rfl := (hmem q).mp (by simp)
        have hlt : pairLt (0, 3) (0, 3) :=
          (List.pairwise_cons.mp horder.ascending).1 _ List.mem_cons_self
        exact absurd hlt (by simp [pairLt])
  rw [hps] at hevents
  exact ⟨by decide, s, es, r, s', htrace, hok, hevents⟩

end FastMem
