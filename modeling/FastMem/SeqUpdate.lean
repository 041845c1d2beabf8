import FastMem.Lockset
import FastMem.SeqDelete

/-!
# Updating alone

An update that changes no key rewrites the image in place.  One that changes keys
locks the buckets involved, checks for duplicates, rewrites the image and moves
the slot from its old bucket to its new one under every changed key, also when
the two are the same.
-/

namespace FastMem

open Conc

variable {n : Nat} {W PK : Type} {cfg : ShareCfg n W PK} {t : Nat} {s s' : Share n W}
  {C : Index} {F : List Int} {out : Set Int} {old new : Image n W}

/-- The share with the buckets `vs` locked. -/
def Share.lockBuckets (s : Share n W) (t : Nat) (vs : List (Nat × Nat)) : Share n W :=
  { s with bucketLock := fun k b => if vs.contains (k, b) then some t else s.bucketLock k b }

/-- No lock is taken for an empty lock set. -/
@[simp] theorem lockBuckets_nil : s.lockBuckets t [] = s := by
  simp [Share.lockBuckets]

/-- A lock that is not in the set keeps its owner. -/
theorem owner_lockBuckets_of_notMem {us : List (Nat × Nat)} {v : Nat × Nat} (hv : v ∉ us) :
    (s.lockBuckets t us).owner (.bucket v.1 v.2) = s.owner (.bucket v.1 v.2) := by
  have hnot : us.contains (v.1, v.2) = false := by simpa using hv
  show (if us.contains (v.1, v.2) then some t else s.bucketLock v.1 v.2) = s.bucketLock v.1 v.2
  rw [hnot]
  rfl

/-- The next lock of the set is taken. -/
theorem exec_lock_lockBuckets {us : List (Nat × Nat)} {v : Nat × Nat}
    (hfree : s.owner (.bucket v.1 v.2) = none) (hv : v ∉ us) :
    exec cfg t (.lock (.bucket v.1 v.2)) (s.lockBuckets t us) =
      some ((), s.lockBuckets t (us ++ [v])) := by
  have hfree' : (s.lockBuckets t us).owner (.bucket v.1 v.2) = none :=
    (owner_lockBuckets_of_notMem hv).trans hfree
  rw [exec_lock hfree']
  congr 2
  simp only [Share.setOwner, Share.lockBuckets, Share.mk.injEq, true_and, and_true]
  funext k b
  by_cases hk : k = v.1
  · subst hk
    by_cases hbv : b = v.2
    · subst hbv
      simp
    · have : ¬ (v.1, b) = v := fun h => hbv (congrArg Prod.snd h)
      simp [hbv, this]
  · have : ¬ (k, b) = v := fun h => hk (congrArg Prod.fst h)
    simp [hk, this]

/-- The acquire loop, alone. -/
theorem runs_lockAll (cfg : ShareCfg n W PK) (t : Nat) {us vs : List (Nat × Nat)}
    {prev : Option (Nat × Nat)} (hfree : ∀ k b, s.owner (.bucket k b) = none)
    (hnd : (us ++ distinct prev vs).Nodup) :
    (machine cfg).Runs t (lockAll prev vs) (s.lockBuckets t us) ()
      (s.lockBuckets t (us ++ distinct prev vs)) := by
  induction vs generalizing us prev with
  | nil =>
      rw [distinct, List.append_nil]
      exact runs_pure
  | cons v vs ih =>
      unfold lockAll unlessSame
      by_cases hp : prev = some v
      · have hd : distinct prev (v :: vs) = distinct (some v) vs := by simp [distinct, hp]
        rw [hd] at hnd ⊢
        rw [if_pos hp]
        exact runs_then runs_pure (ih hnd)
      · have hd : us ++ distinct prev (v :: vs) = (us ++ [v]) ++ distinct (some v) vs := by
          simp [distinct, hp]
        rw [hd] at hnd ⊢
        rw [if_neg hp]
        have hv : v ∉ us := by
          intro hmem
          rw [List.append_assoc] at hnd
          exact (List.nodup_append.mp hnd).2.2 v hmem v (by simp) rfl
        exact runs_then (runs_last (exec_lock_lockBuckets (hfree _ _) hv)) (ih hnd)

/-- The acquire loop gets through only if the buckets were free. -/
theorem free_of_lockAll {us vs : List (Nat × Nat)} {prev : Option (Nat × Nat)} {x : Unit}
    (hnd : (us ++ distinct prev vs).Nodup)
    (h : (machine cfg).Runs t (lockAll prev vs) (s.lockBuckets t us) x s') :
    (∀ v ∈ distinct prev vs, s.owner (.bucket v.1 v.2) = none) ∧
      s' = s.lockBuckets t (us ++ distinct prev vs) := by
  induction vs generalizing us prev with
  | nil =>
      cases h
      simp [distinct]
  | cons v vs ih =>
      unfold lockAll unlessSame at h
      by_cases hp : prev = some v
      · have hd : distinct prev (v :: vs) = distinct (some v) vs := by simp [distinct, hp]
        rw [hd] at hnd ⊢
        rw [if_pos hp] at h
        exact ih hnd h
      · have hd : distinct prev (v :: vs) = v :: distinct (some v) vs := by
          simp [distinct, hp]
        rw [hd] at hnd ⊢
        rw [if_neg hp] at h
        have hv : v ∉ us := by
          intro hmem
          exact (List.nodup_append.mp hnd).2.2 v hmem v List.mem_cons_self rfl
        cases h with
        | act hlock hrest =>
            have hfree : (s.lockBuckets t us).owner (.bucket v.1 v.2) = none := by
              by_contra hheld
              simp [exec, hheld] at hlock
            have hfree' : s.owner (.bucket v.1 v.2) = none :=
              (owner_lockBuckets_of_notMem hv).symm.trans hfree
            rw [show (machine cfg).exec = exec cfg from rfl,
              exec_lock_lockBuckets hfree' hv] at hlock
            cases hlock
            have happ : us ++ v :: distinct (some v) vs = (us ++ [v]) ++
                distinct (some v) vs := by simp
            rw [happ] at hnd ⊢
            obtain ⟨hrestfree, rfl⟩ := ih hnd hrest
            refine ⟨fun u hu => ?_, rfl⟩
            rcases List.mem_cons.mp hu with rfl | hu
            · exact hfree'
            · exact hrestfree u hu

/-- The release loop, alone. -/
theorem runs_unlockAll (cfg : ShareCfg n W PK) (t : Nat) {us vs : List (Nat × Nat)}
    (hfree : ∀ v ∈ released vs, s.owner (.bucket v.1 v.2) = none)
    (hnd : (released vs ++ us).Nodup) :
    (machine cfg).Runs t (unlockAll vs) (s.lockBuckets t (released vs ++ us)) ()
      (s.lockBuckets t us) := by
  induction vs with
  | nil => exact runs_pure
  | cons v vs ih =>
      unfold unlockAll unlessSame
      by_cases hv : vs.head? = some v
      · simp only [released, hv, if_true] at hnd hfree ⊢
        exact runs_then runs_pure (ih hfree hnd)
      · simp only [released, hv, if_false, List.cons_append] at hnd hfree ⊢
        obtain ⟨hnot, hnd'⟩ := List.nodup_cons.mp hnd
        refine runs_then (runs_last rfl) ?_
        have hback : (s.lockBuckets t (v :: (released vs ++ us))).setOwner none (.bucket v.1 v.2) =
            s.lockBuckets t (released vs ++ us) := by
          have hb : s.bucketLock v.1 v.2 = none := hfree v List.mem_cons_self
          simp only [Share.setOwner, Share.lockBuckets, Share.mk.injEq, true_and, and_true]
          funext k b
          by_cases hk : k = v.1
          · subst hk
            by_cases hbv : b = v.2
            · subst hbv
              simp [hnot, hb]
            · have : ¬ (v.1, b) = v := fun h => hbv (congrArg Prod.snd h)
              simp [hbv, this]
          · have : ¬ (k, b) = v := fun h => hk (congrArg Prod.fst h)
            simp [hk, this]
        rw [hback]
        exact ih (fun u hu => hfree u (List.mem_cons_of_mem _ hu)) hnd'

/-- The pairs of a lock set are locked once each. -/
theorem distinct_lockset_nodup : (distinct none (lockset cfg old new)).Nodup := by
  have hasc := (distinct_ascending (fun p => lockset_bucket_lt cfg old new)
    (lockset_sorted cfg old new) none (by simp)).1
  refine hasc.imp fun {u v} huv heq => ?_
  subst heq
  unfold pairLt at huv
  omega

/-- The whole lock set is taken, if its locks are free. -/
theorem runs_lockset (hfree : ∀ k b, s.owner (.bucket k b) = none) :
    (machine cfg).Runs t (lockAll none (lockset cfg old new)) s ()
      (s.lockBuckets t (distinct none (lockset cfg old new))) := by
  have hnd : ([] ++ distinct none (lockset cfg old new)).Nodup := distinct_lockset_nodup
  have hruns := runs_lockAll cfg t hfree hnd
  rw [lockBuckets_nil] at hruns
  exact hruns

/-- It is given back. -/
theorem runs_unlockset
    (hfree : ∀ v ∈ distinct none (lockset cfg old new), s.owner (.bucket v.1 v.2) = none) :
    (machine cfg).Runs t (unlockAll (lockset cfg old new).reverse)
      (s.lockBuckets t (distinct none (lockset cfg old new))) () s := by
  have hlocked : s.lockBuckets t (distinct none (lockset cfg old new)) =
      s.lockBuckets t (released (lockset cfg old new).reverse ++ []) := by
    rw [released_reverse, List.append_nil]
    simp [Share.lockBuckets]
  have hnd : (released (lockset cfg old new).reverse ++ []).Nodup := by
    rw [released_reverse, List.append_nil, List.nodup_reverse]
    exact distinct_lockset_nodup
  have hfree' : ∀ v ∈ released (lockset cfg old new).reverse, s.owner (.bucket v.1 v.2) = none := by
    intro v hv
    rw [released_reverse, List.mem_reverse] at hv
    exact hfree v hv
  have hruns := runs_unlockAll cfg t hfree' hnd
  rw [lockBuckets_nil, ← hlocked] at hruns
  exact hruns

/-- The duplicate checks change nothing, and they end: at the first key that has a
duplicate, or without one. -/
theorem runs_dupChecks (cfg : ShareCfg n W PK) (t : Nat) (hC : s.Indexed C)
    (heven : ∀ i, s.seq i % 2 = 0) (new scratch : Image n W) (ks : List Nat) :
    ∃ r, (machine cfg).Runs t (dupChecks cfg new scratch ks) s r s ∧
      match r with
      | some k => k ∈ ks ∧ DuplicateIn cfg s k new (C k (cfg.keyBucket k new))
      | none => ∀ k ∈ ks, ¬ DuplicateIn cfg s k new (C k (cfg.keyBucket k new)) := by
  induction ks with
  | nil => exact ⟨none, runs_pure, by simp⟩
  | cons k ks ih =>
      have hcheck : (machine cfg).Runs t (dupCheck cfg k (cfg.keyBucket k new) new scratch) s
          (if DuplicateIn cfg s k new (C k (cfg.keyBucket k new)) then .dupKey else .ok) s :=
        runs_dupCheck hC heven k _ new scratch
      by_cases hdup : DuplicateIn cfg s k new (C k (cfg.keyBucket k new))
      · rw [if_pos hdup] at hcheck
        exact ⟨some k, runs_then hcheck runs_pure, List.mem_cons_self, hdup⟩
      · rw [if_neg hdup] at hcheck
        obtain ⟨r, hr, hspec⟩ := ih
        refine ⟨r, runs_then hcheck hr, ?_⟩
        cases r with
        | some k' => exact ⟨List.mem_cons_of_mem _ hspec.1, hspec.2⟩
        | none =>
            intro k' hk'
            rcases List.mem_cons.mp hk' with rfl | hk'
            · exact hdup
            · exact hspec k' hk'

/-- The index with slot `idx` moved to the bucket of `new` under the keys in
`done`. -/
def Index.moved (cfg : ShareCfg n W PK) (C : Index) (idx : Int) (new : Image n W)
    (done : List Nat) : Index :=
  fun k b =>
    if k ∈ done then
      if b = cfg.keyBucket k new then idx :: (C k b).erase idx else (C k b).erase idx
    else C k b

/-- With no key done the chains are as they were. -/
@[simp] theorem Index.moved_nil {idx : Int} : C.moved cfg idx new [] = C := by
  funext k b
  simp [Index.moved]

/-- Membership in the moved index. -/
theorem Index.mem_moved {idx : Int} {done : List Nat} (hnd : ∀ k b, (C k b).Nodup) {k b : Nat}
    {i : Int} : i ∈ C.moved cfg idx new done k b ↔
      if k ∈ done ∧ i = idx then b = cfg.keyBucket k new else i ∈ C k b := by
  unfold Index.moved
  by_cases hk : k ∈ done
  · by_cases hi : i = idx
    · subst hi
      by_cases hb : b = cfg.keyBucket k new
      · simp [hk, hb]
      · simp [hk, hb, (hnd k b).mem_erase_iff]
    · by_cases hb : b = cfg.keyBucket k new
      · simp [hk, hi, hb, (hnd k _).mem_erase_iff]
      · simp [hk, hi, hb, (hnd k b).mem_erase_iff]
  · simp [hk]

/-- A moved row is in one chain of each key. -/
theorem Index.moved_disjoint {idx : Int} {done : List Nat} (hnd : ∀ k b, (C k b).Nodup)
    (hdisj : ∀ k b b' i, i ∈ C k b → i ∈ C k b' → b = b') :
    ∀ k b b' i, i ∈ C.moved cfg idx new done k b → i ∈ C.moved cfg idx new done k b' → b = b' := by
  intro k b b' i hi hi'
  rw [Index.mem_moved hnd] at hi hi'
  by_cases h : k ∈ done ∧ i = idx
  · rw [if_pos h] at hi hi'
    rw [hi, hi']
  · rw [if_neg h] at hi hi'
    exact hdisj k b b' i hi hi'

/-- One more key moved: the slot has left its old bucket and joined the new one. -/
theorem Index.moved_concat {idx : Int} {done : List Nat} {k : Nat} (hk : k ∉ done)
    (honly : ∀ b, idx ∈ C k b → b = cfg.keyBucket k old) {D : Index}
    (hD : D = (C.moved cfg idx new done).set k (cfg.keyBucket k old)
      ((C.moved cfg idx new done k (cfg.keyBucket k old)).erase idx)) :
    D.set k (cfg.keyBucket k new) (idx :: D k (cfg.keyBucket k new)) =
      C.moved cfg idx new (done ++ [k]) := by
  have hmoved : ∀ b, C.moved cfg idx new done k b = C k b := by
    intro b
    simp [Index.moved, hk]
  have hgone : ∀ b, D k b = (C k b).erase idx := by
    intro b
    by_cases hb : b = cfg.keyBucket k old
    · rw [hD, hb, Index.set_self, hmoved]
    · rw [hD, Index.set_of_ne _ _ fun h => hb h.2, hmoved]
      exact (List.erase_of_not_mem fun hmem => hb (honly b hmem)).symm
  funext k' b'
  by_cases hk' : k' = k
  · subst hk'
    by_cases hb : b' = cfg.keyBucket k' new
    · subst hb
      rw [Index.set_self, hgone]
      simp [Index.moved]
    · rw [Index.set_of_ne _ _ fun h => hb h.2, hgone]
      simp [Index.moved, hb]
  · rw [Index.set_of_ne _ _ fun h => hk' h.1, hD, Index.set_of_ne _ _ fun h => hk' h.1]
    simp [Index.moved, hk']

/-- The chain moves of an update, alone. -/
theorem runs_moveKeys (cfg : ShareCfg n W PK) (t : Nat) {idx : Int} {ks done : List Nat}
    (hC : s.Indexed (C.moved cfg idx new done)) (hnodup : ∀ k b, (C k b).Nodup)
    (hdisj : ∀ k b b' i, i ∈ C k b → i ∈ C k b' → b = b')
    (honly : ∀ k b, idx ∈ C k b → b = cfg.keyBucket k old) (hne : idx ≠ nullSlot)
    (hnd : (done ++ ks).Nodup) :
    ∃ nx hd, (machine cfg).Runs t (moveKeys cfg idx old new ks) s () (s.withIndex nx hd) ∧
      (s.withIndex nx hd).Indexed (C.moved cfg idx new (done ++ ks)) := by
  induction ks generalizing s done with
  | nil =>
      refine ⟨s.next, s.head, runs_pure, ?_⟩
      rw [List.append_nil]
      exact hC
  | cons k ks ih =>
      have hk : k ∉ done := by
        intro hmem
        exact (List.nodup_append.mp hnd).2.2 k hmem k List.mem_cons_self rfl
      obtain ⟨nx, hd, hunlink, hindex⟩ := runs_chainUnlink cfg t hC
        (Index.moved_disjoint hnodup hdisj) k (cfg.keyBucket k old) idx
      have hout : ∀ b, idx ∉ (C.moved cfg idx new done).set k (cfg.keyBucket k old)
          ((C.moved cfg idx new done k (cfg.keyBucket k old)).erase idx) k b := by
        intro b hmem
        by_cases hb : b = cfg.keyBucket k old
        · subst hb
          rw [Index.set_self] at hmem
          exact (hC k _).nodup.not_mem_erase hmem
        · rw [Index.set_of_ne _ _ fun h => hb h.2, Index.mem_moved hnodup,
            if_neg fun h => hk h.1] at hmem
          exact hb (honly k b hmem)
      have hlink := indexed_link hindex (b := cfg.keyBucket k new) hout hne
      rw [Index.moved_concat hk (honly k) rfl] at hlink
      obtain ⟨nx', hd', hruns, hindex'⟩ := ih hlink (by simpa using hnd)
      refine ⟨nx', hd', ?_, by simpa using hindex'⟩
      exact runs_then hunlink (runs_then (runs_chainLink k _ idx) hruns)

/-- The share with a new image in slot `idx`, as `fm_core_write_image` leaves it,
and other chains. -/
def Share.rewritten (s : Share n W) (idx : Int) (img : Image n W) (nx : Nat → Int → Int)
    (hd : Nat → Nat → Int) : Share n W :=
  { s.withIndex nx hd with
    data := Function.update s.data idx img
    seq := Function.update s.seq idx (((s.seq idx + 1) % 2 ^ 32 + 1) % 2 ^ 32) }

/-- Writing a new image and moving the slot under the changed keys keeps the share
consistent, when the old image is the stored one. -/
theorem Consistent.rewrite {idx : Int} {nx : Nat → Int → Int} {hd : Nat → Nat → Int}
    (h : Consistent cfg s C F out) (hkeys : cfg.keys ≤ 64) (hhash : HashRespects cfg)
    (hactive : s.state idx = .active) (hold : s.data idx = old)
    (hC : (s.withIndex nx hd).Indexed (C.moved cfg idx new (changedKeys cfg old new))) :
    Consistent cfg (s.rewritten idx new nx hd)
      (C.moved cfg idx new (changedKeys cfg old new)) F out := by
  have hnd : ∀ k b, (C k b).Nodup := fun k b => (h.index k b).nodup
  refine { h with index := hC, index_mem := ?_, index_other := ?_, seq_even := ?_ }
  · intro k hk b i
    rw [Index.mem_moved hnd]
    show _ ↔ s.state i = .active ∧ cfg.keyBucket k (Function.update s.data idx new i) = b
    by_cases hi : i = idx
    · subst hi
      rw [Function.update_self]
      by_cases hch : k ∈ changedKeys cfg old new
      · rw [if_pos ⟨hch, rfl⟩]
        constructor
        · rintro rfl
          exact ⟨hactive, rfl⟩
        · exact fun hmem => hmem.2.symm
      · rw [if_neg fun h => hch h.1, h.index_mem k hk b i, hold,
          keyBucket_eq_of_not_mem hkeys hhash hk hch]
    · rw [if_neg fun h => hi h.2, Function.update_of_ne hi]
      exact h.index_mem k hk b i
  · intro k hk b
    have hch : k ∉ changedKeys cfg old new := fun hmem => by
      have := ((mem_changedKeys hkeys).mp hmem).1
      omega
    unfold Index.moved
    rw [if_neg hch]
    exact h.index_other k hk b
  · intro i
    by_cases hi : i = idx
    · subst hi
      have := h.seq_even i
      simp only [Share.rewritten, Function.update_self]
      omega
    · simpa [Share.rewritten, hi] using h.seq_even i

/-- The commit of an update: the image and the chain moves. -/
theorem runs_commit (new : Image n W) (h : Consistent cfg s C F ∅)
    (hkeys : cfg.keys ≤ 64) (hhash : HashRespects cfg) (t : Nat) {idx : Int}
    (hactive : s.state idx = .active) (hold : s.data idx = old) :
    ∃ nx hd, (machine cfg).Runs t (writeImage idx new) s () (s.rewritten idx new s.next s.head) ∧
      (machine cfg).Runs t (moveKeys cfg idx old new (changedKeys cfg old new))
        (s.rewritten idx new s.next s.head) () (s.rewritten idx new nx hd) ∧
      Consistent cfg (s.rewritten idx new nx hd)
        (C.moved cfg idx new (changedKeys cfg old new)) F ∅ := by
  have hne : idx ≠ nullSlot := grown_ne_null h.chunks (h.active_grown idx hactive)
  have honly : ∀ k b, idx ∈ C k b → b = cfg.keyBucket k old := by
    intro k b hmem
    by_cases hk : k < cfg.keys
    · rw [← hold]
      exact ((h.index_mem k hk b idx).mp hmem).2.symm
    · rw [h.index_other k (by omega)] at hmem
      cases hmem
  have hindex : (s.rewritten idx new s.next s.head).Indexed (C.moved cfg idx new []) := by
    rw [Index.moved_nil]
    exact h.index
  obtain ⟨nx, hd, hmove, hmoved⟩ := runs_moveKeys cfg t hindex (fun k b => (h.index k b).nodup)
    h.index_disjoint honly hne
    (show ([] ++ changedKeys cfg old new).Nodup from changedKeys_nodup hkeys)
  exact ⟨nx, hd, runs_writeImage idx new, hmove, h.rewrite hkeys hhash hactive hold hmoved⟩

/-- Rewriting a row and owning a lock are apart. -/
theorem rewritten_setOwner (o : Option Nat) (l : Lock) (idx : Int) (img : Image n W)
    (nx : Nat → Int → Int) (hd : Nat → Nat → Int) :
    (s.setOwner o l).rewritten idx img nx hd = (s.rewritten idx img nx hd).setOwner o l := by
  cases l <;> rfl

/-- Rewriting a row changes no owner. -/
@[simp] theorem rewritten_owner (idx : Int) (img : Image n W) (nx : Nat → Int → Int)
    (hd : Nat → Nat → Int) : (s.rewritten idx img nx hd).owner = s.owner := by
  funext l
  cases l <;> rfl

/-- Taking the lock set keeps the share consistent. -/
theorem Consistent.lockBuckets (h : Consistent cfg s C F out) (t : Nat) (vs : List (Nat × Nat)) :
    Consistent cfg (s.lockBuckets t vs) C F out :=
  { h with }

/-- An update under the row's wlock, once the slot has been verified and the
buckets locked: what is left when the buckets are released. -/
theorem runs_lockedCommit (new : Image n W) (h : Consistent cfg s C F ∅)
    (hkeys : cfg.keys ≤ 64) (hhash : HashRespects cfg) (t : Nat)
    (hbucket : ∀ k b, s.owner (.bucket k b) = none) {idx : Int}
    (hactive : s.state idx = .active) (hold : s.data idx = old) :
    ∃ nx hd,
      (machine cfg).Runs t (writeImage idx new)
      (s.lockBuckets t (distinct none (lockset cfg old new))) ()
        ((s.rewritten idx new s.next s.head).lockBuckets t (distinct none (lockset cfg old new))) ∧
      (machine cfg).Runs t (moveKeys cfg idx old new (changedKeys cfg old new))
        ((s.rewritten idx new s.next s.head).lockBuckets t (distinct none (lockset cfg old new))) ()
        ((s.rewritten idx new nx hd).lockBuckets t (distinct none (lockset cfg old new))) ∧
      (machine cfg).Runs t (unlockAll (lockset cfg old new).reverse)
        ((s.rewritten idx new nx hd).lockBuckets t (distinct none (lockset cfg old new))) ()
        (s.rewritten idx new nx hd) ∧
      ∃ C', Consistent cfg (s.rewritten idx new nx hd) C' F ∅ := by
  obtain ⟨nx, hd, hwrite, hmove, hcons⟩ := runs_commit new
    (h.lockBuckets t (distinct none (lockset cfg old new))) hkeys hhash t hactive hold
  refine ⟨nx, hd, hwrite, hmove, runs_unlockset fun _ _ => ?_, _, { hcons with }⟩
  rw [rewritten_owner]
  exact hbucket _ _

/-- `new` is a duplicate under some key that the update changes. -/
def ChangedDuplicate (cfg : ShareCfg n W PK) (s : Share n W) (C : Index)
    (old new : Image n W) : Prop :=
  ∃ k ∈ changedKeys cfg old new, DuplicateIn cfg s k new (C k (cfg.keyBucket k new))

/-- How an update ends: with a duplicate, without a row to update, or with the new
image in the slot. -/
def UpdateEnds (cfg : ShareCfg n W PK) (s : Share n W) (C : Index) (idx : Int) (g : Nat)
    (old new : Image n W) : Rc → Prop
  | .dupKey => ChangedDuplicate cfg s C old new
  | .deleted => ¬ (s.state idx = .active ∧ s.gen idx = g)
  | .ok => (s.state idx = .active ∧ s.gen idx = g) ∧ ¬ ChangedDuplicate cfg s C old new
  | _ => False

/-- `fm_core_update_row_locked` keeps the share consistent and every lock as it
was. -/
theorem runs_updateRowLocked (h : Consistent cfg s C F ∅)
    (hkeys : cfg.keys ≤ 64) (hhash : HashRespects cfg) (t : Nat)
    (hbucket : ∀ k b, s.owner (.bucket k b) = none) {idx : Int} (g : Nat)
    (hold : s.state idx = .active ∧ s.gen idx = g → s.data idx = old) (new scratch : Image n W) :
    ∃ r s' C' F', (machine cfg).Runs t (updateRowLocked cfg idx g old new scratch) s r s' ∧
      Consistent cfg s' C' F' ∅ ∧ s'.owner = s.owner ∧ UpdateEnds cfg s C idx g old new r.rc := by
  have hverify : (machine cfg).Runs t (verifySlot idx g) s
      (decide (s.state idx = .active ∧ s.gen idx = g)) s := runs_verifySlot idx g
  by_cases hvalid : s.state idx = .active ∧ s.gen idx = g
  · have hdata := hold hvalid
    rw [decide_eq_true hvalid] at hverify
    by_cases hch : changedKeys cfg old new = []
    · obtain ⟨nx, hd, hwrite, hmove, hcons⟩ := runs_commit new h hkeys hhash t hvalid.1 hdata
      rw [hch] at hmove
      cases hmove
      refine ⟨⟨.ok, none, none⟩, _, _, F, runs_then hverify ?_, hcons, rewritten_owner ..,
        hvalid, by simp [ChangedDuplicate, hch]⟩
      rw [if_pos rfl, if_pos hch]
      exact runs_then hwrite runs_pure
    · obtain ⟨r, hdup, hspec⟩ := runs_dupChecks cfg t
        (h.lockBuckets t (distinct none (lockset cfg old new))).index h.seq_even new scratch
        (changedKeys cfg old new)
      cases r with
      | some k =>
          refine ⟨⟨.dupKey, none, some (k + 1)⟩, s, C, F, runs_then hverify ?_, h, rfl, ⟨k, hspec⟩⟩
          rw [if_pos rfl, if_neg hch]
          exact runs_then (runs_lockset hbucket)
            (runs_then hdup (runs_then (runs_unlockset fun _ _ => hbucket _ _) runs_pure))
      | none =>
          obtain ⟨nx, hd, hwrite, hmove, hunlock, C', hcons⟩ := runs_lockedCommit new h
            hkeys hhash t hbucket hvalid.1 hdata
          refine ⟨⟨.ok, none, none⟩, _, C', F, runs_then hverify ?_, hcons, rewritten_owner ..,
            hvalid, fun ⟨k, hk, hd⟩ => hspec k hk hd⟩
          rw [if_pos rfl, if_neg hch]
          refine runs_then (runs_lockset hbucket) (runs_then hdup (runs_then hwrite ?_))
          exact runs_then hmove (runs_then hunlock runs_pure)
  · refine ⟨⟨.deleted, none, none⟩, s, C, F, ?_, h, rfl, hvalid⟩
    rw [decide_eq_false hvalid] at hverify
    exact runs_then hverify runs_pure

/-- `fm_core_update_row` when no key changes: the row's wlock is the only lock taken. -/
theorem runs_updateRow_inPlace (h : Consistent cfg s C F ∅)
    (hkeys : cfg.keys ≤ 64) (hhash : HashRespects cfg) (t : Nat) {idx : Int}
    (hrow : s.owner (.row idx) = none) (g : Nat)
    (hold : s.state idx = .active ∧ s.gen idx = g → s.data idx = old) (new scratch : Image n W)
    (hch : changedKeys cfg old new = []) :
    ∃ r s' C' F', (machine cfg).Runs t (updateRow cfg idx g old new scratch) s r s' ∧
      Consistent cfg s' C' F' ∅ ∧ s'.owner = s.owner ∧ UpdateEnds cfg s C idx g old new r.rc := by
  have hver : (machine cfg).Runs t (verifySlot idx g) (s.setOwner (some t) (.row idx))
      (decide (s.state idx = .active ∧ s.gen idx = g)) (s.setOwner (some t) (.row idx)) :=
    runs_verifySlot idx g
  unfold updateRow
  simp only [hch, if_true]
  by_cases hvalid : s.state idx = .active ∧ s.gen idx = g
  · rw [decide_eq_true hvalid] at hver
    obtain ⟨nx, hd, hwrite, hmove, hcons⟩ := runs_commit new h hkeys hhash t
      hvalid.1 (hold hvalid)
    rw [hch] at hmove
    cases hmove
    have hwrite' : (machine cfg).Runs t (writeImage idx new) (s.setOwner (some t) (.row idx)) ()
        ((s.rewritten idx new s.next s.head).setOwner (some t) (.row idx)) := by
      rw [← rewritten_setOwner]
      exact runs_writeImage idx new
    refine ⟨⟨.ok, none, none⟩, _, _, F, ?_, hcons, rewritten_owner ..,
      hvalid, by simp [ChangedDuplicate, hch]⟩
    refine runs_access (exec_lock hrow) (runs_then hver (runs_then hwrite' (runs_access rfl ?_)))
    rw [setOwner_none_setOwner (by rw [rewritten_owner]; exact hrow)]
    exact runs_pure
  · rw [decide_eq_false hvalid] at hver
    refine ⟨⟨.deleted, none, none⟩, s, C, F, ?_, h, rfl, hvalid⟩
    refine runs_access (exec_lock hrow) (runs_then hver (runs_access rfl ?_))
    rw [setOwner_none_setOwner hrow]
    exact runs_pure

/-- What follows the duplicate checks when a key changes: the row is verified under its
wlock, and rewritten and moved if it is still there. -/
def commitMoved (cfg : ShareCfg n W PK) (idx : Int) (g : Nat) (old new : Image n W) :
    Core n W PK WriteResult := do
  access (.lock (.row idx))
  let valid ← verifySlot idx g
  if valid then
    writeImage idx new
    moveKeys cfg idx old new (changedKeys cfg old new)
    access (.unlock (.row idx))
    unlockAll (lockset cfg old new).reverse
    pure ⟨.ok, none, none⟩
  else
    access (.unlock (.row idx))
    unlockAll (lockset cfg old new).reverse
    pure ⟨.deleted, none, none⟩

/-- With the buckets locked, it leaves every lock as it was. -/
theorem runs_commitMoved (h : Consistent cfg s C F ∅)
    (hkeys : cfg.keys ≤ 64) (hhash : HashRespects cfg) (t : Nat)
    (hbucket : ∀ k b, s.owner (.bucket k b) = none) {idx : Int} (hrow : s.owner (.row idx) = none)
    (g : Nat) (hold : s.state idx = .active ∧ s.gen idx = g → s.data idx = old) (new : Image n W)
    (hdup : ¬ ChangedDuplicate cfg s C old new) :
    ∃ r s' C' F', (machine cfg).Runs t (commitMoved cfg idx g old new)
        (s.lockBuckets t (distinct none (lockset cfg old new))) r s' ∧
      Consistent cfg s' C' F' ∅ ∧ s'.owner = s.owner ∧ UpdateEnds cfg s C idx g old new r.rc := by
  have hrow' : (s.lockBuckets t (distinct none (lockset cfg old new))).owner (.row idx) = none :=
    hrow
  have hver : (machine cfg).Runs t (verifySlot idx g)
      ((s.lockBuckets t (distinct none (lockset cfg old new))).setOwner (some t) (.row idx))
      (decide (s.state idx = .active ∧ s.gen idx = g))
      ((s.lockBuckets t (distinct none (lockset cfg old new))).setOwner (some t) (.row idx)) :=
    runs_verifySlot idx g
  by_cases hvalid : s.state idx = .active ∧ s.gen idx = g
  · rw [decide_eq_true hvalid] at hver
    -- the commit happens with the row locked as well
    obtain ⟨nx, hd, hwrite, hmove, -, C', hcons⟩ := runs_lockedCommit new
      (h.setOwner (some t) (.row idx)) hkeys hhash t hbucket hvalid.1 (hold hvalid)
    have hback : ((s.setOwner (some t) (.row idx)).rewritten idx new nx hd).setOwner
        none (.row idx) = s.rewritten idx new nx hd := by
      rw [rewritten_setOwner, setOwner_none_setOwner]
      rw [rewritten_owner]
      exact hrow
    have hcons' : Consistent cfg (s.rewritten idx new nx hd) C' F ∅ := by
      rw [← hback]
      exact hcons.setOwner none (.row idx)
    refine ⟨⟨.ok, none, none⟩, _, C', F, ?_, hcons', rewritten_owner .., hvalid, hdup⟩
    refine runs_access (exec_lock hrow') (runs_then hver ?_)
    refine runs_then hwrite (runs_then hmove (runs_access rfl ?_))
    have hunlock : Share.setOwner
        (((s.setOwner (some t) (.row idx)).rewritten idx new nx hd).lockBuckets
        t (distinct none (lockset cfg old new))) none (.row idx) =
        (s.rewritten idx new nx hd).lockBuckets t (distinct none (lockset cfg old new)) := by
      rw [← hback]
      rfl
    rw [hunlock]
    exact runs_then (runs_unlockset fun _ _ => by rw [rewritten_owner]; exact hbucket _ _)
      runs_pure
  · rw [decide_eq_false hvalid] at hver
    refine ⟨⟨.deleted, none, none⟩, s, C, F, ?_, h, rfl, hvalid⟩
    refine runs_access (exec_lock hrow') (runs_then hver (runs_access rfl ?_))
    rw [setOwner_none_setOwner hrow']
    exact runs_then (runs_unlockset fun _ _ => hbucket _ _) runs_pure

/-- `fm_core_update_row` keeps the share consistent and every lock as it was. -/
theorem runs_updateRow (h : Consistent cfg s C F ∅)
    (hkeys : cfg.keys ≤ 64) (hhash : HashRespects cfg) (t : Nat)
    (hbucket : ∀ k b, s.owner (.bucket k b) = none) {idx : Int} (hrow : s.owner (.row idx) = none)
    (g : Nat) (hold : s.state idx = .active ∧ s.gen idx = g → s.data idx = old)
    (new scratch : Image n W) :
    ∃ r s' C' F', (machine cfg).Runs t (updateRow cfg idx g old new scratch) s r s' ∧
      Consistent cfg s' C' F' ∅ ∧ s'.owner = s.owner ∧ UpdateEnds cfg s C idx g old new r.rc := by
  by_cases hch : changedKeys cfg old new = []
  · exact runs_updateRow_inPlace h hkeys hhash t hrow g hold new scratch hch
  obtain ⟨r, hdup, hspec⟩ :=
    runs_dupChecks cfg t (h.lockBuckets t (distinct none (lockset cfg old new))).index
    h.seq_even new scratch (changedKeys cfg old new)
  unfold updateRow
  simp only [hch, if_false]
  cases r with
  | some k =>
      refine ⟨⟨.dupKey, none, some (k + 1)⟩, s, C, F, ?_, h, rfl, ⟨k, hspec⟩⟩
      exact runs_then (runs_lockset hbucket)
        (runs_then hdup (runs_then (runs_unlockset fun _ _ => hbucket _ _) runs_pure))
  | none =>
      obtain ⟨r, s', C', F', hcommit, hends⟩ := runs_commitMoved h hkeys hhash t hbucket hrow g
        hold new fun ⟨k, hk, hd⟩ => hspec k hk hd
      exact ⟨r, s', C', F', runs_then (runs_lockset hbucket) (runs_then hdup hcommit), hends⟩

end FastMem
