import FastMem.Monitor
import FastMem.Lockset
import FastMem.SeqInvariant
import FastMem.StaleRefs

/-!
# Calls that fail

An insert, an update or a delete that fails gives everything back: the chains with their
order, the slots, the rows, the count of rows, and what may still be allocated.  An insert
that finds a duplicate has linked the slot under some keys by then, and one that finds no
slot may have built half a chunk.

That every lock is given back once is not to be seen from the share that is left behind.  A
monitor reads the accesses of the call: it keeps the locks the call has taken, and lets it
release only the one it has taken last.
-/

namespace FastMem

open Conc

variable {n : Nat} {W PK : Type} {cfg : ShareCfg n W PK} {t : Nat} {s s' : Share n W} {α β : Type}

/-- The locks a call holds after an access, the latest first.  Only the latest may be
released. -/
def Act.holds : Act n W → List Lock → Option (List Lock)
  | .lock l, H => some (l :: H)
  | .unlock _, [] => none
  | .unlock l, l' :: H => if l = l' then some H else none
  | _, H => some H

/-- Every lock that is taken is released, once, and no other lock is released. -/
def LocksPaired (es : List (Act n W)) : Prop :=
  es.foldlM (fun H a => a.holds H) [] = some []

/-- A program that takes the locks held from `H` to `H'`. -/
abbrev Pairs (H H' : List Lock) (p : Core n W PK α) : Prop :=
  Machine.Follows (S := coreSig n W PK) Act.holds H' p H

/-- An action that is no lock operation keeps the locks. -/
theorem holds_quiet (a : Act n W) (ha : a.quiet = true) (H : List Lock) : a.holds H = some H := by
  cases a <;> first | rfl | cases ha

/-- What a program that pairs its locks does, its runs do. -/
theorem Pairs.locksPaired {p : Core n W PK α} (hp : Pairs [] [] p) {es : List (Act n W)} {x : α}
    (h : (machine cfg).Traces t p s es x s') : LocksPaired es :=
  h.follows holds_quiet silent_procBody hp

variable {H H' H'' : List Lock}

/-- The locks of one program after another. -/
theorem Pairs.bind {p : Core n W PK α} {f : α → Core n W PK β} (hp : Pairs H H' p)
    (hf : ∀ a, Pairs H' H'' (f a)) : Pairs H H'' (p >>= f) :=
  Machine.Follows.bind hp hf

/-- A result keeps the locks. -/
theorem pairs_pure {a : α} : Pairs H H (pure a : Core n W PK α) := rfl

theorem Silent.pairs {p : Core n W PK α} (hp : Silent p) : Pairs H H p :=
  Machine.Follows.of_only holds_quiet hp H

theorem pairs_access {a : Act n W} (ha : a.quiet = true) :
    Pairs H H (access a : Core n W PK a.Res) :=
  Silent.pairs (only_access ha)

/-- A lock that is taken is held. -/
theorem pairs_lock {l : Lock} : Pairs H (l :: H) (access (.lock l) : Core n W PK Unit) :=
  ⟨l :: H, rfl, fun _ => rfl⟩

/-- The lock that was taken last is given back. -/
theorem pairs_unlock {l : Lock} : Pairs (l :: H) H (access (.unlock l) : Core n W PK Unit) :=
  ⟨H, if_pos rfl, fun _ => rfl⟩

/-- The rollback of an insert gives back what it takes. -/
theorem pairs_rollback (rec : Image n W) (idx : Int) (k : Nat) :
    Pairs H H (rollback cfg rec idx k) := by
  induction k with
  | zero => exact pairs_pure
  | succ k ih => exact pairs_lock.bind fun _ => Pairs.bind (fun _ => rfl) fun _ =>
      pairs_unlock.bind fun _ => ih

theorem pairs_linkKeys (rec scratch : Image n W) (idx : Int) (ks : List Nat) :
    Pairs H H (linkKeys cfg rec scratch idx ks) := by
  induction ks with
  | nil => exact pairs_pure
  | cons k ks ih =>
      refine pairs_lock.bind fun _ => (loads_dupCheck ..).silent.pairs.bind fun dup => .ite ?_ ?_
      · exact (silent_chainLink ..).pairs.bind fun _ => pairs_unlock.bind fun _ => ih
      · exact pairs_unlock.bind fun _ => pairs_pure

theorem pairs_unlinkKeys (img : Image n W) (idx : Int) (ks : List Nat) :
    Pairs H H (unlinkKeys cfg img idx ks) := by
  induction ks with
  | nil => exact pairs_pure
  | cons k ks ih => exact pairs_lock.bind fun _ => Pairs.bind (fun _ => rfl) fun _ =>
      pairs_unlock.bind fun _ => ih

theorem pairs_insertRow (rec scratch : Image n W) : Pairs H H (insertRow cfg rec scratch) := by
  have hat : ∀ idx, Pairs (.mutex :: H) H (insertAt cfg rec scratch idx) := by
    intro idx
    refine (silent_copyIn ..).pairs.bind fun _ => (pairs_linkKeys ..).bind fun stop => ?_
    cases stop with
    | some k =>
        refine (pairs_rollback ..).bind fun _ => (silent_freeSlot _).pairs.bind fun _ => ?_
        exact pairs_unlock.bind fun _ => pairs_pure
    | none =>
        refine (pairs_access rfl).bind fun _ => (pairs_access rfl).bind fun _ => ?_
        exact pairs_unlock.bind fun _ => pairs_pure
  refine pairs_lock.bind fun _ => (silent_allocSlot cfg).pairs.bind fun idx => .ite ?_ (hat idx)
  exact pairs_unlock.bind fun _ => (pairs_access rfl).bind fun _ => pairs_pure

/-- The acquire loop takes the distinct pairs, in order. -/
theorem pairs_lockAll (us vs : List (Nat × Nat)) (prev : Option (Nat × Nat)) :
    Pairs (bucketLocks us ++ H) (bucketLocks (us ++ distinct prev vs) ++ H)
      (lockAll prev vs : Core n W PK Unit) := by
  induction vs generalizing us prev with
  | nil =>
      rw [distinct, List.append_nil]
      exact pairs_pure
  | cons v vs ih =>
      unfold lockAll unlessSame
      by_cases hp : prev = some v
      · have hd : distinct prev (v :: vs) = distinct (some v) vs := by simp [distinct, hp]
        rw [hd, if_pos hp]
        exact pairs_pure.bind fun _ => ih us _
      · have hd : us ++ distinct prev (v :: vs) = (us ++ [v]) ++ distinct (some v) vs := by
          simp [distinct, hp]
        have hlocks : bucketLocks (us ++ [v]) ++ H = .bucket v.1 v.2 :: (bucketLocks us ++ H) := by
          simp [bucketLocks]
        rw [hd, if_neg hp]
        refine Pairs.bind ?_ fun _ => ih _ _
        rw [hlocks]
        exact pairs_lock

/-- The release loop gives back what the acquire loop has taken, the latest first. -/
theorem pairs_unlockAll {vs : List (Nat × Nat)} :
    Pairs (bucketLocks (distinct none vs) ++ H) H (unlockAll vs.reverse : Core n W PK Unit) := by
  have hpairs : ∀ us : List (Nat × Nat), Pairs ((released us).map (fun v => .bucket v.1 v.2) ++ H) H
      (unlockAll us : Core n W PK Unit) := by
    intro us
    induction us with
    | nil => exact pairs_pure
    | cons v us ih =>
        unfold unlockAll unlessSame
        by_cases hv : us.head? = some v
        · simp only [released, hv, if_true]
          exact pairs_pure.bind fun _ => ih
        · simp only [released, hv, if_false]
          exact pairs_unlock.bind fun _ => ih
  have hlocks : bucketLocks (distinct none vs) = (released vs.reverse).map fun v =>
      .bucket v.1 v.2 := by
    rw [released_reverse, List.map_reverse, bucketLocks]
  rw [hlocks]
  exact hpairs _

/-- The lock set of an update is held once it is taken. -/
theorem pairs_lockset (old new : Image n W) :
    Pairs H (bucketLocks (distinct none (lockset cfg old new)) ++ H)
      (lockAll none (lockset cfg old new) : Core n W PK Unit) := by
  have hpairs : Pairs (bucketLocks [] ++ H)
      (bucketLocks ([] ++ distinct none (lockset cfg old new)) ++ H)
      (lockAll none (lockset cfg old new) : Core n W PK Unit) := pairs_lockAll ..
  rw [List.nil_append] at hpairs
  exact hpairs

/-- An update gives back what it takes, on every path. -/
theorem pairs_updateRow (idx : Int) (g : Nat) (old new scratch : Image n W) :
    Pairs H H (updateRow cfg idx g old new scratch) := by
  refine .ite ?_ ?_
  · refine pairs_lock.bind fun _ => (silent_verifySlot ..).pairs.bind fun valid => .ite ?_ ?_
    · exact (silent_writeImage ..).pairs.bind fun _ => pairs_unlock.bind fun _ => pairs_pure
    · exact pairs_unlock.bind fun _ => pairs_pure
  · refine (pairs_lockset old new).bind fun _ =>
      (loads_dupChecks ..).silent.pairs.bind fun dup => ?_
    cases dup with
    | some k => exact pairs_unlockAll.bind fun _ => pairs_pure
    | none =>
        refine pairs_lock.bind fun _ => (silent_verifySlot ..).pairs.bind fun valid => .ite ?_ ?_
        · refine (silent_writeImage ..).pairs.bind fun _ =>
            (silent_moveKeys ..).pairs.bind fun _ => ?_
          exact pairs_unlock.bind fun _ => pairs_unlockAll.bind fun _ => pairs_pure
        · exact pairs_unlock.bind fun _ => pairs_unlockAll.bind fun _ => pairs_pure

theorem pairs_updateRowLocked (idx : Int) (g : Nat) (old new scratch : Image n W) :
    Pairs H H (updateRowLocked cfg idx g old new scratch) := by
  refine (silent_verifySlot ..).pairs.bind fun valid => .ite (.ite ?_ ?_) pairs_pure
  · exact (silent_writeImage ..).pairs.bind fun _ => pairs_pure
  · refine (pairs_lockset old new).bind fun _ =>
      (loads_dupChecks ..).silent.pairs.bind fun dup => ?_
    cases dup with
    | some k => exact pairs_unlockAll.bind fun _ => pairs_pure
    | none =>
        refine (silent_writeImage ..).pairs.bind fun _ =>
          (silent_moveKeys ..).pairs.bind fun _ => ?_
        exact pairs_unlockAll.bind fun _ => pairs_pure

theorem pairs_deleteTail (idx : Int) (scratch : Image n W) :
    Pairs H H (deleteTail cfg idx scratch) := by
  refine (loads_copyOut ..).silent.pairs.bind fun img => (pairs_unlinkKeys ..).bind fun _ => ?_
  refine (pairs_access rfl).bind fun _ => (pairs_access rfl).bind fun _ =>
    (pairs_access rfl).bind fun _ => ?_
  exact pairs_lock.bind fun _ => (silent_freeSlot _).pairs.bind fun _ => pairs_unlock.bind
    fun _ => pairs_pure

theorem pairs_deleteRow (idx : Int) (g : Nat) (scratch : Image n W) :
    Pairs H H (deleteRow cfg idx g scratch) := by
  refine pairs_lock.bind fun _ => (silent_verifySlot ..).pairs.bind fun valid => .ite ?_ ?_
  · exact (pairs_access rfl).bind fun _ => pairs_unlock.bind fun _ => pairs_deleteTail ..
  · exact pairs_unlock.bind fun _ => pairs_pure

theorem pairs_deleteRowLocked (idx : Int) (g : Nat) (scratch : Image n W) :
    Pairs H H (deleteRowLocked cfg idx g scratch) := by
  refine (silent_verifySlot ..).pairs.bind fun valid => .ite ?_ pairs_pure
  exact (pairs_access rfl).bind fun _ => pairs_deleteTail ..

/-- Slot `i` may be handed out by a later insert: it is on the free list, or below the row
limit in a chunk that is not there yet. -/
def Available (cfg : ShareCfg n W PK) (s : Share n W) (i : Int) : Prop :=
  (∃ F, s.FreeList F ∧ i ∈ F) ∨ ∃ u, slotCount s.chunkCnt ≤ u ∧ u < cfg.maxRecords ∧ i = i32 u

/-- Nothing has changed: not the chains and their order, the slots, the rows, the number of
rows, what may be allocated, or who holds which lock. -/
structure Unchanged (cfg : ShareCfg n W PK) (s s' : Share n W) : Prop where
  chains : ∀ k b L, IsChain nullSlot (s'.next k) (s'.head k b) L ↔
    IsChain nullSlot (s.next k) (s.head k b) L
  state : ∀ i, s.Grown i → s'.state i = s.state i
  gen : ∀ i, s.Grown i → s'.gen i = s.gen i
  seq : ∀ i, s.Grown i → s'.seq i = s.seq i
  images : ∀ i, s.state i = .active → s'.data i = s.data i
  records : s'.records = s.records
  available : ∀ i, Available cfg s' i ↔ Available cfg s i
  owner : s'.owner = s.owner

/-- The same share is unchanged. -/
theorem Unchanged.of_eq (h : s' = s) : Unchanged cfg s s' := by
  subst h
  exact ⟨fun _ _ _ => Iff.rfl, fun _ _ => rfl, fun _ _ => rfl, fun _ _ => rfl, fun _ _ => rfl, rfl,
    fun _ => Iff.rfl, rfl⟩

/-- There is one free list. -/
theorem available_iff {F : List Int} (hF : s.FreeList F) {i : Int} :
    Available cfg s i ↔ i ∈ availableSlots cfg s F := by
  have hmem : (∃ F', s.FreeList F' ∧ i ∈ F') ↔ i ∈ F := by
    constructor
    · intro h
      obtain ⟨F', hF', hi⟩ := h
      rwa [IsChain.unique hF hF']
    · intro hi
      exact ⟨F, hF, hi⟩
  exact or_congr_left hmem

/-- An insert that fails has changed nothing. -/
theorem insertRow_failed (h : Quiet cfg t s) {u : Nat} {rec scratch : Image n W} {r : WriteResult}
    (hruns : (machine cfg).Runs u (insertRow cfg rec scratch) s r s') (hfail : r.rc ≠ .ok) :
    Unchanged cfg s s' := by
  obtain ⟨C, F, hcons⟩ := h.1
  obtain ⟨r', s'', C', F', hruns', hcons', howner, -, hkept⟩ :=
    runs_insertRow_full hcons u h.mutex h.bucket rec scratch
  obtain ⟨rfl, rfl⟩ := hruns'.det hruns
  obtain ⟨hslots, rfl, havail⟩ := hkept hfail
  constructor
  case chains =>
    intro k b L
    constructor
    · intro hL
      rw [← IsChain.unique (hcons'.index k b) hL]
      exact hcons.index k b
    · intro hL
      rw [← IsChain.unique (hcons.index k b) hL]
      exact hcons'.index k b
  case state => exact hslots.state
  case gen => exact hslots.gen
  case seq => exact hslots.seq
  case images => exact hslots.data
  case records => exact hslots.records
  case available =>
    intro i
    rw [available_iff hcons.free, available_iff hcons'.free, havail]
  case owner => exact howner

/-- If the call fails, it has changed nothing, and has released every lock it has taken,
once. -/
def GivesBack (cfg : ShareCfg n W PK) (t : Nat) (s : Share n W) (p : Core n W PK α)
    (failed : α → Prop) : Prop :=
  ∀ es x s', (machine cfg).Traces t p s es x s' → failed x → Unchanged cfg s s' ∧ LocksPaired es

/-- **Failed calls change nothing**, in every share that a client's calls have left behind,
whichever locks of rows it still holds, for all arguments and all outcomes of the
allocations: an insert that fails for whatever reason, an update on a duplicate or a row
that is gone, and a delete of a row that is gone. -/
theorem failed_calls_change_nothing (cfg : ShareCfg n W PK) (t : Nat) (data : Int → Image n W)
    (hhash : HashRespects cfg) (hkeys : cfg.keys ≤ 64) (s : Share n W)
    (hcalls : CallSeq cfg t data s) (u : Nat) :
    (∀ rec scratch, GivesBack cfg u s (insertRow cfg rec scratch) fun r => r.rc ≠ .ok) ∧
    (∀ idx g old new scratch, GivesBack cfg u s (updateRow cfg idx g old new scratch)
      fun r => r.rc ≠ .ok) ∧
    (∀ idx g old new scratch, GivesBack cfg u s (updateRowLocked cfg idx g old new scratch)
      fun r => r.rc ≠ .ok) ∧
    (∀ idx g scratch, GivesBack cfg u s (deleteRow cfg idx g scratch) (· ≠ .ok)) ∧
    ∀ idx g scratch, GivesBack cfg u s (deleteRowLocked cfg idx g scratch) (· ≠ .ok) := by
  have hquiet : Quiet cfg t s := hcalls.quiet hhash hkeys
  obtain ⟨C, F, hcons⟩ := hquiet.1
  refine ⟨?_, ?_, ?_, ?_, ?_⟩
  · intro rec scratch es r s' htrace hfail
    exact ⟨insertRow_failed hquiet htrace.runs hfail, (pairs_insertRow ..).locksPaired htrace⟩
  · intro idx g old new scratch es r s' htrace hfail
    have hsame : s' = s := ((updateRow_exits htrace.runs).resolve_left hfail).1
    exact ⟨.of_eq hsame, (pairs_updateRow ..).locksPaired htrace⟩
  · intro idx g old new scratch es r s' htrace hfail
    have hsame : s' = s := ((updateRowLocked_exits htrace.runs).resolve_left hfail).1
    exact ⟨.of_eq hsame, (pairs_updateRowLocked ..).locksPaired htrace⟩
  · intro idx g scratch es rc s' htrace hfail
    have hsame : s' = s := (deleteRow_effect hcons.ledger htrace.runs).failed hfail
    exact ⟨.of_eq hsame, (pairs_deleteRow ..).locksPaired htrace⟩
  · intro idx g scratch es rc s' htrace hfail
    have hsame : s' = s := (deleteRowLocked_effect hcons.ledger htrace.runs).failed hfail
    exact ⟨.of_eq hsame, (pairs_deleteRowLocked ..).locksPaired htrace⟩

/-- A row is inserted twice: the second insert fails, after it has been given a slot, and
has changed nothing. -/
theorem failed_calls_second_insert :
    ∃ s es r s', s.state 0 = .active ∧ (machine (wordTable 1)).Traces 0
        (insertRow (wordTable 1) (fun _ => 7) fun _ => 0) s es r s' ∧ r.rc = .dupKey ∧
      Unchanged (wordTable 1) s s' ∧ LocksPaired es := by
  have heval : ((machine (wordTable 1)).eval 0 200 (CoreOp.code (wordTable 1)
      (.insertRow (fun _ => 7) fun _ => 0) Session.empty) (Share.fresh fun _ _ => 0)).any
      (fun x => x.2.state 0 = .active && ((machine (wordTable 1)).eval 0 200
        (insertRow (wordTable 1) (fun _ => 7) fun _ => 0) x.2).any (·.1.rc = .dupKey)) = true := by
    decide +kernel
  obtain ⟨⟨x, s⟩, hfirst, hend⟩ := (Option.any_eq_true _ _).mp heval
  simp only [Bool.and_eq_true, decide_eq_true_eq] at hend
  obtain ⟨hactive, hsecond⟩ := hend
  obtain ⟨⟨r, s'⟩, hsecond, hdup⟩ := (Option.any_eq_true _ _).mp hsecond
  have hdup : r.rc = .dupKey := by simpa using hdup
  have hcalls : CallSeq (wordTable 1) 0 (fun _ _ => 0) s :=
    .call .fresh (by exact trivial) (.of_eval hfirst)
  obtain ⟨es, htrace⟩ := (Machine.Runs.of_eval hsecond).traces
  have hfail : r.rc ≠ .ok := by
    rw [hdup]
    decide
  have hback :=
    (failed_calls_change_nothing (wordTable 1) 0 (fun _ _ => 0) (hashRespects_wordTable 1)
    (by decide) s hcalls 0).1 (fun _ => 7) (fun _ => 0) es r s' htrace hfail
  exact ⟨s, es, r, s', hactive, htrace, hdup, hback⟩

end FastMem
