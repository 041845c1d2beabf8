import FastMem.Variants

/-!
# The key a duplicate is reported on

A write that fails on a duplicate leaves a number in `FM_INFO::errkey`, and
`ha_fastmem::info` hands it to the server, who takes it for a key of the table.
`fm_core_insert_row` computes the number from the counter of its rollback loop, which has
run past zero by then, so it is 0 whatever key was violated.  The updates report one more
than the key they have stopped at.
-/

namespace FastMem

open Conc

variable {n : Nat} {W PK : Type} {cfg : ShareCfg n W PK} {tab : TableCfg n W PK} {t : Nat}
  {s s' : Share n W} {old new rec scratch : Image n W} {info info' : Info n W PK}

/-- `fm_update`: the variant of `fm_update_locked` that takes the row lock itself. -/
def fmUpdate [DecidableEq (Image n W)] (tab : TableCfg n W PK) (info : Info n W PK)
    (old new : Image n W) : Core n W PK (Option HaErr × Info n W PK) := do
  let stale ← fmReadCheck info old
  match stale with
  | some err => pure (some err, info)
  | none =>
      let r ← updateRow tab.toShareCfg info.currentSlot info.currentGen old new info.scratch
      if r.rc = .ok then
        fmUpdateAutoIncrement tab new
        pure (none, { info with update := { HaState.clear with aktiv := true } })
      else
        pure (some (coreErrorToHa r.rc),
          { info with errkey := if r.rc = .dupKey then r.errkey.getD 0 else info.errkey })

/-- `FMINFO`, less the sizes in bytes and the time of creation. -/
structure FmInfo where
  records : Int
  deleted : Nat
  maxRecords : Nat
  reclength : Nat
  errkey : Int
  autoIncrement : Nat

/-- `fm_info`: the number in `errkey` is handed out once. -/
def fmInfo (tab : TableCfg n W PK) (s : Share n W) (info : Info n W PK) : FmInfo × Info n W PK :=
  ({ records := s.records
     deleted := 0
     maxRecords := tab.maxRecords
     reclength := n
     errkey := info.errkey
     autoIncrement := (s.autoInc + 1) % 2 ^ 64 }, { info with errkey := 0 })

/-- What `ha_fastmem::info` sets: `errkey`, and of `stats` what it computes from
`FmInfo`. -/
structure HaInfo where
  errkey : Int
  records : Int
  deleted : Nat
  meanRecLength : Nat
  maxDataFileLength : Nat
  deleteLength : Nat
  autoIncrementValue : Option Nat

/-- `ha_fastmem::info`; `auto` is the flag `HA_STATUS_AUTO`. -/
def haInfo (tab : TableCfg n W PK) (s : Share n W) (auto : Bool) (h : Handler n W PK) :
    HaInfo × Handler n W PK :=
  let (fm, file) := fmInfo tab s h.file
  ({ errkey := fm.errkey
     records := fm.records
     deleted := fm.deleted
     meanRecLength := fm.reclength
     maxDataFileLength := fm.maxRecords * fm.reclength
     deleteLength := fm.deleted * fm.reclength
     autoIncrementValue := if auto then some fm.autoIncrement else none }, { h with file := file })

/-- The key number the server gets after a call that has left the handle as `info`. -/
def reportedKey (tab : TableCfg n W PK) (s : Share n W) (auto : Bool) (h : Handler n W PK)
    (info : Info n W PK) : Int :=
  (haInfo tab s auto { h with file := info }).1.errkey

/-- The key that is reported is the one in `errkey`. -/
theorem reportedKey_eq (s : Share n W) (auto : Bool) (h : Handler n W PK) (info : Info n W PK) :
    reportedKey tab s auto h info = info.errkey := rfl

/-- The rollback loop ends with its counter past zero. -/
theorem rollback_counter {idx : Int} {k x : Nat}
    (h : (machine cfg).Runs t (rollback cfg rec idx k) s x s') : x = 2 ^ 32 - 1 := by
  induction k generalizing s with
  | zero =>
      cases h
      rfl
  | succ k ih =>
      obtain ⟨_, s₁, -, hrest⟩ := Machine.Runs.split h
      obtain ⟨_, s₂, -, hrest⟩ := Machine.Runs.split hrest
      obtain ⟨_, s₃, -, hrest⟩ := Machine.Runs.split hrest
      exact ih hrest

/-- An insert that finds a duplicate reports key 0. -/
theorem insertRow_errkey {r : WriteResult}
    (h : (machine cfg).Runs t (insertRow cfg rec scratch) s r s')
    (hdup : r.rc = .dupKey) : r.errkey = some 0 := by
  obtain ⟨_, s₁, -, hrest⟩ := Machine.Runs.split h
  obtain ⟨idx, s₂, -, hrest⟩ := Machine.Runs.split hrest
  by_cases hidx : idx = nullSlot
  · rw [if_pos hidx] at hrest
    obtain ⟨_, s₃, -, hrest⟩ := Machine.Runs.split hrest
    obtain ⟨cnt, s₄, -, hrest⟩ := Machine.Runs.split hrest
    cases hrest
    have hne : (if cfg.chunkCap ≤ cnt then Rc.full else .noMem) ≠ .dupKey := by
      split <;> decide
    exact absurd hdup hne
  · rw [if_neg hidx] at hrest
    obtain ⟨_, s₃, -, hrest⟩ := Machine.Runs.split hrest
    obtain ⟨stop, s₄, -, hrest⟩ := Machine.Runs.split hrest
    cases stop with
    | some k =>
        obtain ⟨x, s₅, hroll, hrest⟩ := Machine.Runs.split hrest
        obtain ⟨_, s₆, -, hrest⟩ := Machine.Runs.split hrest
        obtain ⟨_, s₇, -, hrest⟩ := Machine.Runs.split hrest
        cases hrest
        have hwrap : i32 (2 ^ 32 - 1) + 1 = 0 := by decide
        rw [rollback_counter hroll, hwrap]
    | none =>
        obtain ⟨_, s₅, -, hrest⟩ := Machine.Runs.split hrest
        obtain ⟨_, s₆, -, hrest⟩ := Machine.Runs.split hrest
        obtain ⟨_, s₇, -, hrest⟩ := Machine.Runs.split hrest
        cases hrest
        cases hdup

/-- Only a duplicate is reported as one. -/
theorem dupKey_of_foundDuppKey {rc : Rc} (h : coreErrorToHa rc = .foundDuppKey) : rc = .dupKey := by
  cases rc <;> first | rfl | cases h

/-- An insert always leaves zero there. -/
theorem fmWrite_errkey
    (h : (machine tab.toShareCfg).Runs t (fmWrite tab info rec) s (some .foundDuppKey, info') s') :
    info'.errkey = 0 := by
  obtain ⟨r, s₁, hinsert, hrest⟩ := Machine.Runs.split h
  by_cases hok : r.rc = .ok
  · simp only [hok, if_true] at hrest
    obtain ⟨_, s₂, -, hrest⟩ := Machine.Runs.split hrest
    obtain ⟨_, s₃, -, hrest⟩ := Machine.Runs.split hrest
    cases hrest
  · simp only [hok, if_false] at hrest
    generalize herr : coreErrorToHa r.rc = err at hrest
    cases hrest
    have hdup : r.rc = .dupKey := dupKey_of_foundDuppKey herr
    rw [if_pos hdup, insertRow_errkey hinsert hdup]
    rfl

/-- Key `k` is the first changed key whose duplicate check fails. -/
def FirstDuplicate (cfg : ShareCfg n W PK) (s : Share n W) (old new : Image n W) (k : Nat) : Prop :=
  ∃ pre post, changedKeys cfg old new = pre ++ k :: post ∧ (∀ k' ∈ pre, NoDuplicate cfg s k' new) ∧
    ¬ NoDuplicate cfg s k new

/-- The checks stop at the first key with a duplicate. -/
theorem dupChecks_stop (heven : ∀ i, s.seq i % 2 = 0) {ks : List Nat} {k : Nat}
    (h : (machine cfg).Runs t (dupChecks cfg new scratch ks) s (some k) s') :
    ∃ pre post, ks = pre ++ k :: post ∧ (∀ k' ∈ pre, NoDuplicate cfg s k' new) ∧
    ¬ NoDuplicate cfg s k new := by
  induction ks with
  | nil => cases h
  | cons k₀ ks ih =>
      obtain ⟨rc, s₁, hcheck, hrest⟩ := Machine.Runs.split h
      obtain rfl := (loads_dupCheck ..).keeps hcheck
      by_cases hrc : rc = .ok
      · subst hrc
        obtain ⟨pre, post, rfl, hpre, hk⟩ := ih hrest
        refine ⟨k₀ :: pre, post, rfl, ?_, hk⟩
        rw [List.forall_mem_cons]
        exact ⟨(runs_dupCheck_none_iff heven).mp hcheck, hpre⟩
      · rw [if_neg hrc] at hrest
        cases hrest
        refine ⟨[], ks, rfl, by simp, fun hnone => ?_⟩
        obtain ⟨rfl, -⟩ := hcheck.det ((runs_dupCheck_none_iff heven).mpr hnone)
        exact hrc rfl

/-- An update that finds a duplicate reports one more than the key it has stopped at. -/
theorem UpdateRefused.errkey {r : WriteResult} (h : UpdateRefused cfg t s old new scratch r)
    (heven : ∀ i, s.seq i % 2 = 0) (hdup : r.rc = .dupKey) :
    ∃ k : Nat, r.errkey = some (k + 1) ∧ FirstDuplicate cfg s old new k := by
  rcases h with rfl | ⟨k, rfl, hchecks⟩
  · cases hdup
  · have heven' : ∀ i, (s.lockBuckets t (distinct none (lockset cfg old new))).seq i % 2 = 0 :=
      heven
    exact ⟨k, rfl, dupChecks_stop heven' hchecks⟩

section

variable [DecidableEq (Image n W)]

/-- The read check never reports a duplicate. -/
theorem fmReadCheck_ne_dup (heven : ∀ i, s.seq i % 2 = 0) {err : Option HaErr}
    (h : (machine cfg).Runs t (fmReadCheck info old) s err s') :
    err ≠ some .foundDuppKey ∧ s' = s := by
  unfold fmReadCheck at h
  by_cases hcheck : info.readCheck = true
  · rw [if_pos hcheck] at h
    obtain ⟨⟨rc, img⟩, s₁, hread, hrest⟩ := Machine.Runs.split h
    by_cases hvalid : s.state info.currentSlot = .active ∧ s.gen info.currentSlot = info.currentGen
    · obtain ⟨heq, rfl⟩ := hread.det (runs_readRow (heven _) hvalid.1 (fun _ => hvalid.2) _)
      obtain ⟨rfl, rfl⟩ := Prod.mk.inj heq
      cases hrest
      refine ⟨?_, rfl⟩
      split <;> simp
    · have hgone : s.state info.currentSlot ≠ .active ∨ true = true ∧
          s.gen info.currentSlot ≠ info.currentGen := by
        by_cases hactive : s.state info.currentSlot = .active
        · exact Or.inr ⟨rfl, fun hg => hvalid ⟨hactive, hg⟩⟩
        · exact Or.inl hactive
      obtain ⟨heq, rfl⟩ := hread.det (runs_readRow_gone _ hgone)
      obtain ⟨rfl, rfl⟩ := Prod.mk.inj heq
      cases hrest
      exact ⟨by simp [coreErrorToHa], rfl⟩
  · rw [if_neg hcheck] at h
    cases h
    exact ⟨by simp, rfl⟩

/-- After the read check, both updates make of the result of the core what `fm_write` makes
of it. -/
theorem update_errkey {p : Core n W PK WriteResult} (heven : ∀ i, s.seq i % 2 = 0)
    (h : (machine tab.toShareCfg).Runs t (do
      let stale ← fmReadCheck info old
      match stale with
      | some err => pure (some err, info)
      | none =>
          let r ← p
          if r.rc = .ok then
            fmUpdateAutoIncrement tab new
            pure (none, { info with update := { HaState.clear with aktiv := true } })
          else
            pure (some (coreErrorToHa r.rc),
              { info with errkey := if r.rc = .dupKey then r.errkey.getD 0 else info.errkey }))
      s (some .foundDuppKey, info') s') :
    ∃ r, (machine tab.toShareCfg).Runs t p s r s' ∧ r.rc = .dupKey ∧
    info'.errkey = r.errkey.getD 0 := by
  obtain ⟨stale, s₁, hcheck, hrest⟩ := Machine.Runs.split h
  obtain ⟨hstale, rfl⟩ := fmReadCheck_ne_dup heven hcheck
  cases stale with
  | some err =>
      cases hrest
      exact absurd rfl hstale
  | none =>
      obtain ⟨r, s₂, hupdate, hrest⟩ := Machine.Runs.split hrest
      by_cases hok : r.rc = .ok
      · simp only [hok, if_true] at hrest
        obtain ⟨_, s₃, -, hrest⟩ := Machine.Runs.split hrest
        cases hrest
      · simp only [hok, if_false] at hrest
        generalize herr : coreErrorToHa r.rc = err at hrest
        cases hrest
        have hdup : r.rc = .dupKey := dupKey_of_foundDuppKey herr
        exact ⟨r, hupdate, hdup, if_pos hdup⟩

/-- An update of a locked row leaves one more than that key. -/
theorem fmUpdateLocked_errkey (heven : ∀ i, s.seq i % 2 = 0)
    (h : (machine tab.toShareCfg).Runs t (fmUpdateLocked tab info old new) s
      (some .foundDuppKey, info') s') :
    ∃ k : Nat, info'.errkey = k + 1 ∧ FirstDuplicate tab.toShareCfg s old new k := by
  obtain ⟨r, hupdate, hdup, hreport⟩ := update_errkey heven h
  have hok : r.rc ≠ .ok := by
    rw [hdup]
    decide
  obtain ⟨k, hkey, hfirst⟩ := ((updateRowLocked_exits hupdate).resolve_left hok).2.errkey heven hdup
  rw [hkey] at hreport
  exact ⟨k, hreport, hfirst⟩

theorem fmUpdate_errkey (heven : ∀ i, s.seq i % 2 = 0)
    (h : (machine tab.toShareCfg).Runs t (fmUpdate tab info old new) s
      (some .foundDuppKey, info') s') :
    ∃ k : Nat, info'.errkey = k + 1 ∧ FirstDuplicate tab.toShareCfg s old new k := by
  obtain ⟨r, hupdate, hdup, hreport⟩ := update_errkey heven h
  have hok : r.rc ≠ .ok := by
    rw [hdup]
    decide
  obtain ⟨k, hkey, hfirst⟩ := ((updateRow_exits hupdate).resolve_left hok).2.errkey heven hdup
  rw [hkey] at hreport
  exact ⟨k, hreport, hfirst⟩

/-- Number `e` is a unique key of the table on which an ACTIVE row, other than the one the
write is about, equals the record. -/
def ViolatedKey (cfg : ShareCfg n W PK) (s : Share n W) (self : Option Int) (rec : Image n W)
    (e : Int) : Prop :=
  ∃ k : Nat, e = k ∧ k < cfg.keys ∧ (cfg.keydef k).unique = true ∧
    ∃ i, self ≠ some i ∧ s.state i = .active ∧ (cfg.keydef k).ops.cmpRecRec (s.data i) rec = 0

/-- **The key a duplicate is reported on**, in every share that calls have made of a fresh
one, for all numbers of keys, handles and records.  A failed insert reports a violated key
exactly if key 0 is one.  A failed update, `k` being the first changed key whose duplicate
check fails, reports a violated key exactly if key `k + 1` is one.  The two never report
the same number. -/
theorem reported_key_is_violated_iff (tab : TableCfg n W PK) (data : Int → Image n W)
    (h : List (CoreOp n W PK × CoreOut n W)) (s : Share n W)
    (hcalls : Calls tab.toShareCfg (Share.fresh data) h s) (t : Nat) (hd : Handler n W PK)
    (auto : Bool) :
    (∀ rec info s',
      (machine tab.toShareCfg).Runs t (fmWrite tab hd.file rec) s (some .foundDuppKey, info) s' →
      (ViolatedKey tab.toShareCfg s none rec (reportedKey tab s' auto hd info) ↔
        ViolatedKey tab.toShareCfg s none rec 0)) ∧
    (∀ old new info s',
      (machine tab.toShareCfg).Runs t (fmUpdateLocked tab hd.file old new) s
      (some .foundDuppKey, info) s' ∨
        (machine tab.toShareCfg).Runs t (fmUpdate tab hd.file old new) s
        (some .foundDuppKey, info) s' →
      ∃ k, FirstDuplicate tab.toShareCfg s old new k ∧
        (ViolatedKey tab.toShareCfg s (some hd.file.currentSlot) new
          (reportedKey tab s' auto hd info) ↔
          ViolatedKey tab.toShareCfg s (some hd.file.currentSlot) new (k + 1))) ∧
    ∀ rec info s' old new info' s'',
      (machine tab.toShareCfg).Runs t (fmWrite tab hd.file rec) s (some .foundDuppKey, info) s' →
      (machine tab.toShareCfg).Runs t (fmUpdateLocked tab hd.file old new) s
      (some .foundDuppKey, info') s'' ∨
        (machine tab.toShareCfg).Runs t (fmUpdate tab hd.file old new) s
        (some .foundDuppKey, info') s'' →
      reportedKey tab s' auto hd info ≠ reportedKey tab s'' auto hd info' := by
  obtain ⟨⟨F, hled⟩, -⟩ := hcalls.run (ledger_fresh tab.toShareCfg (2 ^ 32) data)
  have heven : ∀ i, s.seq i % 2 = 0 := hled.seq_even
  have hupdate : ∀ {old new : Image n W} {info : Info n W PK} {s' : Share n W},
      (machine tab.toShareCfg).Runs t (fmUpdateLocked tab hd.file old new) s
      (some .foundDuppKey, info) s' ∨
        (machine tab.toShareCfg).Runs t (fmUpdate tab hd.file old new) s
        (some .foundDuppKey, info) s' →
      ∃ k : Nat, info.errkey = k + 1 ∧ FirstDuplicate tab.toShareCfg s old new k := by
    intro old new info s' hruns
    rcases hruns with hlocked | hruns
    · exact fmUpdateLocked_errkey heven hlocked
    · exact fmUpdate_errkey heven hruns
  refine ⟨?_, ?_, ?_⟩
  · intro rec info s' hruns
    rw [reportedKey_eq, fmWrite_errkey hruns]
  · intro old new info s' hruns
    obtain ⟨k, hkey, hfirst⟩ := hupdate hruns
    refine ⟨k, hfirst, ?_⟩
    rw [reportedKey_eq, hkey]
  · intro rec info s' old new info' s'' hwrite hruns
    obtain ⟨k, hkey, -⟩ := hupdate hruns
    rw [reportedKey_eq, reportedKey_eq, fmWrite_errkey hwrite, hkey]
    omega

end

/-- The handle of a session whose current row is in slot 1. -/
def slotOneHandler : Handler 1 Nat Nat :=
  let h := Handler.opened (n := 1) 0 fun _ => 0
  { h with file := { h.file with currentSlot := 1 } }

/-- In a table with two keys on the same word, a row is inserted twice, and another row is updated
to be like it: key 0 and key 1 are reported, and both are violated. -/
theorem reported_key_is_violated_two_keys :
    ∃ s, (∃ info s', (machine (wordTable 2)).Runs 0
        (fmWrite (wordHandlers 2) slotOneHandler.file fun _ => 7) s (some .foundDuppKey, info) s' ∧
      ViolatedKey (wordTable 2) s none (fun _ => 7)
        (reportedKey (wordHandlers 2) s' false slotOneHandler info)) ∧
    ∃ info s', (machine (wordTable 2)).Runs 0
        (fmUpdateLocked (wordHandlers 2) slotOneHandler.file (fun _ => 9) fun _ => 7) s
        (some .foundDuppKey, info) s' ∧
      ViolatedKey (wordTable 2) s (some 1) (fun _ => 7)
        (reportedKey (wordHandlers 2) s' false slotOneHandler info) := by
  have heval : (callAll (wordTable 2) 200 [.insertRow (fun _ => 9) fun _ => 0,
      .insertRow (fun _ => 7) fun _ => 0] (Share.fresh fun _ _ => 0)).any (fun x =>
        decide (x.2.head 0 3 = 0 ∧ x.2.state 0 = .active ∧ x.2.data 0 0 = 7) &&
        ((machine (wordTable 2)).eval 0 200 (fmWrite (wordHandlers 2) slotOneHandler.file
          fun _ => 7) x.2).any (·.1.1 = some .foundDuppKey) &&
        ((machine (wordTable 2)).eval 0 200
          (fmUpdateLocked (wordHandlers 2) slotOneHandler.file (fun _ => 9) fun _ => 7) x.2).any
            (·.1.1 = some .foundDuppKey)) = true := by
    decide +kernel
  obtain ⟨⟨h, s⟩, hrun, hend⟩ := (Option.any_eq_true _ _).mp heval
  simp only [Bool.and_eq_true, decide_eq_true_eq] at hend
  obtain ⟨⟨⟨hhead, hactive, hdata⟩, hwrite⟩, hupdate⟩ := hend
  obtain ⟨⟨⟨err, info⟩, s₁⟩, hwrite, herr⟩ := (Option.any_eq_true _ _).mp hwrite
  obtain ⟨⟨⟨err', info'⟩, s₂⟩, hupdate, herr'⟩ := (Option.any_eq_true _ _).mp hupdate
  obtain rfl : err = some .foundDuppKey := of_decide_eq_true herr
  obtain rfl : err' = some .foundDuppKey := of_decide_eq_true herr'
  have hcmp : ∀ k, ((wordTable 2).keydef k).ops.cmpRecRec (s.data 0) (fun _ => 7) = 0 := by
    intro k
    show ((s.data 0 0 : Nat) : Int) - 7 = 0
    omega
  obtain ⟨hinsert, hupdates, -⟩ :=
    reported_key_is_violated_iff (wordHandlers 2) (fun _ _ => 0) h s (.of_callAll hrun) 0
    slotOneHandler false
  refine ⟨s, ⟨info, s₁, .of_eval hwrite, ?_⟩, info', s₂, .of_eval hupdate, ?_⟩
  · exact (hinsert (fun _ => 7) info s₁ (.of_eval hwrite)).mpr ⟨0, rfl, by decide, rfl, 0,
      nofun, hactive, hcmp 0⟩
  · obtain ⟨k, ⟨pre, post, hsplit, hpre, -⟩, hiff⟩ :=
      hupdates (fun _ => 9) (fun _ => 7) info' s₂ (Or.inl (.of_eval hupdate))
    -- key 0 has a duplicate, so it is the first to be found
    have hdup : ¬ NoDuplicate (wordTable 2) s 0 fun _ => 7 := by
      intro hnone
      obtain ⟨L, hL, hrows⟩ := hnone rfl rfl
      have hbucket : (wordTable 2).keyBucket 0 (fun _ => 7) = 3 := by decide
      rw [hbucket, hhead] at hL
      cases L with
      | nil => exact absurd (isChain_nil.mp hL) (by decide)
      | cons i L =>
          obtain ⟨rfl, -⟩ := hL
          exact hrows 0 List.mem_cons_self ⟨hactive, hcmp 0⟩
    have hkeys : changedKeys (wordTable 2) (fun _ => 9) (fun _ => 7) = [0, 1] := by decide
    have hsplit' : [0, 1] = pre ++ k :: post := hkeys.symm.trans hsplit
    cases pre with
    | nil =>
        obtain ⟨rfl, -⟩ := List.cons.inj hsplit'
        exact hiff.mpr ⟨1, rfl, by decide, rfl, 0, nofun, hactive, hcmp 1⟩
    | cons k' pre =>
        obtain ⟨rfl, -⟩ := List.cons.inj hsplit'
        exact absurd (hpre 0 List.mem_cons_self) hdup

/-- A row is updated to the key of another one, in a table with one key: key 1 is reported,
and there is none. -/
theorem reported_key_is_no_key :
    ¬ ∀ (tab : TableCfg 1 Nat Nat) (data : Int → Image 1 Nat)
      (h : List (CoreOp 1 Nat Nat × CoreOut 1 Nat)) (s : Share 1 Nat),
      Calls tab.toShareCfg (Share.fresh data) h s →
      ∀ (t : Nat) (hd : Handler 1 Nat Nat) (auto : Bool),
      (∀ rec info s',
        (machine tab.toShareCfg).Runs t (fmWrite tab hd.file rec) s (some .foundDuppKey, info) s' →
        ViolatedKey tab.toShareCfg s none rec (reportedKey tab s' auto hd info)) ∧
      ∀ old new info s',
        (machine tab.toShareCfg).Runs t (fmUpdateLocked tab hd.file old new) s
        (some .foundDuppKey, info) s' → ViolatedKey tab.toShareCfg s (some hd.file.currentSlot) new
          (reportedKey tab s' auto hd info) := by
  intro hall
  have heval : (callAll (wordTable 1) 200 [.insertRow (fun _ => 9) fun _ => 0,
      .insertRow (fun _ => 7) fun _ => 0]
      (Share.fresh fun _ _ => 0)).any (fun x => ((machine (wordTable 1)).eval 0 200
        (fmUpdateLocked (wordHandlers 1) slotOneHandler.file (fun _ => 9) fun _ => 7) x.2).any
          fun y => y.1.1 = some .foundDuppKey && y.1.2.errkey = 1) = true := by
    decide +kernel
  obtain ⟨⟨h, s⟩, hrun, hend⟩ := (Option.any_eq_true _ _).mp heval
  obtain ⟨⟨⟨err, info⟩, s'⟩, hupdate, hcond⟩ := (Option.any_eq_true _ _).mp hend
  simp only [Bool.and_eq_true, decide_eq_true_eq] at hcond
  obtain ⟨rfl, hkey⟩ := hcond
  obtain ⟨k, hk, hlt, -⟩ :=
    (hall (wordHandlers 1) (fun _ _ => 0) h s (.of_callAll hrun) 0 slotOneHandler
    false).2 (fun _ => 9) (fun _ => 7) info s' (.of_eval hupdate)
  rw [reportedKey_eq, hkey] at hk
  have hlt : k < 1 := hlt
  omega

end FastMem
