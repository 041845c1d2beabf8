import FastMem.Handler
import FastMem.Lookup
import FastMem.SeqCalls

/-!
# A handler with nobody else around

What the methods of a handler do on a share between calls, when the only row lock that
is held is the handler's own.  Every row that an index lookup or a continued lookup
finds is there when it is read again under its lock, so a read in a write statement
returns what it would return in a read statement, and moves the lock to the row.

`Share.withRows` is a share with the row locks as the handler has them; the methods take
such a share to another one.
-/

namespace FastMem

open Conc Versioned

variable {n : Nat} {W PK : Type} {tab : TableCfg n W PK} {cfg : ShareCfg n W PK} {t : Nat}
  {s s' : Share n W} {C : Index} {F : List Int} {h : Handler n W PK}

/-- The share with the row lock of one handler held by thread `t`, and no other. -/
def Share.withRows (s : Share n W) (t : Nat) (h : Handler n W PK) : Share n W :=
  { s with wlock := fun i => if h.rowLocked = true ∧ h.lockedSlot = i then some t else none }

/-- The row locks of the share are those of the handler. -/
def SoleHolder (t : Nat) (s : Share n W) (h : Handler n W PK) : Prop :=
  ∀ i, s.wlock i = if h.rowLocked = true ∧ h.lockedSlot = i then some t else none

/-- The share is as its only holder has it. -/
theorem SoleHolder.eq (hsole : SoleHolder t s h) : s.withRows t h = s := by
  unfold Share.withRows
  rw [← funext hsole]

/-- Who holds a row does not matter for the table. -/
theorem Consistent.withRows (hcons : Consistent cfg s C F ∅) (t : Nat) (h : Handler n W PK) :
    Consistent cfg (s.withRows t h) C F ∅ :=
  { hcons with }

@[simp] theorem table_withRows (s : Share n W) (t : Nat) (h : Handler n W PK) :
    (s.withRows t h).table = s.table := rfl

/-- A run of `unlock_current_row`. -/
theorem runs_unlockCurrentRow (cfg : ShareCfg n W PK) (s : Share n W) (t : Nat)
    (h : Handler n W PK) : (machine cfg).Runs t (unlockCurrentRow h) (s.withRows t h) h.unlocked
    (s.withRows t h.unlocked) := by
  unfold unlockCurrentRow Handler.unlocked
  by_cases hlocked : h.rowLocked = true
  · simp only [hlocked, if_true]
    have hfree : (s.withRows t h).setOwner none (.row h.lockedSlot) =
        s.withRows t { h with rowLocked := false, lockedSlot := -1 } := by
      simp only [Share.setOwner, Share.withRows, hlocked, true_and, Bool.false_eq_true,
        false_and, if_false]
      congr 1
      funext i
      by_cases hi : i = h.lockedSlot
      · subst hi
        simp
      · have hi' : ¬ h.lockedSlot = i := fun heq => hi heq.symm
        simp [hi, hi']
    refine runs_access rfl ?_
    rw [hfree]
    exact runs_pure
  · rw [if_neg hlocked, if_neg hlocked]
    exact runs_pure

/-- A run of `lock_current_row`. -/
theorem runs_lockCurrentRow (cfg : ShareCfg n W PK) (s : Share n W) (t : Nat) (h : Handler n W PK) :
    (machine cfg).Runs t (lockCurrentRow h) (s.withRows t h) h.locked (s.withRows t h.locked) := by
  unfold lockCurrentRow Handler.locked
  by_cases hneg : h.file.currentSlot < 0
  · simp only [hneg, if_true]
    exact runs_pure
  simp only [hneg, if_false]
  by_cases hheld : h.rowLocked = true ∧ h.lockedSlot = h.file.currentSlot
  · have hsame : ({ h with rowLocked := true, lockedSlot := h.file.currentSlot } : Handler n W PK) =
      h := by
      rw [← hheld.1, ← hheld.2]
    rw [if_pos hheld, hsame]
    exact runs_pure
  rw [if_neg hheld]
  refine runs_then (runs_unlockCurrentRow cfg s t h) ?_
  have hnone : (s.withRows t h.unlocked).owner (.row h.unlocked.file.currentSlot) = none := by
    show (if h.unlocked.rowLocked = true ∧ _ then some t else none) = none
    rw [unlocked_rowLocked, if_neg (by simp)]
  refine runs_access (exec_lock hnone) ?_
  have hlock : (s.withRows t h.unlocked).setOwner (some t) (.row h.unlocked.file.currentSlot) =
      s.withRows t { h with rowLocked := true, lockedSlot := h.file.currentSlot } := by
    simp only [Share.setOwner, Share.withRows, unlocked_rowLocked, unlocked_file,
      Bool.false_eq_true, false_and, if_false, true_and]
    congr 1
    funext i
    by_cases hi : i = h.file.currentSlot
    · subst hi
      simp
    · have hi' : ¬ h.file.currentSlot = i := fun heq => hi heq.symm
      simp [hi, hi']
  have hfile : ({ h.unlocked with rowLocked := true, lockedSlot := h.unlocked.file.currentSlot } :
      Handler n W PK) = { h with rowLocked := true, lockedSlot := h.file.currentSlot } := by
    rw [unlocked_file]
    unfold Handler.unlocked
    split <;> rfl
  rw [hlock, hfile]
  exact runs_pure

/-- Reading a row again that is there. -/
theorem runs_reread (heven : ∀ i, s.seq i % 2 = 0) {i : Int} (hactive : s.state i = .active)
    (buf : Image n W) : (machine cfg).Runs t (reread i buf) s (.ok, s.data i, s.gen i) s :=
  runs_access rfl (runs_then (runs_readRow (heven i) hactive (fun _ => rfl) buf) runs_pure)

/-- The handler after a read that has left the handle at `info`: in a write statement
the row is locked. -/
def Handler.moved (h : Handler n W PK) (info : Info n W PK) : Handler n W PK :=
  if h.writeStmt then ({ h with file := info } : Handler n W PK).locked else { h with file := info }

/-- The handle a handler has moved to. -/
@[simp] theorem moved_file (h : Handler n W PK) (info : Info n W PK) :
    (h.moved info).file = info := by
  unfold Handler.moved
  split <;> simp

/-- Moving does not change the statement. -/
@[simp] theorem moved_writeStmt (h : Handler n W PK) (info : Info n W PK) :
    (h.moved info).writeStmt = h.writeStmt := by
  unfold Handler.moved
  split <;> simp

/-- A row that was found is found again under its lock. -/
theorem runs_rereadInWriteStmt (cfg : ShareCfg n W PK) (heven : ∀ i, s.seq i % 2 = 0) {i : Int}
    (hactive : s.state i = .active) {info : Info n W PK} (hslot : info.currentSlot = i)
    (hgen : info.currentGen = s.gen i) (gone : HaErr) :
    (machine cfg).Runs t (rereadInWriteStmt gone (none, s.data i, info) h) (s.withRows t h)
      (none, s.data i, h.moved info) (s.withRows t (h.moved info)) := by
  unfold rereadInWriteStmt Handler.moved
  by_cases hwrite : h.writeStmt = true
  · rw [if_pos ⟨rfl, hwrite⟩, if_pos hwrite]
    have hlock := runs_lockCurrentRow cfg s t { h with file := info }
    refine runs_then hlock ?_
    have hread : (machine cfg).Runs t
        (fmRereadLocked ({ h with file := info } : Handler n W PK).locked.file (s.data i))
        (s.withRows t ({ h with file := info } : Handler n W PK).locked)
        (.ok, s.data i, info) (s.withRows t ({ h with file := info } : Handler n W PK).locked) := by
      rw [locked_file]
      have hre : (machine cfg).Runs t (reread info.currentSlot (s.data i))
          (s.withRows t ({ h with file := info } : Handler n W PK).locked) (.ok, s.data i, s.gen i)
          (s.withRows t ({ h with file := info } : Handler n W PK).locked) := by
        rw [hslot]
        exact runs_reread (s := s.withRows t ({ h with file := info } : Handler n W PK).locked)
          heven hactive _
      have hinfo : ({ info with currentGen := s.gen i } : Info n W PK) = info := by
        rw [← hgen]
      refine runs_then hre ?_
      simp only [if_true, hinfo]
      exact runs_pure
    refine runs_then hread ?_
    have hfile : ({ ({ h with file := info } : Handler n W PK).locked with file := info } :
      Handler n W PK) =
        ({ h with file := info } : Handler n W PK).locked := by
      unfold Handler.locked
      split <;> rfl
    simp only [if_true, hfile]
    exact runs_pure
  · rw [if_neg fun hcond => hwrite hcond.2, if_neg hwrite]
    exact runs_pure

/-- A read that has failed. -/
theorem runs_rereadInWriteStmt_failed (cfg : ShareCfg n W PK) (gone err : HaErr) (buf : Image n W)
    (info : Info n W PK) :
    (machine cfg).Runs t (rereadInWriteStmt gone (some err, buf, info) h) (s.withRows t h)
      (some err, buf, { h with file := info }) (s.withRows t { h with file := info }) := by
  unfold rereadInWriteStmt
  rw [if_neg (by simp)]
  exact runs_pure

/-- The handle after `fm_find_key` has found slot `i` with generation `g`. -/
def Info.atKey (tab : TableCfg n W PK) (info : Info n W PK) (k : Nat) (pk : PK)
    (i : Int) (g : Nat) : Info n W PK :=
  { info with
    lastkey := if !((tab.keydef k).unique && !tab.nullPartKey k) then pk else info.lastkey
    lastinx := k
    currentSlot := i
    currentGen := g
    update := { HaState.clear with aktiv := true } }

/-- The handle after `fm_find_next_key` has found slot `i` with generation `g`. -/
def Info.atNext (info : Info n W PK) (k : Nat) (pk : PK) (i : Int) (g : Nat) : Info n W PK :=
  { info with
    lastkey := pk
    lastinx := k
    currentSlot := i
    currentGen := g
    update := ⟨true, false, false, false, true⟩ }

section

variable (hC : s.Indexed C) (heven : ∀ i, s.seq i % 2 = 0)
  (hbucket : ∀ k b, s.owner (.bucket k b) = none)

include hC heven hbucket

/-- A lookup with a row held. -/
theorem runs_find_held (k : Nat) (pk : PK) (buf : Image n W) :
    ∃ buf', (machine cfg).Runs t (find cfg k pk buf) (s.withRows t h)
      (lookupResult s buf' ((C k (cfg.packedBucket k pk)).find? (Matches cfg s k pk ·)))
      (s.withRows t h) :=
  runs_find (s := s.withRows t h) hC heven k pk (hbucket k _) buf

/-- Going on with it with a row held. -/
theorem runs_findNext_held (k : Nat) (pk : PK) (cur : Int) (buf : Image n W) :
    ∃ buf', (machine cfg).Runs t (findNext cfg k pk cur buf) (s.withRows t h)
      (lookupResult s buf'
        ((behind cur (C k (cfg.packedBucket k pk))).find? (Matches cfg s k pk ·)))
      (s.withRows t h) :=
  runs_findNext (s := s.withRows t h) hC heven k pk (hbucket k _) cur buf

/-- `index_read_map` finds the first match in the chain of the key's bucket. -/
theorem runs_indexRead {k : Nat} {pk : PK} {i : Int}
    (hfind : (C k (tab.packedBucket k pk)).find? (Matches tab.toShareCfg s k pk ·) = some i)
    (buf : Image n W) :
    (machine tab.toShareCfg).Runs t (indexRead tab k pk buf h) (s.withRows t h)
      (⟨none, some (s.data i)⟩, h.moved (h.file.atKey tab k pk i (s.gen i)))
      (s.withRows t (h.moved (h.file.atKey tab k pk i (s.gen i)))) := by
  have hactive : s.state i = .active := by
    have hmatch : Matches tab.toShareCfg s k pk i := by simpa using List.find?_some hfind
    exact hmatch.1
  obtain ⟨buf', hruns⟩ := runs_find_held (t := t) (h := h) hC heven hbucket k pk buf
  rw [hfind] at hruns
  have hkey : (machine tab.toShareCfg).Runs t (fmFindKey tab h.file k pk buf) (s.withRows t h)
      (none, s.data i, h.file.atKey tab k pk i (s.gen i)) (s.withRows t h) :=
    runs_then hruns (runs_access rfl runs_pure)
  exact runs_then hkey (runs_then (runs_rereadInWriteStmt _ heven hactive rfl rfl _) runs_pure)

/-- `index_read_map` of a key that no row of its bucket matches. -/
theorem runs_indexRead_none {k : Nat} {pk : PK}
    (hfind : (C k (tab.packedBucket k pk)).find? (Matches tab.toShareCfg s k pk ·) = none)
    (buf : Image n W) :
    ∃ out h', (machine tab.toShareCfg).Runs t (indexRead tab k pk buf h) (s.withRows t h) (out, h')
      (s.withRows t h') ∧ out.err = some .keyNotFound := by
  obtain ⟨buf', hruns⟩ := runs_find_held (t := t) (h := h) hC heven hbucket k pk buf
  rw [hfind] at hruns
  have hkey : (machine tab.toShareCfg).Runs t (fmFindKey tab h.file k pk buf) (s.withRows t h)
      (some .keyNotFound, buf', { h.file with update := { HaState.clear with noKey := true } })
      (s.withRows t h) :=
    runs_then hruns runs_pure
  exact ⟨_, _, runs_then hkey (runs_then (runs_rereadInWriteStmt_failed ..) runs_pure), rfl⟩

/-- `index_next` finds the first row behind the current one that equals the saved key. -/
theorem runs_indexNext {k : Nat} (hinx : h.file.lastinx = k) {i : Int}
    (hfind : (behind h.file.currentSlot (C k (tab.packedBucket k h.file.lastkey))).find?
      (Matches tab.toShareCfg s k h.file.lastkey ·) = some i) (buf : Image n W) :
    (machine tab.toShareCfg).Runs t (indexNext tab buf h) (s.withRows t h)
      (⟨none, some (s.data i)⟩, h.moved (h.file.atNext k h.file.lastkey i (s.gen i)))
      (s.withRows t (h.moved (h.file.atNext k h.file.lastkey i (s.gen i)))) := by
  have hactive : s.state i = .active := by
    have hmatch : Matches tab.toShareCfg s k h.file.lastkey i := by
      simpa using List.find?_some hfind
    exact hmatch.1
  obtain ⟨buf', hruns⟩ := runs_findNext_held (t := t) (h := h) hC heven hbucket k h.file.lastkey
    h.file.currentSlot buf
  rw [hfind] at hruns
  have hkey : (machine tab.toShareCfg).Runs t
      (fmFindNextKey tab h.file h.file.lastinx.toNat h.file.lastkey h.file.currentSlot buf)
      (s.withRows t h)
      (none, s.data i, h.file.atNext k h.file.lastkey i (s.gen i)) (s.withRows t h) := by
    rw [hinx, Int.toNat_natCast]
    exact runs_then hruns (runs_access rfl runs_pure)
  unfold indexNext
  rw [if_neg (by omega)]
  refine runs_then hkey ?_
  rw [if_neg (by simp)]
  exact runs_then (runs_rereadInWriteStmt _ heven hactive rfl rfl _) runs_pure

/-- `index_next` at the end of the rows. -/
theorem runs_indexNext_none {k : Nat} (hinx : h.file.lastinx = k)
    (hfind : (behind h.file.currentSlot (C k (tab.packedBucket k h.file.lastkey))).find?
      (Matches tab.toShareCfg s k h.file.lastkey ·) = none) (buf : Image n W) :
    ∃ out h', (machine tab.toShareCfg).Runs t (indexNext tab buf h) (s.withRows t h) (out, h')
      (s.withRows t h') ∧ out.err = some .endOfFile := by
  obtain ⟨buf', hruns⟩ := runs_findNext_held (t := t) (h := h) hC heven hbucket k h.file.lastkey
    h.file.currentSlot buf
  rw [hfind] at hruns
  have hkey : (machine tab.toShareCfg).Runs t
      (fmFindNextKey tab h.file h.file.lastinx.toNat h.file.lastkey h.file.currentSlot buf)
      (s.withRows t h)
      (some .keyNotFound, buf', { h.file with update := ⟨false, false, false, false, true⟩ })
      (s.withRows t h) := by
    rw [hinx, Int.toNat_natCast]
    exact runs_then hruns runs_pure
  unfold indexNext
  rw [if_neg (by omega)]
  refine ⟨⟨some .endOfFile, some buf'⟩,
    { h with file := { h.file with update := ⟨false, false, false, false, true⟩ } },
    runs_then hkey ?_, rfl⟩
  rw [if_pos ⟨rfl, rfl⟩]
  exact runs_pure

end

end FastMem
