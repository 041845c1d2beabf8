import FastMem.CoreSystem

/-!
# The handler

The layer the server calls: `fm_data.cc`, which keeps one `FM_INFO` for each open
handle, and the methods of `ha_fastmem`, which add the row lock of write
statements.  A write statement takes the wlock of the row it reads, reads the row
again under the lock, and keeps the lock until `update_row` or `delete_row`, a
move to another row, or the end of the statement.

`current_hash_slot`, `mode` and the fields of the open-handle list are left out:
nothing here reads them.  The content of `scratch` after a call is not tracked
either, since every use overwrites it before reading it.
-/

namespace FastMem

open Conc

variable {n : Nat} {W PK : Type}

/-- A table: its share, which keys have the flag `HA_NULL_PART_KEY`, the value
`fm_update_auto_increment` reads from a record if the table has an auto-increment
key, and what `fm_make_key` makes of a key buffer when it packs a record into it. -/
structure TableCfg (n : Nat) (W PK : Type) extends ShareCfg n W PK where
  nullPartKey : Nat → Bool
  autoValue : Option (Image n W → Nat)
  makeKey : Nat → PK → Image n W → PK

/-- The error codes the handler returns. -/
inductive HaErr
  | recordFileFull | outOfMem | recordDeleted | foundDuppKey | keyNotFound | crashed
  | recordChanged | endOfFile | wrongIndex | wrongCommand | autoincReadFailed | notUnique
  deriving DecidableEq, Repr

/-- `fm_core_error_to_ha`. -/
def coreErrorToHa : Rc → HaErr
  | .full => .recordFileFull
  | .noMem => .outOfMem
  | .deleted => .recordDeleted
  | .dupKey => .foundDuppKey
  | .notFound => .keyNotFound
  | _ => .crashed

/-- The `HA_STATE_*` flags of `FM_INFO::update`. -/
structure HaState where
  aktiv : Bool
  deleted : Bool
  noKey : Bool
  prevFound : Bool
  nextFound : Bool
  deriving DecidableEq, Repr

/-- No flag set. -/
def HaState.clear : HaState := ⟨false, false, false, false, false⟩

/-- `FM_INFO`: one open handle.  A negative `lastinx` means no key. -/
structure Info (n : Nat) (W PK : Type) where
  currentSlot : Int
  currentGen : Nat
  lastinx : Int
  errkey : Int
  update : HaState
  readCheck : Bool
  scanPos : Nat
  lastkey : PK
  scratch : Image n W
  deriving DecidableEq

/-- `ha_fastmem`. -/
structure Handler (n : Nat) (W PK : Type) where
  file : Info n W PK
  writeStmt : Bool
  rowLocked : Bool
  lockedSlot : Int
  deriving DecidableEq

/-- A handle as `fm_open` leaves it, in a handler that has just been built. -/
def Handler.opened (lastkey : PK) (scratch : Image n W) : Handler n W PK where
  file :=
    { currentSlot := -1
      currentGen := 0
      lastinx := -1
      errkey := -1
      update := HaState.clear
      readCheck := true
      scanPos := 0
      lastkey := lastkey
      scratch := scratch }
  writeStmt := false
  rowLocked := false
  lockedSlot := -1

/-- `fm_update_auto_increment`, after a row with an explicit value was written. -/
def fmUpdateAutoIncrement (tab : TableCfg n W PK) (rec : Image n W) : Core n W PK Unit :=
  match tab.autoValue with
  | none => pure ()
  | some value => autoIncObserve (value rec)

/-- `fm_write`. -/
def fmWrite (tab : TableCfg n W PK) (info : Info n W PK) (rec : Image n W) :
    Core n W PK (Option HaErr × Info n W PK) := do
  let r ← insertRow tab.toShareCfg rec info.scratch
  if r.rc = .ok then
    let idx := r.outIdx.getD (-1)
    fmUpdateAutoIncrement tab rec
    let g ← access (.loadGen idx)
    pure (none, { info with
      lastinx := -1, currentSlot := idx, currentGen := g
      update := { HaState.clear with aktiv := true } })
  else
    pure (some (coreErrorToHa r.rc),
      { info with errkey := if r.rc = .dupKey then r.errkey.getD 0 else info.errkey })

/-- `fm_reread_locked`: the caller holds the wlock of the current slot. -/
def fmRereadLocked (info : Info n W PK) (buf : Image n W) :
    Core n W PK (Rc × Image n W × Info n W PK) := do
  let (rc, buf, g) ← reread info.currentSlot buf
  pure (rc, buf, if rc = .ok then { info with currentGen := g } else info)

/-- The read check of `fm_update_locked` and `fm_delete_locked`: the stored image
must still be `old`, if the handle asks for read checks. -/
def fmReadCheck [DecidableEq (Image n W)] (info : Info n W PK) (old : Image n W) :
    Core n W PK (Option HaErr) :=
  if info.readCheck then do
    let (rc, img) ← readRow info.currentSlot true info.currentGen info.scratch
    if rc = .ok then
      pure (if old = img then none else some .recordChanged)
    else
      pure (some (coreErrorToHa rc))
  else
    pure none

/-- `fm_update_locked`. -/
def fmUpdateLocked [DecidableEq (Image n W)] (tab : TableCfg n W PK) (info : Info n W PK)
    (old new : Image n W) : Core n W PK (Option HaErr × Info n W PK) := do
  let stale ← fmReadCheck info old
  match stale with
  | some err => pure (some err, info)
  | none =>
      let r ← updateRowLocked tab.toShareCfg info.currentSlot info.currentGen old new info.scratch
      if r.rc = .ok then
        fmUpdateAutoIncrement tab new
        pure (none, { info with update := { HaState.clear with aktiv := true } })
      else
        pure (some (coreErrorToHa r.rc),
          { info with errkey := if r.rc = .dupKey then r.errkey.getD 0 else info.errkey })

/-- `fm_delete_locked`. -/
def fmDeleteLocked [DecidableEq (Image n W)] (tab : TableCfg n W PK) (info : Info n W PK)
    (old : Image n W) : Core n W PK (Option HaErr × Info n W PK) := do
  let stale ← fmReadCheck info old
  match stale with
  | some err => pure (some err, info)
  | none =>
      let rc ← deleteRowLocked tab.toShareCfg info.currentSlot info.currentGen info.scratch
      if rc = .ok then
        pure (none,
          { info with update := { HaState.clear with deleted := true }, currentSlot := -1 })
      else
        pure (some (coreErrorToHa rc), info)

/-- `fm_set_position`: the reference of the current row. -/
def fmSetPosition (info : Info n W PK) : Int × Nat := (info.currentSlot, info.currentGen)

/-- `fm_rrnd`. -/
def fmRrnd (info : Info n W PK) (buf : Image n W) (pos : Int × Nat) :
    Core n W PK (Option HaErr × Image n W × Info n W PK) :=
  let info := { info with lastinx := -1 }
  if pos.1 = -1 then
    pure (some .endOfFile, buf, { info with update := HaState.clear })
  else do
    let (rc, buf) ← readRow pos.1 true pos.2 buf
    if rc = .ok then
      pure (none, buf, { info with
        currentSlot := pos.1, currentGen := pos.2
        update := ⟨true, false, false, true, true⟩ })
    else
      pure (some .recordDeleted, buf, { info with update := ⟨false, false, false, true, true⟩ })

/-- `fm_scan_init`. -/
def fmScanInit (info : Info n W PK) : Info n W PK :=
  { info with lastinx := -1, scanPos := 0, currentSlot := -1, update := HaState.clear }

/-- `fm_scan`. -/
def fmScan (info : Info n W PK) (buf : Image n W) :
    Core n W PK (Option HaErr × Image n W × Info n W PK) := do
  let (rc, pos, buf) ← scanNext info.scanPos buf
  if rc = .ok then
    let idx := i32 (pos + 2 ^ 32 - 1)
    let g ← access (.loadGen idx)
    pure (none, buf, { info with
      scanPos := pos, currentSlot := idx, currentGen := g
      update := ⟨true, false, false, true, true⟩ })
  else
    pure (some .endOfFile, buf,
      { info with scanPos := pos, update := ⟨false, false, false, true, true⟩ })

/-- `fm_find_key`.  The packed key is kept when a later `index_next` may need it,
that is unless the key is unique and has no nullable part. -/
def fmFindKey (tab : TableCfg n W PK) (info : Info n W PK) (inx : Nat) (key : PK)
    (buf : Image n W) : Core n W PK (Option HaErr × Image n W × Info n W PK) := do
  let (rc, buf, idx) ← find tab.toShareCfg inx key buf
  if rc = .ok then
    let keep := !((tab.keydef inx).unique && !tab.nullPartKey inx)
    let g ← access (.loadGen idx)
    pure (none, buf, { info with
      lastkey := if keep then key else info.lastkey
      lastinx := inx, currentSlot := idx, currentGen := g
      update := { HaState.clear with aktiv := true } })
  else
    pure (some .keyNotFound, buf, { info with update := { HaState.clear with noKey := true } })

/-- `fm_find_next_key`. -/
def fmFindNextKey (tab : TableCfg n W PK) (info : Info n W PK) (inx : Nat) (key : PK) (cur : Int)
    (buf : Image n W) : Core n W PK (Option HaErr × Image n W × Info n W PK) := do
  let (rc, buf, idx) ← findNext tab.toShareCfg inx key cur buf
  if rc = .ok then
    let g ← access (.loadGen idx)
    pure (none, buf, { info with
      lastkey := key, lastinx := inx, currentSlot := idx, currentGen := g
      update := ⟨true, false, false, false, true⟩ })
  else
    pure (some .keyNotFound, buf, { info with update := ⟨false, false, false, false, true⟩ })

/-- `fm_reset`. -/
def fmReset (info : Info n W PK) : Info n W PK :=
  { info with lastinx := -1, scanPos := 0, currentSlot := -1, update := HaState.clear }

/-- `fm_clear`. -/
def fmClear (tab : TableCfg n W PK) (info : Info n W PK) : Core n W PK (Info n W PK) := do
  clear tab.toShareCfg
  pure { info with currentSlot := -1, lastinx := -1, update := HaState.clear }

/-- `unlock_current_row`. -/
def unlockCurrentRow (h : Handler n W PK) : Core n W PK (Handler n W PK) :=
  if h.rowLocked then do
    access (.unlock (.row h.lockedSlot))
    pure { h with rowLocked := false, lockedSlot := -1 }
  else
    pure h

/-- `lock_current_row`. -/
def lockCurrentRow (h : Handler n W PK) : Core n W PK (Handler n W PK) :=
  if h.file.currentSlot < 0 then
    pure h
  else if h.rowLocked ∧ h.lockedSlot = h.file.currentSlot then
    pure h                                               -- already held for this row
  else do
    let h ← unlockCurrentRow h                           -- move the lock to the new row
    access (.lock (.row h.file.currentSlot))
    pure { h with rowLocked := true, lockedSlot := h.file.currentSlot }

/-- The locks a handler holds between calls. -/
def Handler.rowStack (h : Handler n W PK) : List Lock :=
  if h.rowLocked then [.row h.lockedSlot] else []

/-- The handler once it has locked its current row.  A negative slot is not locked. -/
def Handler.locked (h : Handler n W PK) : Handler n W PK :=
  if h.file.currentSlot < 0 then h
    else { h with rowLocked := true, lockedSlot := h.file.currentSlot }

/-- The handler without its row lock. -/
def Handler.unlocked (h : Handler n W PK) : Handler n W PK :=
  if h.rowLocked then { h with rowLocked := false, lockedSlot := -1 } else h

/-- Locking a row leaves the handle alone. -/
@[simp] theorem locked_file (h : Handler n W PK) : h.locked.file = h.file := by
  unfold Handler.locked
  split <;> rfl

/-- Whether the statement writes does not depend on the lock. -/
@[simp] theorem locked_writeStmt (h : Handler n W PK) : h.locked.writeStmt = h.writeStmt := by
  unfold Handler.locked
  split <;> rfl

/-- Giving a row lock up leaves the handle alone. -/
@[simp] theorem unlocked_file (h : Handler n W PK) : h.unlocked.file = h.file := by
  unfold Handler.unlocked
  split <;> rfl

@[simp] theorem unlocked_writeStmt (h : Handler n W PK) : h.unlocked.writeStmt = h.writeStmt := by
  unfold Handler.unlocked
  split <;> rfl

/-- A handler that has given its lock up holds none. -/
@[simp] theorem unlocked_rowLocked (h : Handler n W PK) : h.unlocked.rowLocked = false := by
  unfold Handler.unlocked
  split
  · rfl
  · rename_i hnot
    simpa using hnot

/-- What every row read does in a write statement once it has found a row: lock
the row and read it again; `gone` is the error if the row has disappeared. -/
def rereadInWriteStmt (gone : HaErr) (found : Option HaErr × Image n W × Info n W PK)
    (h : Handler n W PK) : Core n W PK (Option HaErr × Image n W × Handler n W PK) :=
  if found.1 = none ∧ h.writeStmt = true then do
    let h ← lockCurrentRow { h with file := found.2.2 }
    let (rc, buf, info) ← fmRereadLocked h.file found.2.1
    if rc = .ok then
      pure (none, buf, { h with file := info })
    else
      let h ← unlockCurrentRow { h with file := info }
      pure (some gone, buf, h)
  else
    pure (found.1, found.2.1, { h with file := found.2.2 })

/-- Take the lock of the current row in a write statement that holds none. -/
def lockIfUnlocked (h : Handler n W PK) : Core n W PK (Handler n W PK) :=
  if h.writeStmt ∧ 0 ≤ h.file.currentSlot ∧ h.rowLocked = false then lockCurrentRow h else pure h

/-- The guard of `update_row` and `delete_row`: the current row must be locked, and
is locked now if the handler holds no lock yet.  Without the lock the method
gives up. -/
def ensureRowLocked (h : Handler n W PK) : Core n W PK (Bool × Handler n W PK) :=
  if h.writeStmt ∧ h.rowLocked ∧ h.lockedSlot = h.file.currentSlot then
    pure (true, h)
  else do
    let h ← lockIfUnlocked h
    if h.rowLocked ∧ h.lockedSlot = h.file.currentSlot then
      pure (true, h)
    else
      let h ← unlockCurrentRow h
      pure (false, h)

/-- The request for auto-increment values that the server makes on behalf of
`write_row`, and the record it fills in from the first value it is given. -/
structure AutoRequest (n : Nat) (W : Type) where
  offset : Nat
  increment : Nat
  nbDesired : Nat
  fill : Nat → Image n W

/-- The calls on a handler.  `index` of `indexReadMap` stands for the active index
of the handler. -/
inductive HandlerOp (n : Nat) (W PK : Type)
  | externalLockWrite
  | externalLockUnlock
  | indexReadMap (index : Nat) (key : PK) (buf : Image n W)
  | indexReadLastMap (index : Nat) (key : PK) (buf : Image n W)
  | indexReadIdxMap (index : Nat) (key : PK) (buf : Image n W)
  | indexNext (buf : Image n W)
  | rndInit (scan : Bool)
  | rndNext (buf : Image n W)
  | rndPos (pos : Int × Nat) (buf : Image n W)
  | findUniqueRow (index : Nat) (record : Image n W)
  | writeRow (auto : Option (AutoRequest n W)) (rec : Image n W)
  | updateRow (old new : Image n W)
  | deleteRow (old : Image n W)
  | deleteAllRows
  | reset
  | setReadCheck (on : Bool)
  | resetState

/-- What a call returns: the error, if any, and the record buffer of a read. -/
structure HandlerOut (n : Nat) (W : Type) where
  err : Option HaErr
  buf : Option (Image n W)

/-- What a row read returns. -/
def readResult (r : Option HaErr × Image n W × Handler n W PK) : HandlerOut n W × Handler n W PK :=
  (⟨r.1, some r.2.1⟩, r.2.2)

/-- `index_read_map`, `index_read_last_map` and `index_read_idx_map`. -/
def indexRead (tab : TableCfg n W PK) (index : Nat) (key : PK) (buf : Image n W)
    (h : Handler n W PK) : Core n W PK (HandlerOut n W × Handler n W PK) := do
  let found ← fmFindKey tab h.file index key buf
  let r ← rereadInWriteStmt .keyNotFound found h
  pure (readResult r)

/-- `index_next`. -/
def indexNext (tab : TableCfg n W PK) (buf : Image n W) (h : Handler n W PK) :
    Core n W PK (HandlerOut n W × Handler n W PK) :=
  if h.file.lastinx < 0 then
    pure (⟨some .wrongIndex, some buf⟩, h)
  else do
    let found ← fmFindNextKey tab h.file h.file.lastinx.toNat h.file.lastkey h.file.currentSlot buf
    if found.1 = some .keyNotFound ∧ found.2.2.update.noKey = false then
      pure (⟨some .endOfFile, some found.2.1⟩, { h with file := found.2.2 })
    else
      let r ← rereadInWriteStmt .keyNotFound found h
      pure (readResult r)

/-- `rnd_init`. -/
def rndInit (scan : Bool) (h : Handler n W PK) : Core n W PK (HandlerOut n W × Handler n W PK) :=
  if scan then do
    let h ← unlockCurrentRow h
    pure (⟨none, none⟩, { h with file := fmScanInit h.file })
  else
    pure (⟨none, none⟩, h)

/-- `rnd_next`. -/
def rndNext (buf : Image n W) (h : Handler n W PK) :
    Core n W PK (HandlerOut n W × Handler n W PK) := do
  let found ← fmScan h.file buf
  let r ← rereadInWriteStmt .recordDeleted found h
  pure (readResult r)

/-- `rnd_pos`. -/
def rndPos (pos : Int × Nat) (buf : Image n W) (h : Handler n W PK) :
    Core n W PK (HandlerOut n W × Handler n W PK) := do
  let found ← fmRrnd h.file buf pos
  let r ← rereadInWriteStmt .recordDeleted found h
  pure (readResult r)

/-- `find_unique_row`, which returns 1 for every failure. -/
def findUniqueRow (tab : TableCfg n W PK) (index : Nat) (record : Image n W) (h : Handler n W PK) :
    Core n W PK (HandlerOut n W × Handler n W PK) :=
  if (tab.keydef index).unique then do
    let key := tab.makeKey index h.file.lastkey record
    let (rc, img, idx) ← find tab.toShareCfg index key h.file.scratch
    if rc = .ok then
      let g ← access (.loadGen idx)
      let r ← rereadInWriteStmt .notUnique (none, img, { h.file with
        lastkey := key, currentSlot := idx, currentGen := g, lastinx := index
        update := { HaState.clear with aktiv := true } }) h
      pure (readResult r)
    else
      pure (⟨some .notUnique, some record⟩, { h with file := { h.file with lastkey := key } })
  else
    pure (⟨some .notUnique, some record⟩, h)

/-- `get_auto_increment`: the first value, if there is one.  Nothing is reserved on overflow,
and the value `~0` is how the failure is told to the server. -/
def getAutoIncrement (req : AutoRequest n W) : Core n W PK (Option Nat) := do
  let (first, _) ← autoIncReserve req.offset req.increment req.nbDesired
  pure (if first = 0 ∨ first = 2 ^ 64 - 1 then none else some first)

/-- The record `write_row` writes: the one it is given, or the one the server has
filled in after asking for an auto-increment value. -/
def nextRecord (auto : Option (AutoRequest n W)) (rec : Image n W) :
    Core n W PK (Option (Image n W)) :=
  match auto with
  | none => pure (some rec)
  | some req => do
      let first ← getAutoIncrement req
      pure (first.map req.fill)

/-- `write_row`. -/
def writeRow (tab : TableCfg n W PK) (auto : Option (AutoRequest n W)) (rec : Image n W)
    (h : Handler n W PK) : Core n W PK (HandlerOut n W × Handler n W PK) := do
  let rec? ← nextRecord auto rec
  match rec? with
  | none => pure (⟨some .autoincReadFailed, none⟩, h)
  | some rec =>
      let (err, info) ← fmWrite tab h.file rec
      pure (⟨err, none⟩, { h with file := info })

/-- `update_row`. -/
def handlerUpdateRow [DecidableEq (Image n W)] (tab : TableCfg n W PK) (old new : Image n W)
    (h : Handler n W PK) : Core n W PK (HandlerOut n W × Handler n W PK) := do
  let (locked, h) ← ensureRowLocked h
  if locked then
    let (err, info) ← fmUpdateLocked tab h.file old new
    let h ← unlockCurrentRow { h with file := info }
    pure (⟨err, none⟩, h)
  else
    pure (⟨some .recordChanged, none⟩, h)

/-- `delete_row`. -/
def handlerDeleteRow [DecidableEq (Image n W)] (tab : TableCfg n W PK) (old : Image n W)
    (h : Handler n W PK) : Core n W PK (HandlerOut n W × Handler n W PK) := do
  let (locked, h) ← ensureRowLocked h
  if locked then
    let (err, info) ← fmDeleteLocked tab h.file old
    let h ← unlockCurrentRow { h with file := info }
    pure (⟨err, none⟩, h)
  else
    pure (⟨some .recordChanged, none⟩, h)

/-- `delete_all_rows`. -/
def deleteAllRows (tab : TableCfg n W PK) (h : Handler n W PK) :
    Core n W PK (HandlerOut n W × Handler n W PK) := do
  let info ← fmClear tab h.file
  pure (⟨none, none⟩, { h with file := info })

/-- `reset`. -/
def handlerReset (h : Handler n W PK) : Core n W PK (HandlerOut n W × Handler n W PK) := do
  let h ← unlockCurrentRow h
  pure (⟨none, none⟩, { h with file := fmReset h.file })

/-- `external_lock` with `F_UNLCK`. -/
def externalUnlock (h : Handler n W PK) : Core n W PK (HandlerOut n W × Handler n W PK) := do
  let h ← unlockCurrentRow { h with writeStmt := false }
  pure (⟨none, none⟩, h)

/-- The program of each call. -/
def HandlerOp.code [DecidableEq (Image n W)] (tab : TableCfg n W PK) :
    HandlerOp n W PK → Handler n W PK → Core n W PK (HandlerOut n W × Handler n W PK)
  | .externalLockWrite, h => pure (⟨none, none⟩, { h with writeStmt := true })
  | .externalLockUnlock, h => externalUnlock h
  | .indexReadMap index key buf, h => indexRead tab index key buf h
  | .indexReadLastMap index key buf, h => indexRead tab index key buf h
  | .indexReadIdxMap index key buf, h => indexRead tab index key buf h
  | .indexNext buf, h => FastMem.indexNext tab buf h
  | .rndInit scan, h => FastMem.rndInit scan h
  | .rndNext buf, h => FastMem.rndNext buf h
  | .rndPos pos buf, h => FastMem.rndPos pos buf h
  | .findUniqueRow index record, h => FastMem.findUniqueRow tab index record h
  | .writeRow auto rec, h => FastMem.writeRow tab auto rec h
  | .updateRow old new, h => handlerUpdateRow tab old new h
  | .deleteRow old, h => handlerDeleteRow tab old h
  | .deleteAllRows, h => FastMem.deleteAllRows tab h
  | .reset, h => handlerReset h
  | .setReadCheck on, h => pure (⟨none, none⟩, { h with file := { h.file with readCheck := on } })
  | .resetState, h => pure (⟨none, none⟩, { h with file := fmReset h.file })

/-- Threads that each drive one handler through the calls `may` allows. -/
@[reducible] def handlerSystem [DecidableEq (Image n W)] (tab : TableCfg n W PK)
    (may : HandlerOp n W PK → Handler n W PK → Bool) :
    System (coreSig n W PK) (Share n W) (HandlerOp n W PK) (Handler n W PK) (HandlerOut n W) where
  toMachine := machine tab.toShareCfg
  may := may
  code := HandlerOp.code tab

/-- A table of one-word rows as the handler sees it. -/
def wordHandlers (keys : Nat) : TableCfg 1 Nat Nat where
  toShareCfg := wordTable keys
  nullPartKey := fun _ => false
  autoValue := none
  makeKey := fun _ _ r => wordOf r

end FastMem
