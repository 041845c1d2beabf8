import Mathlib.Data.List.FinRange
import FastMem.Share

/-!
# The concurrency core

The functions of `fm_core.h`, each as the sequence of shared accesses the source
makes.  A loop of the source whose length the program does not know (the retry
loop of a seqlock read, a walk along a chain, a compare-exchange loop) is a
`Proc`; its body is given by `procBody`.  Loops over keys, buckets, slots, words
and lock sets are recursion over lists.

A chain walk of the source reads its current link several times in one round,
always under the bucket lock; here it reads it once.  Memory handed back to the
allocator on a failed growth is not modelled, since no later access reads it.
-/

namespace FastMem

open Conc

/-- The cell a chain walk stands at: a bucket head, or the chain cell of a slot. -/
inductive Link
  | head (b : Nat)
  | next (i : Int)
  deriving DecidableEq, Repr

/-- The loops of the core. -/
inductive Proc (n : Nat) (W PK : Type)
  | readRow (idx : Int) (checkGen : Bool) (expectGen : Nat) (buf : Image n W)
  | unlinkWalk (k : Nat) (link : Link) (idx : Int)
  | dupWalk (k : Nat) (rec scratch : Image n W) (h : Int)
  | findWalk (key : Nat) (pk : PK) (buf : Image n W) (h : Int)
  | findNextWalk (key : Nat) (pk : PK) (cur : Int) (afterCur : Bool) (buf : Image n W) (h : Int)
  | reserveLoop (offset inc nb : Nat)
  | observeLoop (value cur : Nat)

/-- The result of each loop. -/
@[reducible] def Proc.Ret {n : Nat} {W PK : Type} : Proc n W PK → Type
  | .readRow .. => Rc × Image n W
  | .unlinkWalk .. => Rc
  | .dupWalk .. => Rc
  | .findWalk .. => Rc × Image n W × Int
  | .findNextWalk .. => Rc × Image n W × Int
  | .reserveLoop .. => Nat × Nat
  | .observeLoop .. => Unit

/-- The accesses and loops of the core. -/
@[reducible] def coreSig (n : Nat) (W PK : Type) : Sig where
  Act := Act n W
  Res := Act.Res
  Proc := Proc n W PK
  Ret := Proc.Ret

variable {n : Nat} {W PK : Type}

/-- A program of the core. -/
abbrev Core (n : Nat) (W PK : Type) (α : Type) := Prog (coreSig n W PK) α

/-- Perform one access. -/
def access (a : Act n W) : Core n W PK a.Res := Prog.perform (S := coreSig n W PK) a

/-- Enter one loop. -/
def loop (p : Proc n W PK) : Core n W PK p.Ret := Prog.enter (S := coreSig n W PK) p

/-- `memcpy` from slot `idx`, word by word, into a buffer. -/
def copyOut (idx : Int) : List (Fin n) → Image n W → Core n W PK (Image n W)
  | [], buf => pure buf
  | j :: js, buf => do
      let x ← access (.loadWord idx j)
      copyOut idx js (Function.update buf j x)

/-- `memcpy` of a record, word by word, into slot `idx`. -/
def copyIn (idx : Int) (rec : Image n W) : List (Fin n) → Core n W PK Unit
  | [] => pure ()
  | j :: js => do
      access (.storeWord idx j (rec j))
      copyIn idx rec js

/-- `fm_core_read_row`. -/
def readRow (idx : Int) (checkGen : Bool) (expectGen : Nat) (buf : Image n W) :
    Core n W PK (Rc × Image n W) :=
  loop (.readRow idx checkGen expectGen buf)

/-- The rest of one round of the loop in `fm_core_read_row`, once the state and
the generation have been checked. -/
def readRowCopy (idx : Int) (checkGen : Bool) (expectGen : Nat) (buf : Image n W) :
    Core n W PK (Rc × Image n W) := do
  let s₁ ← access (.loadSeq idx)
  if s₁ % 2 = 1 then
    readRow idx checkGen expectGen buf                   -- update in progress
  else
    let buf ← copyOut idx (List.finRange n) buf
    let s₂ ← access (.loadSeq idx)
    if s₂ ≠ s₁ then
      readRow idx checkGen expectGen buf                 -- changed, retry
    else
      pure (.ok, buf)

/-- One round of the loop in `fm_core_read_row`. -/
def readRowBody (idx : Int) (checkGen : Bool) (expectGen : Nat) (buf : Image n W) :
    Core n W PK (Rc × Image n W) := do
  let st ← access (.loadState idx)
  if st ≠ .active then
    pure (.deleted, buf)
  else if checkGen then
    let g ← access (.loadGen idx)
    if g ≠ expectGen then
      pure (.deleted, buf)
    else
      readRowCopy idx checkGen expectGen buf
  else
    readRowCopy idx checkGen expectGen buf

/-- The allocation of the chain cells of a new chunk, key by key. -/
def allocKeyNext (c : Nat) : List Nat → Core n W PK Rc
  | [] => pure .ok
  | k :: ks => do
      let ok ← access .alloc
      if ok then
        access (.initNext k c)
        allocKeyNext c ks
      else
        pure .noMem

/-- The allocation of the array of chain-cell arrays, if there are keys. -/
def allocKeyArray (cfg : ShareCfg n W PK) : Core n W PK Bool :=
  if cfg.keys = 0 then pure true else access .alloc

/-- The end of `fm_core_grow_chunk`: the chain cells, and the store that makes the
chunk visible. -/
def publishChunk (cfg : ShareCfg n W PK) (c : Nat) : Core n W PK Rc := do
  let rc ← allocKeyNext c (List.range cfg.keys)
  if rc = .ok then
    access (.storeChunkCnt (c + 1))
    pure .ok
  else
    pure .noMem

/-- `fm_core_grow_chunk`, once the slots have been allocated. -/
def buildChunk (cfg : ShareCfg n W PK) (c : Nat) : Core n W PK Rc := do
  access (.initSlots c)
  let ok ← allocKeyArray cfg
  if ok then
    publishChunk cfg c
  else
    pure .noMem

/-- `fm_core_grow_chunk`. -/
def growChunk (cfg : ShareCfg n W PK) : Core n W PK Rc := do
  let c ← access .loadChunkCnt
  if cfg.chunkCap ≤ c then
    pure .full
  else
    let ok ← access .alloc
    if ok then
      buildChunk cfg c
    else
      pure .noMem

/-- `fm_core_free_slot`. -/
def freeSlot (idx : Int) : Core n W PK Unit := do
  let h ← access .loadFreeHead
  access (.storeFreeNext idx h)
  access (.storeFreeHead idx)

/-- Push the `m` slots from `lo` on, the highest first. -/
def pushSlots (lo : Nat) : Nat → Core n W PK Unit
  | 0 => pure ()
  | m + 1 => do
      freeSlot (i32 (lo + m))
      pushSlots lo m

/-- The end of the slots of a fresh chunk that may be used. -/
def chunkEnd (cfg : ShareCfg n W PK) (total : Nat) : Nat :=
  if cfg.maxRecords < (total + chunkSize) % 2 ^ 32 then cfg.maxRecords
  else (total + chunkSize) % 2 ^ 32

/-- `fm_core_alloc_slot`. -/
def allocSlot (cfg : ShareCfg n W PK) : Core n W PK Int := do
  let idx ← access .loadFreeHead
  if idx ≠ nullSlot then
    let nx ← access (.loadFreeNext idx)
    access (.storeFreeHead nx)
    pure idx
  else
    let cnt ← access .loadChunkCnt
    let total := slotCount cnt
    if cfg.maxRecords ≤ total then
      pure nullSlot
    else if total % chunkSize = 0 then
      let rc ← growChunk cfg
      if rc = .ok then
        pushSlots (total + 1) (chunkEnd cfg total - (total + 1))
        pure (i32 total)
      else
        pure nullSlot
    else
      pure (i32 total)

/-- Read the cell a walk stands at. -/
def loadLink (k : Nat) : Link → Core n W PK Int
  | .head b => access (.loadHead k b)
  | .next i => access (.loadNext k i)

/-- Write the cell a walk stands at. -/
def storeLink (k : Nat) (j : Int) : Link → Core n W PK Unit
  | .head b => access (.storeHead k b j)
  | .next i => access (.storeNext k i j)

/-- `fm_core_chain_unlink`. -/
def chainUnlink (k b : Nat) (idx : Int) : Core n W PK Rc :=
  loop (.unlinkWalk k (.head b) idx)

/-- One round of the loop in `fm_core_chain_unlink`. -/
def unlinkBody (k : Nat) (link : Link) (idx : Int) : Core n W PK Rc := do
  let h ← loadLink k link
  if h = nullSlot then
    pure .notFound
  else if h = idx then
    let nx ← access (.loadNext k idx)
    storeLink k nx link
    pure .ok
  else
    loop (.unlinkWalk k (.next h) idx)

/-- `fm_core_chain_link`. -/
def chainLink (k b : Nat) (idx : Int) : Core n W PK Unit := do
  let h ← access (.loadHead k b)
  access (.storeNext k idx h)
  access (.storeHead k b idx)

/-- `fm_core_scan_next`, from position `pos`: the return code, the position and
the buffer.  `fuel` is the number of slots left below the bound. -/
def scanFrom (pos : Nat) : Nat → Image n W → Core n W PK (Rc × Nat × Image n W)
  | 0, buf => pure (.eof, pos, buf)
  | fuel + 1, buf => do
      let (rc, buf) ← readRow (i32 pos) false 0 buf
      if rc = .ok then
        pure (.ok, pos + 1, buf)
      else
        scanFrom (pos + 1) fuel buf

/-- `fm_core_scan_next`. -/
def scanNext (pos : Nat) (buf : Image n W) : Core n W PK (Rc × Nat × Image n W) := do
  let cnt ← access .loadChunkCnt
  scanFrom pos (slotCount cnt - pos) buf

/-- `fm_core_find`. -/
def find (cfg : ShareCfg n W PK) (key : Nat) (pk : PK) (buf : Image n W) :
    Core n W PK (Rc × Image n W × Int) := do
  let kc := cfg.keydef key
  let b := kc.bucket (kc.ops.hashKey pk)
  access (.lock (.bucket key b))
  let h ← access (.loadHead key b)
  let r ← loop (.findWalk key pk buf h)
  access (.unlock (.bucket key b))
  pure r

/-- One round of the loop in `fm_core_find`. -/
def findBody (cfg : ShareCfg n W PK) (key : Nat) (pk : PK) (buf : Image n W) (h : Int) :
    Core n W PK (Rc × Image n W × Int) :=
  if h = nullSlot then
    pure (.notFound, buf, nullSlot)
  else do
    let (rc, buf) ← readRow h false 0 buf
    if rc = .ok ∧ (cfg.keydef key).ops.cmpRecKey buf pk = 0 then
      pure (.ok, buf, h)
    else
      let nx ← access (.loadNext key h)
      loop (.findWalk key pk buf nx)

/-- `fm_core_find_next`. -/
def findNext (cfg : ShareCfg n W PK) (key : Nat) (pk : PK) (cur : Int) (buf : Image n W) :
    Core n W PK (Rc × Image n W × Int) := do
  let kc := cfg.keydef key
  let b := kc.bucket (kc.ops.hashKey pk)
  access (.lock (.bucket key b))
  let h ← access (.loadHead key b)
  let r ← loop (.findNextWalk key pk cur false buf h)
  access (.unlock (.bucket key b))
  pure r

/-- One round of the loop in `fm_core_find_next`. -/
def findNextBody (cfg : ShareCfg n W PK) (key : Nat) (pk : PK) (cur : Int) (afterCur : Bool)
    (buf : Image n W) (h : Int) : Core n W PK (Rc × Image n W × Int) :=
  if h = nullSlot then
    pure (.notFound, buf, nullSlot)
  else if h = cur then do
    let nx ← access (.loadNext key h)
    loop (.findNextWalk key pk cur true buf nx)
  else if afterCur then do
    let (rc, buf) ← readRow h false 0 buf
    if rc = .ok ∧ (cfg.keydef key).ops.cmpRecKey buf pk = 0 then
      pure (.ok, buf, h)
    else
      let nx ← access (.loadNext key h)
      loop (.findNextWalk key pk cur afterCur buf nx)
  else do
    let nx ← access (.loadNext key h)
    loop (.findNextWalk key pk cur afterCur buf nx)

/-- `fm_core_dup_check`. -/
def dupCheck (cfg : ShareCfg n W PK) (k b : Nat) (rec scratch : Image n W) : Core n W PK Rc :=
  if (cfg.keydef k).unique && !(cfg.keydef k).ops.hasNullPart rec then do
    let h ← access (.loadHead k b)
    loop (.dupWalk k rec scratch h)
  else
    pure .ok

/-- One round of the loop in `fm_core_dup_check`. -/
def dupBody (cfg : ShareCfg n W PK) (k : Nat) (rec scratch : Image n W) (h : Int) :
    Core n W PK Rc :=
  if h = nullSlot then
    pure .ok
  else do
    let (rc, scratch) ← readRow h false 0 scratch
    if rc = .ok ∧ (cfg.keydef k).ops.cmpRecRec scratch rec = 0 then
      pure .dupKey
    else
      let nx ← access (.loadNext k h)
      loop (.dupWalk k rec scratch nx)

/-- What a write reports: the return code, the slot (`*out_idx`) and the value
stored through `errkey`, if any. -/
structure WriteResult where
  rc : Rc
  outIdx : Option Int
  errkey : Option Int
  deriving DecidableEq, Repr

/-- The rollback loop of `fm_core_insert_row`, `while (k-- > 0)`: unlink `idx`
from the keys below `k`, the highest first.  The counter wraps when the loop
ends; its final value is returned, since the source goes on to use it. -/
def rollback (cfg : ShareCfg n W PK) (rec : Image n W) (idx : Int) : Nat → Core n W PK Nat
  | 0 => pure (2 ^ 32 - 1)
  | k + 1 => do
      access (.lock (.bucket k (cfg.keyBucket k rec)))
      let _ ← chainUnlink k (cfg.keyBucket k rec) idx
      access (.unlock (.bucket k (cfg.keyBucket k rec)))
      rollback cfg rec idx k

/-- The keys of `fm_core_insert_row`, in order: link the slot into the chain of
each, unless the record is a duplicate there.  Returns the key at which it
stopped, if any. -/
def linkKeys (cfg : ShareCfg n W PK) (rec scratch : Image n W) (idx : Int) :
    List Nat → Core n W PK (Option Nat)
  | [] => pure none
  | k :: ks => do
      access (.lock (.bucket k (cfg.keyBucket k rec)))
      let dup ← dupCheck cfg k (cfg.keyBucket k rec) rec scratch
      if dup = .ok then
        chainLink k (cfg.keyBucket k rec) idx
        access (.unlock (.bucket k (cfg.keyBucket k rec)))
        linkKeys cfg rec scratch idx ks
      else
        access (.unlock (.bucket k (cfg.keyBucket k rec)))
        pure (some k)

/-- `fm_core_insert_row`, once a slot has been allocated. -/
def insertAt (cfg : ShareCfg n W PK) (rec scratch : Image n W) (idx : Int) :
    Core n W PK WriteResult := do
  copyIn idx rec (List.finRange n)
  let stop ← linkKeys cfg rec scratch idx (List.range cfg.keys)
  match stop with
  | some k =>
      let k ← rollback cfg rec idx k
      freeSlot idx
      access (.unlock .mutex)
      pure ⟨.dupKey, none, some (i32 k + 1)⟩
  | none =>
      access (.storeState idx .active)
      access (.addRecords 1)
      access (.unlock .mutex)
      pure ⟨.ok, some idx, none⟩

/-- `fm_core_insert_row`. -/
def insertRow (cfg : ShareCfg n W PK) (rec scratch : Image n W) : Core n W PK WriteResult := do
  access (.lock .mutex)
  let idx ← allocSlot cfg
  if idx = nullSlot then
    access (.unlock .mutex)
    let cnt ← access .loadChunkCnt
    pure ⟨if cfg.chunkCap ≤ cnt then .full else .noMem, none, none⟩
  else
    insertAt cfg rec scratch idx

/-- `fm_core_write_image`. -/
def writeImage (idx : Int) (rec : Image n W) : Core n W PK Unit := do
  access (.addSeq idx)                                   -- odd
  copyIn idx rec (List.finRange n)
  access (.addSeq idx)                                   -- even

/-- The keys an update changes, as `changed[0 .. nch)` collects them. -/
def changedKeys (cfg : ShareCfg n W PK) (old new : Image n W) : List Nat :=
  (((List.range cfg.keys).filter fun k => (cfg.keydef k).ops.cmpRecRec old new ≠ 0).take
    maxChangedKeys).map (· % 2 ^ 16)

/-- One round of the loop that collects `lockset`: the new and the old bucket of
key `k`, each unless the pair is there already. -/
def addToLockset (cfg : ShareCfg n W PK) (old new : Image n W) (ls : List (Nat × Nat)) (k : Nat) :
    List (Nat × Nat) :=
  let haveNew := (k, cfg.keyBucket k new) ∈ ls
  let haveOld := (k, cfg.keyBucket k old) ∈ ls
  ls ++ (if haveNew then [] else [(k, cfg.keyBucket k new)]) ++
    (if haveOld then [] else [(k, cfg.keyBucket k old)])

/-- The sort key of a pair, `((fm_u64) key << 32) | b`. -/
def locksetKey (v : Nat × Nat) : Nat := v.1 <<< 32 ||| v.2

/-- One round of the insertion sort, on the sorted prefix read from its end:
pairs above `v` shift up by one, and `v` goes right after the first that is
not. -/
def sortInsert (v : Nat × Nat) : List (Nat × Nat) → List (Nat × Nat)
  | [] => [v]
  | p :: ps => if locksetKey p ≤ locksetKey v then v :: p :: ps else p :: sortInsert v ps

/-- The sorted lock set of a key-changing update. -/
def lockset (cfg : ShareCfg n W PK) (old new : Image n W) : List (Nat × Nat) :=
  let collected := (changedKeys cfg old new).foldl (addToLockset cfg old new) []
  (collected.foldl (fun done v => sortInsert v done) []).reverse

/-- One access, unless the pair `v` equals its neighbour `prev`. -/
def unlessSame (prev : Option (Nat × Nat)) (v : Nat × Nat) (p : Core n W PK Unit) :
    Core n W PK Unit :=
  if prev = some v then pure () else p

/-- The acquire loop: every pair that differs from the one before it. -/
def lockAll : Option (Nat × Nat) → List (Nat × Nat) → Core n W PK Unit
  | _, [] => pure ()
  | prev, v :: vs => do
      unlessSame prev v (access (.lock (.bucket v.1 v.2)))
      lockAll (some v) vs

/-- The release loop, on the lock set read from its end: every pair that differs
from the one before it. -/
def unlockAll : List (Nat × Nat) → Core n W PK Unit
  | [] => pure ()
  | v :: vs => do
      unlessSame vs.head? v (access (.unlock (.bucket v.1 v.2)))
      unlockAll vs

/-- The duplicate checks of an update: the first changed key that fails. -/
def dupChecks (cfg : ShareCfg n W PK) (new scratch : Image n W) :
    List Nat → Core n W PK (Option Nat)
  | [] => pure none
  | k :: ks => do
      let dup ← dupCheck cfg k (cfg.keyBucket k new) new scratch
      if dup = .ok then dupChecks cfg new scratch ks else pure (some k)

/-- The chain moves of an update, changed key by changed key. -/
def moveKeys (cfg : ShareCfg n W PK) (idx : Int) (old new : Image n W) :
    List Nat → Core n W PK Unit
  | [] => pure ()
  | k :: ks => do
      let _ ← chainUnlink k (cfg.keyBucket k old) idx
      chainLink k (cfg.keyBucket k new) idx
      moveKeys cfg idx old new ks

/-- The slot is ACTIVE and its generation is the expected one. -/
def verifySlot (idx : Int) (expectGen : Nat) : Core n W PK Bool := do
  let st ← access (.loadState idx)
  if st ≠ .active then
    pure false
  else
    let g ← access (.loadGen idx)
    pure (g = expectGen)

/-- `fm_core_update_row`. -/
def updateRow (cfg : ShareCfg n W PK) (idx : Int) (expectGen : Nat) (old new scratch : Image n W) :
    Core n W PK WriteResult := do
  let changed := changedKeys cfg old new
  if changed = [] then
    access (.lock (.row idx))
    let valid ← verifySlot idx expectGen
    if valid then
      writeImage idx new
      access (.unlock (.row idx))
      pure ⟨.ok, none, none⟩
    else
      access (.unlock (.row idx))
      pure ⟨.deleted, none, none⟩
  else
    let ls := lockset cfg old new
    lockAll none ls
    let dup ← dupChecks cfg new scratch changed
    match dup with
    | some k =>
        unlockAll ls.reverse
        pure ⟨.dupKey, none, some (k + 1)⟩
    | none =>
        access (.lock (.row idx))
        let valid ← verifySlot idx expectGen
        if valid then
          writeImage idx new
          moveKeys cfg idx old new changed
          access (.unlock (.row idx))
          unlockAll ls.reverse
          pure ⟨.ok, none, none⟩
        else
          access (.unlock (.row idx))
          unlockAll ls.reverse
          pure ⟨.deleted, none, none⟩

/-- `fm_core_update_row_locked`: the caller holds the slot's wlock. -/
def updateRowLocked (cfg : ShareCfg n W PK) (idx : Int) (expectGen : Nat)
    (old new scratch : Image n W) : Core n W PK WriteResult := do
  let valid ← verifySlot idx expectGen
  if valid then
    let changed := changedKeys cfg old new
    if changed = [] then
      writeImage idx new
      pure ⟨.ok, none, none⟩
    else
      let ls := lockset cfg old new
      lockAll none ls
      let dup ← dupChecks cfg new scratch changed
      match dup with
      | some k =>
          unlockAll ls.reverse
          pure ⟨.dupKey, none, some (k + 1)⟩
      | none =>
          writeImage idx new
          moveKeys cfg idx old new changed
          unlockAll ls.reverse
          pure ⟨.ok, none, none⟩
  else
    pure ⟨.deleted, none, none⟩

/-- Unlink a slot from the chain of each key, one bucket lock at a time. -/
def unlinkKeys (cfg : ShareCfg n W PK) (img : Image n W) (idx : Int) : List Nat → Core n W PK Unit
  | [] => pure ()
  | k :: ks => do
      access (.lock (.bucket k (cfg.keyBucket k img)))
      let _ ← chainUnlink k (cfg.keyBucket k img) idx
      access (.unlock (.bucket k (cfg.keyBucket k img)))
      unlinkKeys cfg img idx ks

/-- What a delete does once the slot is DELETING. -/
def deleteTail (cfg : ShareCfg n W PK) (idx : Int) (scratch : Image n W) : Core n W PK Rc := do
  let img ← copyOut idx (List.finRange n) scratch
  unlinkKeys cfg img idx (List.range cfg.keys)
  access (.storeState idx .deleted)
  access (.addGen idx)
  access (.addRecords (-1))
  access (.lock .mutex)
  freeSlot idx
  access (.unlock .mutex)
  pure .ok

/-- `fm_core_delete_row`. -/
def deleteRow (cfg : ShareCfg n W PK) (idx : Int) (expectGen : Nat) (scratch : Image n W) :
    Core n W PK Rc := do
  access (.lock (.row idx))
  let valid ← verifySlot idx expectGen
  if valid then
    access (.storeState idx .deleting)
    access (.unlock (.row idx))
    deleteTail cfg idx scratch
  else
    access (.unlock (.row idx))
    pure .deleted

/-- `fm_core_delete_row_locked`: the caller holds the slot's wlock. -/
def deleteRowLocked (cfg : ShareCfg n W PK) (idx : Int) (expectGen : Nat) (scratch : Image n W) :
    Core n W PK Rc := do
  let valid ← verifySlot idx expectGen
  if valid then
    access (.storeState idx .deleting)
    deleteTail cfg idx scratch
  else
    pure .deleted

/-- The reset of the bucket heads of one key in `fm_core_clear`. -/
def clearBuckets (k : Nat) : List Nat → Core n W PK Unit
  | [] => pure ()
  | b :: bs => do
      access (.lock (.bucket k b))
      access (.storeHead k b nullSlot)
      access (.unlock (.bucket k b))
      clearBuckets k bs

/-- The reset of all bucket heads in `fm_core_clear`. -/
def clearHeads (cfg : ShareCfg n W PK) : List Nat → Core n W PK Unit
  | [] => pure ()
  | k :: ks => do
      clearBuckets k (List.range (cfg.keydef k).nbuckets)
      clearHeads cfg ks

/-- The loop of `fm_core_clear` that flips the slots. -/
def clearSlots : List Nat → Core n W PK Unit
  | [] => pure ()
  | i :: is => do
      access (.lock (.row (i32 i)))
      access (.storeState (i32 i) .free)
      access (.addGen (i32 i))
      access (.unlock (.row (i32 i)))
      clearSlots is

/-- The loop of `fm_core_clear` that rebuilds the free list. -/
def rebuildFree : List Nat → Core n W PK Unit
  | [] => pure ()
  | i :: is => do
      freeSlot (i32 i)
      rebuildFree is

/-- `fm_core_clear`. -/
def clear (cfg : ShareCfg n W PK) : Core n W PK Unit := do
  access (.lock .mutex)
  clearHeads cfg (List.range cfg.keys)
  let cnt ← access .loadChunkCnt
  let total := slotCount cnt
  clearSlots (List.range total)
  access (.storeFreeHead nullSlot)
  rebuildFree (List.range total)
  access (.storeRecords 0)
  access (.unlock .mutex)

/-- The smallest value above `cur` that `fm_core_auto_inc_reserve` may hand out,
in 64-bit arithmetic; `none` when the source reports an overflow. -/
def autoIncFirst (cur offset inc : Nat) : Option Nat :=
  let v := (cur + 1) % 2 ^ 64
  if v = 0 then none
  else if inc ≤ 1 then some v
  else
    let r := if offset < v then v - offset else 0
    let steps := (r + inc - 1) % 2 ^ 64 / inc
    let v₂ := (offset + steps * inc) % 2 ^ 64
    if v₂ < v then none
    else if v₂ ≤ cur then
      let v := (cur + inc) % 2 ^ 64
      if v ≤ cur then none
      else
        let steps₂ := if offset < v then v - offset else 0
        let v₃ := (offset + (steps₂ + inc - 1) % 2 ^ 64 / inc * inc) % 2 ^ 64
        if v₃ < v ∨ v₃ = 0 then none else some v₃
    else some v₂

/-- One round of the loop in `fm_core_auto_inc_reserve`: the first value and the
number reserved, or 0 on overflow. -/
def reserveBody (offset inc nb : Nat) : Core n W PK (Nat × Nat) := do
  let cur ← access .loadAutoInc
  match autoIncFirst cur offset inc with
  | none => pure (0, 0)
  | some v =>
      let last := (v + (nb - 1) * inc) % 2 ^ 64
      if last < v then
        pure (0, 0)
      else
        let (ok, _) ← access (.casAutoInc cur last)
        if ok then pure (v, nb) else loop (.reserveLoop offset inc nb)

/-- `fm_core_auto_inc_reserve`. -/
def autoIncReserve (offset inc nb : Nat) : Core n W PK (Nat × Nat) :=
  loop (.reserveLoop (if offset = 0 then 1 else offset) (if inc = 0 then 1 else inc)
    (if nb = 0 then 1 else nb))

/-- One round of the loop in `fm_core_auto_inc_observe`. -/
def observeBody (value cur : Nat) : Core n W PK Unit :=
  if cur < value then do
    let (ok, seen) ← access (.casAutoInc cur value)
    if ok then pure () else loop (.observeLoop value seen)
  else
    pure ()

/-- `fm_core_auto_inc_observe`. -/
def autoIncObserve (value : Nat) : Core n W PK Unit := do
  let cur ← access .loadAutoInc
  loop (.observeLoop value cur)

/-- The bodies of the loops. -/
def procBody (cfg : ShareCfg n W PK) : (p : Proc n W PK) → Core n W PK p.Ret
  | .readRow idx cg g buf => readRowBody idx cg g buf
  | .unlinkWalk k link idx => unlinkBody k link idx
  | .dupWalk k rec scratch h => dupBody cfg k rec scratch h
  | .findWalk key pk buf h => findBody cfg key pk buf h
  | .findNextWalk key pk cur after buf h => findNextBody cfg key pk cur after buf h
  | .reserveLoop offset inc nb => reserveBody offset inc nb
  | .observeLoop value cur => observeBody value cur

/-- The core as a machine on shares. -/
@[reducible] def machine (cfg : ShareCfg n W PK) : Machine (coreSig n W PK) (Share n W) where
  exec := exec cfg
  body := procBody cfg

end FastMem
