import FastMem.Allocator
import FastMem.Share

/-!
# Allocation in the creation of a share

`fm_core.h`: what `fm_core_init_share`, `fm_core_grow_chunk` and `fm_core_free_share`
allocate and release; `fm_create.cc`: the part of `fm_create` that makes a new share, and its
`err` path.  The contents of the arrays are the `Share` of the other
modules.  Here an array is a block that is present or absent, and an access to an absent
one is a fault.

Of the arrays of a share the caller tests one, the chunk array, while `fm_core_init_share`
stops at the first of three that is missing.
-/

namespace FastMem.Creation

open Allocator

/-- An array that was allocated, with its cells. -/
structure Block (α : Type) where
  block : Nat
  cells : Nat → α

/-- The arrays of an `FM_KEY_CORE`. -/
structure KeyArrays where
  head : Option Nat
  locks : Option Nat

/-- The arrays of an `FM_CHUNK`. -/
structure ChunkArrays where
  slots : Option Nat
  keyNext : Option (Block (Option Nat))

/-- The arrays of an `FM_SHARE_CORE` and the counts that its loops run to. -/
structure CoreArrays where
  keys : Nat
  chunkCap : Nat
  chunkCnt : Nat
  chunks : Option (Block ChunkArrays)
  keydef : Option (Block KeyArrays)

/-- The core after `memset(s, 0, sizeof(*s))`. -/
def CoreArrays.zero : CoreArrays := ⟨0, 0, 0, none, none⟩

/-- The cell `i` of an array is `a`. -/
def Block.set {α : Type} (b : Block α) (i : Nat) (a : α) : Block α :=
  ⟨b.block, Function.update b.cells i a⟩

/-- The round of `fm_core_init_share` that makes the arrays of key `k`. -/
def initKey (nbuckets : Nat) (k : Nat) (keydef : Block KeyArrays) : Alloc (Block KeyArrays) := do
  let head ← alloc
  let locks ← alloc
  let keydef := keydef.set k ⟨head, locks⟩
  if head.isNone || locks.isNone then pure keydef
  else do
    rounds (fun _ _ => do
      let _ ← deref head
      let _ ← deref locks
      pure ()) nbuckets ()
    pure keydef

/-- `fm_core_init_share`. -/
def fmCoreInitShare (keys maxRecords nbuckets : Nat) : Alloc CoreArrays := do
  let maxRecords := if maxRecords = 0 then 1 else maxRecords
  let chunkCap := (maxRecords + chunkSize - 1) % 2 ^ 32 / chunkSize
  let s : CoreArrays := ⟨keys, chunkCap, 0, none, none⟩
  match ← alloc with
  | none => pure s
  | some chunks =>
      let s := { s with chunks := some ⟨chunks, fun _ => ⟨none, none⟩⟩ }
      if keys = 0 then pure s
      else
        match ← alloc with
        | none => pure s
        | some keydef => do
            let nbuckets := if nbuckets = 0 then 1024 else nbuckets
            let keydef ← rounds (initKey nbuckets) keys ⟨keydef, fun _ => ⟨none, none⟩⟩
            pure { s with keydef := some keydef }

/-- The round of `fm_core_free_share` that frees chunk `i`. -/
def freeChunk (s : CoreArrays) (i : Nat) : Alloc Unit := do
  let chunks ← deref s.chunks
  deallocIf (chunks.cells i).slots
  match (chunks.cells i).keyNext with
  | none => pure ()
  | some keyNext => do
      rounds (fun k _ => deallocIf (keyNext.cells k)) s.keys ()
      dealloc keyNext.block

/-- The round of `fm_core_free_share` that frees the arrays of key `k`. -/
def freeKey (s : CoreArrays) (k : Nat) : Alloc Unit := do
  let keydef ← deref s.keydef
  deallocIf (keydef.cells k).head
  let keydef ← deref s.keydef
  deallocIf (keydef.cells k).locks

/-- `fm_core_free_share`. -/
def fmCoreFreeShare (s : CoreArrays) : Alloc CoreArrays := do
  rounds (fun i _ => freeChunk s i) s.chunkCnt ()
  deallocIf (s.chunks.map Block.block)
  rounds (fun k _ => freeKey s k) s.keys ()
  deallocIf (s.keydef.map Block.block)
  pure .zero

/-- The round of `fm_core_grow_chunk` that allocates the links of key `kk`; the flag says
whether the allocations have all succeeded. -/
def growKey (slots : Nat) (kk : Nat) : Block (Option Nat) × Bool → Alloc (Block (Option Nat) × Bool)
  | (keyNext, false) => pure (keyNext, false)
  | (keyNext, true) => do
      match ← alloc with
      | some b => pure (keyNext.set kk (some b), true)
      | none => do
          rounds (fun j _ => deallocIf (keyNext.cells j)) kk ()
          dealloc keyNext.block
          dealloc slots
          pure (keyNext, false)

/-- The store of a grown chunk into the chunk array. -/
def CoreArrays.setChunk (s : CoreArrays) (chunks : Block ChunkArrays)
    (c : ChunkArrays) : CoreArrays :=
  { s with chunks := some (chunks.set s.chunkCnt c) }

/-- `fm_core_grow_chunk`. -/
def fmCoreGrowChunk (s : CoreArrays) : Alloc (Rc × CoreArrays) := do
  if s.chunkCnt ≥ s.chunkCap then pure (.full, s)
  else
    let chunks ← deref s.chunks
    match ← alloc with
    | none => pure (.noMem, s.setChunk chunks { chunks.cells s.chunkCnt with slots := none })
    | some slots =>
        if s.keys = 0 then
          pure (.ok, { s.setChunk chunks { chunks.cells s.chunkCnt with slots := some slots } with
            chunkCnt := (s.chunkCnt + 1) % 2 ^ 32 })
        else
          match ← alloc with
          | none => do
              dealloc slots
              pure (.noMem, s.setChunk chunks ⟨none, none⟩)
          | some keyNext => do
              let (keyNext, grown) ← rounds (growKey slots) s.keys (⟨keyNext, fun _ => none⟩, true)
              if grown then
                pure (.ok, { s.setChunk chunks ⟨some slots, some keyNext⟩ with
                  chunkCnt := (s.chunkCnt + 1) % 2 ^ 32 })
              else pure (.noMem, s.setChunk chunks ⟨none, none⟩)

/-- An `FM_SHARE`: its block, its name and the arrays of its core. -/
structure ShareBlocks where
  block : Nat
  name : Option Nat
  core : CoreArrays

/-- The loop of `fm_create` that doubles `nbuckets`; `fuel` bounds its rounds. -/
def doubleBuckets (maxRecords : Nat) : Nat → Nat → Nat
  | 0, nbuckets => nbuckets
  | fuel + 1, nbuckets =>
      if nbuckets < maxRecords / 4 ∧
        nbuckets < 2 ^ 20 then doubleBuckets maxRecords fuel (nbuckets * 2)
      else nbuckets

/-- The bucket count that `fm_create` chooses. -/
def createBuckets (maxRecords : Nat) : Nat := doubleBuckets maxRecords 10 1024

/-- The `err` path of `fm_create`. -/
def createErr : Option ShareBlocks → Alloc (Option ShareBlocks)
  | none => pure none
  | some share => do
      deallocIf share.name
      let _ ← fmCoreFreeShare share.core
      dealloc share.block
      pure none

/-- `fm_create` when no share of the name is in use: the new share for the result 0,
nothing for the result 1. -/
def fmCreate (keys maxRecords : Nat) : Alloc (Option ShareBlocks) := do
  match ← alloc with
  | none => createErr none
  | some block =>
      let core ← fmCoreInitShare keys (maxRecords % 2 ^ 32) (createBuckets maxRecords)
      if core.chunks.isNone then createErr (some ⟨block, none, core⟩)
      else
        match ← alloc with
        | none => createErr (some ⟨block, none, core⟩)
        | some name => pure (some ⟨block, some name, core⟩)

end FastMem.Creation
