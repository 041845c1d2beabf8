import Mathlib.Algebra.Ring.Int.Defs
import Mathlib.Algebra.Ring.Nat
import FastMem.Prog

/-!
# The share: slots, hash chains, free list and locks

The data of one table, as `fm_core.h` lays it out.  What `fm_core_init_share`
fixes for the life of the share (the keys, their callbacks and bucket counts,
the row limit) is a `ShareCfg`; what the operations change is a `Share`.

A slot of the source is a header and a record image.  Here each header field is
a function of the slot id, so that a store to one field visibly leaves the
others alone.  Slot ids are the source's 32-bit signed integers, with
`nullSlot` for its `FM_NULL_SLOT`; counters that wrap carry their `% 2 ^ 32`.
A spinlock is `none` when free; the thread that holds it is recorded only so
that statements can name it (the source stores a flag).

A record image is `n` words.  The atomic actions below are the accesses of the
source to shared memory, one word of an image at a time; a development that
wants an image access to be one step takes `n = 1` and a word that is a whole
image.
-/

namespace FastMem

open Conc

/-- `FM_CHUNK_SIZE`, that is `1 << FM_CHUNK_SHIFT`. -/
def chunkSize : Nat := 4096

/-- `FM_NULL_SLOT`. -/
def nullSlot : Int := -1

/-- `FM_MAX_CHANGED_KEYS`. -/
def maxChangedKeys : Nat := 64

/-- The cast of an unsigned 32-bit number to `fm_i32`. -/
def i32 (u : Nat) : Int := if u % 2 ^ 32 < 2 ^ 31 then (u % 2 ^ 32 : Nat) else
    (u % 2 ^ 32 : Nat) - 2 ^ 32

/-- The cast of an `fm_i32` back to an unsigned 32-bit number. -/
def u32 (i : Int) : Nat := (i % 2 ^ 32).toNat

/-- The return codes of the core. -/
inductive Rc
  | ok | notFound | eof | deleted | dupKey | full | noMem | wrongKey
  deriving DecidableEq, Repr

/-- The states of a slot, `FM_SLOT_*`. -/
inductive SlotState
  | free | active | deleted | deleting
  deriving DecidableEq, Repr

/-- A record image of `n` words. -/
abbrev Image (n : Nat) (W : Type) := Fin n → W

/-- `FM_KEY_OPS`: the callbacks the server glue supplies for one key.  A null
`has_null_part` is the callback that always answers no; `hash_rec` is never
null, since insert and delete call it unconditionally. -/
structure KeyOps (n : Nat) (W PK : Type) where
  hashRec : Image n W → Nat
  hashKey : PK → Nat
  cmpRecRec : Image n W → Image n W → Int
  cmpRecKey : Image n W → PK → Int
  hasNullPart : Image n W → Bool

/-- The part of `FM_KEY_CORE` that does not change. -/
structure KeyCore (n : Nat) (W PK : Type) where
  ops : KeyOps n W PK
  unique : Bool
  nbuckets : Nat
  nbuckets_pos : 0 < nbuckets
  nbuckets_lt : nbuckets < 2 ^ 32

/-- The part of `FM_SHARE_CORE` that does not change.  `alloc m` is the outcome
of the `m`-th call of the share's allocator, and `spurious m` says whether the
`m`-th weak compare-exchange fails for no reason. -/
structure ShareCfg (n : Nat) (W PK : Type) where
  keys : Nat
  keydef : Nat → KeyCore n W PK
  maxRecords : Nat
  maxRecords_pos : 0 < maxRecords
  maxRecords_lt : maxRecords < 2 ^ 32
  alloc : Nat → Bool
  spurious : Nat → Bool

/-- The part of `FM_SHARE_CORE`, its chunks and its keys that the operations
change. -/
structure Share (n : Nat) (W : Type) where
  state : Int → SlotState
  seq : Int → Nat
  gen : Int → Nat
  freeNext : Int → Int
  data : Int → Image n W
  next : Nat → Int → Int
  head : Nat → Nat → Int
  freeHead : Int
  chunkCnt : Nat
  records : Int
  autoInc : Nat
  mutex : Option Nat
  bucketLock : Nat → Nat → Option Nat
  wlock : Int → Option Nat
  allocs : Nat
  cas : Nat

/-- The spinlocks of a share. -/
inductive Lock
  | mutex
  | bucket (k b : Nat)
  | row (i : Int)
  deriving DecidableEq, Repr

variable {n : Nat} {W PK : Type}

/-- `fm_bucket`. -/
def KeyCore.bucket (kc : KeyCore n W PK) (hash : Nat) : Nat := hash &&& (kc.nbuckets - 1)

/-- `fm_core_key_bucket`: the bucket of a record under key `k`. -/
def ShareCfg.keyBucket (cfg : ShareCfg n W PK) (k : Nat) (rec : Image n W) : Nat :=
  (cfg.keydef k).bucket ((cfg.keydef k).ops.hashRec rec)

/-- `chunk_cap`: the row limit rounded up to chunks, in 32-bit arithmetic. -/
def ShareCfg.chunkCap (cfg : ShareCfg n W PK) : Nat :=
  (cfg.maxRecords + chunkSize - 1) % 2 ^ 32 / chunkSize

/-- `chunk_cnt << FM_CHUNK_SHIFT`, in 32-bit arithmetic. -/
def slotCount (chunkCnt : Nat) : Nat := chunkCnt * chunkSize % 2 ^ 32

/-- Every hash has a bucket. -/
theorem KeyCore.bucket_lt (kc : KeyCore n W PK) (hash : Nat) : kc.bucket hash < kc.nbuckets := by
  have hle : kc.bucket hash ≤ kc.nbuckets - 1 := Nat.and_le_right
  have := kc.nbuckets_pos
  omega

/-- Every image has a bucket. -/
theorem ShareCfg.keyBucket_lt (cfg : ShareCfg n W PK) (k : Nat) (rec : Image n W) :
    cfg.keyBucket k rec < (cfg.keydef k).nbuckets :=
  KeyCore.bucket_lt _ _

/-- The casts between `uint32_t` and `int32_t` are inverse to each other. -/
theorem u32_i32 {u : Nat} (h : u < 2 ^ 32) : u32 (i32 u) = u := by
  unfold u32 i32; split <;> omega

/-- Different indexes are different slots. -/
theorem i32_inj {u v : Nat} (hu : u < 2 ^ 32) (hv : v < 2 ^ 32) (h : i32 u = i32 v) : u = v := by
  rw [← u32_i32 hu, ← u32_i32 hv, h]

/-- Below 2^31 the cast to `int32_t` changes nothing. -/
theorem i32_of_lt {u : Nat} (h : u < 2 ^ 31) : i32 u = u := by
  unfold i32; split <;> omega

/-- No index but the last is cast to -1. -/
theorem i32_ne_null {u : Nat} (h : u + 1 < 2 ^ 32) : i32 u ≠ nullSlot := by
  unfold i32 nullSlot; split <;> omega

/-- The owner of a lock. -/
def Share.owner (s : Share n W) : Lock → Option Nat
  | .mutex => s.mutex
  | .bucket k b => s.bucketLock k b
  | .row i => s.wlock i

/-- Store a new owner into a lock. -/
def Share.setOwner (s : Share n W) (o : Option Nat) : Lock → Share n W
  | .mutex => { s with mutex := o }
  | .bucket k b =>
      { s with bucketLock := Function.update s.bucketLock k (Function.update (s.bucketLock k) b o) }
  | .row i => { s with wlock := Function.update s.wlock i o }

/-- A lock operation changes the owner of its lock only. -/
@[simp] theorem owner_setOwner (s : Share n W) (o : Option Nat) (l l' : Lock) :
    (s.setOwner o l).owner l' = if l' = l then o else s.owner l' := by
  cases l with
  | mutex => cases l' <;> simp [Share.setOwner, Share.owner]
  | bucket k b =>
      cases l' with
      | bucket k' b' =>
          by_cases hk : k' = k
          · subst hk
            by_cases hb : b' = b
            · subst hb; simp [Share.setOwner, Share.owner]
            · simp [Share.setOwner, Share.owner, hb]
          · simp [Share.setOwner, Share.owner, hk]
      | _ => simp [Share.setOwner, Share.owner]
  | row i =>
      cases l' with
      | row i' =>
          by_cases hi : i' = i
          · subst hi; simp [Share.setOwner, Share.owner]
          · simp [Share.setOwner, Share.owner, hi]
      | _ => simp [Share.setOwner, Share.owner]

/-- A share just initialised by `fm_core_init_share`, whose allocations have
succeeded: no chunk, empty chains, every lock free.  The images are whatever
memory the chunks will get. -/
def Share.fresh (data : Int → Image n W) : Share n W where
  state := fun _ => .free
  seq := fun _ => 0
  gen := fun _ => 0
  freeNext := fun _ => nullSlot
  data := data
  next := fun _ _ => nullSlot
  head := fun _ _ => nullSlot
  freeHead := nullSlot
  chunkCnt := 0
  records := 0
  autoInc := 0
  mutex := none
  bucketLock := fun _ _ => none
  wlock := fun _ => none
  allocs := 0
  cas := 0

/-- The accesses to shared memory. -/
inductive Act (n : Nat) (W : Type)
  | lock (l : Lock)
  | unlock (l : Lock)
  | loadState (i : Int)
  | storeState (i : Int) (v : SlotState)
  | loadGen (i : Int)
  | addGen (i : Int)
  | loadSeq (i : Int)
  | addSeq (i : Int)
  | loadWord (i : Int) (j : Fin n)
  | storeWord (i : Int) (j : Fin n) (x : W)
  | loadHead (k b : Nat)
  | storeHead (k b : Nat) (i : Int)
  | loadNext (k : Nat) (i : Int)
  | storeNext (k : Nat) (i j : Int)
  | loadFreeHead
  | storeFreeHead (i : Int)
  | loadFreeNext (i : Int)
  | storeFreeNext (i j : Int)
  | loadChunkCnt
  | storeChunkCnt (m : Nat)
  | alloc
  | initSlots (c : Nat)
  | initNext (k c : Nat)
  | addRecords (d : Int)
  | storeRecords (d : Int)
  | loadAutoInc
  | casAutoInc (cur new : Nat)

/-- The type of the answer of each access. -/
@[reducible] def Act.Res : Act n W → Type
  | .loadState _ => SlotState
  | .loadGen _ | .loadSeq _ | .loadChunkCnt | .loadAutoInc => Nat
  | .loadWord _ _ => W
  | .loadHead _ _ | .loadNext _ _ | .loadFreeHead | .loadFreeNext _ => Int
  | .alloc => Bool
  | .casAutoInc _ _ => Bool × Nat
  | _ => Unit

/-- What each access does.  Only `lock` can fail to be enabled: the thread spins
while another holds the lock (or it holds the lock itself).

`initSlots c` runs the constructor of `FM_SLOT` over the slots of chunk `c` and
`initNext k c` fills its chain cells of key `k`; both touch memory no other
thread can reach before `storeChunkCnt` publishes the chunk, so each is one
step.  (The constructor also clears the slot's wlock, which nobody can hold
before the slot exists.) -/
def exec (cfg : ShareCfg n W PK) (t : Nat) : (a : Act n W) → Share n W → Option (a.Res × Share n W)
  | .lock l, s => if s.owner l = none then some ((), s.setOwner (some t) l) else none
  | .unlock l, s => some ((), s.setOwner none l)
  | .loadState i, s => some (s.state i, s)
  | .storeState i v, s => some ((), { s with state := Function.update s.state i v })
  | .loadGen i, s => some (s.gen i, s)
  | .addGen i, s => some ((), { s with gen := Function.update s.gen i ((s.gen i + 1) % 2 ^ 32) })
  | .loadSeq i, s => some (s.seq i, s)
  | .addSeq i, s => some ((), { s with seq := Function.update s.seq i ((s.seq i + 1) % 2 ^ 32) })
  | .loadWord i j, s => some (s.data i j, s)
  | .storeWord i j x, s =>
      some ((), { s with data := Function.update s.data i (Function.update (s.data i) j x) })
  | .loadHead k b, s => some (s.head k b, s)
  | .storeHead k b i, s =>
      some ((), { s with head := Function.update s.head k (Function.update (s.head k) b i) })
  | .loadNext k i, s => some (s.next k i, s)
  | .storeNext k i j, s =>
      some ((), { s with next := Function.update s.next k (Function.update (s.next k) i j) })
  | .loadFreeHead, s => some (s.freeHead, s)
  | .storeFreeHead i, s => some ((), { s with freeHead := i })
  | .loadFreeNext i, s => some (s.freeNext i, s)
  | .storeFreeNext i j, s =>
      some ((), { s with freeNext := Function.update s.freeNext i j })
  | .loadChunkCnt, s => some (s.chunkCnt, s)
  | .storeChunkCnt m, s => some ((), { s with chunkCnt := m })
  | .alloc, s => some (cfg.alloc s.allocs, { s with allocs := s.allocs + 1 })
  | .initSlots c, s =>
      some ((), { s with
        state := fun i => if u32 i / chunkSize = c then .free else s.state i
        seq := fun i => if u32 i / chunkSize = c then 0 else s.seq i
        gen := fun i => if u32 i / chunkSize = c then 0 else s.gen i
        freeNext := fun i => if u32 i / chunkSize = c then nullSlot else s.freeNext i })
  | .initNext k c, s =>
      some ((), { s with
        next := Function.update s.next k fun i =>
          if u32 i / chunkSize = c then nullSlot else s.next k i })
  | .addRecords d, s => some ((), { s with records := s.records + d })
  | .storeRecords d, s => some ((), { s with records := d })
  | .loadAutoInc, s => some (s.autoInc, s)
  | .casAutoInc cur new, s =>
      if s.autoInc = cur ∧ cfg.spurious s.cas = false then
        some ((true, s.autoInc), { s with autoInc := new, cas := s.cas + 1 })
      else some ((false, s.autoInc), { s with cas := s.cas + 1 })

/-- An access that neither takes nor releases a lock. -/
def Act.quiet : Act n W → Bool
  | .lock _ | .unlock _ => false
  | _ => true

/-- An action that is no lock operation leaves the locks alone. -/
theorem exec_owner {cfg : ShareCfg n W PK} {t : Nat} {a : Act n W} (ha : a.quiet = true)
    {s s' : Share n W} {r : a.Res} (h : exec cfg t a s = some (r, s')) : s'.owner = s.owner := by
  cases a <;> simp only [Act.quiet, Bool.false_eq_true] at ha <;> simp only [exec] at h
  case casAutoInc cur new =>
    split at h <;> cases h <;> funext l <;> cases l <;> rfl
  all_goals
    cases h
    funext l
    cases l <;> rfl

end FastMem
