import FastMem.Consistency
import FastMem.Protocol

/-!
# The roles of the core's threads

What a thread that runs functions of the core is in the middle of, and what it may
do next, in terms of its own knowledge only.  A thread's role is about one slot: the
row whose wlock it holds, the slot it is filling, deleting or moving between chains.
Next to it stand the locks it holds, what it has seen of the free list and of the
chunk count under the struct mutex, where it stands in a chain under a bucket lock,
and where it stands in a duplicate check or in a seqlock read.

The steps are grouped by the part of the share they write.  A step says nothing
about other threads, and nothing about the share beyond the word it reads: what
follows from everybody keeping to these steps is proved in the modules after this
one.
-/

namespace FastMem

open Conc

/-- What a thread is doing with the slot its role is about. -/
inductive Phase
  | idle
  | row
  | write
  | move
  | fill
  | published
  | del
  | dead
  | aged
  | loose
  | flip
  | rebuild
  deriving DecidableEq, Repr

/-- The phases in which the thread holds the slot's wlock and has seen it ACTIVE. -/
@[grind =] def Phase.rowed (p : Phase) : Bool :=
  p = .row || p = .write || p = .move

/-- The phases in which the slot belongs to the thread alone. -/
@[grind =] def Phase.owning (p : Phase) : Bool :=
  p = .fill || p = .del || p = .dead || p = .aged || p = .loose

/-- The phases in which the chains the slot is in are not those of its image. -/
@[grind =] def Phase.mapping (p : Phase) : Bool :=
  p = .fill || p = .del || p = .write || p = .move

/-- The phases inside the struct mutex. -/
@[grind =] def Phase.mutexed (p : Phase) : Bool :=
  p = .fill || p = .published || p = .flip || p = .rebuild

/-- What a thread has seen of the free list: its head, or its head and the cell
after it, or that it has pointed a slot of its own at the head. -/
inductive FreeView
  | none
  | head (h : Int)
  | next (i nx : Int)
  | cell (i : Int)

/-- Where a thread stands in a chain: at the cell after slot `p`; at a cell that
holds the slot it looks for; the same, with the slot's successor read; or on the
way to putting its slot in front. -/
inductive Walk
  | none
  | at (k b : Nat) (p : Int)
  | hit (k b : Nat) (link : Link)
  | found (k b : Nat) (link : Link) (nx : Int)
  | front (k b : Nat) (h : Int)
  | cell (k b : Nat)

/-- The bucket a walk is in. -/
@[grind =] def Walk.bucket : Walk → Option (Nat × Nat)
  | .none => Option.none
  | .at k b _ | .hit k b _ | .found k b _ _ | .front k b _ | .cell k b => some (k, b)

variable {n : Nat} {W PK : Type}

/-- Where a thread stands in a duplicate check of `rec` under key `k`: at slot `h`,
with the words it has read there, or having seen the slot not ACTIVE. -/
inductive DupView (n : Nat) (W : Type)
  | none
  | at (k : Nat) (rec : Image n W) (h : Int) (words : Fin n → Option W) (gone : Bool)

/-- Where a thread stands in a read of slot `i`: it has seen the slot ACTIVE, at
time `m` and with generation `g`, and may have loaded the generation; it has
sampled the sequence number `s₁` at time `m₁` and copied some words; or it is done,
and may have loaded the generation after that. -/
inductive ReadView (n : Nat) (W : Type)
  | none
  | stated (i : Int) (m g : Nat) (checked : Option Nat)
  | sampled (i : Int) (m g : Nat) (checked : Option Nat) (s₁ m₁ : Nat) (words : Fin n → Option W)
  | got (i : Int) (m g : Nat) (checked : Option Nat) (buf : Image n W)

/-- The slot a read is in the middle of. -/
def ReadView.slot : ReadView n W → Option Int
  | .stated i .. | .sampled i .. => some i
  | _ => Option.none

/-- The role of a thread. -/
structure Role (n : Nat) (W : Type) where
  locks : List Lock
  phase : Phase
  slot : Int
  gen : Option Nat
  words : Fin n → Option W
  target : Option (Image n W)
  map : Nat → Option Nat
  free : FreeView
  chunk : Option Nat
  extra : List Int
  flipped : List Int
  walk : Walk
  dup : DupView n W
  checked : List (Nat × Image n W)
  read : ReadView n W
  since : Nat
  marked : Option (Int × Nat)
  seen : Option Int
  pinned : Option (Int × Nat)

/-- The role of a thread that has done nothing yet. -/
def Role.init : Role n W where
  locks := []
  phase := .idle
  slot := nullSlot
  gen := none
  words := fun _ => none
  target := none
  map := fun _ => none
  free := .none
  chunk := none
  extra := []
  flipped := []
  walk := .none
  dup := .none
  checked := []
  read := .none
  since := 0
  marked := none
  seen := none
  pinned := none

/-- The slots that belong to a thread alone. -/
def Role.Owns (g : Role n W) (i : Int) : Prop :=
  g.phase.owning = true ∧ g.slot = i ∨ i ∈ g.extra

/-- The thread alone knows which chains the slot is in. -/
def Role.Maps (g : Role n W) (i : Int) : Prop := g.phase.mapping = true ∧ g.slot = i

/-- Every word of an image. -/
def allWords (img : Image n W) : Fin n → Option W := fun j => some (img j)

/-- The buckets of an image under the keys of the table. -/
def ShareCfg.buckets (cfg : ShareCfg n W PK) (img : Image n W) : Nat → Option Nat :=
  fun k => if k < cfg.keys then some (cfg.keyBucket k img) else none

/-- What a setting is about: the classes of calls that change rows, and whether the
chains of the index are kept track of. -/
inductive Kind
  | insert | update | delete | clear | index

/-- The steps about which a setting may want to know more: an image is about to be
rewritten, a row is marked DELETING, a slot is flipped by a clear, an image is complete
in an ACTIVE slot, a read has seen its slot ACTIVE, its two samples of the sequence
number have agreed, it loads the generation of its slot, a call that began at some time
has seen a slot ACTIVE whose wlock it holds. -/
inductive Commit (n : Nat) (W : Type)
  | write (i : Int) (old new : Image n W)
  | mark (i : Int)
  | flip (i : Int)
  | publish (i : Int) (img : Image n W)
  | read (i : Int)
  | agree (i : Int)
  | check (i : Int)
  | pin (i : Int) (since : Nat)

/-- Accesses that no other thread can tell from their absence. -/
@[grind =] def Act.passive : Act n W → Bool
  | .loadState _ | .loadGen _ | .loadSeq _ | .loadWord _ _ | .loadHead _ _ | .loadNext _ _
  | .loadFreeHead | .loadFreeNext _ | .loadChunkCnt | .loadAutoInc | .alloc | .casAutoInc _ _ =>
      true
  | _ => false

/-- Accesses with which a round of a seqlock read begins or goes on. -/
@[grind =] def Act.samples : Act n W → Bool
  | .loadState _ | .loadSeq _ => true
  | _ => false

inductive LockStep (g : Role n W) : (a : Act n W) → a.Res → Role n W → Prop
  | lock (l : Lock) : LockStep g (.lock l) () { g with locks := l :: g.locks }
  | lockAnew (l : Lock) (phase : g.phase = .row) :
      LockStep g (.lock l) () { g with locks := l :: g.locks, phase := .idle }
  | unlockMutex (held : Lock.mutex ∈ g.locks) (extra : g.extra = [])
    (out : g.phase.mutexed = false) :
      LockStep g (.unlock .mutex) ()
        { g with locks := g.locks.erase .mutex, free := .none, chunk := none }
  | unlockBucket {k b : Nat} (held : Lock.bucket k b ∈ g.locks) (walk : g.walk = .none) :
      LockStep g (.unlock (.bucket k b)) ()
        { g with locks := g.locks.erase (.bucket k b), dup := .none, checked := [] }
  | unlockRow {i : Int} (held : Lock.row i ∈ g.locks) (quiet : g.phase ≠ .write ∧ g.phase ≠ .move) :
      LockStep g (.unlock (.row i)) ()
        { g with
          locks := g.locks.erase (.row i)
          phase := if g.phase = .row then .idle else g.phase }

inductive ViewStep (g : Role n W) : (a : Act n W) → a.Res → Role n W → Prop
  | look {a : Act n W} {r : a.Res} (passive : a.passive = true)
      (unread : a.samples = false ∨ g.read = .none) : ViewStep g a r g
  | active {i : Int} (held : Lock.row i ∈ g.locks) (phase : g.phase = .idle ∨ g.phase = .row)
      (unread : g.read = .none) :
      ViewStep g (.loadState i) .active
        { g with phase := .row, slot := i, gen := none, words := fun _ => none }
  | gen {r : Nat} (phase : g.phase = .row) :
      ViewStep g (.loadGen g.slot) r { g with gen := some r }
  | word {j : Fin n} {x : W} (phase : g.phase = .row) :
      ViewStep g (.loadWord g.slot j) x { g with words := Function.update g.words j (some x) }
  | freeHead {r : Int} (held : Lock.mutex ∈ g.locks) :
      ViewStep g .loadFreeHead r { g with free := .head r }
  | freeNext {i r : Int} (held : Lock.mutex ∈ g.locks) (free : g.free = .head i) :
      ViewStep g (.loadFreeNext i) r { g with free := .next i r }
  | chunkCnt {r : Nat} (held : Lock.mutex ∈ g.locks) (phase : g.phase = .idle) :
      ViewStep g .loadChunkCnt r { g with chunk := some r }

inductive FreeStep (K : Kind → Prop) (g : Role n W) : (a : Act n W) → a.Res → Role n W → Prop
  | pop {i nx : Int} (kind : K .insert) (held : Lock.mutex ∈ g.locks) (free : g.free = .next i nx)
      (some_slot : i ≠ nullSlot) (phase : g.phase = .idle) (extra : g.extra = []) :
      FreeStep K g (.storeFreeHead nx) ()
        { g with
          phase := .fill, slot := i, words := fun _ => none, map := fun _ => none, free := .none }
  | cell {i h : Int} (held : Lock.mutex ∈ g.locks) (free : g.free = .head h)
      (mine : g.slot = i ∧ (g.phase = .fill ∨ g.phase = .loose) ∨ i ∈ g.extra) :
      FreeStep K g (.storeFreeNext i h) () { g with free := .cell i }
  | push (held : Lock.mutex ∈ g.locks) (free : g.free = .cell g.slot) (walk : g.walk = .none)
      (phase : g.phase = .fill ∧ (∀ k, g.map k = none) ∧ g.extra = [] ∨ g.phase = .loose) :
      FreeStep K g (.storeFreeHead g.slot) () { g with phase := .idle, free := .none }
  | pushExtra {i : Int} (held : Lock.mutex ∈ g.locks) (free : g.free = .cell i)
    (mem : i ∈ g.extra) :
      FreeStep K g (.storeFreeHead i) () { g with extra := g.extra.erase i, free := .none }
  | reset {c : Nat} (kind : K .clear) (held : Lock.mutex ∈ g.locks) (phase : g.phase = .flip)
      (extra : g.extra = []) (chunk : g.chunk = some c)
      (all : ∀ u, u < slotCount c → i32 u ∈ g.flipped) :
      FreeStep K g (.storeFreeHead nullSlot) ()
        { g with phase := .rebuild, extra := g.flipped, flipped := [], free := .none }

inductive GrowStep (cfg : ShareCfg n W PK) (K : Kind → Prop) (g : Role n W) :
    (a : Act n W) → a.Res → Role n W → Prop
  | initSlots {c : Nat} (kind : K .insert) (held : Lock.mutex ∈ g.locks) (chunk : g.chunk = some c)
      (free : g.free = .head nullSlot) :
      GrowStep cfg K g (.initSlots c) () g
  | initNext {k c : Nat} (kind : K .insert) (held : Lock.mutex ∈ g.locks)
    (chunk : g.chunk = some c) :
      GrowStep cfg K g (.initNext k c) () g
  | publish {c : Nat} (kind : K .insert) (held : Lock.mutex ∈ g.locks) (chunk : g.chunk = some c)
      (free : g.free = .head nullSlot) (phase : g.phase = .idle) (extra : g.extra = [])
      (cap : c < cfg.chunkCap) (limit : slotCount c < cfg.maxRecords) :
      GrowStep cfg K g (.storeChunkCnt (c + 1)) ()
        { g with
          phase := .fill
          slot := i32 (slotCount c)
          extra := slotsFrom (slotCount c + 1) (chunkEnd cfg (slotCount c) - (slotCount c + 1))
          words := fun _ => none
          map := fun _ => none
          free := .none
          chunk := none }

inductive SlotStep (cfg : ShareCfg n W PK) (K : Kind → Prop) (C : Commit n W → Prop)
    (s : Share n W) (g : Role n W) : (a : Act n W) → a.Res → Role n W → Prop
  | publish {img : Image n W} (phase : g.phase = .fill) (extra : g.extra = [])
    (free : g.free = .none)
      (walk : g.walk = .none) (words : g.words = allWords img) (map : g.map = cfg.buckets img)
      (commit : C (.publish g.slot img)) :
      SlotStep cfg K C s g (.storeState g.slot .active) () { g with phase := .published }
  | count (phase : g.phase = .published) :
      SlotStep cfg K C s g (.addRecords 1) () { g with phase := .idle }
  | mark (kind : K .delete) (phase : g.phase = .row) (commit : C (.mark g.slot)) :
      SlotStep cfg K C s g (.storeState g.slot .deleting) ()
        { g with
          phase := .del
          words := allWords (s.data g.slot)
          map := cfg.buckets (s.data g.slot)
          marked := some (g.slot, s.gen g.slot) }
  | bury (phase : g.phase = .del) (walk : g.walk = .none) (map : ∀ k, g.map k = none) :
      SlotStep cfg K C s g (.storeState g.slot .deleted) () { g with phase := .dead }
  | age (phase : g.phase = .dead) :
      SlotStep cfg K C s g (.addGen g.slot) () { g with phase := .aged }
  | uncount (phase : g.phase = .aged) :
      SlotStep cfg K C s g (.addRecords (-1)) () { g with phase := .loose }
  | begin {r : Nat} (kind : K .clear) (held : Lock.mutex ∈ g.locks) (phase : g.phase = .idle)
      (extra : g.extra = []) :
      SlotStep cfg K C s g .loadChunkCnt r { g with phase := .flip, chunk := some r, flipped := [] }
  | flip {i : Int} (kind : K .clear) (phase : g.phase = .flip) (held : Lock.row i ∈ g.locks)
      (commit : C (.flip i)) (new : i ∉ g.flipped) (grown : s.Grown i) :
      SlotStep cfg K C s g (.storeState i .free) () { g with flipped := i :: g.flipped }
  | flipGen {i : Int} (phase : g.phase = .flip) (held : Lock.row i ∈ g.locks)
    (done : i ∈ g.flipped) :
      SlotStep cfg K C s g (.addGen i) () g
  | zero (phase : g.phase = .rebuild) (extra : g.extra = []) :
      SlotStep cfg K C s g (.storeRecords 0) () { g with phase := .idle }

inductive ImageStep (cfg : ShareCfg n W PK) (K : Kind → Prop) (C : Commit n W → Prop)
    (g : Role n W) : (a : Act n W) → a.Res → Role n W → Prop
  | fill {j : Fin n} {x : W} (phase : g.phase = .fill) (map : ∀ k, g.map k = none) :
      ImageStep cfg K C g (.storeWord g.slot j x) ()
        { g with words := Function.update g.words j (some x) }
  | begin {old new : Image n W} (kind : K .update) (phase : g.phase = .row)
      (commit : C (.write g.slot old new))
      (checked : K .index → ∀ k, k < cfg.keys → (cfg.keydef k).ops.cmpRecRec old new ≠ 0 →
        (cfg.keydef k).unique = true → (cfg.keydef k).ops.hasNullPart new = false →
        (k, new) ∈ g.checked)
      (locked : K .index → ∀ k, k < cfg.keys → (cfg.keydef k).ops.cmpRecRec old new ≠ 0 →
        Lock.bucket k (cfg.keyBucket k old) ∈ g.locks ∧
          Lock.bucket k (cfg.keyBucket k new) ∈ g.locks) :
      ImageStep cfg K C g (.addSeq g.slot) ()
        { g with
          phase := .write, words := fun _ => none, target := some new, map := cfg.buckets old }
  | word {j : Fin n} {new : Image n W} (phase : g.phase = .write) (target : g.target = some new) :
      ImageStep cfg K C g (.storeWord g.slot j (new j)) ()
        { g with words := Function.update g.words j (some (new j)) }
  | finish {new : Image n W} {p : Phase} (phase : g.phase = .write) (target : g.target = some new)
      (words : g.words = allWords new) (commit : C (.publish g.slot new))
      (after : p = .move ∨ p = .row ∧ (K .index → g.map = cfg.buckets new)) :
      ImageStep cfg K C g (.addSeq g.slot) () { g with phase := p }

/-- Where a walk for the role's slot goes on, once it has read `r` from a cell. -/
@[grind =] def Role.walkTo (g : Role n W) (k b : Nat) (link : Link) (r : Int) : Role n W :=
  if r = nullSlot then { g with walk := .none, map := Function.update g.map k none }
  else if r = g.slot then { g with walk := .hit k b link }
  else { g with walk := .at k b r }

inductive ChainStep (cfg : ShareCfg n W PK) (K : Kind → Prop) (g : Role n W) :
    (a : Act n W) → a.Res → Role n W → Prop
  | enter {k b : Nat} {r : Int} (held : Lock.bucket k b ∈ g.locks) (walk : g.walk = .none)
      (phase : g.phase = .fill ∨ g.phase = .del ∨ g.phase = .move) (map : g.map k = some b) :
      ChainStep cfg K g (.loadHead k b) r (g.walkTo k b (.head b) r)
  | next {k b : Nat} {p r : Int} (walk : g.walk = .at k b p) :
      ChainStep cfg K g (.loadNext k p) r (g.walkTo k b (.next p) r)
  | after {k b : Nat} {link : Link} {r : Int} (walk : g.walk = .hit k b link) :
      ChainStep cfg K g (.loadNext k g.slot) r { g with walk := .found k b link r }
  | cutHead {k b : Nat} {nx : Int} (walk : g.walk = .found k b (.head b) nx) :
      ChainStep cfg K g (.storeHead k b nx) ()
        { g with walk := .none, map := Function.update g.map k none }
  | cutNext {k b : Nat} {p nx : Int} (walk : g.walk = .found k b (.next p) nx) :
      ChainStep cfg K g (.storeNext k p nx) ()
        { g with walk := .none, map := Function.update g.map k none }
  | front {k b : Nat} {h : Int} (held : Lock.bucket k b ∈ g.locks) (walk : g.walk = .none)
      (phase : g.phase = .fill ∨ g.phase = .move) (key : k < cfg.keys) (map : g.map k = none) :
      ChainStep cfg K g (.loadHead k b) h { g with walk := .front k b h }
  | point {k b : Nat} {h : Int} (walk : g.walk = .front k b h) :
      ChainStep cfg K g (.storeNext k g.slot h) () { g with walk := .cell k b }
  | join {k b : Nat} {p : Phase} (walk : g.walk = .cell k b)
      (after : p = g.phase ∨ g.phase = .move ∧ p = .row ∧
        ∃ new, g.target = some new ∧ Function.update g.map k (some b) = cfg.buckets new)
      (fresh : g.phase = .fill → ∃ img, g.words = allWords img ∧ b = cfg.keyBucket k img ∧
        ((cfg.keydef k).unique = true → (cfg.keydef k).ops.hasNullPart img = false →
          (k, img) ∈ g.checked)) :
      ChainStep cfg K g (.storeHead k b g.slot) ()
        { g with walk := .none, map := Function.update g.map k (some b), phase := p }
  | reset {k b : Nat} (kind : K .clear) (mutex : Lock.mutex ∈ g.locks)
      (held : Lock.bucket k b ∈ g.locks) (phase : g.phase = .idle) :
      ChainStep cfg K g (.storeHead k b nullSlot) () g
  | looseHead {k b : Nat} {i : Int} (kind : ¬ K .index) : ChainStep cfg K g (.storeHead k b i) () g
  | looseNext {k : Nat} {i j : Int} (kind : ¬ K .index) : ChainStep cfg K g (.storeNext k i j) () g

/-- Where a duplicate check goes on, once it has read `r` from a cell. -/
@[grind =] def Role.checkTo (g : Role n W) (k : Nat) (rec : Image n W) (r : Int) : Role n W :=
  if r = nullSlot then { g with dup := .none, checked := (k, rec) :: g.checked }
  else { g with dup := .at k rec r (fun _ => none) false }

inductive DupStep (cfg : ShareCfg n W PK) (g : Role n W) : (a : Act n W) → a.Res → Role n W → Prop
  | enter {k : Nat} {rec : Image n W} {r : Int}
      (held : Lock.bucket k (cfg.keyBucket k rec) ∈ g.locks) :
      DupStep cfg g (.loadHead k (cfg.keyBucket k rec)) r (g.checkTo k rec r)
  | state {k : Nat} {rec : Image n W} {h : Int} {words : Fin n → Option W}
    {gone : Bool} {st : SlotState}
      (dup : g.dup = .at k rec h words gone) (unread : g.read = .none) :
      DupStep cfg g (.loadState h) st { g with dup := .at k rec h (fun _ => none) (st ≠ .active) }
  | word {k : Nat} {rec : Image n W} {h : Int} {words : Fin n → Option W} {gone : Bool}
    {j : Fin n} {x : W}
      (dup : g.dup = .at k rec h words gone) :
      DupStep cfg g (.loadWord h j) x
        { g with dup := .at k rec h (Function.update words j (some x)) gone }
  | next {k : Nat} {rec : Image n W} {h r : Int} {words : Fin n → Option W} {gone : Bool}
      (dup : g.dup = .at k rec h words gone)
      (passed : gone = true ∨
        ∃ img, words = allWords img ∧ (cfg.keydef k).ops.cmpRecRec img rec ≠ 0) :
      DupStep cfg g (.loadNext k h) r (g.checkTo k rec r)

inductive ReadStep (C : Commit n W → Prop) (now : Nat) (s : Share n W) (g : Role n W) :
    (a : Act n W) → a.Res → Role n W → Prop
  | state {i : Int} (commit : C (.read i)) :
      ReadStep C now s g (.loadState i) .active { g with read := .stated i now (s.gen i) none }
  | gen {i : Int} {m g₀ r : Nat} (read : g.read = .stated i m g₀ none) (commit : C (.check i)) :
      ReadStep C now s g (.loadGen i) r { g with read := .stated i m g₀ (some r) }
  | seq {i : Int} {m g₀ s₁ : Nat} {checked : Option Nat} (read : g.read = .stated i m g₀ checked)
      (even : s₁ % 2 ≠ 1) :
      ReadStep C now s g (.loadSeq i) s₁
        { g with read := .sampled i m g₀ checked s₁ now fun _ => none }
  | word {i : Int} {m g₀ s₁ m₁ : Nat} {checked : Option Nat} {words : Fin n → Option W}
    {j : Fin n} {x : W}
      (read : g.read = .sampled i m g₀ checked s₁ m₁ words) :
      ReadStep C now s g (.loadWord i j) x
        { g with read := .sampled i m g₀ checked s₁ m₁ (Function.update words j (some x)) }
  | miss {a : Act n W} {r : a.Res} (passive : a.passive = true) : ReadStep C now s g a r
    { g with read := .none }
  | done {i : Int} {m g₀ s₁ m₁ : Nat} {checked : Option Nat} {buf : Image n W}
      (read : g.read = .sampled i m g₀ checked s₁ m₁ (allWords buf)) (commit : C (.agree i)) :
      ReadStep C now s g (.loadSeq i) s₁ { g with read := .got i m g₀ checked buf }
  | after {i : Int} {m g₀ r : Nat} {checked : Option Nat} {buf : Image n W}
    (read : g.read = .got i m g₀ checked buf)
      (commit : C (.check i)) :
      ReadStep C now s g (.loadGen i) r { g with read := .got i m g₀ (some r) buf }

/-- A thread may note that it has seen a slot ACTIVE, and if it holds the wlock of the slot, it
may note all there is to know of the row. -/
inductive NoteStep (C : Commit n W → Prop) (s : Share n W) (g : Role n W) :
    (a : Act n W) → a.Res → Role n W → Prop
  | see {i : Int} (unread : g.read = .none) : NoteStep C s g (.loadState i) .active
    { g with seen := some i }
  | pin {i : Int} (held : Lock.row i ∈ g.locks) (phase : g.phase = .idle ∨ g.phase = .row)
      (unread : g.read = .none) (commit : C (.pin i g.since)) :
      NoteStep C s g (.loadState i) .active
        { g with
          phase := .row, slot := i, gen := some (s.gen i), words := allWords (s.data i)
          pinned := some (i, s.gen i) }

/-- The steps a role allows. -/
inductive Step (cfg : ShareCfg n W PK) (K : Kind → Prop) (C : Commit n W → Prop) (now : Nat)
    (s : Share n W) (g : Role n W) (a : Act n W) (r : a.Res) (g' : Role n W) : Prop
  | lock (h : LockStep g a r g')
  | view (h : ViewStep g a r g')
  | free (h : FreeStep K g a r g')
  | grow (h : GrowStep cfg K g a r g')
  | slot (h : SlotStep cfg K C s g a r g')
  | image (h : ImageStep cfg K C g a r g')
  | chain (h : ChainStep cfg K g a r g')
  | dup (h : DupStep cfg g a r g')
  | read (h : ReadStep C now s g a r g')
  | note (h : NoteStep C s g a r g')

variable {Op Out : Type}

/-- A table, the calls that are made on it, and what is known when rows are made
and unmade. -/
structure Setting (n : Nat) (W PK Op Out : Type) where
  cfg : ShareCfg n W PK
  kinds : Kind → Prop
  commits : Call Op → World (coreSig n W PK) (Share n W) Op Out → Commit n W → Prop
  returns : Call Op → Out → Role n W → Prop
  meets : Call Op → Act n W → World (coreSig n W PK) (Share n W) Op Out → Prop
  share : Share n W

/-- The protocol of the core. -/
def Setting.rules (T : Setting n W PK Op Out) :
    Rules (coreSig n W PK) (Share n W) Op Out (Role n W) where
  step := fun c w g a r g' => Step T.cfg T.kinds (T.commits c w) w.now w.mem g a r g'
  start := fun now g =>
    { g with since := now, read := .none, marked := none, seen := none, pinned := none }
  stop := T.returns

/-- The traces of a setting, from threads that have done nothing yet. -/
abbrev Setting.Trace (T : Setting n W PK Op Out) :
    World (coreSig n W PK) (Share n W) Op Out → (Nat → Role n W) → Prop :=
  Conc.Trace (machine T.cfg) T.rules T.meets T.share fun _ => Role.init

end FastMem
