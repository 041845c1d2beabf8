import FastMem.Core
import FastMem.Threads

/-!
# Threads that call the core

A thread calls the functions of the core, with any arguments, one after the
other.  Between calls it keeps a session: the row whose wlock it has taken, if
any, and what it has re-read under that lock.  The functions whose name ends in
`_locked` are called inside a session that holds the row's wlock, as the handler
does; the functions that take their own locks are called without one.

Which calls a thread may make is a parameter of the system, so that each result
says for itself which mix of calls it is about.
-/

namespace FastMem

open Conc

variable {n : Nat} {W PK : Type}

/-- The calls a thread may make. -/
inductive CoreOp (n : Nat) (W PK : Type)
  | insertRow (rec scratch : Image n W)
  | updateRow (idx : Int) (expectGen : Nat) (old new scratch : Image n W)
  | deleteRow (idx : Int) (expectGen : Nat) (scratch : Image n W)
  | clear
  | find (key : Nat) (pk : PK) (buf : Image n W)
  | findNext (key : Nat) (pk : PK) (cur : Int) (buf : Image n W)
  | readRow (idx : Int) (checkGen : Bool) (expectGen : Nat) (buf : Image n W)
  | scanNext (pos : Nat) (buf : Image n W)
  | lockRow (idx : Int)
  | reread (idx : Int) (buf : Image n W)
  | updateRowLocked (idx : Int) (expectGen : Nat) (old new scratch : Image n W)
  | deleteRowLocked (idx : Int) (expectGen : Nat) (scratch : Image n W)
  | unlockRow (idx : Int)
  deriving DecidableEq

/-- What the calls return. -/
inductive CoreOut (n : Nat) (W : Type)
  | done
  | write (r : WriteResult)
  | code (rc : Rc)
  | row (rc : Rc) (buf : Image n W)
  | found (rc : Rc) (buf : Image n W) (idx : Int)
  | scanned (rc : Rc) (pos : Nat) (buf : Image n W)

/-- A call that writes a row has returned `FM_ERR_OK`. -/
def CoreOut.succeeded : CoreOut n W → Bool
  | .write r => decide (r.rc = .ok)
  | .code rc => decide (rc = .ok)
  | .done | .found .. | .row .. | .scanned .. => false

/-- The image a read has returned. -/
def CoreOut.image : CoreOut n W → Option (Image n W)
  | .row .ok buf => some buf
  | _ => none

/-- Only a read that succeeds returns an image. -/
theorem CoreOut.eq_row {out : CoreOut n W} {buf : Image n W} (h : out.image = some buf) :
    out = .row .ok buf := by
  unfold CoreOut.image at h
  split at h
  · cases h
    rfl
  · cases h

/-- What a thread keeps between calls: the row it has locked, and the generation
and the image it has re-read under the lock. -/
structure Session (n : Nat) (W : Type) where
  held : Option Int
  seen : Option (Nat × Image n W)

/-- A thread that holds no row. -/
def Session.empty : Session n W := ⟨none, none⟩

/-- `fm_reread_locked`: the generation of the locked row, and its image if the
row is still there. -/
def reread (idx : Int) (buf : Image n W) : Core n W PK (Rc × Image n W × Nat) := do
  let g ← access (.loadGen idx)
  let (rc, img) ← readRow idx true g buf
  pure (rc, img, g)

/-- The program of each call. -/
def CoreOp.code (cfg : ShareCfg n W PK) :
    CoreOp n W PK → Session n W → Core n W PK (CoreOut n W × Session n W)
  | .insertRow rec scratch, l => do
      let r ← FastMem.insertRow cfg rec scratch
      pure (.write r, l)
  | .updateRow idx g old new scratch, l => do
      let r ← FastMem.updateRow cfg idx g old new scratch
      pure (.write r, l)
  | .deleteRow idx g scratch, l => do
      let rc ← FastMem.deleteRow cfg idx g scratch
      pure (.code rc, l)
  | .clear, l => do
      FastMem.clear cfg
      pure (.done, l)
  | .find key pk buf, l => do
      let (rc, img, idx) ← FastMem.find cfg key pk buf
      pure (.found rc img idx, l)
  | .findNext key pk cur buf, l => do
      let (rc, img, idx) ← FastMem.findNext cfg key pk cur buf
      pure (.found rc img idx, l)
  | .readRow idx cg g buf, l => do
      let (rc, img) ← FastMem.readRow idx cg g buf
      pure (.row rc img, l)
  | .scanNext pos buf, l => do
      let (rc, pos, img) ← FastMem.scanNext pos buf
      pure (.scanned rc pos img, l)
  | .lockRow idx, _ => do
      access (.lock (.row idx))
      pure (.done, ⟨some idx, none⟩)
  | .reread idx buf, l => do
      let (rc, img, g) ← FastMem.reread idx buf
      pure (.row rc img, ⟨l.held, if rc = .ok then some (g, img) else none⟩)
  | .updateRowLocked idx g old new scratch, l => do
      let r ← FastMem.updateRowLocked cfg idx g old new scratch
      pure (.write r, ⟨l.held, none⟩)
  | .deleteRowLocked idx g scratch, l => do
      let rc ← FastMem.deleteRowLocked cfg idx g scratch
      pure (.code rc, ⟨l.held, none⟩)
  | .unlockRow idx, _ => do
      access (.unlock (.row idx))
      pure (.done, Session.empty)

/-- Threads that make the calls `may` allows. -/
@[reducible] def coreSystem (cfg : ShareCfg n W PK) (may : CoreOp n W PK → Session n W → Bool) :
    System (coreSig n W PK) (Share n W) (CoreOp n W PK) (Session n W) (CoreOut n W) where
  toMachine := machine cfg
  may := may
  code := CoreOp.code cfg

/-- A table of at most 8 one-word rows with `keys` keys of 4 buckets, all of them
unique and all on the row's word, which is also its hash. -/
def wordTable (keys : Nat) : ShareCfg 1 Nat Nat where
  keys := keys
  keydef := fun _ =>
    { ops :=
        { hashRec := fun r => r 0
          hashKey := fun pk => pk
          cmpRecRec := fun a b => (a 0 : Int) - b 0
          cmpRecKey := fun r pk => (r 0 : Int) - pk
          hasNullPart := fun _ => false }
      unique := true
      nbuckets := 4
      nbuckets_pos := by decide
      nbuckets_lt := by decide }
  maxRecords := 8
  maxRecords_pos := by decide
  maxRecords_lt := by decide
  alloc := fun _ => true
  spurious := fun _ => false

/-- A table of two-word rows without keys. -/
def pairTable : ShareCfg 2 Nat Nat where
  keys := 0
  keydef := fun _ =>
    { ops :=
        { hashRec := fun r => r 0
          hashKey := fun pk => pk
          cmpRecRec := fun a b => (a 0 : Int) - b 0
          cmpRecKey := fun r pk => (r 0 : Int) - pk
          hasNullPart := fun _ => false }
      unique := true
      nbuckets := 2
      nbuckets_pos := by decide
      nbuckets_lt := by decide }
  maxRecords := 2
  maxRecords_pos := by decide
  maxRecords_lt := by decide
  alloc := fun _ => true
  spurious := fun _ => false

/-- The word of a one-word row. -/
def wordOf (r : Image 1 Nat) : Nat := r 0

/-- The functions that take their own locks. -/
def CoreOp.selfLocking : CoreOp n W PK → Bool
  | .insertRow .. | .updateRow .. | .deleteRow .. | .clear | .find .. | .findNext .. => true
  | _ => false

/-- Whether a thread is idle. -/
def isIdle (c : Config (coreSig n W PK) (Share n W) (CoreOp n W PK) (Session n W) (CoreOut n W))
    (t : Nat) : Bool :=
  match c.thr t with
  | .idle _ => true
  | .busy .. => false

/-- Then it has a session. -/
theorem idle_of_isIdle
    {c : Config (coreSig n W PK) (Share n W) (CoreOp n W PK) (Session n W) (CoreOut n W)} {t : Nat}
    (h : isIdle c t = true) : ∃ l, c.thr t = .idle l := by
  unfold isIdle at h
  split at h
  · exact ⟨_, by assumption⟩
  · cases h

/-- After a schedule of the first two threads every thread is idle if those two are. -/
theorem idle_of_schedule {may : CoreOp n W PK → Session n W → Bool} {s : Share n W}
    {c : Config (coreSig n W PK) (Share n W) (CoreOp n W PK) (Session n W) (CoreOut n W)}
    {steps : List (Label (CoreOp n W PK))}
    (hc : System.schedule (coreSystem cfg may) (System.start s fun _ => Session.empty) steps =
      some c) (htids : ∀ lab ∈ steps, System.tidOf lab < 2)
    (hidle : isIdle c 0 = true ∧ isIdle c 1 = true) (t : Nat) : ∃ l, c.thr t = .idle l := by
  by_cases ht : t < 2
  · obtain rfl | rfl : t = 0 ∨ t = 1 := by omega
    · exact idle_of_isIdle hidle.1
    · exact idle_of_isIdle hidle.2
  · refine ⟨Session.empty, System.schedule_thr hc fun lab hlab => ?_⟩
    have := htids lab hlab
    omega

end FastMem
