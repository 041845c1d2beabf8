import FastMem.Handles
import FastMem.Recycled

/-!
# Is the row that was locked the row that was asked for

In a write statement a row read looks a row up, takes the row's wlock and reads the row
again.  The re-read asks whether the slot is ACTIVE and takes the generation it finds
there: it does not ask whether the slot still holds the row the lookup saw, nor whether the
image still has the key that was looked for.

So the call returns the row that was asked for in every run in which the re-read's look
at the slot, if it finds the slot ACTIVE, finds the row the lookup has seen there.  Two more
things can go wrong: a clear that flips a slot in the middle of its deletion lets two threads
have the slot, and a row whose slot number is negative is not locked at all.
-/

namespace FastMem

open Conc

variable {n : Nat} {W PK Op Out : Type}

/-- The last time thread `t` loaded the state of slot `i` and found it ACTIVE, with all that
had happened before. -/
def lastSeen (t : Nat) (i : Int) : List (CoreEntry n W PK Op) → Option
    (CoreEntry n W PK Op × List (CoreEntry n W PK Op))
  | [] => none
  | e :: es =>
      match e.act with
      | .loadState j =>
          if e.call.tid = t ∧ j = i ∧ e.mem.state i = .active then some (e, es) else lastSeen t i es
      | _ => lastSeen t i es

/-- Thread `t` sees slot `i` ACTIVE with generation `v`. -/
structure Sees (t : Nat) (i : Int) (v : Nat) (e : CoreEntry n W PK Op) : Prop where
  tid : e.call.tid = t
  act : e.act = .loadState i
  active : e.mem.state i = .active
  gen : e.mem.gen i = v

/-- A call that began at time `start` has seen a row in slot `i`, and has seen it again when its
thread had the wlock of the slot: `v` is the generation both times, and the slot has not been
recycled in between. -/
def LookedAgain (w : CoreWorld n W PK Op Out) (t start : Nat) (i : Int) (v : Nat) : Prop :=
  ∃ e older e' older', e' :: older' <:+ w.past ∧ e :: older <:+ older' ∧
    start ≤ older.length ∧ Sees t i v e ∧
    Sees t i v e' ∧ e'.mem.wlock i = some t ∧ recycles i older' = recycles i older

/-- A second look stays in the past. -/
theorem LookedAgain.push {w : CoreWorld n W PK Op Out} {t start : Nat} {i : Int} {v : Nat}
    (h : LookedAgain w t start i v) (c : Call Op) (a : Act n W) (s : Share n W) :
    LookedAgain (w.push c a s) t start i v := by
  obtain ⟨e, older, e', older', hsuffix, hrest⟩ := h
  exact ⟨e, older, e', older', hsuffix.trans (List.suffix_cons _ _), hrest⟩

/-- A call that began at time `since` has seen slot `i` ACTIVE, when its generation was that of
its recycles. -/
def HasSeen (w : CoreWorld n W PK Op Out) (t since : Nat) (i : Int) : Prop :=
  ∃ e older, lastSeen t i w.past = some (e, older) ∧ since ≤ older.length ∧
    e.mem.gen i = recycles i older % 2 ^ 32

section

variable {cfg : ShareCfg n W PK} {K : Kind → Prop} {G : Commit n W → Prop}
  {now : Nat} {s : Share n W} {g g' : Role n W} {a : Act n W} {r : a.Res}
  {T : Setting n W PK Op Out}
    {w : CoreWorld n W PK Op Out}
  {γ : Nat → Role n W}

/-- A call that looks at its slot once more has seen it later. -/
theorem HasSeen.push {t since : Nat} {i : Int} (h : HasSeen w t since i) (hsince : since ≤ w.now)
    (hcount : Counted w i) (c : Call Op) (a : Act n W) (s : Share n W) :
    HasSeen (w.push c a s) t since i := by
  obtain ⟨e, older, hseen, hrest⟩ := h
  unfold HasSeen
  simp only [World.push_past, lastSeen]
  split
  · split
    · exact ⟨_, _, rfl, hsince, hcount.gen⟩
    · exact ⟨e, older, hseen, hrest⟩
  · exact ⟨e, older, hseen, hrest⟩

end

/-- The key a call gives for the row it reads, with its number. -/
def givenKey (tab : TableCfg n W PK) (o : HandleOp n W PK) : Option (Nat × PK) :=
  match o.1 with
  | .indexReadMap index key _ | .indexReadLastMap index key _ | .indexReadIdxMap index key _ =>
      some (index, key)
  | .findUniqueRow index record => some (index, tab.makeKey index o.2.file.lastkey record)
  | _ => none

/-- The key a call looks up: `index_next` takes the one its handle has kept. -/
def heldKey (tab : TableCfg n W PK) (o : HandleOp n W PK) : Option (Nat × PK) :=
  match o.1 with
  | .indexNext _ => some (o.2.file.lastinx.toNat, o.2.file.lastkey)
  | _ => givenKey tab o

/-- A row of generation `v` with image `img` is what the call looks for: it has the key
the call looks up, or the generation of the reference. -/
def Wanted (tab : TableCfg n W PK) (o : HandleOp n W PK) (v : Nat) (img : Image n W) : Prop :=
  (∀ q ∈ heldKey tab o, (tab.keydef q.1).ops.cmpRecKey img q.2 = 0) ∧ ∀ pos ∈ o.1.asked, v = pos.2

instance (tab : TableCfg n W PK) (o : HandleOp n W PK) (v : Nat) (img : Image n W) :
    Decidable (Wanted tab o v img) :=
  inferInstanceAs (Decidable (_ ∧ _))

/-- What the row read that returned as event `ev` of the history `w` has to do with the
row it returned: at its return the call owns the wlock of the slot, the slot is ACTIVE,
the buffer is its image, the handle has its generation, the row is what the call looks
for, and it is the row the call had seen before it took the lock. -/
structure ReturnsAsked (tab : TableCfg n W PK) (w : HandleWorld n W PK)
    (ev : Event (HandleOp n W PK) (HandleOut n W PK)) (img : Image n W) : Prop where
  locked : ev.out.2.rowLocked = true ∧ ev.out.2.lockedSlot = ev.out.2.file.currentSlot
  owner : (w.memAt ev.stop).wlock ev.out.2.file.currentSlot = some ev.call.tid
  active : (w.memAt ev.stop).state ev.out.2.file.currentSlot = .active
  current : (w.memAt ev.stop).data ev.out.2.file.currentSlot = img
  gen : (w.memAt ev.stop).gen ev.out.2.file.currentSlot = ev.out.2.file.currentGen
  wanted : Wanted tab ev.call.op ev.out.2.file.currentGen img
  slot : ∀ pos ∈ ev.call.op.1.asked, ev.out.2.file.currentSlot = pos.1
  same : LookedAgain w ev.call.tid ev.call.start ev.out.2.file.currentSlot ev.out.2.file.currentGen

/-- What a call has returned it has returned later on. -/
theorem ReturnsAsked.push {tab : TableCfg n W PK} {w : HandleWorld n W PK}
    {ev : Event (HandleOp n W PK) (HandleOut n W PK)} {img : Image n W}
    (h : ReturnsAsked tab w ev img) (hstop : ev.stop ≤ w.now) (c : Call (HandleOp n W PK))
    (a : Act n W) (s : Share n W) :
    ReturnsAsked tab (w.push c a s) ev img := by
  have hmem : (w.push c a s).memAt ev.stop = w.memAt ev.stop := World.memAt_push hstop c a s
  constructor
  case locked => exact h.locked
  case owner => rw [hmem]; exact h.owner
  case active => rw [hmem]; exact h.active
  case current => rw [hmem]; exact h.current
  case gen => rw [hmem]; exact h.gen
  case wanted => exact h.wanted
  case slot => exact h.slot
  case same => exact h.same.push c a s

end FastMem
