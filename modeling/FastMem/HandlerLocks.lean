import FastMem.Events
import FastMem.Handler
import FastMem.SeqEffects

/-!
# The row lock of a handler

A handler takes the wlock of a row in one call and releases it in another, and only its own
flags tell it what it owns.  A monitor reads the accesses of all its calls, with any answers
that other clients may bring about: it keeps the wlocks that have been taken and not yet
released, and refuses to take one of these again, to release one that is not among them,
and, in an update or a delete, to modify a slot whose wlock is not among them.
-/

namespace FastMem

open Conc

variable {n : Nat} {W PK : Type} {cfg : ShareCfg n W PK} {α β : Type}

/-- The access modifies no slot but those of `os`.  Links of chains are not in the slots. -/
def Act.within (os : List Int) : Act n W → Bool
  | .storeState i _ | .addGen i | .addSeq i | .storeWord i _ _ | .storeFreeNext i _ =>
      decide (i ∈ os)
  | .initSlots _ => false
  | _ => true

/-- The slots whose wlocks are owned after an access, if they were `os` before it.
`guarded` says whether only their slots may be modified. -/
def Act.owns (guarded : Bool) (a : Act n W) (os : List Int) : Option (List Int) :=
  match a with
  | .lock (.row i) => if i ∈ os then none else some (i :: os)
  | .unlock (.row i) => if i ∈ os then some (os.erase i) else none
  | a => if a.within os || !guarded then some os else none

/-- The slots whose wlocks a handler says it owns. -/
def Handler.owned (h : Handler n W PK) : List Int := if h.rowLocked then [h.lockedSlot] else []

variable {b : Bool} {os : List Int} {a : Act n W}

/-- An action on a slot the thread owns leaves its row locks as they are. -/
theorem owns_of_within (hrow : ∀ i, a ≠ .lock (.row i) ∧ a ≠ .unlock (.row i))
    (ha : a.within os = true) : a.owns b os = some os := by
  unfold Act.owns
  split
  · exact absurd rfl (hrow _).1
  · exact absurd rfl (hrow _).2
  · rw [ha]
    rfl

/-- The actions of the loops leave the row locks as they are. -/
theorem owns_of_inLoop (ha : a.inLoop = true) (os : List Int) : a.owns b os = some os := by
  cases a <;> first | rfl | cases ha

/-- Without the guard on stores, an action that is no lock operation leaves the row
locks as they are. -/
theorem owns_unguarded (ha : a.quiet = true) (os : List Int) : a.owns false os = some os := by
  cases a <;> simp [Act.owns] <;> cases ha

/-- A program that takes and releases no wlock, and if it is guarded modifies no slot but
those of `os`. -/
abbrev Still (b : Bool) (os : List Int) (p : Core n W PK α) : Prop :=
  Machine.Only (S := coreSig n W PK) (fun a => Act.owns b a os = some os) (fun _ => True) p

/-- A program that only loads keeps the row locks. -/
theorem Loads.still {p : Core n W PK α} (hp : Loads p) : Still b os p := by
  refine Machine.Only.mono (fun a ha => ?_) (fun _ _ => trivial) hp
  cases a <;> first | rfl | cases ha

/-- A program without lock operations keeps the row locks, whatever it stores. -/
theorem Silent.still {p : Core n W PK α} (hp : Silent p) : Still false os p :=
  Machine.Only.mono (fun _ ha => owns_unguarded ha os) (fun _ _ => trivial) hp

/-- Filling a slot the thread owns keeps the row locks. -/
theorem still_copyIn {idx : Int} (hidx : idx ∈ os) (rec : Image n W) (js : List (Fin n)) :
    Still b os (copyIn idx rec js : Core n W PK Unit) := by
  induction js with
  | nil => exact only_pure _
  | cons j js ih =>
      exact only_bind (only_access (owns_of_within (by simp) (by simpa [Act.within]))) fun _ => ih

theorem still_writeImage {idx : Int} (hidx : idx ∈ os) (rec : Image n W) :
    Still b os (writeImage idx rec : Core n W PK Unit) := by
  have hseq : (Act.addSeq idx : Act n W).owns b os = some os :=
    owns_of_within (by simp) (by simpa [Act.within])
  exact only_bind (only_access hseq) fun _ => only_bind (still_copyIn hidx ..)
    fun _ => only_access hseq

theorem still_freeSlot {idx : Int} (hidx : idx ∈ os) :
    Still b os (freeSlot idx : Core n W PK Unit) := by
  have hnext : ∀ j, (Act.storeFreeNext idx j : Act n W).owns b os = some os :=
    fun j => owns_of_within (by simp) (by simpa [Act.within])
  exact only_bind (only_access rfl) fun _ => only_bind (only_access (hnext _))
    fun _ => only_access rfl

/-- Linking a slot into a chain stores to no row. -/
theorem still_chainLink (k c : Nat) (idx : Int) :
    Still b os (chainLink k c idx : Core n W PK Unit) :=
  only_bind (only_access rfl) fun _ => only_bind (only_access rfl) fun _ => only_access rfl

theorem still_moveKeys (idx : Int) (old new : Image n W) (ks : List Nat) :
    Still b os (moveKeys cfg idx old new ks) := by
  induction ks with
  | nil => exact only_pure _
  | cons k ks ih =>
      exact only_bind (only_loop trivial) fun _ => only_bind (still_chainLink ..) fun _ => ih

/-- The check of state and generation only loads. -/
theorem still_verifySlot (idx : Int) (g : Nat) : Still b os (verifySlot idx g : Core n W PK Bool) :=
  only_bind (only_access rfl) fun _ =>
    .ite (only_pure _) (only_bind (only_access rfl) fun _ => only_pure _)

/-- Bucket locks are no row locks: taking the lock set of an update keeps them. -/
theorem still_lockAll (prev : Option (Nat × Nat)) (vs : List (Nat × Nat)) :
    Still b os (lockAll prev vs : Core n W PK Unit) := by
  induction vs generalizing prev with
  | nil => exact only_pure _
  | cons v vs ih => exact only_bind (.ite (only_pure _) (only_access rfl)) fun _ => ih _

theorem still_unlockAll (vs : List (Nat × Nat)) : Still b os (unlockAll vs : Core n W PK Unit) := by
  induction vs with
  | nil => exact only_pure _
  | cons v vs ih => exact only_bind (.ite (only_pure _) (only_access rfl)) fun _ => ih

/-- Taking a row out of its chains keeps the row locks. -/
theorem still_unlinkKeys (img : Image n W) (idx : Int) (ks : List Nat) :
    Still b os (unlinkKeys cfg img idx ks) := by
  induction ks with
  | nil => exact only_pure _
  | cons k ks ih =>
    exact only_bind (only_access rfl) fun _ => only_bind (only_loop trivial) fun _ =>
      only_bind (only_access rfl) fun _ => ih

/-- `fm_core_update_row_locked` keeps the row locks, and stores to a slot the thread owns. -/
theorem still_updateRowLocked {idx : Int} (hidx : idx ∈ os) (g : Nat)
    (old new scratch : Image n W) : Still b os (updateRowLocked cfg idx g old new scratch) := by
  refine only_bind (still_verifySlot ..) fun valid => .ite (.ite ?_ ?_) (only_pure _)
  · exact only_bind (still_writeImage hidx _) fun _ => only_pure _
  · refine only_bind (still_lockAll ..) fun _ => only_bind (loads_dupChecks ..).still fun dup => ?_
    cases dup with
    | some k => exact only_bind (still_unlockAll _) fun _ => only_pure _
    | none =>
      refine only_bind (still_writeImage hidx _) fun _ => only_bind (still_moveKeys ..) fun _ => ?_
      exact only_bind (still_unlockAll _) fun _ => only_pure _

theorem still_deleteRowLocked {idx : Int} (hidx : idx ∈ os) (g : Nat) (scratch : Image n W) :
    Still b os (deleteRowLocked cfg idx g scratch) := by
  have hstate : ∀ v, (Act.storeState idx v : Act n W).owns b os = some os :=
    fun v => owns_of_within (by simp) (by simpa [Act.within])
  have hgen : (Act.addGen idx : Act n W).owns b os = some os :=
    owns_of_within (by simp) (by simpa [Act.within])
  refine only_bind (still_verifySlot ..) fun valid => .ite ?_ (only_pure _)
  refine only_bind (only_access (hstate _)) fun _ =>
    only_bind (loads_copyOut ..).still fun img => ?_
  refine only_bind (still_unlinkKeys ..) fun _ => only_bind (only_access (hstate _)) fun _ => ?_
  refine only_bind (only_access hgen) fun _ => only_bind (only_access rfl) fun _ => ?_
  refine only_bind (only_access rfl) fun _ => only_bind (still_freeSlot hidx) fun _ => ?_
  exact only_bind (only_access rfl) fun _ => only_pure _

/-- The rollback of an insert keeps the row locks. -/
theorem still_rollback (rec : Image n W) (idx : Int) (k : Nat) :
    Still b os (rollback cfg rec idx k) := by
  induction k with
  | zero => exact only_pure _
  | succ k ih =>
    exact only_bind (only_access rfl) fun _ => only_bind (only_loop trivial) fun _ =>
      only_bind (only_access rfl) fun _ => ih

theorem still_linkKeys (rec scratch : Image n W) (idx : Int) (ks : List Nat) :
    Still b os (linkKeys cfg rec scratch idx ks) := by
  induction ks with
  | nil => exact only_pure _
  | cons k ks ih =>
    refine only_bind (only_access rfl) fun _ => only_bind (loads_dupCheck ..).still
      fun dup => .ite ?_ ?_
    · exact only_bind (still_chainLink ..) fun _ => only_bind (only_access rfl) fun _ => ih
    · exact only_bind (only_access rfl) fun _ => only_pure _

/-- An insert takes no wlock. -/
theorem still_insertRow (rec scratch : Image n W) : Still false os (insertRow cfg rec scratch) := by
  have hat : ∀ idx, Still false os (insertAt cfg rec scratch idx) := by
    intro idx
    refine only_bind (silent_copyIn ..).still fun _ => only_bind (still_linkKeys ..) fun stop => ?_
    cases stop with
    | some k =>
      refine only_bind (still_rollback ..) fun _ => only_bind (silent_freeSlot _).still fun _ => ?_
      exact only_bind (only_access rfl) fun _ => only_pure _
    | none =>
      refine only_bind (only_access (owns_unguarded rfl os)) fun _ =>
        only_bind (only_access rfl) fun _ => ?_
      exact only_bind (only_access rfl) fun _ => only_pure _
  refine only_bind (only_access rfl) fun _ => only_bind (silent_allocSlot cfg).still fun idx =>
    .ite ?_ (hat idx)
  exact only_bind (only_access rfl) fun _ => only_bind (only_access rfl) fun _ => only_pure _

/-- `fm_core_auto_inc_observe` is about the counter alone. -/
theorem still_autoIncObserve (value : Nat) : Still b os (autoIncObserve value : Core n W PK Unit) :=
  only_bind (only_access rfl) fun _ => only_loop trivial

theorem still_autoIncReserve (offset inc nb : Nat) :
    Still b os (autoIncReserve offset inc nb : Core n W PK (Nat × Nat)) := only_loop trivial

/-- A lookup takes no row lock. -/
theorem still_find (key : Nat) (pk : PK) (buf : Image n W) : Still b os (find cfg key pk buf) :=
  only_bind (only_access rfl) fun _ => only_bind (only_access rfl) fun _ =>
    only_bind (only_loop trivial) fun _ => only_bind (only_access rfl) fun _ => only_pure _

theorem still_findNext (key : Nat) (pk : PK) (cur : Int) (buf : Image n W) :
    Still b os (findNext cfg key pk cur buf) :=
  only_bind (only_access rfl) fun _ => only_bind (only_access rfl) fun _ =>
    only_bind (only_loop trivial) fun _ => only_bind (only_access rfl) fun _ => only_pure _

theorem still_readRow (idx : Int) (cg : Bool) (g : Nat) (buf : Image n W) :
    Still b os (readRow idx cg g buf : Core n W PK (Rc × Image n W)) := only_loop trivial

theorem still_reread (idx : Int) (buf : Image n W) : Still b os (reread idx buf : Core n W PK _) :=
  only_bind (only_access rfl) fun _ => only_bind (still_readRow ..) fun _ => only_pure _

variable {tab : TableCfg n W PK} {info : Info n W PK}

/-- `fm_find_key` keeps the row locks. -/
theorem still_fmFindKey (inx : Nat) (key : PK) (buf : Image n W) :
    Still b os (fmFindKey tab info inx key buf) := by
  refine only_bind (still_find ..) fun r => .ite ?_ (only_pure _)
  exact only_bind (only_access rfl) fun _ => only_pure _

theorem still_fmFindNextKey (inx : Nat) (key : PK) (cur : Int) (buf : Image n W) :
    Still b os (fmFindNextKey tab info inx key cur buf) := by
  refine only_bind (still_findNext ..) fun r => .ite ?_ (only_pure _)
  exact only_bind (only_access rfl) fun _ => only_pure _

theorem still_fmScan (buf : Image n W) : Still b os (fmScan info buf : Core n W PK _) := by
  refine only_bind (loads_scanNext ..).still fun r => .ite ?_ (only_pure _)
  exact only_bind (only_access rfl) fun _ => only_pure _

theorem still_fmRrnd (buf : Image n W) (pos : Int × Nat) :
    Still b os (fmRrnd info buf pos : Core n W PK _) :=
  .ite (only_pure _) (only_bind (still_readRow ..) fun _ => .ite (only_pure _) (only_pure _))

/-- Raising the counter after a write keeps the row locks. -/
theorem still_fmUpdateAutoIncrement (rec : Image n W) :
    Still b os (fmUpdateAutoIncrement tab rec) := by
  unfold fmUpdateAutoIncrement
  cases tab.autoValue with
  | none => exact only_pure _
  | some value => exact still_autoIncObserve _

/-- `fm_write` keeps the row locks; it stores to a slot that is not locked. -/
theorem still_fmWrite (rec : Image n W) : Still false os (fmWrite tab info rec) := by
  refine only_bind (still_insertRow ..) fun r => .ite ?_ (only_pure _)
  exact only_bind (still_fmUpdateAutoIncrement rec) fun _ => only_bind (only_access rfl)
    fun _ => only_pure _

/-- Reserving an auto-increment value keeps the row locks. -/
theorem still_nextRecord (auto : Option (AutoRequest n W)) (rec : Image n W) :
    Still b os (nextRecord auto rec : Core n W PK (Option (Image n W))) := by
  cases auto with
  | none => exact only_pure _
  | some req =>
    refine only_bind (only_bind (still_autoIncReserve ..) fun _ => only_pure _) fun _ => only_pure _

/-- The read after the lock keeps the row locks. -/
theorem still_fmRereadLocked (buf : Image n W) :
    Still b os (fmRereadLocked info buf : Core n W PK _) :=
  only_bind (still_reread ..) fun _ => only_pure _

section

variable [DecidableEq (Image n W)]

/-- `fm_readcheck` keeps the row locks. -/
theorem still_fmReadCheck (old : Image n W) :
    Still b os (fmReadCheck info old : Core n W PK (Option HaErr)) :=
  .ite (only_bind (still_readRow ..) fun _ => .ite (only_pure _) (only_pure _)) (only_pure _)

/-- `fm_update_locked` modifies the current slot only. -/
theorem still_fmUpdateLocked (hidx : info.currentSlot ∈ os) (old new : Image n W) :
    Still b os (fmUpdateLocked tab info old new) := by
  refine only_bind (still_fmReadCheck old) fun stale => ?_
  cases stale with
  | some err => exact only_pure _
  | none =>
    refine only_bind (still_updateRowLocked hidx ..) fun r => .ite ?_ (only_pure _)
    exact only_bind (still_fmUpdateAutoIncrement new) fun _ => only_pure _

/-- `fm_delete_locked` modifies the current slot only. -/
theorem still_fmDeleteLocked (hidx : info.currentSlot ∈ os) (old : Image n W) :
    Still b os (fmDeleteLocked tab info old) := by
  refine only_bind (still_fmReadCheck old) fun stale => ?_
  cases stale with
  | some err => exact only_pure _
  | none =>
      exact only_bind (still_deleteRowLocked hidx ..) fun rc => .ite (only_pure _) (only_pure _)

end

/-- A program whose accesses the monitor takes, from the wlocks `os` on. -/
abbrev Owning (b : Bool) (Q : α → List Int → Prop) (p : Core n W PK α) (os : List Int) : Prop :=
  Prog.Watched (S := coreSig n W PK) (Act.owns b) Q p os

variable {Q : α → List Int → Prop} {R : β → List Int → Prop} {h : Handler n W PK}

/-- One program after another, each with what the one before has left of the row locks. -/
theorem Owning.bind {p : Core n W PK α} {f : α → Core n W PK β} (hp : Owning b Q p os)
    (hf : ∀ a os', Q a os' → Owning b R (f a) os') : Owning b R (p >>= f) os :=
  Prog.Watched.bind hp hf

/-- What keeps the row locks ends with those it began with. -/
theorem Still.owning {p : Core n W PK α} (hp : Still b os p) :
    Owning b (fun _ os' => os' = os) p os :=
  Prog.watched_only (fun _ ha => ha) hp

/-- A program that leaves the row locks alone leaves them to what follows. -/
theorem Still.owning_bind {p : Core n W PK α} {f : α → Core n W PK β} (hp : Still b os p)
    (hf : ∀ a, Owning b R (f a) os) : Owning b R (p >>= f) os := by
  refine Owning.bind hp.owning fun a os' hos => ?_
  subst hos
  exact hf a

/-- Nothing happens to the row locks on the way to a result. -/
theorem owning_pure {a : α} (h : Q a os) : Owning b Q (pure a : Core n W PK α) os := h

/-- A handler with no row locked owns no slot. -/
theorem owned_of_unlocked (hrow : h.rowLocked = false) : h.owned = [] := by
  simp [Handler.owned, hrow]

/-- A handler with its row locked owns the slot it has locked. -/
theorem owned_of_locked (hrow : h.rowLocked = true) : h.owned = [h.lockedSlot] := by
  simp [Handler.owned, hrow]

/-- `unlock_current_row` leaves the handler with no row lock. -/
theorem owning_unlockCurrentRow :
    Owning b (fun h' os => h' = h.unlocked ∧ os = []) (unlockCurrentRow h) h.owned := by
  unfold unlockCurrentRow Handler.unlocked
  by_cases hrow : h.rowLocked = true
  · rw [if_pos hrow, if_pos hrow, owned_of_locked hrow]
    have hunlock : (Act.unlock (.row h.lockedSlot) : Act n W).owns b [h.lockedSlot] = some [] := by
      simp [Act.owns]
    exact ⟨[], hunlock, fun _ => ⟨rfl, rfl⟩⟩
  · rw [if_neg hrow, if_neg hrow, owned_of_unlocked (by simpa using hrow)]
    exact owning_pure ⟨rfl, rfl⟩

/-- `lock_current_row` leaves the handler with the row lock it says it has. -/
theorem owning_lockCurrentRow :
    Owning b (fun h' os => os = h'.owned ∧ h'.file = h.file) (lockCurrentRow h) h.owned := by
  unfold lockCurrentRow
  refine Prog.Watched.ite (fun _ => owning_pure ⟨rfl, rfl⟩) fun _ => ?_
  refine Prog.Watched.ite (fun _ => owning_pure ⟨rfl, rfl⟩) fun _ => ?_
  refine owning_unlockCurrentRow.bind fun h' os hos => ?_
  obtain ⟨rfl, rfl⟩ := hos
  have hlock : (Act.lock (.row h.unlocked.file.currentSlot) : Act n W).owns b [] =
      some [h.unlocked.file.currentSlot] := by
    simp [Act.owns]
  exact ⟨_, hlock, fun _ => ⟨rfl, unlocked_file h⟩⟩

/-- The handler owns what it says after a call, and what it owns it owned before or has
taken in the course of a row read. -/
structure LockSettled (h : Handler n W PK) (took : Prop) (h' : Handler n W PK)
    (os : List Int) : Prop where
  owned : os = h'.owned
  taken : h.rowLocked = false → ¬ took → h'.rowLocked = false

/-- A handler that changes neither flag nor slot has settled its lock. -/
theorem LockSettled.same {took : Prop} {h' : Handler n W PK} (hrow : h'.rowLocked = h.rowLocked)
    (hslot : h'.lockedSlot = h.lockedSlot) : LockSettled h took h' h.owned := by
  refine ⟨?_, fun hfree _ => hrow.trans hfree⟩
  simp [Handler.owned, hrow, hslot]

theorem LockSettled.unlocked {took : Prop} {h' : Handler n W PK} (hrow : h'.rowLocked = false) :
    LockSettled h took h' [] :=
  ⟨(owned_of_unlocked hrow).symm, fun _ _ => hrow⟩

/-- In a write statement the row found is locked and read again, and the lock is settled. -/
theorem owning_rereadInWriteStmt (gone : HaErr) (found : Option HaErr × Image n W × Info n W PK) :
    Owning b (fun x os => LockSettled h (x.1 = none ∧ h.writeStmt = true) x.2.2 os)
      (rereadInWriteStmt gone found h)
      h.owned := by
  unfold rereadInWriteStmt
  refine Prog.Watched.ite (fun hfound => ?_) fun _ => owning_pure (.same rfl rfl)
  have hlock : Owning b _ (lockCurrentRow { h with file := found.2.2 }) h.owned :=
    owning_lockCurrentRow
  refine hlock.bind fun h' os hos => ?_
  obtain ⟨rfl, -⟩ := hos
  refine (still_fmRereadLocked _).owning_bind fun r => Prog.Watched.ite (fun _ => ?_) fun _ => ?_
  · exact owning_pure ⟨rfl, fun _ hnot => absurd ⟨rfl, hfound.2⟩ hnot⟩
  · have hunlock : Owning b _ (unlockCurrentRow { h' with file := r.2.2 }) h'.owned :=
      owning_unlockCurrentRow
    refine hunlock.bind fun h'' os hos => owning_pure ?_
    obtain ⟨rfl, rfl⟩ := hos
    exact .unlocked (unlocked_rowLocked _)

/-- A row is locked unless the handler has it locked already. -/
theorem owning_lockIfUnlocked : Owning b (fun h' os => os = h'.owned)
    (lockIfUnlocked h) h.owned := by
  unfold lockIfUnlocked
  refine Prog.Watched.ite (fun _ => ?_) fun _ => owning_pure rfl
  exact owning_lockCurrentRow.imp fun h' os hos => hos.1

/-- The guard of `update_row` and `delete_row` lets them go on with the lock of the current
row, or leaves them without any. -/
theorem owning_ensureRowLocked :
    Owning b (fun x os => os = x.2.owned ∧
      if x.1 then x.2.rowLocked = true ∧ x.2.lockedSlot = x.2.file.currentSlot
      else x.2.rowLocked = false) (ensureRowLocked h) h.owned := by
  unfold ensureRowLocked
  refine Prog.Watched.ite (fun hheld => owning_pure ⟨rfl, hheld.2⟩) fun _ => ?_
  refine owning_lockIfUnlocked.bind fun h' os hos => ?_
  subst hos
  refine Prog.Watched.ite (fun hheld => owning_pure ⟨rfl, hheld⟩) fun _ => ?_
  refine owning_unlockCurrentRow.bind fun h'' os hos => owning_pure ?_
  obtain ⟨rfl, rfl⟩ := hos
  exact ⟨(owned_of_unlocked (unlocked_rowLocked h')).symm, unlocked_rowLocked h'⟩

/-- `update_row` and `delete_row`, given that the write modifies the current slot only. -/
theorem owning_lockedWrite {write : Info n W PK → Core n W PK (Option HaErr × Info n W PK)}
    (hwrite : ∀ info : Info n W PK, ∀ os, info.currentSlot ∈ os → Still b os (write info)) :
    Owning b (fun (x : HandlerOut n W × Handler n W PK) os => x.2.rowLocked = false ∧ os = []) (do
        let (locked, h) ← ensureRowLocked h
        if locked then
          let (err, info) ← write h.file
          let h ← unlockCurrentRow { h with file := info }
          pure (⟨err, none⟩, h)
        else
          pure (⟨some .recordChanged, none⟩, h)) h.owned := by
  refine owning_ensureRowLocked.bind fun x os hx => ?_
  obtain ⟨locked, h'⟩ := x
  obtain ⟨rfl, hheld⟩ := hx
  cases locked with
  | false => exact owning_pure ⟨hheld, owned_of_unlocked hheld⟩
  | true =>
    have hmem : h'.file.currentSlot ∈ h'.owned := by
      rw [owned_of_locked hheld.1, ← hheld.2]
      exact List.mem_singleton_self _
    refine (hwrite h'.file _ hmem).owning_bind fun r => ?_
    have hunlock : Owning b _ (unlockCurrentRow { h' with file := r.2 }) h'.owned :=
      owning_unlockCurrentRow
    refine hunlock.bind fun h'' os hos => owning_pure ?_
    obtain ⟨rfl, rfl⟩ := hos
    exact ⟨unlocked_rowLocked _, rfl⟩

/-- What a row read has taken when it returns. -/
abbrev Took (h : Handler n W PK) (x : HandlerOut n W × Handler n W PK) : Prop :=
  x.1.err = none ∧ h.writeStmt = true

/-- The end of a row read. -/
theorem owning_foundRow {gone : HaErr} {found : Option HaErr × Image n W × Info n W PK} :
    Owning b (fun x os => LockSettled h (Took h x) x.2 os)
      (rereadInWriteStmt gone found h >>= fun r => pure (readResult r)) h.owned :=
  (owning_rereadInWriteStmt gone found).bind fun _ _ hx => owning_pure hx

/-- `index_read_map` and its siblings return with the lock settled. -/
theorem owning_indexRead (index : Nat) (key : PK) (buf : Image n W) :
    Owning b (fun x os => LockSettled h (Took h x) x.2 os)
      (indexRead tab index key buf h) h.owned :=
  (still_fmFindKey ..).owning_bind fun _ => owning_foundRow

theorem owning_indexNext (buf : Image n W) :
    Owning b (fun x os => LockSettled h (Took h x) x.2 os) (indexNext tab buf h) h.owned := by
  unfold indexNext
  refine Prog.Watched.ite (fun _ => owning_pure (.same rfl rfl)) fun _ => ?_
  refine (still_fmFindNextKey ..).owning_bind fun found => ?_
  exact Prog.Watched.ite (fun _ => owning_pure (.same rfl rfl)) fun _ => owning_foundRow

theorem owning_rndNext (buf : Image n W) :
    Owning b (fun x os => LockSettled h (Took h x) x.2 os) (rndNext buf h) h.owned :=
  (still_fmScan buf).owning_bind fun _ => owning_foundRow

theorem owning_rndPos (pos : Int × Nat) (buf : Image n W) :
    Owning b (fun x os => LockSettled h (Took h x) x.2 os) (rndPos pos buf h) h.owned :=
  (still_fmRrnd buf pos).owning_bind fun _ => owning_foundRow

theorem owning_findUniqueRow (index : Nat) (record : Image n W) :
    Owning b (fun x os => LockSettled h (Took h x) x.2 os)
      (findUniqueRow tab index record h) h.owned := by
  unfold findUniqueRow
  refine Prog.Watched.ite (fun _ => ?_) fun _ => owning_pure (.same rfl rfl)
  refine (still_find ..).owning_bind fun r => Prog.Watched.ite (fun _ => ?_) fun _ =>
    owning_pure (.same rfl rfl)
  have hgen : Still b h.owned (access (.loadGen r.2.2) : Core n W PK Nat) := only_access rfl
  exact hgen.owning_bind fun g => owning_foundRow

/-- `rnd_init` locks no row. -/
theorem owning_rndInit (scan : Bool) :
    Owning b (fun x os => LockSettled h False x.2 os) (rndInit scan h) h.owned := by
  unfold rndInit
  refine Prog.Watched.ite (fun _ => ?_) fun _ => owning_pure (.same rfl rfl)
  refine owning_unlockCurrentRow.bind fun h' os hos => owning_pure ?_
  obtain ⟨rfl, rfl⟩ := hos
  exact .unlocked (unlocked_rowLocked h)

/-- `write_row` locks no row. -/
theorem owning_writeRow (auto : Option (AutoRequest n W)) (rec : Image n W) :
    Owning false (fun x os => LockSettled h False x.2 os) (writeRow tab auto rec h) h.owned := by
  refine (still_nextRecord auto rec).owning_bind fun rec? => ?_
  cases rec? with
  | none => exact owning_pure (.same rfl rfl)
  | some rec => exact (still_fmWrite rec).owning_bind fun _ => owning_pure (.same rfl rfl)

/-- `reset` gives the row lock up. -/
theorem owning_handlerReset :
    Owning b (fun x os => x.2.rowLocked = false ∧ os = []) (handlerReset h) h.owned := by
  refine owning_unlockCurrentRow.bind fun h' os hos => owning_pure ?_
  obtain ⟨rfl, rfl⟩ := hos
  exact ⟨unlocked_rowLocked h, rfl⟩

theorem owning_externalUnlock :
    Owning b (fun x os => x.2.rowLocked = false ∧ os = []) (externalUnlock h) h.owned := by
  have hunlock : Owning b _ (unlockCurrentRow { h with writeStmt := false }) h.owned :=
    owning_unlockCurrentRow
  refine hunlock.bind fun h' os hos => owning_pure ?_
  obtain ⟨rfl, rfl⟩ := hos
  exact ⟨unlocked_rowLocked _, rfl⟩

/-- The values of `lock_type` that `external_lock` knows. -/
def fWrlck : Int := 2

@[inherit_doc fWrlck] def fUnlck : Int := 3

/-- `external_lock`. -/
def externalLock (lockType : Int) (h : Handler n W PK) :
    Core n W PK (HandlerOut n W × Handler n W PK) :=
  if lockType = fWrlck then pure (⟨none, none⟩, { h with writeStmt := true })
  else if lockType = fUnlck then externalUnlock h
  else pure (⟨none, none⟩, h)

/-- A call on a handler: `external_lock`, or one of the others. -/
inductive HandlerCall (n : Nat) (W PK : Type)
  | externalLock (lockType : Int)
  | op (o : HandlerOp n W PK)

/-- The reads of a row. -/
def HandlerCall.readsRow : HandlerCall n W PK → Bool
  | .op (.indexReadMap ..) | .op (.indexReadLastMap ..) | .op (.indexReadIdxMap ..) |
    .op (.indexNext _)
  | .op (.rndNext _) | .op (.rndPos ..) | .op (.findUniqueRow ..) => true
  | _ => false

/-- `update_row` and `delete_row`. -/
def HandlerCall.changesRow : HandlerCall n W PK → Bool
  | .op (.updateRow ..) | .op (.deleteRow _) => true
  | _ => false

/-- `external_lock` with `F_UNLCK`, and `reset`. -/
def HandlerCall.endsStatement : HandlerCall n W PK → Bool
  | .externalLock lockType => decide (lockType = fUnlck)
  | .op .externalLockUnlock | .op .reset => true
  | _ => false

/-- All calls but `delete_all_rows`. -/
def HandlerCall.onRows : HandlerCall n W PK → Bool
  | .op .deleteAllRows => false
  | _ => true

/-- The program of each call. -/
def HandlerCall.code [DecidableEq (Image n W)] (tab : TableCfg n W PK) :
    HandlerCall n W PK → Handler n W PK → Core n W PK (HandlerOut n W × Handler n W PK)
  | .externalLock lockType, h => FastMem.externalLock lockType h
  | .op o, h => o.code tab h

/-- A successful read of a row inside a write statement. -/
def HandlerCall.takesRow (call : HandlerCall n W PK) (h : Handler n W PK)
    (out : HandlerOut n W) : Prop :=
  call.readsRow = true ∧ out.err = none ∧ h.writeStmt = true

/-- How a call leaves the handler. -/
structure CallEnds (call : HandlerCall n W PK) (h : Handler n W PK)
    (x : HandlerOut n W × Handler n W PK) (os : List Int) : Prop where
  owned : os = x.2.owned
  released : call.changesRow = true ∨ call.endsStatement = true → x.2.rowLocked = false
  taken : h.rowLocked = false → ¬ call.takesRow h x.1 → x.2.rowLocked = false

/-- A call that neither changes a row nor ends the statement ends well with its lock
settled. -/
theorem CallEnds.of_lockSettled {call : HandlerCall n W PK} {x : HandlerOut n W × Handler n W PK}
    {took : Prop} (hx : LockSettled h took x.2 os) (htook : took → call.takesRow h x.1)
    (hkind : call.changesRow = false)
    (hends : call.endsStatement = false) : CallEnds call h x os := by
  refine ⟨hx.owned, ?_, fun hfree hnot => hx.taken hfree fun ht => hnot (htook ht)⟩
  simp [hkind, hends]

/-- Any call ends well with no row locked. -/
theorem CallEnds.of_unlocked {call : HandlerCall n W PK} {x : HandlerOut n W × Handler n W PK}
    (hx : x.2.rowLocked = false ∧ os = []) : CallEnds call h x os := by
  refine ⟨?_, fun _ => hx.1, fun _ _ => hx.1⟩
  rw [hx.2, owned_of_unlocked hx.1]

variable [DecidableEq (Image n W)]

/-- **Every call keeps the book.** -/
theorem owning_call (tab : TableCfg n W PK) (call : HandlerCall n W PK)
    (hcall : call.onRows = true) :
    Owning call.changesRow (CallEnds call h) (call.code tab h) h.owned := by
  have hread : ∀ call : HandlerCall n W PK, call.readsRow = true → call.changesRow = false →
      call.endsStatement = false → ∀ p : Core n W PK (HandlerOut n W × Handler n W PK),
      Owning false (fun x os => LockSettled h (Took h x) x.2 os) p h.owned →
      Owning false (CallEnds call h) p h.owned :=
    fun call hrow hkind hends p hp =>
      hp.imp fun x os hx => .of_lockSettled hx (fun ht => ⟨hrow, ht⟩) hkind hends
  have hrest : ∀ call : HandlerCall n W PK, call.changesRow = false → call.endsStatement = false →
      ∀ p : Core n W PK (HandlerOut n W × Handler n W PK),
      Owning false (fun x os => LockSettled h False x.2 os) p h.owned →
      Owning false (CallEnds call h) p h.owned :=
    fun call hkind hends p hp => hp.imp fun x os hx => .of_lockSettled hx False.elim hkind hends
  cases call with
  | externalLock lockType =>
    show Owning false _ (FastMem.externalLock lockType h) h.owned
    unfold FastMem.externalLock
    refine Prog.Watched.ite (fun hlock => owning_pure ?_) fun _ =>
      Prog.Watched.ite (fun _ => ?_) fun hlock => ?_
    · have hne : ¬ fWrlck = fUnlck := by decide
      exact .of_lockSettled (.same rfl rfl) False.elim rfl
        (by simp [HandlerCall.endsStatement, hlock, hne])
    · exact owning_externalUnlock.imp fun _ _ hx => .of_unlocked hx
    · exact owning_pure
        (.of_lockSettled (.same rfl rfl) False.elim rfl
          (by simp [HandlerCall.endsStatement, hlock]))
  | op o =>
    cases o with
    | externalLockWrite => exact hrest _ rfl rfl _ (owning_pure (.same rfl rfl))
    | externalLockUnlock => exact owning_externalUnlock.imp fun _ _ hx => .of_unlocked hx
    | indexReadMap index key buf => exact hread _ rfl rfl rfl _ (owning_indexRead index key buf)
    | indexReadLastMap index key buf => exact hread _ rfl rfl rfl _ (owning_indexRead index key buf)
    | indexReadIdxMap index key buf => exact hread _ rfl rfl rfl _ (owning_indexRead index key buf)
    | indexNext buf => exact hread _ rfl rfl rfl _ (owning_indexNext buf)
    | rndInit scan => exact hrest _ rfl rfl _ (owning_rndInit scan)
    | rndNext buf => exact hread _ rfl rfl rfl _ (owning_rndNext buf)
    | rndPos pos buf => exact hread _ rfl rfl rfl _ (owning_rndPos pos buf)
    | findUniqueRow index record => exact hread _ rfl rfl rfl _ (owning_findUniqueRow index record)
    | writeRow auto rec => exact hrest _ rfl rfl _ (owning_writeRow auto rec)
    | updateRow old new =>
      have hupdate : Owning true _ (handlerUpdateRow tab old new h) h.owned :=
        owning_lockedWrite fun info os hidx => still_fmUpdateLocked hidx old new
      exact hupdate.imp fun _ _ hx => .of_unlocked hx
    | deleteRow old =>
      have hdelete : Owning true _ (handlerDeleteRow tab old h) h.owned :=
        owning_lockedWrite fun info os hidx => still_fmDeleteLocked hidx old
      exact hdelete.imp fun _ _ hx => .of_unlocked hx
    | deleteAllRows => cases hcall
    | reset => exact owning_handlerReset.imp fun _ _ hx => .of_unlocked hx
    | setReadCheck on => exact hrest _ rfl rfl _ (owning_pure (.same rfl rfl))
    | resetState => exact hrest _ rfl rfl _ (owning_pure (.same rfl rfl))

/-- A call that has returned: the handler it found, its accesses and its result. -/
structure CallRecord (n : Nat) (W PK : Type) where
  call : HandlerCall n W PK
  before : Handler n W PK
  acts : List (Act n W)
  out : HandlerOut n W

/-- Calls on one handler, one after the other, the last one first.  Each goes along a path
of its own: what its accesses answer is for other clients to decide. -/
inductive HandlerCalls (tab : TableCfg n W PK) (h₀ : Handler n W PK) :
    List (CallRecord n W PK) → Handler n W PK → Prop
  | opened : HandlerCalls tab h₀ [] h₀
  | call {log : List (CallRecord n W PK)} {h h' : Handler n W PK} {call : HandlerCall n W PK}
      {acts : List (Act n W)} {out : HandlerOut n W} (before : HandlerCalls tab h₀ log h)
      (onRows : call.onRows = true)
      (path : Prog.Path (S := coreSig n W PK) (procBody tab.toShareCfg) (call.code tab h)
        acts (out, h')) :
      HandlerCalls tab h₀ (⟨call, h, acts, out⟩ :: log) h'

/-- The accesses of all calls, in their order. -/
def performed : List (CallRecord n W PK) → List (Act n W)
  | [] => []
  | d :: log => performed log ++ d.acts

/-- Since the last end of a statement, or since the handler was opened, no row has been read
inside a write statement. -/
def NoRowSince : List (CallRecord n W PK) → Prop
  | [] => True
  | d :: log => d.call.endsStatement = true ∨ ¬ d.call.takesRow d.before d.out ∧ NoRowSince log

omit [DecidableEq (Image n W)] in
/-- What a guarded monitor takes, an unguarded one takes. -/
theorem owns_of_guarded {os' : List Int} (ha : a.owns b os = some os') :
    a.owns false os = some os' := by
  unfold Act.owns at ha ⊢
  split
  · exact ha
  · exact ha
  · simp_all

omit [DecidableEq (Image n W)] in
/-- What keeps to the row locks with the guard on stores does so without it. -/
theorem foldlM_owns_of_guarded {os' : List Int} {acts : List (Act n W)}
    (h : acts.foldlM (fun os a => a.owns b os) os = some os') :
    acts.foldlM (fun os a => a.owns false os) os = some os' := by
  induction acts generalizing os with
  | nil => exact h
  | cons a acts ih =>
    rw [List.foldlM_cons] at h ⊢
    obtain ⟨os₁, hact, hrest⟩ := Option.bind_eq_some_iff.mp h
    exact Option.bind_eq_some_iff.mpr ⟨os₁, owns_of_guarded hact, ih hrest⟩

variable {tab : TableCfg n W PK} {h₀ h' : Handler n W PK} {call : HandlerCall n W PK}
  {acts : List (Act n W)}

/-- A call in progress. -/
theorem Way.owning {q : Core n W PK (HandlerOut n W × Handler n W PK)} (hcall : call.onRows = true)
    (hway : Prog.Way (S := coreSig n W PK) (procBody tab.toShareCfg) (call.code tab h) acts q) :
    ∃ os, acts.foldlM (fun os a => a.owns call.changesRow os) h.owned = some os ∧
      Owning call.changesRow (CallEnds call h) q os :=
  hway.watched (fun _ ha x => owns_of_inLoop ha x) inLoop_procBody (owning_call tab call hcall)

/-- Between calls. -/
theorem HandlerCalls.book {log : List (CallRecord n W PK)} (hcalls : HandlerCalls tab h₀ log h)
    (h₀free : h₀.rowLocked = false) :
    (performed log).foldlM (fun os a => a.owns false os) [] = some h.owned ∧
      (NoRowSince log → h.rowLocked = false) := by
  induction hcalls with
  | opened =>
    rw [owned_of_unlocked h₀free]
    exact ⟨rfl, fun _ => h₀free⟩
  | @call log h h' call acts out before honRows hpath ih =>
    obtain ⟨os, hfold, hends⟩ := Way.owning honRows hpath.way
    have hends : CallEnds call h (out, h') os := hends
    obtain ⟨hbook, hfree⟩ := ih
    constructor
    · rw [performed, List.foldlM_append, hbook, ← hends.owned]
      exact foldlM_owns_of_guarded hfold
    · intro hsince
      obtain hend | ⟨hnot, hsince⟩ := hsince
      · exact hends.released (Or.inr hend)
      · exact hends.taken (hfree hsince) hnot

/-- **The bookkeeping of the row lock.**  After every sequence of calls on a handler that
has been opened, whatever other clients make of its reads: the wlocks that the calls have
taken and not released are that of `lockedSlot`, if `rowLocked` is set, and no other; and
from the end of a statement on there is none until a row is read inside a write statement.
In the course of every further call no wlock is taken that is owned and none released that
is not, `update_row` and `delete_row` modify no slot whose wlock is not owned at that
moment, and they return without any. -/
theorem row_lock_bookkeeping (tab : TableCfg n W PK) (lastkey : PK) (scratch : Image n W)
    (log : List (CallRecord n W PK)) (h : Handler n W PK)
    (hcalls : HandlerCalls tab (Handler.opened lastkey scratch) log h) :
    (performed log).foldlM (fun os a => a.owns false os) [] = some h.owned ∧
    (NoRowSince log → h.owned = []) ∧
    ∀ call : HandlerCall n W PK, call.onRows = true → ∀ acts q,
      Prog.Way (S := coreSig n W PK) (procBody tab.toShareCfg) (call.code tab h) acts q →
      ∃ os, acts.foldlM (fun os a => a.owns call.changesRow os) h.owned = some os ∧
        ∀ out h', q = pure (out, h') → os = h'.owned ∧ (call.changesRow = true → os = []) := by
  obtain ⟨hbook, hsince⟩ := hcalls.book rfl
  refine ⟨hbook, fun hno => owned_of_unlocked (hsince hno), fun call hcall acts q hway => ?_⟩
  obtain ⟨os, hfold, hends⟩ := Way.owning hcall hway
  refine ⟨os, hfold, ?_⟩
  rintro out h' rfl
  have hends : CallEnds call h (out, h') os := hends
  refine ⟨hends.owned, fun hkind => ?_⟩
  rw [hends.owned]
  exact owned_of_unlocked (hends.released (Or.inl hkind))

/-- A write statement reads a row that was written before: the handler owns its wlock. -/
theorem row_lock_bookkeeping_read :
    ∃ log h, HandlerCalls (wordHandlers 1) (Handler.opened 0 fun _ => 0) log h ∧
      (performed log).foldlM (fun os a => a.owns false os) [] = some [0] := by
  have heval : ((machine (wordTable 1)).eval 0 200 (HandlerCall.code (wordHandlers 1)
      (.op (.writeRow none fun _ => 7)) (Handler.opened 0 fun _ => 0))
      (Share.fresh fun _ _ => 0)).any
      (fun x => ((machine (wordTable 1)).eval 0 200 (HandlerCall.code (wordHandlers 1)
        (.externalLock fWrlck) x.1.2) x.2).any fun y => ((machine (wordTable 1)).eval 0 200
          (HandlerCall.code (wordHandlers 1) (.op (.indexReadMap 0 7 fun _ => 0)) y.1.2) y.2).any
            fun z => z.1.2.rowLocked && decide (z.1.2.lockedSlot = 0)) = true := by
    decide +kernel
  obtain ⟨⟨⟨out₁, h₁⟩, s₁⟩, hwrite, heval⟩ := (Option.any_eq_true _ _).mp heval
  obtain ⟨⟨⟨out₂, h₂⟩, s₂⟩, hlock, heval⟩ := (Option.any_eq_true _ _).mp heval
  obtain ⟨⟨⟨out₃, h₃⟩, s₃⟩, hread, hheld⟩ := (Option.any_eq_true _ _).mp heval
  simp only [Bool.and_eq_true, decide_eq_true_eq] at hheld
  obtain ⟨acts₁, htrace₁⟩ := (Machine.Runs.of_eval hwrite).traces
  obtain ⟨acts₂, htrace₂⟩ := (Machine.Runs.of_eval hlock).traces
  obtain ⟨acts₃, htrace₃⟩ := (Machine.Runs.of_eval hread).traces
  have hcalls₁ : HandlerCalls (wordHandlers 1) (Handler.opened 0 fun _ => 0) _ h₁ :=
    .call .opened rfl htrace₁.path
  have hcalls₂ : HandlerCalls (wordHandlers 1) (Handler.opened 0 fun _ => 0) _ h₂ :=
    .call hcalls₁ rfl htrace₂.path
  have hcalls₃ : HandlerCalls (wordHandlers 1) (Handler.opened 0 fun _ => 0) _ h₃ :=
    .call hcalls₂ rfl htrace₃.path
  have hbook := (row_lock_bookkeeping (wordHandlers 1) 0 (fun _ => 0) _ h₃ hcalls₃).1
  refine ⟨_, h₃, hcalls₃, hbook.trans ?_⟩
  rw [owned_of_locked hheld.1, hheld.2]

end FastMem
