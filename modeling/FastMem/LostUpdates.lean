import FastMem.HandlerLocks
import FastMem.Handles
import FastMem.WriteChain

/-!
# No lost updates

A write statement reads a row, computes, and writes the row back.  The read leaves the
wlock of the row with the handler, and what it returned was read again under this lock;
the write finds the lock still held.  So whatever other handlers do in between, the write
is computed from the image the slot holds when it commits, and the writes of one row are a
serial chain.

A row whose slot number is negative is not locked by the read.  Its write is refused.
-/

namespace FastMem

open Conc

variable {n : Nat} {W PK : Type}

/-- The write of a call. -/
def HandlerOp.rewrite : HandlerOp n W PK → Option (Rewrite (Image n W))
  | .updateRow old new => some ⟨old, some new⟩
  | .deleteRow old => some ⟨old, none⟩
  | _ => none

/-- A handler in its cycle of reads and writes: what its last call has given it, if that
was a row read of a write statement and returned 0. -/
structure Cycle (n : Nat) (W PK : Type) where
  handler : Handler n W PK
  given : Option (Image n W)

/-- What a call gives to a write that follows it. -/
def HandlerOp.gives (o : HandlerOp n W PK) (h : Handler n W PK) (out : HandlerOut n W) :
    Option (Image n W) :=
  if o.reads = true ∧ h.writeStmt = true ∧ out.err = none then out.buf else none

/-- A row is updated or deleted right after it has been read in a write statement, with
what the read has given as the old row.  Everything else may be called at any time, but
nothing is cleared. -/
def HandlerOp.inCycle [DecidableEq (Image n W)] (o : HandlerOp n W PK)
    (given : Option (Image n W)) : Bool :=
  match o with
  | .updateRow old _ | .deleteRow old => decide (given = some old)
  | .deleteAllRows => false
  | _ => true

/-- Handlers in their cycles. -/
@[reducible] def cycles [DecidableEq (Image n W)] (tab : TableCfg n W PK) :
    System (coreSig n W PK) (Share n W) (HandlerOp n W PK) (Cycle n W PK) (HandlerOut n W) where
  toMachine := machine tab.toShareCfg
  may := fun o l => o.inCycle l.given
  code := fun o l => do
    let x ← o.code tab l.handler
    pure (x.1, ⟨x.2, o.gives l.handler x.1⟩)

/-- Handlers that have just been opened. -/
def Cycle.opened (h₀ : Nat → Handler n W PK) (t : Nat) : Cycle n W PK := ⟨h₀ t, none⟩

/-- The row a handler has locked has a number. -/
def Handler.LocksSlot (h : Handler n W PK) : Prop := h.rowLocked = true → 0 ≤ h.lockedSlot

section

variable {tab : TableCfg n W PK} {h : Handler n W PK}

/-- A call that leaves its handler with a row that has a number, if it locks one. -/
abbrev LeavesSlot (p : Core n W PK (HandlerOut n W × Handler n W PK)) : Prop :=
  Prog.Returns (S := coreSig n W PK) (fun x => x.2.LocksSlot) p

/-- A handler with no row locked need not know which. -/
theorem locksSlot_of_unlocked (hrow : h.rowLocked = false) : h.LocksSlot := by
  intro hlocked
  rw [hrow] at hlocked
  cases hlocked

/-- `unlock_current_row` leaves no row locked. -/
theorem returns_unlockCurrentRow :
    Prog.Returns (S := coreSig n W PK) (fun h' => h'.rowLocked = false) (unlockCurrentRow h) := by
  unfold unlockCurrentRow
  refine Prog.Returns.ite (fun _ => ?_) fun hrow => ?_
  · exact fun _ => rfl
  · exact Bool.eq_false_iff.mpr hrow

/-- `lock_current_row` locks the current slot. -/
theorem returns_lockCurrentRow (hslot : h.LocksSlot) :
    Prog.Returns (S := coreSig n W PK) Handler.LocksSlot (lockCurrentRow h) := by
  unfold lockCurrentRow
  refine Prog.Returns.ite (fun _ => hslot) fun hpos => Prog.Returns.ite (fun _ => hslot) fun _ => ?_
  have hfile : Prog.Returns (S := coreSig n W PK) (fun h' => h'.file = h.file)
    (unlockCurrentRow h) := by
    unfold unlockCurrentRow
    exact Prog.Returns.ite (fun _ _ => rfl) fun _ => rfl
  refine hfile.bind fun h' hsame => ?_
  intro _ _
  show 0 ≤ h'.file.currentSlot
  rw [hsame]
  omega

/-- The row a read has found is the one it locks. -/
theorem leavesSlot_foundRow (gone : HaErr) (found : Option HaErr × Image n W × Info n W PK)
    (hslot : h.LocksSlot) :
    LeavesSlot (rereadInWriteStmt gone found h >>= fun r => pure (readResult r)) := by
  have hfound : Prog.Returns (S := coreSig n W PK) (fun x => x.2.2.LocksSlot)
    (rereadInWriteStmt gone found h) := by
    unfold rereadInWriteStmt
    refine Prog.Returns.ite (fun _ => ?_) fun _ => hslot
    have hfile : Handler.LocksSlot { h with file := found.2.2 } := hslot
    refine (returns_lockCurrentRow hfile).bind fun h' hslot' => ?_
    refine Prog.returns_after _ fun r => Prog.Returns.ite (fun _ => hslot') fun _ => ?_
    exact returns_unlockCurrentRow.bind fun h'' hrow => locksSlot_of_unlocked hrow
  exact hfound.bind fun _ hx => hx

/-- A write locks the current slot. -/
theorem returns_ensureRowLocked (hslot : h.LocksSlot) :
    Prog.Returns (S := coreSig n W PK) (fun x => x.2.LocksSlot) (ensureRowLocked h) := by
  unfold ensureRowLocked lockIfUnlocked
  refine Prog.Returns.ite (fun _ => hslot) fun _ => ?_
  have hlock : Prog.Returns (S := coreSig n W PK) Handler.LocksSlot
      (if h.writeStmt ∧ 0 ≤ h.file.currentSlot ∧ h.rowLocked = false then lockCurrentRow h
        else pure h) :=
    Prog.Returns.ite (fun _ => returns_lockCurrentRow hslot) fun _ => hslot
  refine hlock.bind fun h' hslot' => Prog.Returns.ite (fun _ => hslot') fun _ => ?_
  exact returns_unlockCurrentRow.bind fun h'' hrow => locksSlot_of_unlocked hrow

/-- `update_row` and `delete_row`, whatever they write. -/
theorem leavesSlot_lockedWrite (write : Info n W PK → Core n W PK (Option HaErr × Info n W PK))
    (hslot : h.LocksSlot) : LeavesSlot (do
      let (locked, h) ← ensureRowLocked h
      if locked then
        let (err, info) ← write h.file
        let h ← unlockCurrentRow { h with file := info }
        pure (⟨err, none⟩, h)
      else
        pure (⟨some .recordChanged, none⟩, h)) := by
  refine (returns_ensureRowLocked hslot).bind fun x hx => Prog.Returns.ite (fun _ => ?_) fun _ => hx
  refine Prog.returns_after _ fun r => ?_
  exact returns_unlockCurrentRow.bind fun h' hrow => locksSlot_of_unlocked hrow

/-- Every call leaves its handler with a row that has a number, if it locks one. -/
theorem leavesSlot_code [DecidableEq (Image n W)] (o : HandlerOp n W PK) (hslot : h.LocksSlot) :
    LeavesSlot (o.code tab h) := by
  have hunlock : ∀ {h : Handler n W PK} (out : HandlerOut n W)
      (f : Handler n W PK → Handler n W PK), (∀ h', (f h').rowLocked = h'.rowLocked) →
      LeavesSlot (unlockCurrentRow h >>= fun h' => pure (out, f h')) := by
    intro h out f hf
    refine returns_unlockCurrentRow.bind fun h' hrow => ?_
    exact locksSlot_of_unlocked ((hf h').trans hrow)
  cases o with
  | externalLockWrite => exact hslot
  | externalLockUnlock => exact hunlock _ id fun _ => rfl
  | indexReadMap index key buf | indexReadLastMap index key buf | indexReadIdxMap index key buf =>
      exact Prog.returns_after _ fun found => leavesSlot_foundRow _ found hslot
  | indexNext buf =>
      refine Prog.Returns.ite (fun _ => hslot) fun _ => Prog.returns_after _ fun found => ?_
      exact Prog.Returns.ite (fun _ => hslot) fun _ => leavesSlot_foundRow _ found hslot
  | rndInit scan => exact Prog.Returns.ite (fun _ => hunlock _ _ fun _ => rfl) fun _ => hslot
  | rndNext buf => exact Prog.returns_after _ fun found => leavesSlot_foundRow _ found hslot
  | rndPos pos buf => exact Prog.returns_after _ fun found => leavesSlot_foundRow _ found hslot
  | findUniqueRow index record =>
      refine Prog.Returns.ite (fun _ => Prog.returns_after _ fun r => ?_) fun _ => hslot
      refine Prog.Returns.ite (fun _ => fun v => ?_) fun _ => hslot
      exact leavesSlot_foundRow _ _ hslot
  | writeRow auto rec =>
      refine Prog.returns_after _ fun rec? => ?_
      cases rec? with
      | none => exact hslot
      | some rec => exact Prog.returns_after _ fun x => hslot
  | updateRow old new =>
      exact leavesSlot_lockedWrite (fun info => fmUpdateLocked tab info old new) hslot
  | deleteRow old => exact leavesSlot_lockedWrite (fun info => fmDeleteLocked tab info old) hslot
  | deleteAllRows => exact Prog.returns_after _ fun info => hslot
  | reset => exact hunlock _ _ fun _ => rfl
  | setReadCheck on => exact hslot
  | resetState => exact hslot

end

/-- The setting of cycles on the share `s₀`: every write commits to a slot that holds the
image it was computed from. -/
def cycleSetting (tab : TableCfg n W PK) (s₀ : Share n W) : Setting n W PK (HandlerOp n W PK)
    (HandlerOut n W) where
  cfg := tab.toShareCfg
  kinds := fun k => k ≠ .index ∧ k ≠ .clear
  commits := fun c w k =>
    match k with
    | .write i old new => c.op.rewrite = some ⟨old, some new⟩ ∧ w.mem.data i = old
    | .mark i => ∃ old, c.op.rewrite = some ⟨old, none⟩ ∧ w.mem.data i = old
    | .flip _ => False
    | _ => True
  returns := fun _ _ _ => True
  meets := fun _ _ _ => True
  share := s₀

/-- The write cycles rewrite rows under their locks. -/
theorem cycleSetting_rewrites (tab : TableCfg n W PK) (data : Int → Image n W) :
    (cycleSetting tab (Share.fresh data)).Rewrites HandlerOp.rewrite where
  sound := ⟨⟨data, rfl⟩, fun _ _ _ h => h.elim⟩
  update := fun _ _ _ _ _ h => h
  delete := fun _ _ _ h => h
  flip := fun _ _ _ h => h

/-- A handler between two calls: its thread knows the row it has been given, if the row has
a number. -/
structure InCycle (l : Cycle n W PK) (g : Role n W) : Prop where
  home : AtHome l.handler g
  slot : l.handler.LocksSlot
  given : ∀ img, l.given = some img → 0 ≤ l.handler.file.currentSlot →
    l.handler.rowLocked = true ∧ Knows l.handler.file.currentSlot l.handler.file.currentGen img g

/-- How a call ends that gives the row it has read. -/
def Gives (o : HandlerOp n W PK) (h : Handler n W PK) (g : Role n W)
    (x : HandlerOut n W × Handler n W PK) (g' : Role n W) : Prop :=
  Back g x.2 g' ∧ ∀ img, o.gives h x.1 = some img → 0 ≤ x.2.file.currentSlot →
    x.2.rowLocked = true ∧ Knows x.2.file.currentSlot x.2.file.currentGen img g'

section

variable {tab : TableCfg n W PK} {h : Handler n W PK} {data : Int → Image n W} {g : Role n W}
  {t st m : Nat} {Loc : Type} {Idle : Loc → Role n W → Prop} {l : Cycle n W PK}

/-- A call that is no read gives back the handler it was given. -/
theorem Gives.of_back {o : HandlerOp n W PK} {x : HandlerOut n W × Handler n W PK} {g' : Role n W}
    (hback : Back g x.2 g') (ho : o.reads = false) : Gives o h g x g' := by
  refine ⟨hback, fun img hgives => ?_⟩
  simp [HandlerOp.gives, ho] at hgives

/-- A read gives what it has seen. -/
theorem Gives.of_read {P : Nat → Image n W → Prop} {N S : Int → Prop} {o : HandlerOp n W PK}
    {x : HandlerOut n W × Handler n W PK} {g' : Role n W}
    (hends : ReadEnds P N S h.writeStmt g x g') : Gives o h g x g' := by
  obtain ⟨hback, hok⟩ := hends
  refine ⟨hback, fun img hgives hpos => ?_⟩
  unfold HandlerOp.gives at hgives
  split at hgives
  · rename_i hread
    obtain ⟨img', hbuf, hrow, -⟩ := hok hread.2.1 hread.2.2
    obtain rfl : img = img' := Option.some.inj (hgives.symm.trans hbuf)
    exact ⟨(hrow.locked hpos).1, hrow.knows hpos⟩
  · cases hgives

/-- A row without a number is not locked, and is not written. -/
theorem ensureRowLocked_refuses (hslot : h.LocksSlot) (hneg : h.file.currentSlot < 0) :
    ensureRowLocked h = (unlockCurrentRow h >>= fun h => pure (false, h)) := by
  have hnot : ¬ (h.rowLocked = true ∧ h.lockedSlot = h.file.currentSlot) := by
    rintro ⟨hrow, hsame⟩
    have hpos := hslot hrow
    omega
  have hlock : lockIfUnlocked h = (pure h : Core n W PK _) := if_neg fun hcond => by omega
  unfold ensureRowLocked
  rw [if_neg fun hcond => hnot hcond.2, hlock]
  exact if_neg hnot

/-- A write without a current slot does nothing. -/
theorem follows_lockedWrite_refused (write : Info n W PK → Core n W PK (Option HaErr × Info n W PK))
    {c : Call (HandlerOp n W PK)} {T : Setting n W PK (HandlerOp n W PK) (HandlerOut n W)}
    (hhome : AtHome h g) (hslot : h.LocksSlot)
    (hneg : h.file.currentSlot < 0) :
    Follows T Idle c m (do
        let (locked, h) ← ensureRowLocked h
        if locked then
          let (err, info) ← write h.file
          let h ← unlockCurrentRow { h with file := info }
          pure (⟨err, none⟩, h)
        else
          pure (⟨some .recordChanged, none⟩, h))
      (fun (x : HandlerOut n W × Handler n W PK) g' => Back g x.2 g') g := by
  have hguard : Follows T Idle c m (ensureRowLocked h) (fun x g' => x.1 = false ∧
      Back g x.2 g') g := by
    rw [ensureRowLocked_refuses hslot hneg]
    refine Follows.then (follows_unlockCurrentRow hhome) ?_
    exact fun h' g' hback => follows_pure ⟨rfl, hback.2.1⟩
  refine Follows.then hguard ?_
  rintro ⟨locked, h'⟩ g' ⟨hlocked, hback⟩
  refine follows_ite (fun htrue => ?_) fun _ => follows_pure hback
  cases hlocked.symm.trans htrue

variable [DecidableEq (Image n W)] (hin : InCycle l g) (hread : g.read = .none)
  (hsince : g.since = st)

include hin hread in
/-- `update_row` of the row that was given. -/
theorem follows_updateRow_given (old new : Image n W) (hgiven : l.given = some old) :
    Follows (cycleSetting tab (Share.fresh data)) Idle ⟨t, .updateRow old new, st⟩ m
      (handlerUpdateRow tab old new l.handler) (fun x g' => Back g x.2 g') g := by
  by_cases hneg : l.handler.file.currentSlot < 0
  · exact follows_lockedWrite_refused (fun info => fmUpdateLocked tab info old new)
      hin.home hin.slot hneg
  have hsound := (cycleSetting_rewrites tab data).sound
  obtain ⟨hrow, hknows⟩ := hin.given old hgiven (Int.not_lt.mp hneg)
  refine follows_handlerUpdateRow rfl hin.home hread old new fun g₁ _ hrest hsame => ?_
  obtain rfl := hsame hrow
  have hindexed : (cycleSetting tab (Share.fresh data)).Indexed := fun hindex => absurd rfl hindex.1
  have hkind : (cycleSetting tab (Share.fresh data)).kinds .update := ⟨nofun, nofun⟩
  refine follows_updateRowLocked_known hindexed hkind _ _ old new _ hknows.phase hknows.slot hrest
    (fun w γ htrace hphase hslot _ hwords _ => ⟨rfl, ?_⟩) fun _ => trivial
  have hseen := (trace_images hsound.1 hsound.2 htrace).seen t
  rw [← hslot]
  exact hseen.image (by rw [hphase]; rfl) (hwords.trans hknows.words)

include hin hread in
/-- `delete_row` of the row that was given. -/
theorem follows_deleteRow_given (old : Image n W) (hgiven : l.given = some old) :
    Follows (cycleSetting tab (Share.fresh data)) Idle ⟨t, .deleteRow old, st⟩ m
      (handlerDeleteRow tab old l.handler) (fun x g' => Back g x.2 g') g := by
  by_cases hneg : l.handler.file.currentSlot < 0
  · exact follows_lockedWrite_refused (fun info => fmDeleteLocked tab info old)
      hin.home hin.slot hneg
  have hsound := (cycleSetting_rewrites tab data).sound
  obtain ⟨hrow, hknows⟩ := hin.given old hgiven (Int.not_lt.mp hneg)
  refine follows_handlerDeleteRow rfl hin.home hread old fun g₁ _ hrest hsame => ?_
  obtain rfl := hsame hrow
  have hkind : (cycleSetting tab (Share.fresh data)).kinds .delete := ⟨nofun, nofun⟩
  refine (follows_deleteRowLocked_known hsound hkind _ _ _ hknows.phase hknows.slot hknows.gen hrest
    fun w γ htrace hg _ => ⟨old, rfl, ?_⟩).weaken fun _ _ hleft => hleft.1
  have hseen := (trace_images hsound.1 hsound.2 htrace).seen t
  rw [← hknows.slot, ← hg]
  exact hseen.image (by rw [hg, hknows.phase]; rfl) (by rw [hg, hknows.words])

include hin hread hsince in
/-- **Every call of a cycle follows the protocol**, and gives the row it has read. -/
theorem follows_gives (o : HandlerOp n W PK) (ho : o.inCycle l.given = true) :
    Follows (cycleSetting tab (Share.fresh data)) Idle ⟨t, o, st⟩ m (o.code tab l.handler)
      (Gives o l.handler g) g := by
  have hsound := (cycleSetting_rewrites tab data).sound
  have hpins : (cycleSetting tab (Share.fresh data)).Pins ⟨t, o, st⟩ fun _ _ => True := by
    intro _ _ _ _ _ _ _ _ _
    exact ⟨trivial, trivial⟩
  have hhome := hin.home
  have hends : ∀ {expect S p}, RowRead (cycleSetting tab (Share.fresh data)) Idle ⟨t, o, st⟩ expect
      l.handler S g p →
      Follows (cycleSetting tab (Share.fresh data)) Idle ⟨t, o, st⟩ m p (Gives o l.handler g) g :=
        fun hp =>
    (hp.ends (N := fun _ => True) (R := fun _ => True) hsound (fun _ => hpins)
      (fun _ _ _ => trivial) hhome hread hsince
      fun _ _ => trivial).weaken fun _ _ hread => .of_read hread
  -- a handler that only changes its own fields
  have hown : ∀ h' : Handler n W PK, h'.rowStack = l.handler.rowStack → Back g h' g :=
    fun h' hstack => ⟨⟨hhome.rest, hhome.locks.trans hstack.symm, hhome.phase⟩, rfl, rfl⟩
  cases o with
  | externalLockWrite => exact follows_pure (.of_back (hown _ rfl) rfl)
  | externalLockUnlock =>
      exact (follows_externalUnlock hhome).weaken fun x g' hback => .of_back hback rfl
  | indexReadMap index key buf => exact hends (rowRead_indexRead hhome hsince index key buf)
  | indexReadLastMap index key buf => exact hends (rowRead_indexRead hhome hsince index key buf)
  | indexReadIdxMap index key buf => exact hends (rowRead_indexRead hhome hsince index key buf)
  | indexNext buf => exact hends (rowRead_indexNext hhome hsince buf)
  | rndInit scan => exact (follows_rndInit hhome scan).weaken fun x g' hback => .of_back hback rfl
  | rndNext buf => exact hends (rowRead_rndNext hsince buf)
  | rndPos pos buf => exact hends (rowRead_rndPos hsince pos buf)
  | findUniqueRow index record => exact hends (rowRead_findUniqueRow hhome hsince index record)
  | writeRow auto rec =>
      have hkind : (cycleSetting tab (Share.fresh data)).kinds .insert := ⟨nofun, nofun⟩
      refine (follows_writeRow rfl hsound hhome hread hkind (fun _ _ _ => trivial)
        auto rec).weaken ?_
      exact fun x g' hback => .of_back hback rfl
  | updateRow old new =>
      have hgiven : l.given = some old := of_decide_eq_true ho
      exact (follows_updateRow_given hin hread old new hgiven).weaken fun x g' hback =>
        .of_back hback rfl
  | deleteRow old =>
      have hgiven : l.given = some old := of_decide_eq_true ho
      exact (follows_deleteRow_given hin hread old hgiven).weaken fun x g' hback =>
        .of_back hback rfl
  | deleteAllRows => cases ho
  | reset => exact (follows_handlerReset hhome).weaken fun x g' hback => .of_back hback rfl
  | setReadCheck on => exact follows_pure (.of_back (hown _ rfl) rfl)
  | resetState => exact follows_pure (.of_back (hown _ rfl) rfl)

end

/-- The accesses with which writes commit: bumps of sequence numbers, and the marks of
deletes. -/
def Act.commits : Act n W → Option (Act n W)
  | .addSeq i => some (.addSeq i)
  | .storeState i .deleting => some (.storeState i .deleting)
  | _ => none

section

variable {cfg : ShareCfg n W PK} {tab : TableCfg n W PK} {α β : Type}

/-- On every path the accesses that commit, and the result, are as `Q` says. -/
abbrev Commits (cfg : ShareCfg n W PK) (p : Core n W PK α) (Q : List (Act n W) → α → Prop) : Prop :=
  Prog.Emits (S := coreSig n W PK) (procBody cfg) Act.commits p Q

/-- A program that does not commit. -/
abbrev Uncommitting (p : Core n W PK α) : Prop :=
  Machine.Only (S := coreSig n W PK) (fun a => Act.commits a = none) (fun _ => True) p

/-- What stores to no row commits nothing. -/
theorem Still.uncommitting {p : Core n W PK α} (hp : Still true [] p) : Uncommitting p := by
  refine Machine.Only.mono (fun a ha => ?_) (fun _ _ => trivial) hp
  cases a with
  | addSeq i => simp [Act.owns, Act.within] at ha
  | storeState i x => simp [Act.owns, Act.within] at ha
  | _ => rfl

theorem uncommitting_procBody (q : Proc n W PK) : Uncommitting (procBody cfg q) := by
  refine Machine.Only.mono (fun a ha => ?_) (fun _ _ => trivial) (inLoop_procBody q)
  cases a <;> first | rfl | cases ha

variable {Q : List (Act n W) → α → Prop} {R : List (Act n W) → β → Prop}

/-- A program that commits nothing. -/
theorem Uncommitting.commits {p : Core n W PK α} (hp : Uncommitting p) :
    Commits cfg p fun es _ => es = [] :=
  Prog.emits_none (fun _ ha => ha) uncommitting_procBody hp

/-- The commits of one program after another. -/
theorem Commits.bind {p : Core n W PK α} {f : α → Core n W PK β} (hp : Commits cfg p Q)
    (hf : ∀ es a, Q es a → Commits cfg (f a) fun es' b => R (es ++ es') b) :
    Commits cfg (p >>= f) R :=
  Prog.Emits.bind hp hf

/-- A part of a program that does not commit leaves that to the rest. -/
theorem Uncommitting.commits_bind {p : Core n W PK α} {f : α → Core n W PK β} (hp : Uncommitting p)
    (hf : ∀ a, Commits cfg (f a) R) : Commits cfg (p >>= f) R := by
  refine hp.commits.bind fun es a hes => ?_
  subst hes
  exact hf a

/-- A result commits nothing. -/
theorem commits_pure {a : α} (h : Q [] a) : Commits cfg (pure a : Core n W PK α) Q :=
  Prog.emits_ret h

/-- An image write bumps the sequence number twice. -/
theorem commits_writeImage (idx : Int) (rec : Image n W) :
    Commits cfg (writeImage idx rec) fun es _ => es = [.addSeq idx, .addSeq idx] := by
  have hbump : Commits cfg (access (.addSeq idx)) fun es _ => es = [.addSeq idx] :=
    Prog.emits_perform fun _ => rfl
  have hcopy : ∀ js, Uncommitting (copyIn idx rec js : Core n W PK Unit) := by
    intro js
    induction js with
    | nil => exact only_pure _
    | cons j js ih => exact only_bind (only_access rfl) fun _ => ih
  refine hbump.bind fun es _ hes => (hcopy _).commits_bind fun _ => ?_
  subst hes
  exact hbump.imp fun es _ hes => by rw [hes]; rfl

/-- An update that succeeds has written its image. -/
theorem commits_updateRowLocked (idx : Int) (v : Nat) (old new scratch : Image n W) :
    Commits cfg (updateRowLocked cfg idx v old new scratch) fun es r => r.rc = .ok →
    es = [.addSeq idx, .addSeq idx] := by
  refine (still_verifySlot idx v).uncommitting.commits_bind fun valid =>
    Prog.Emits.ite (fun _ => ?_) fun _ => ?_
  · refine Prog.Emits.ite (fun _ => ?_) fun _ => ?_
    · refine (commits_writeImage idx new).bind fun es _ hes => commits_pure fun _ => ?_
      rw [hes, List.append_nil]
    · refine (still_lockAll none _).uncommitting.commits_bind fun _ => ?_
      refine (loads_dupChecks new scratch _).still.uncommitting.commits_bind fun dup => ?_
      cases dup with
      | some k => exact (still_unlockAll _).uncommitting.commits_bind fun _ => commits_pure nofun
      | none =>
        refine (commits_writeImage idx new).bind fun es _ hes => ?_
        refine (still_moveKeys idx old new _).uncommitting.commits_bind fun _ => ?_
        refine (still_unlockAll _).uncommitting.commits_bind fun _ => commits_pure fun _ => ?_
        rw [hes, List.append_nil]
  · exact commits_pure nofun

/-- A delete that succeeds has marked its slot. -/
theorem commits_deleteRowLocked (idx : Int) (v : Nat) (scratch : Image n W) :
    Commits cfg (deleteRowLocked cfg idx v scratch) fun es rc => rc = .ok →
    .storeState idx .deleting ∈ es := by
  refine (still_verifySlot idx v).uncommitting.commits_bind fun valid =>
    Prog.Emits.ite (fun _ => ?_) fun _ => ?_
  · have hmark : Commits cfg (access (.storeState idx .deleting)) fun es _ => es =
        [.storeState idx .deleting] :=
      Prog.emits_perform fun _ => rfl
    refine hmark.bind fun es _ hes => ?_
    intro es' rc _ _
    rw [hes]
    exact List.mem_cons_self
  · exact commits_pure nofun

/-- The row lock is no commit. -/
theorem uncommitting_unlockCurrentRow (h : Handler n W PK) : Uncommitting (unlockCurrentRow h) := by
  unfold unlockCurrentRow
  exact .ite (only_bind (only_access rfl) fun _ => only_pure _) (only_pure _)

theorem uncommitting_ensureRowLocked (h : Handler n W PK) : Uncommitting (ensureRowLocked h) := by
  have hlock : ∀ h : Handler n W PK, Uncommitting (lockCurrentRow h) := by
    intro h
    unfold lockCurrentRow
    refine .ite (only_pure _)
      (.ite (only_pure _) (only_bind (uncommitting_unlockCurrentRow h) fun _ => ?_))
    exact only_bind (only_access rfl) fun _ => only_pure _
  unfold ensureRowLocked lockIfUnlocked
  refine .ite (only_pure _) (only_bind (.ite (hlock h) (only_pure _)) fun h' =>
    .ite (only_pure _) ?_)
  exact only_bind (uncommitting_unlockCurrentRow h') fun _ => only_pure _

/-- `update_row` and `delete_row`, given what the write commits when it succeeds. -/
theorem commits_lockedWrite {P : List (Act n W) → Prop} {h : Handler n W PK}
    {write : Info n W PK → Core n W PK (Option HaErr × Info n W PK)}
    (hwrite : ∀ info, Commits cfg (write info) fun es r => r.1 = none → P es) :
    Commits cfg (do
      let (locked, h) ← ensureRowLocked h
      if locked then
        let (err, info) ← write h.file
        let h ← unlockCurrentRow { h with file := info }
        pure (⟨err, none⟩, h)
      else
        pure (⟨some .recordChanged, none⟩, h)) fun es (x : HandlerOut n W × Handler n W PK) =>
          x.1.err = none → P es := by
  refine (uncommitting_ensureRowLocked h).commits_bind fun x => Prog.Emits.ite (fun _ => ?_)
    fun _ => commits_pure nofun
  refine (hwrite x.2.file).bind fun es r hes => ?_
  refine (uncommitting_unlockCurrentRow _).commits_bind fun h' => commits_pure fun herr => ?_
  rw [List.append_nil]
  exact hes herr

variable [DecidableEq (Image n W)]

/-- An update that succeeds has written one image. -/
theorem commits_fmUpdateLocked (info : Info n W PK) (old new : Image n W) :
    Commits tab.toShareCfg (fmUpdateLocked tab info old new) fun es r =>
      r.1 = none → ∃ i, es = [.addSeq i, .addSeq i] := by
  refine (still_fmReadCheck old).uncommitting.commits_bind fun stale => ?_
  cases stale with
  | some err => exact commits_pure nofun
  | none =>
    refine (commits_updateRowLocked info.currentSlot _ old new _).bind fun es r hes => ?_
    refine Prog.Emits.ite (fun hrc => ?_) fun _ => commits_pure nofun
    refine (still_fmUpdateAutoIncrement new).uncommitting.commits_bind fun _ =>
      commits_pure fun _ => ?_
    rw [List.append_nil]
    exact ⟨_, hes hrc⟩

/-- A delete that succeeds has marked its row. -/
theorem commits_fmDeleteLocked (info : Info n W PK) (old : Image n W) :
    Commits tab.toShareCfg (fmDeleteLocked tab info old) fun es r =>
      r.1 = none → ∃ i, .storeState i .deleting ∈ es := by
  refine (still_fmReadCheck old).uncommitting.commits_bind fun stale => ?_
  cases stale with
  | some err => exact commits_pure nofun
  | none =>
    refine (commits_deleteRowLocked info.currentSlot _ _).bind fun es rc hes => ?_
    refine Prog.Emits.ite (fun hrc => commits_pure fun _ => ?_) fun _ => commits_pure nofun
    rw [List.append_nil]
    exact ⟨_, hes hrc⟩

end

section

variable [DecidableEq (Image n W)] {tab : TableCfg n W PK} {data : Int → Image n W}
  {h₀ : Nat → Handler n W PK}
  {c : Config (coreSig n W PK) (Share n W) (HandlerOp n W PK) (Cycle n W PK) (HandlerOut n W)}

/-- Every run of cycles has a trace. -/
theorem cycles_trace (hopened : Opened h₀)
    (h : (cycles tab).Reach (fun _ _ _ => True)
      (System.start (Share.fresh data) (Cycle.opened h₀)) c) :
    ∃ γ, (cycleSetting tab (Share.fresh data)).Trace c.world γ := by
  have hidle : ∀ t, InCycle (Cycle.opened h₀ t) (Role.init : Role n W) := by
    intro t
    obtain ⟨lastkey, scratch, heq⟩ := hopened t
    unfold Cycle.opened
    rw [heq]
    exact ⟨opened_atHome lastkey scratch, locksSlot_of_unlocked rfl, nofun⟩
  have hcalls : ∀ t o l w γ m, (cycleSetting tab (Share.fresh data)).Trace w γ → InCycle l (γ t) →
      (cycles tab).may o l = true →
      Follows (cycleSetting tab (Share.fresh data)) (@InCycle n W PK) ⟨t, o, w.now⟩ m
      ((cycles tab).code o l)
        (fun x g => True ∧ InCycle x.2 g)
        ((cycleSetting tab (Share.fresh data)).rules.start w.now (γ t)) := by
    intro t o l w γ m _ hγ hmay
    have hstart : InCycle l ((cycleSetting tab (Share.fresh data)).rules.start w.now (γ t)) := by
      constructor
      case home =>
        exact ⟨⟨hγ.home.rest.walk, hγ.home.rest.dup, hγ.home.rest.checked, hγ.home.rest.free,
        hγ.home.rest.chunk, hγ.home.rest.extra, hγ.home.rest.flipped, rfl⟩,
        hγ.home.locks, hγ.home.phase⟩
      case slot => exact hγ.slot
      case given =>
        intro img hgiven hpos
        obtain ⟨hrow, hknows⟩ := hγ.given img hgiven hpos
        exact ⟨hrow, hknows.phase, hknows.slot, hknows.gen, hknows.words, rfl⟩
    refine Follows.then (Logic.Safe.returns (follows_gives hstart rfl rfl o hmay)
      (leavesSlot_code o hγ.slot)) ?_
    rintro x g ⟨⟨hback, hgives⟩, hslot⟩
    exact follows_pure ⟨trivial, hback.home, hslot, hgives⟩
  obtain ⟨γ, htrace, -⟩ := System.reach_trace hidle hcalls h 0
  exact ⟨γ, htrace⟩

omit [DecidableEq (Image n W)] in
/-- The bumps among the accesses that commit. -/
theorem bumps_of_commits (es : List (CoreEntry n W PK (HandlerOp n W PK))) :
    ((es.map Entry.act).filterMap Act.commits).filter Act.bumps =
    (es.filter fun e => Act.bumps e.act).map Entry.act := by
  apply bumps_of_filterMap
  · intro a ha
    cases a with
    | addSeq i => rfl
    | _ => cases ha
  · intro a b hb
    cases a with
    | addSeq i => exact Option.some.inj hb
    | storeState i x => cases x <;> simp_all [Act.commits]
    | _ => cases hb

/-- A write that has returned 0 has committed. -/
theorem cycles_committed (hopened : Opened h₀)
    (h : (cycles tab).Reach (fun _ _ _ => True)
      (System.start (Share.fresh data) (Cycle.opened h₀)) c)
    {ev : Event (HandlerOp n W PK) (HandlerOut n W)} (hev : ev ∈ c.world.log)
    {u : Rewrite (Image n W)} (hwrite : ev.call.op.rewrite = some u) (herr : ev.out.err = none) :
    ∃ e ∈ c.world.past, e.call = ev.call ∧ ∃ i, commitTo HandlerOp.rewrite i e = some u := by
  obtain ⟨γ, htrace⟩ := cycles_trace hopened h
  obtain ⟨⟨t, o, st⟩, out, stop⟩ := ev
  obtain ⟨hstop, l, l', acts, -, hpath, mine, older, hdone, hcall, hacts⟩ := h.paths.2 _ hev
  -- the world at the return of the call
  obtain ⟨w', γ', htrace', -, hpast⟩ := htrace.at hstop
  rw [← hpast] at hdone
  have hmem : ∀ e ∈ mine, e ∈ c.world.past := by
    intro e he
    have hdoneBy : e ∈ System.doneBy t w'.past := by
      rw [hdone]
      exact List.mem_append_left _ he
    have hpast' := List.mem_of_mem_filter hdoneBy
    rw [hpast] at hpast'
    exact List.mem_of_mem_drop hpast'
  obtain ⟨es, es', x, rfl, hfirst, hlast⟩ := Prog.Path.split hpath
  cases hlast
  rw [List.append_nil] at hacts
  cases o with
  | updateRow old new =>
    have hcommits : Commits tab.toShareCfg (handlerUpdateRow tab old new l.handler) fun es x =>
        x.1.err = none → ∃ i, es = [.addSeq i, .addSeq i] :=
      commits_lockedWrite fun info => commits_fmUpdateLocked info old new
    obtain ⟨i, hes⟩ := hcommits es x hfirst herr
    have hbumps : (mine.filter fun e => Act.bumps e.act).length = 2 := by
      rw [← hacts, List.filterMap_reverse, List.reverse_eq_iff] at hes
      rw [← List.length_map Entry.act, ← bumps_of_commits, hes]
      rfl
    obtain ⟨e, he, j, hact, heven⟩ :=
      (trace_bumps (cycleSetting_rewrites tab data).sound htrace' t).odden_of_two hdone hbumps
    refine ⟨e, hmem e he, hcall e he, j, ?_⟩
    rw [commitTo_bump hact heven, hcall e he]
    exact hwrite
  | deleteRow old =>
    have hcommits : Commits tab.toShareCfg (handlerDeleteRow tab old l.handler) fun es x =>
        x.1.err = none → ∃ i, .storeState i .deleting ∈ es :=
      commits_lockedWrite fun info => commits_fmDeleteLocked info old
    obtain ⟨i, hes⟩ := hcommits es x hfirst herr
    obtain ⟨a, ha, hmark⟩ := List.mem_filterMap.mp hes
    rw [← hacts, List.mem_reverse] at ha
    obtain ⟨e, he, hact⟩ := List.mem_map.mp ha
    have ha : a = .storeState i .deleting := by
      cases a with
      | storeState j y => cases y <;> simp_all [Act.commits]
      | _ => simp [Act.commits] at hmark
    refine ⟨e, hmem e he, hcall e he, i, ?_⟩
    rw [commitTo_mark (hact.trans ha), hcall e he]
    exact hwrite
  | _ => cases hwrite

end

/-- **No update is lost.**  Any number of handlers, each in cycles of one row read of a
write statement and one write with what the read has given as the old row, and any calls of
theirs and of others besides, in any interleaving: when an update or a delete commits, the
slot is ACTIVE and holds exactly the old row of the call; every write that returns 0 has
committed; and the writes of a row, from its insertion on, are a serial chain, each
computed from what the one before it has left, of which the image of the row is the end. -/
theorem no_lost_update [DecidableEq (Image n W)] (tab : TableCfg n W PK) (data : Int → Image n W)
    {h₀ : Nat → Handler n W PK} (hopened : Opened h₀)
    {c : Config (coreSig n W PK) (Share n W) (HandlerOp n W PK) (Cycle n W PK) (HandlerOut n W)}
    (h : (cycles tab).Reach (fun _ _ _ => True)
      (System.start (Share.fresh data) (Cycle.opened h₀)) c) :
    (∀ e ∈ c.world.past, ∀ i u, commitTo HandlerOp.rewrite i e = some u →
      e.mem.state i = .active ∧ e.mem.data i = u.old) ∧
    (∀ ev ∈ c.world.log, ∀ u, ev.call.op.rewrite = some u → ev.out.err = none →
      ∃ e ∈ c.world.past, e.call = ev.call ∧ ∃ i, commitTo HandlerOp.rewrite i e = some u) ∧
    ∀ i, (∀ life ∈ rowLife HandlerOp.rewrite i c.world.past, SerialFrom life.1 life.2) ∧
      (c.world.mem.state i = .active → c.world.mem.seq i % 2 = 0 →
        leftIn HandlerOp.rewrite i c.world.past = some (c.world.mem.data i)) := by
  obtain ⟨γ, htrace⟩ := cycles_trace hopened h
  have hT := cycleSetting_rewrites tab data
  refine ⟨trace_commits hT htrace, fun ev hev u => cycles_committed hopened h hev, fun i => ?_⟩
  have hchained := trace_chained hT htrace i
  exact ⟨hchained.serial, hchained.current (trace_images hT.sound.1 hT.sound.2 htrace)⟩

/-- Two handlers read one row, the second one while the first has it, and write it back. -/
theorem no_lost_update_twice :
    ∃ c, (cycles (wordHandlers 0)).Reach (fun _ _ _ => True)
        (System.start (Share.fresh fun _ _ => 0)
          (Cycle.opened fun _ => Handler.opened 0 fun _ => 0)) c ∧
      ∃ life ∈ rowLife HandlerOp.rewrite 0 c.world.past, life.2.length = 2 ∧
      SerialFrom life.1 life.2 := by
  let steps : List (Label (HandlerOp 1 Nat Nat)) :=
    [Label.call 0 .externalLockWrite 1, Label.call 1 .externalLockWrite 1,
      Label.call 0 (.writeRow none fun _ => 5) 34, Label.call 1 (.rndPos (0, 0) fun _ => 0) 6,
      Label.call 0 (.rndPos (0, 0) fun _ => 0) 15,
      Label.call 0 (.updateRow (fun _ => 5) fun _ => 9) 13, Label.steps 1 9,
      Label.call 1 (.updateRow (fun _ => 9) fun _ => 13) 13].flatten
  have hrun : (System.schedule (cycles (wordHandlers 0))
      (System.start (Share.fresh fun _ _ => 0) (Cycle.opened fun _ => Handler.opened 0 fun _ => 0))
      steps).any
        (fun c => (rowLife HandlerOp.rewrite 0 c.world.past).any fun life =>
          decide (life.2.length = 2)) = true := by
    decide +kernel
  obtain ⟨c, hc, hlife⟩ := (Option.any_eq_true _ _).mp hrun
  obtain ⟨life, hlife, hlength⟩ := (Option.any_eq_true _ _).mp hlife
  have hreach := System.Reach.of_schedule _ _ steps hc
  have hserial :=
    (no_lost_update (wordHandlers 0) (fun _ _ => 0) (fun _ => ⟨_, _, rfl⟩) hreach).2.2 0
  exact ⟨c, hreach, life, hlife, of_decide_eq_true hlength, hserial.1 life hlife⟩

end FastMem
