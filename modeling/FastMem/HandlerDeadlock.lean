import FastMem.CoreDeadlock
import FastMem.Handler

/-!
# Where handlers deadlock

A handler in a write statement keeps the wlock of its current row while it waits
for bucket locks and for the struct mutex, so across handlers the order of the
locks is: a wlock, the struct mutex, bucket locks by key and bucket.  One
operation goes against it: `delete_all_rows` holds the struct mutex while it
takes the wlocks one by one.

So a circle of waiting threads needs a handler that owns the wlock of a row,
waits for the struct mutex, and meets a `delete_all_rows` that owns the mutex and
has not come to this row yet.  `delete_row` is such a handler when it pushes its
slot on the free list, and `write_row` is when the statement has a row locked.
-/

namespace FastMem

open Conc

variable {n : Nat} {W PK : Type}

/-- The policy of the handlers: a bucket lock above the bucket locks held, the
struct mutex on top of wlocks only, and a wlock on top of nothing, or under
`delete_all_rows` on top of the struct mutex if the slot is still to be flipped. -/
def RowsFirst (o : HandlerOp n W PK) (g : Held) : Lock → Prop
  | .mutex => ∀ l ∈ g.locks, ∃ i, l = .row i
  | .bucket k b => ∀ k' b', .bucket k' b' ∈ g.locks → pairLt (k', b') (k, b)
  | .row i => g.locks = [] ∨ g.locks = [.mutex] ∧ o = .deleteAllRows ∧ i ∉ g.flips

/-- On top of a bucket lock only bucket locks are taken. -/
theorem RowsFirst.on_bucket {o : HandlerOp n W PK} {g : Held} {l : Lock} {k b : Nat}
    (h : RowsFirst o g l) (hmem : .bucket k b ∈ g.locks) : ∃ k' b', l = .bucket k' b' := by
  cases l with
  | bucket k' b' => exact ⟨k', b', rfl⟩
  | mutex =>
      obtain ⟨i, hi⟩ := h _ hmem
      cases hi
  | row i =>
      rcases h with hnil | ⟨hmutex, -⟩
      · rw [hnil] at hmem
        cases hmem
      · rw [hmutex, List.mem_singleton] at hmem
        cases hmem

/-- On top of a wlock no other wlock is taken. -/
theorem RowsFirst.on_row {o : HandlerOp n W PK} {g : Held} {l : Lock} {j : Int}
    (h : RowsFirst o g l) (hmem : .row j ∈ g.locks) : l = .mutex ∨ ∃ k b, l = .bucket k b := by
  cases l with
  | mutex => exact Or.inl rfl
  | bucket k b => exact Or.inr ⟨k, b, rfl⟩
  | row i =>
      rcases h with hnil | ⟨hmutex, -⟩
      · rw [hnil] at hmem
        cases hmem
      · rw [hmutex, List.mem_singleton] at hmem
        cases hmem

/-- On top of the struct mutex a wlock is taken only by `delete_all_rows`. -/
theorem RowsFirst.on_mutex {o : HandlerOp n W PK} {g : Held} {l : Lock} (h : RowsFirst o g l)
    (hmem : .mutex ∈ g.locks) : (∃ k b, l = .bucket k b) ∨ ∃ j, l = .row j ∧ o = .deleteAllRows ∧
    j ∉ g.flips := by
  cases l with
  | mutex =>
      obtain ⟨i, hi⟩ := h _ hmem
      cases hi
  | bucket k b => exact Or.inl ⟨k, b, rfl⟩
  | row j =>
      rcases h with hnil | ⟨-, ho, hflips⟩
      · rw [hnil] at hmem
        cases hmem
      · exact Or.inr ⟨j, rfl, ho, hflips⟩

/-- An idle handler holds the lock it remembers. -/
def HoldsRow (n : Nat) (W PK : Type) (h : Handler n W PK) (g : Held) : Prop := g.locks = h.rowStack

/-- A handler holds no lock between its calls but that of a row. -/
theorem mem_rowStack {h : Handler n W PK} {l : Lock} (hl : l ∈ h.rowStack) : ∃ i, l = .row i := by
  unfold Handler.rowStack at hl
  split at hl
  · exact ⟨_, List.mem_singleton.mp hl⟩
  · cases hl

/-- The struct mutex may be taken with a row locked. -/
theorem rowsFirst_mutex {o : HandlerOp n W PK} {h : Handler n W PK} {f : List Int} :
    RowsFirst o ⟨h.rowStack, f⟩ .mutex :=
  fun _ hl => mem_rowStack hl

theorem rowsFirst_bucket {o : HandlerOp n W PK} {h : Handler n W PK} {f : List Int} {k b : Nat} :
    RowsFirst o ⟨h.rowStack, f⟩ (.bucket k b) := by
  intro k' b' hmem
  obtain ⟨i, hi⟩ := mem_rowStack hmem
  cases hi

/-- A bucket lock may also be taken inside the struct mutex. -/
theorem rowsFirst_bucket_under_mutex {o : HandlerOp n W PK} {h : Handler n W PK} {f : List Int}
    {k b : Nat} : RowsFirst o ⟨.mutex :: h.rowStack, f⟩ (.bucket k b) := by
  intro k' b' hmem
  rcases List.mem_cons.mp hmem with hmem | hmem
  · cases hmem
  · exact rowsFirst_bucket (f := f) (o := o) k' b' hmem

/-- The lock set of an update may be taken with its row locked. -/
theorem rowsFirst_bucketLocks {o : HandlerOp n W PK} {h : Handler n W PK} :
    AllowsAscending RowsFirst o h.rowStack := by
  intro done v hv f k' b' hmem
  rcases List.mem_append.mp hmem with hmem | hmem
  · rw [bucketLocks, List.mem_reverse, List.mem_map] at hmem
    obtain ⟨u, hu, heq⟩ := hmem
    cases heq
    exact hv u hu
  · exact rowsFirst_bucket (f := f) (o := o) k' b' hmem

section Methods

variable {tab : TableCfg n W PK} {c : Call (HandlerOp n W PK)} {m : Nat}

/-- `unlock_current_row` leaves no lock. -/
theorem ends_unlockCurrentRow {h : Handler n W PK} :
    Ends tab.toShareCfg (HoldsRow n W PK) RowsFirst c (HandlerOut n W) m h.rowStack
      (fun h' H => H = [] ∧ h'.rowLocked = false ∧ h'.file = h.file) (unlockCurrentRow h) := by
  unfold unlockCurrentRow
  refine .ite (fun hl => ?_) (fun hl => ?_)
  · rw [Handler.rowStack, if_pos hl]
    exact Keeps.unlock.then fun _ => .ret ⟨rfl, rfl, rfl⟩
  · have hl' : h.rowLocked = false := by simpa using hl
    refine .ret ⟨?_, hl', rfl⟩
    rw [Handler.rowStack, if_neg hl]

/-- `lock_current_row` leaves the lock of the row. -/
theorem ends_lockCurrentRow {h : Handler n W PK} :
    Ends tab.toShareCfg (HoldsRow n W PK) RowsFirst c (HandlerOut n W) m h.rowStack
      (fun h' H => H = h'.rowStack) (lockCurrentRow h) := by
  unfold lockCurrentRow
  refine .ite (fun _ => .ret rfl) fun _ => .ite (fun _ => .ret rfl) fun _ => ?_
  refine ends_unlockCurrentRow.bind fun h' H hH => ?_
  obtain ⟨rfl, -, -⟩ := hH
  exact (Keeps.lock fun _ => Or.inl rfl).then fun _ => .ret rfl

/-- The read of a locked row takes no further lock. -/
theorem keeps_reread {H : List Lock} {idx : Int} {buf : Image n W} :
    Keeps tab.toShareCfg (HoldsRow n W PK) RowsFirst c (HandlerOut n W) m H H
      (reread idx buf) :=
  (Keeps.quiet rfl).bind fun _ => keeps_readRow.bind fun _ => .ret

/-- A row found in a write statement is locked when the read returns. -/
theorem ends_rereadInWriteStmt {gone : HaErr} {found : Option HaErr × Image n W × Info n W PK}
    {h : Handler n W PK} :
    Ends tab.toShareCfg (HoldsRow n W PK) RowsFirst c (HandlerOut n W) m h.rowStack
      (fun r H => H = r.2.2.rowStack) (rereadInWriteStmt gone found h) := by
  unfold rereadInWriteStmt
  refine .ite (fun _ => ?_) fun _ => .ret rfl
  have hlock : Ends tab.toShareCfg (HoldsRow n W PK) RowsFirst c (HandlerOut n W) m h.rowStack
      (fun h' H => H = h'.rowStack) (lockCurrentRow { h with file := found.2.2 }) :=
    ends_lockCurrentRow
  refine hlock.bind fun h' H hH => ?_
  subst hH
  refine (keeps_reread.bind fun _ => Keeps.ret).then fun r => .ite (fun _ => .ret rfl) fun _ => ?_
  have hunlock : Ends tab.toShareCfg (HoldsRow n W PK) RowsFirst c (HandlerOut n W) m h'.rowStack
      (fun h'' H => H = [] ∧ h''.rowLocked = false ∧ h''.file = r.2.2)
      (unlockCurrentRow { h' with file := r.2.2 }) := ends_unlockCurrentRow
  refine hunlock.bind fun h'' H hH => .ret ?_
  obtain ⟨rfl, hl, -⟩ := hH
  simp [Handler.rowStack, hl]

/-- A row read: the lookup under the lock held so far, then the move of the row
lock. -/
theorem ends_rowRead {gone : HaErr} {h : Handler n W PK}
    {look : Core n W PK (Option HaErr × Image n W × Info n W PK)}
    (hlook : Keeps tab.toShareCfg (HoldsRow n W PK) RowsFirst c (HandlerOut n W) m h.rowStack
      h.rowStack look) :
    Ends tab.toShareCfg (HoldsRow n W PK) RowsFirst c (HandlerOut n W) m h.rowStack
      (fun r H => H = r.2.rowStack)
      (look >>= fun found => rereadInWriteStmt gone found h >>= fun r => pure (readResult r)) := by
  refine hlook.then fun found => ends_rereadInWriteStmt.bind fun r H hH => .ret ?_
  exact hH

/-- `fm_find_key` returns with the locks it was called with. -/
theorem keeps_fmFindKey {h : Handler n W PK} {info : Info n W PK} {inx : Nat} {key : PK}
    {buf : Image n W} :
    Keeps tab.toShareCfg (HoldsRow n W PK) RowsFirst c (HandlerOut n W) m h.rowStack h.rowStack
      (fmFindKey tab info inx key buf) :=
  (keeps_find fun _ _ => rowsFirst_bucket).bind fun _ => .ite
    ((Keeps.quiet rfl).bind fun _ => .ret) .ret

theorem keeps_fmFindNextKey {h : Handler n W PK} {info : Info n W PK} {inx : Nat} {key : PK}
    {cur : Int} {buf : Image n W} :
    Keeps tab.toShareCfg (HoldsRow n W PK) RowsFirst c (HandlerOut n W) m h.rowStack h.rowStack
      (fmFindNextKey tab info inx key cur buf) :=
  (keeps_findNext fun _ _ => rowsFirst_bucket).bind fun _ => .ite
    ((Keeps.quiet rfl).bind fun _ => .ret) .ret

theorem keeps_fmScan {H : List Lock} {info : Info n W PK} {buf : Image n W} :
    Keeps tab.toShareCfg (HoldsRow n W PK) RowsFirst c (HandlerOut n W) m H H
      (fmScan info buf) :=
  keeps_scanNext.bind fun _ => .ite ((Keeps.quiet rfl).bind fun _ => .ret) .ret

theorem keeps_fmRrnd {H : List Lock} {info : Info n W PK} {buf : Image n W} {pos : Int × Nat} :
    Keeps tab.toShareCfg (HoldsRow n W PK) RowsFirst c (HandlerOut n W) m H H
      (fmRrnd info buf pos) :=
  .ite .ret (keeps_readRow.bind fun _ => .ite .ret .ret)

/-- A write locks its row unless it is locked already. -/
theorem ends_ensureRowLocked {h : Handler n W PK} :
    Ends tab.toShareCfg (HoldsRow n W PK) RowsFirst c (HandlerOut n W) m h.rowStack
      (fun r H => H = r.2.rowStack) (ensureRowLocked h) := by
  unfold ensureRowLocked
  refine .ite (fun _ => .ret rfl) fun _ => ?_
  have hlock : Ends tab.toShareCfg (HoldsRow n W PK) RowsFirst c (HandlerOut n W) m h.rowStack
      (fun h' H => H = h'.rowStack) (lockIfUnlocked h) :=
    .ite (fun _ => ends_lockCurrentRow) fun _ => .ret rfl
  refine hlock.bind fun h' H hH => ?_
  subst hH
  refine .ite (fun _ => .ret rfl) fun _ => ends_unlockCurrentRow.bind fun h'' H hH => .ret ?_
  obtain ⟨rfl, hl, -⟩ := hH
  simp [Handler.rowStack, hl]

/-- The counter needs no lock. -/
theorem keeps_fmUpdateAutoIncrement {H : List Lock} {rec : Image n W} :
    Keeps tab.toShareCfg (HoldsRow n W PK) RowsFirst c (HandlerOut n W) m H H
      (fmUpdateAutoIncrement tab rec) := by
  unfold fmUpdateAutoIncrement
  split
  · exact .ret
  · exact keeps_autoIncObserve

/-- `fm_readcheck` needs no further lock. -/
theorem keeps_fmReadCheck [DecidableEq (Image n W)] {H : List Lock} {info : Info n W PK}
    {old : Image n W} :
    Keeps tab.toShareCfg (HoldsRow n W PK) RowsFirst c (HandlerOut n W) m H H
      (fmReadCheck info old) :=
  .ite (keeps_readRow.bind fun _ => .ite .ret .ret) .ret

/-- An update returns with the row still locked. -/
theorem keeps_fmUpdateLocked [DecidableEq (Image n W)] {h : Handler n W PK} {info : Info n W PK}
    {old new : Image n W} :
    Keeps tab.toShareCfg (HoldsRow n W PK) RowsFirst c (HandlerOut n W) m h.rowStack h.rowStack
      (fmUpdateLocked tab info old new) := by
  refine keeps_fmReadCheck.bind fun stale => ?_
  cases stale with
  | some err => exact .ret
  | none =>
      exact (keeps_updateRowLocked rowsFirst_bucketLocks).bind fun _ => .ite
        (keeps_fmUpdateAutoIncrement.bind fun _ => .ret) .ret

theorem keeps_fmDeleteLocked [DecidableEq (Image n W)] {h : Handler n W PK} {info : Info n W PK}
    {old : Image n W} :
    Keeps tab.toShareCfg (HoldsRow n W PK) RowsFirst c (HandlerOut n W) m h.rowStack h.rowStack
      (fmDeleteLocked tab info old) := by
  refine keeps_fmReadCheck.bind fun stale => ?_
  cases stale with
  | some err => exact .ret
  | none =>
      exact (keeps_deleteRowLocked (fun _ => rowsFirst_mutex) fun _ _ _ => rowsFirst_bucket).bind
        fun _ => .ite .ret .ret

/-- `update_row` and `delete_row`: make sure of the row lock, write under it, and
release it. -/
theorem ends_lockedWrite {h : Handler n W PK}
    {write : Handler n W PK → Core n W PK (Option HaErr × Info n W PK)}
    (hwrite : ∀ h' : Handler n W PK,
      Keeps tab.toShareCfg (HoldsRow n W PK) RowsFirst c (HandlerOut n W) m
      h'.rowStack h'.rowStack (write h')) :
    Ends tab.toShareCfg (HoldsRow n W PK) RowsFirst c (HandlerOut n W) m h.rowStack
      (fun r H => H = r.2.rowStack)
      (ensureRowLocked h >>= fun x =>
        if x.1 then write x.2 >>= fun y =>
          unlockCurrentRow { x.2 with file := y.2 } >>= fun h' =>
            (pure (⟨y.1, none⟩, h') : Core n W PK (HandlerOut n W × Handler n W PK))
        else pure (⟨some .recordChanged, none⟩, x.2)) := by
  refine ends_ensureRowLocked.bind fun x H hH => ?_
  subst hH
  refine .ite (fun _ => (hwrite x.2).then fun y => ?_) fun _ => .ret rfl
  have hunlock : Ends tab.toShareCfg (HoldsRow n W PK) RowsFirst c (HandlerOut n W) m x.2.rowStack
      (fun h'' H => H = [] ∧ h''.rowLocked = false ∧ h''.file = y.2)
      (unlockCurrentRow { x.2 with file := y.2 }) := ends_unlockCurrentRow
  refine hunlock.bind fun h'' H hH => .ret ?_
  obtain ⟨rfl, hl, -⟩ := hH
  simp [Handler.rowStack, hl]

/-- `fm_write` returns with the locks it was called with. -/
theorem keeps_fmWrite {h : Handler n W PK} {info : Info n W PK} {rec : Image n W} :
    Keeps tab.toShareCfg (HoldsRow n W PK) RowsFirst c (HandlerOut n W) m h.rowStack h.rowStack
      (fmWrite tab info rec) :=
  (keeps_insertRow (fun _ => rowsFirst_mutex) fun _ _ _ => rowsFirst_bucket_under_mutex).bind
    fun _ => .ite
      (keeps_fmUpdateAutoIncrement.bind fun _ => (Keeps.quiet rfl).bind fun _ => .ret) .ret

/-- Reserving an auto-increment value needs no lock. -/
theorem keeps_nextRecord {H : List Lock} {auto : Option (AutoRequest n W)} {rec : Image n W} :
    Keeps tab.toShareCfg (HoldsRow n W PK) RowsFirst c (HandlerOut n W) m H H
      (nextRecord auto rec) := by
  cases auto with
  | none => exact .ret
  | some req => exact ((keeps_loop _).bind fun _ => .ret).bind fun _ => .ret

/-- `delete_all_rows` without a row lock. -/
theorem keeps_clear_of_op (hop : c.op = .deleteAllRows) :
    Keeps tab.toShareCfg (HoldsRow n W PK) RowsFirst c (HandlerOut n W) m [] []
      (clear tab.toShareCfg) := by
  refine keeps_clear (fun f l hl => by cases hl) (fun k b f k' b' hmem => ?_) fun f i hi => ?_
  · rw [List.mem_singleton] at hmem
    cases hmem
  · exact Or.inr ⟨rfl, hop, hi⟩

end Methods

/-- The lock stacks of handlers. -/
@[reducible] def handlerLocks (n : Nat) (W PK : Type) :
    Logic (coreSig n W PK) (Share n W) (HandlerOp n W PK) (Handler n W PK) (HandlerOut n W) Held :=
  lockLogic n W PK (HandlerOut n W) (HoldsRow n W PK) RowsFirst

/-- Any call may be made, but `delete_all_rows` only by a handler that holds no row
lock. -/
def clearsUnlocked : HandlerOp n W PK → Handler n W PK → Bool
  | .deleteAllRows, h => !h.rowLocked
  | _, _ => true

/-- Every method of the handler follows the policy and leaves the handler with the
row lock it remembers. -/
theorem handler_calls_rowsFirst [DecidableEq (Image n W)] (tab : TableCfg n W PK) :
    (handlerSystem tab clearsUnlocked).CallsSafe (handlerLocks n W PK) := by
  intro t o h w γ hinv hidle hmay
  refine ⟨γ t, by rwa [Function.update_eq_self], fun m => ?_⟩
  have hg : γ t = ⟨h.rowStack, (γ t).flips⟩ := by
    rw [← show (γ t).locks = h.rowStack from hidle]
  rw [hg]
  suffices Ends tab.toShareCfg (HoldsRow n W PK) RowsFirst ⟨t, o,
      w.now⟩ (HandlerOut n W) m h.rowStack (fun r H => H = r.2.rowStack) (o.code tab h) by
    refine (this _).imp fun r g hlocks w' γ' hinv' hg' => ⟨g, ?_, hlocks⟩
    rw [← hg', Function.update_eq_self]
    exact ⟨hinv'.owner, hinv'.nodup, hinv'.flips⟩
  have hempty : ∀ {h' : Handler n W PK} {H : List Lock},
      H = [] ∧ h'.rowLocked = false → H = h'.rowStack := by
    rintro h' H ⟨rfl, hl⟩
    simp [Handler.rowStack, hl]
  cases o with
  | externalLockWrite => exact .ret rfl
  | externalLockUnlock =>
      have hunlock : Ends tab.toShareCfg (HoldsRow n W PK) RowsFirst
          ⟨t, .externalLockUnlock, w.now⟩ (HandlerOut n W) m h.rowStack
          (fun h' H => H = [] ∧ h'.rowLocked = false ∧ h'.file = h.file)
          (unlockCurrentRow { h with writeStmt := false }) := ends_unlockCurrentRow
      exact hunlock.bind fun h' H hH => .ret (hempty ⟨hH.1, hH.2.1⟩)
  | indexReadMap index key buf => exact ends_rowRead keeps_fmFindKey
  | indexReadLastMap index key buf => exact ends_rowRead keeps_fmFindKey
  | indexReadIdxMap index key buf => exact ends_rowRead keeps_fmFindKey
  | indexNext buf =>
      refine .ite (fun _ => .ret rfl) fun _ => keeps_fmFindNextKey.then fun found => ?_
      exact .ite (fun _ => .ret rfl) fun _ => ends_rereadInWriteStmt.bind fun r H hH => .ret hH
  | rndInit scan =>
      refine .ite (fun _ => ?_) fun _ => .ret rfl
      exact ends_unlockCurrentRow.bind fun h' H hH => .ret (hempty ⟨hH.1, hH.2.1⟩)
  | rndNext buf => exact ends_rowRead keeps_fmScan
  | rndPos pos buf => exact ends_rowRead keeps_fmRrnd
  | findUniqueRow index record =>
      refine .ite (fun _ => ?_) fun _ => .ret rfl
      refine (keeps_find fun _ _ => rowsFirst_bucket).then fun r => .ite (fun _ => ?_)
        fun _ => .ret rfl
      exact (Keeps.quiet rfl).then fun _ => ends_rereadInWriteStmt.bind fun r H hH => .ret hH
  | writeRow auto rec =>
      refine keeps_nextRecord.then fun rec? => ?_
      cases rec? with
      | none => exact .ret rfl
      | some rec => exact keeps_fmWrite.then fun r => .ret rfl
  | updateRow old new => exact ends_lockedWrite fun _ => keeps_fmUpdateLocked
  | deleteRow old => exact ends_lockedWrite fun _ => keeps_fmDeleteLocked
  | deleteAllRows =>
      have hl : h.rowLocked = false := by simpa [clearsUnlocked] using hmay
      have hstack : h.rowStack = [] := by simp [Handler.rowStack, hl]
      rw [hstack]
      refine ((keeps_clear_of_op rfl).bind fun _ => Keeps.ret).then fun info => .ret ?_
      exact hstack.symm
  | reset => exact ends_unlockCurrentRow.bind fun h' H hH => .ret (hempty ⟨hH.1, hH.2.1⟩)
  | setReadCheck on => exact .ret rfl
  | resetState => exact .ret rfl

/-- Handler `v` owns the wlock of row `j` and waits for the struct mutex, while
`u` owns the struct mutex inside `delete_all_rows` and has not flipped row `j`
yet. -/
def CrossesClear
    (c : Config (coreSig n W PK) (Share n W) (HandlerOp n W PK) (Handler n W PK) (HandlerOut n W))
    (u v : Nat) (j : Int) : Prop :=
  c.world.mem.owner (.row j) = some v ∧ Waits c v .mutex ∧ c.world.mem.owner .mutex = some u ∧
    (∃ st p, c.thr u = .busy .deleteAllRows st p) ∧ j ∉ flipped u c.world.past

/-- In configuration `c` a thread owns the locks on its stack and waits only for locks its call
may take. -/
structure WaitsRowsFirst
    (c : Config (coreSig n W PK) (Share n W) (HandlerOp n W PK) (Handler n W PK) (HandlerOut n W))
    (γ : Nat → Held) : Prop where
  waits : ∀ t l, Waits c t l → ∃ o st p, c.thr t = .busy o st p ∧ RowsFirst o (γ t) l
  held : ∀ t l, c.world.mem.owner l = some t → l ∈ (γ t).locks
  finite : {t | ∃ o st p, c.thr t = .busy o st p}.Finite

section

variable
  {c : Config (coreSig n W PK) (Share n W) (HandlerOp n W PK) (Handler n W PK) (HandlerOut n W)}
  {γ : Nat → Held} (h : WaitsRowsFirst c γ) {D : Set Nat}
    (hD : CircularWait c.world.mem.owner (Waits c) D)

include h hD

/-- Nobody in the circle waits for a bucket lock, since its owner could only wait for a
higher one. -/
theorem WaitsRowsFirst.no_bucket {t₀ : Nat} (ht₀ : t₀ ∈ D) (k₀ b₀ : Nat) : ¬ Waits c t₀
    (.bucket k₀ b₀) := by
  intro hwait₀
  refine not_circularWait_of_rank
    (fun l => match l with
      | .bucket k b => c.world.mem.owner (.bucket k b)
      | _ => none)
    (fun t l => Waits c t l ∧ ∃ k b, l = .bucket k b) Lock.rank
    (D := {t ∈ D | ∃ k b, Waits c t (.bucket k b)}) ?_ (h.finite.subset ?_)
      ⟨⟨t₀, ht₀, k₀, b₀, hwait₀⟩, ?_⟩
  · rintro t l l' ⟨hwait, k, b, rfl⟩ hown
    obtain ⟨o, st, p, -, hallow⟩ := h.waits t _ hwait
    cases l' with
    | bucket k' b' => exact rank_bucket_lt (hallow k' b' (h.held t _ hown))
    | mutex => cases hown
    | row i => cases hown
  · rintro t ⟨-, k, b, hwait⟩
    obtain ⟨o, st, p, hbusy, -⟩ := h.waits t _ hwait
    exact ⟨o, st, p, hbusy⟩
  · rintro t ⟨ht, k, b, hwait⟩
    obtain ⟨l, u, hl, hown, hu, hne⟩ := hD.2 t ht
    obtain rfl : l = .bucket k b := hl.unique hwait
    obtain ⟨l', u', hl', -⟩ := hD.2 u hu
    obtain ⟨o, st, p, -, hallow⟩ := h.waits u l' hl'
    obtain ⟨k', b', rfl⟩ := hallow.on_bucket (h.held u _ hown)
    exact ⟨_, u, ⟨hwait, k, b, rfl⟩, hown, ⟨hu, k', b', hl'⟩, hne⟩

/-- The owner of a wlock in the circle waits for the struct mutex. -/
theorem WaitsRowsFirst.row_owner {v : Nat} (hv : v ∈ D) {j : Int}
    (hown : c.world.mem.owner (.row j) = some v) : Waits c v .mutex := by
  obtain ⟨l, u, hl, -⟩ := hD.2 v hv
  obtain ⟨o, st, p, -, hallow⟩ := h.waits v l hl
  obtain rfl | ⟨k, b, rfl⟩ := hallow.on_row (h.held v _ hown)
  · exact hl
  · exact absurd hl (h.no_bucket hD hv k b)

/-- The owner of the struct mutex in the circle is a `delete_all_rows` that waits for the wlock
of a slot it has not flipped yet, and the owner of this wlock waits for the struct mutex. -/
theorem WaitsRowsFirst.mutex_owner {u : Nat} (hu : u ∈ D)
    (hown : c.world.mem.owner .mutex = some u) :
    ∃ v j, c.world.mem.owner (.row j) = some v ∧ Waits c v .mutex ∧
      (∃ st p, c.thr u = .busy .deleteAllRows st p) ∧ j ∉ (γ u).flips := by
  obtain ⟨l, v, hl, hv, hvD, -⟩ := hD.2 u hu
  obtain ⟨o, st, p, hbusy, hallow⟩ := h.waits u l hl
  obtain ⟨k, b, rfl⟩ | ⟨j, rfl, rfl, hflips⟩ := hallow.on_mutex (h.held u _ hown)
  · exact absurd hl (h.no_bucket hD hu k b)
  · exact ⟨v, j, hv, h.row_owner hD hvD hv, ⟨st, p, hbusy⟩, hflips⟩

theorem WaitsRowsFirst.exists_mutex_owner : ∃ u ∈ D, c.world.mem.owner .mutex = some u := by
  obtain ⟨t, ht⟩ := hD.1
  obtain ⟨l, u, hl, hown, hu, -⟩ := hD.2 t ht
  cases l with
  | mutex => exact ⟨u, hu, hown⟩
  | bucket k b => exact absurd hl (h.no_bucket hD ht k b)
  | row j =>
      obtain ⟨l', u', hl', hown', hu', -⟩ := hD.2 u hu
      obtain rfl : l' = .mutex := hl'.unique (h.row_owner hD hu hown)
      exact ⟨u', hu', hown'⟩

end

/-- **Handlers deadlock only against `delete_all_rows`.**  From any share whose
locks are free, in every configuration that any number of handlers reach by any
calls (`delete_all_rows` only by a handler without a row lock): if no handler
that owns a row lock waits for the struct mutex of a `delete_all_rows` that is
still to flip this row, then no set of threads waits in a circle. -/
theorem handler_deadlock_only_across_clear [DecidableEq (Image n W)] (tab : TableCfg n W PK)
    {s : Share n W} (hfree : ∀ l, s.owner l = none) (h₀ : Nat → Handler n W PK)
    (hunlocked : ∀ t, (h₀ t).rowLocked = false)
    {c : Config (coreSig n W PK) (Share n W) (HandlerOp n W PK) (Handler n W PK) (HandlerOut n W)}
    (hreach : (handlerSystem tab clearsUnlocked).Reach (fun _ _ _ => True) (System.start s h₀) c)
    (hcross : ∀ u v j, ¬ CrossesClear c u v j) :
    ∀ D, ¬ CircularWait c.world.mem.owner (Waits c) D := by
  have hinit : ∀ m, ∃ γ, (handlerSystem tab clearsUnlocked).Holds (handlerLocks n W PK) m
      (System.start s h₀) γ := by
    refine System.holds_start (fun _ => ⟨[], []⟩) ⟨?_, ?_, ?_⟩ fun t => ?_
    · intro l t
      simp [hfree]
    · intro t
      exact List.nodup_nil
    · intro t
      rfl
    · show [] = (h₀ t).rowStack
      simp [Handler.rowStack, hunlocked t]
  obtain ⟨γ, hholds⟩ := hreach.sound (handler_calls_rowsFirst tab) hinit 1
  have hrows : WaitsRowsFirst c γ := by
    refine ⟨fun t l ⟨o, st, k, hbusy⟩ => ?_, fun t l hown => (hholds.1.owner l t).mp hown,
      hreach.busy_finite⟩
    exact ⟨o, st, _, hbusy, hholds.next hbusy l rfl⟩
  intro D hD
  obtain ⟨u, hu, hown⟩ := hrows.exists_mutex_owner hD
  obtain ⟨v, j, hv, hwait, hclear, hflips⟩ := hrows.mutex_owner hD hu hown
  rw [hholds.1.flips] at hflips
  exact hcross u v j ⟨hv, hwait, hown, hclear, hflips⟩

/-- The thread is emptying the table. -/
def empties : Thread (coreSig n W PK) (HandlerOp n W PK) (Handler n W PK) (HandlerOut n W) → Bool
  | .busy .deleteAllRows _ _ => true
  | _ => false

/-- Handler 0 deletes the row whose wlock it has, and spins on the struct mutex, which handler 1
has for its insert and not for a clear, so nothing waits in a circle. -/
theorem handler_deadlock_only_across_clear_two_inserts :
    ∃ c, (handlerSystem (wordHandlers 0) clearsUnlocked).Reach (fun _ _ _ => True)
        (System.start (Share.fresh fun _ _ => 0) fun _ => Handler.opened 0 fun _ => 0) c ∧
      c.world.mem.owner (.row 0) = some 0 ∧ Waits c 0 .mutex ∧ c.world.mem.owner .mutex = some 1 ∧
      ∀ D, ¬ CircularWait c.world.mem.owner (Waits c) D := by
  let steps : List (Label (HandlerOp 1 Nat Nat)) :=
    [Label.call 0 .externalLockWrite 1, Label.call 0 (.writeRow none fun _ => 5) 34,
      Label.call 0 (.rndNext fun _ => 0) 16, Label.call 1 (.writeRow none fun _ => 6) 3,
      Label.call 0 (.deleteRow fun _ => 5) 13].flatten
  have hrun : ((handlerSystem (wordHandlers 0) clearsUnlocked).schedule
      (System.start (Share.fresh fun _ _ => 0) fun _ => Handler.opened 0 fun _ => 0) steps).any
        (fun c => decide (c.world.mem.wlock 0 = some 0 ∧ waitsOn (c.thr 0) = some .mutex ∧
          c.world.mem.mutex = some 1 ∧ empties (c.thr 1) = false)) = true := by
    decide +kernel
  obtain ⟨c, hc, hview⟩ := (Option.any_eq_true _ _).mp hrun
  obtain ⟨hrow, hwaits, hmutex, hinserts⟩ := of_decide_eq_true hview
  have hreach := System.Reach.of_schedule _ _ steps hc
  refine ⟨c, hreach, hrow, waits_of_waitsOn hwaits, hmutex, ?_⟩
  refine handler_deadlock_only_across_clear (wordHandlers 0) (s := Share.fresh fun _ _ => 0)
    (fun l => by cases l <;> rfl) _ (fun _ => rfl) hreach fun u v j hcross => ?_
  obtain ⟨-, -, hown, ⟨st, p, hp⟩, -⟩ := hcross
  obtain rfl : 1 = u := Option.some.inj (hmutex.symm.trans hown)
  rw [hp] at hinserts
  cases hinserts

/-- `delete_row` of a row against `delete_all_rows`.  Handler 0 inserts a row, reads
it in a write statement and deletes it; handler 1 empties the table.  Handler 0
owns the wlock of slot 0 and spins on the struct mutex, handler 1 owns the struct
mutex and spins on the wlock of slot 0. -/
theorem handler_deadlock_delete_against_clear :
    ∃ c, (handlerSystem (wordHandlers 0) clearsUnlocked).Reach (fun _ _ _ => True)
        (System.start (Share.fresh fun _ _ => 0) fun _ => Handler.opened 0 fun _ => 0) c ∧
      CircularWait c.world.mem.owner (Waits c) {0, 1} := by
  let steps : List (Label (HandlerOp 1 Nat Nat)) :=
    [Label.call 0 .externalLockWrite 1, Label.call 0 (.writeRow none fun _ => 5) 34,
      Label.call 0 (.rndNext fun _ => 0) 16, Label.call 1 .deleteAllRows 2,
      Label.call 0 (.deleteRow fun _ => 5) 13].flatten
  have hrun : ((handlerSystem (wordHandlers 0) clearsUnlocked).schedule
      (System.start (Share.fresh fun _ _ => 0) fun _ => Handler.opened 0 fun _ => 0) steps).map
        (fun c => (waitsOn (c.thr 0), waitsOn (c.thr 1), c.world.mem.mutex, c.world.mem.wlock 0)) =
      some (some .mutex, some (.row 0), some 1, some 0) := by
    decide +kernel
  obtain ⟨c, hc, hview⟩ := Option.map_eq_some_iff.mp hrun
  simp only [Prod.mk.injEq] at hview
  obtain ⟨hwait₀, hwait₁, hmutex, hrow⟩ := hview
  refine ⟨c, System.Reach.of_schedule _ _ steps hc, ⟨0, by simp⟩, fun t ht => ?_⟩
  rcases ht with rfl | rfl
  · exact ⟨.mutex, 1, waits_of_waitsOn hwait₀, hmutex, by simp, by simp⟩
  · exact ⟨.row 0, 0, waits_of_waitsOn hwait₁, hrow, by simp, by simp⟩

end FastMem
