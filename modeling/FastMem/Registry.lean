import FastMem.RefCount

/-!
# The registry of shares

`fm_create.cc`: the shares that exist, the list of the registered ones under
`THR_LOCK_fastmem`, the open handles, and the calls that create, open, close, drop,
rename and free.  Shares and handles are numbered in the order of their allocation.  A
call that follows a pointer to memory that has been freed returns `none`; which of its
own allocations succeed is an argument of the call.

Above it the calls as `ha_fastmem` issues them: one handler object at a time makes one
call of the registry, and `open` is up to four of them.
-/

namespace FastMem

/-- The fields of an `FM_SHARE` that the registry uses; `core` stands for the rest. -/
structure FmShare (N κ : Type) where
  name : N
  core : κ
  openCount : Nat
  deleteOnClose : Bool
  internal : Bool
  openList : List Nat

/-- The fields of an `FM_INFO` that the registry uses. -/
structure OpenInfo where
  s : Nat
  openListed : Bool
  deriving DecidableEq

/-- The memory of the registry: `fm_share_list`, the shares and the handles that are
allocated, and the shares that were freed, last one first. -/
structure Registry (N κ : Type) where
  shares : Nat → Option (FmShare N κ)
  infos : Nat → Option OpenInfo
  fmShareList : List Nat
  nextShare : Nat
  nextInfo : Nat
  freed : List Nat

/-- No share has been created. -/
def Registry.empty (N κ : Type) : Registry N κ := ⟨fun _ => none, fun _ => none, [], 0, 0, []⟩

variable {N κ : Type}

/-- What is kept of a share is `share`. -/
def Registry.put (r : Registry N κ) (sh : Nat) (share : FmShare N κ) : Registry N κ :=
  { r with shares := Function.update r.shares sh (some share) }

/-- The handle `i` is allocated as `info`, or freed. -/
def Registry.setInfo (r : Registry N κ) (i : Nat) (info : Option OpenInfo) : Registry N κ :=
  { r with infos := Function.update r.infos i info }

/-- A handle on `sh` is allocated. -/
def Registry.addInfo (r : Registry N κ) (sh : Nat) : Registry N κ :=
  { r.setInfo r.nextInfo (some ⟨sh, false⟩) with nextInfo := r.nextInfo + 1 }

/-- Write to the fields of a share. -/
def Registry.modify (r : Registry N κ) (sh : Nat) (f : FmShare N κ → FmShare N κ) :
    Option (Registry N κ) :=
  (r.shares sh).map fun share => r.put sh (f share)

/-- `++share->open_count`. -/
def FmShare.incr (share : FmShare N κ) : FmShare N κ :=
  { share with openCount := share.openCount + 1 }

/-- `--share->open_count`. -/
def FmShare.decr (share : FmShare N κ) : FmShare N κ :=
  { share with openCount := share.openCount - 1 }

/-- Is this a share that may be read? -/
def Registry.live (r : Registry N κ) (sh : Nat) : Bool := (r.shares sh).isSome

/-- The loop that takes a node out of a singly linked list. -/
def unlinkNode (live : Nat → Bool) (x : Nat) : List Nat → Option (List Nat)
  | [] => some []
  | y :: rest =>
      if y = x then some rest
      else if live y then (unlinkNode live x rest).map (y :: ·)
      else none

section Calls

variable [DecidableEq N]

/-- The loop of `fm_find_named_share`. -/
def findNamed (r : Registry N κ) (name : N) : List Nat → Option (Option Nat)
  | [] => some none
  | sh :: rest => do
      let share ← r.shares sh
      if name = share.name then some (some sh) else findNamed r name rest

/-- `fm_find_named_share`. -/
def fmFindNamedShare (r : Registry N κ) (name : N) : Option (Option Nat) :=
  findNamed r name r.fmShareList

/-- `fm_share_list_add`. -/
def fmShareListAdd (r : Registry N κ) (sh : Nat) : Registry N κ :=
  { r with fmShareList := sh :: r.fmShareList }

/-- `fm_share_list_remove`. -/
def fmShareListRemove (r : Registry N κ) (sh : Nat) : Option (Registry N κ) :=
  (unlinkNode r.live sh r.fmShareList).map fun list => { r with fmShareList := list }

/-- `fm_free`. -/
def fmFree (r : Registry N κ) (sh : Nat) : Option (Registry N κ) := do
  let share ← r.shares sh
  let r ← if share.internal then some r else fmShareListRemove r sh
  some { r with shares := Function.update r.shares sh none, freed := sh :: r.freed }

/-- The lookup at the start of `fm_create`: a share that nobody refers to is freed. -/
def discardUnreferenced (r : Registry N κ) (name : N) : Option (Option Nat × Registry N κ) := do
  match ← fmFindNamedShare r name with
  | none => some (none, r)
  | some sh =>
      let share ← r.shares sh
      if share.openCount = 0 then
        let r ← fmFree r sh
        some (none, r)
      else some (some sh, r)

/-- The new share of `fm_create`. -/
def addShare (r : Registry N κ) (name : N) (internalTable : Bool) (core : κ) : Registry N κ :=
  let r' := { r.put r.nextShare ⟨name, core, 0, internalTable, internalTable, []⟩ with
    nextShare := r.nextShare + 1 }
  if internalTable then r' else fmShareListAdd r' r.nextShare

/-- The end of `fm_create`: the share is pinned for the caller if it asks for it. -/
def pinned (r : Registry N κ) (sh : Nat) (internalTable pinShare : Bool) : Option (Registry N κ) :=
  if !internalTable && pinShare then r.modify sh FmShare.incr else some r

/-- `fm_create`: `*res` and `*created_new_share`, or nothing when it fails.  `fresh` is
the core that `fm_core_init_share` makes, `none` when an allocation fails. -/
def fmCreate (r : Registry N κ) (name : N) (internalTable pinShare : Bool) (fresh : Option κ) :
    Option (Option (Nat × Bool) × Registry N κ) := do
  let (found, r) ← if internalTable then some (none, r) else discardUnreferenced r name
  match found, fresh with
  | some sh, _ => (pinned r sh internalTable pinShare).map fun r => (some (sh, false), r)
  | none, some core =>
      (pinned (addShare r name internalTable core) r.nextShare internalTable pinShare).map
        fun r' => (some (r.nextShare, true), r')
  | none, none => some (none, r)

/-- `fm_open_from_share_locked`; `alloc` says whether there is memory for the handle. -/
def fmOpenFromShareLocked (r : Registry N κ) (sh : Nat) (alloc : Bool) :
    Option (Option Nat × Registry N κ) :=
  if alloc then
    (r.modify sh FmShare.incr).map fun r => (some r.nextInfo, r.addInfo sh)
  else (r.shares sh).map fun _ => (none, r)

/-- `fm_open_from_share`. -/
def fmOpenFromShare (r : Registry N κ) (sh : Nat) (alloc : Bool) :
    Option (Option Nat × Registry N κ) :=
  fmOpenFromShareLocked r sh alloc

/-- The new handle goes to the head of `open_list`. -/
def openListAdd (r : Registry N κ) (sh i : Nat) : Option (Registry N κ) := do
  let r ← r.modify sh fun share => { share with openList := i :: share.openList }
  let info ← r.infos i
  some (r.setInfo i (some { info with openListed := true }))

/-- `fm_open_from_share_and_register`: the pin becomes the reference of the handle. -/
def fmOpenFromShareAndRegister (r : Registry N κ) (sh : Nat) (alloc : Bool) :
    Option (Option Nat × Registry N κ) := do
  match ← fmOpenFromShareLocked r sh alloc with
  | (none, r) => some (none, r)
  | (some i, r) =>
      let r ← openListAdd r sh i
      let r ← r.modify sh FmShare.decr
      some (some i, r)

/-- Why `fm_open` returns no handle. -/
inductive OpenError
  | noEntry
  | noMem
  deriving DecidableEq

/-- `fm_open`. -/
def fmOpen (r : Registry N κ) (name : N) (alloc : Bool) :
    Option (Except OpenError Nat × Registry N κ) := do
  match ← fmFindNamedShare r name with
  | none => some (.error .noEntry, r)
  | some sh =>
      match ← fmOpenFromShareLocked r sh alloc with
      | (none, r) => some (.error .noMem, r)
      | (some i, r) => (openListAdd r sh i).map fun r => (.ok i, r)

/-- Take a handle out of `open_list`, if it is there. -/
def openListRemove (r : Registry N κ) (i : Nat) (info : OpenInfo) : Option (Registry N κ) :=
  if info.openListed then do
    let share ← r.shares info.s
    let list ← unlinkNode (fun j => (r.infos j).isSome) i share.openList
    r.modify info.s fun share => { share with openList := list }
  else some r

/-- Free a share that has no reference left and satisfies `p`. -/
def freeIf (p : FmShare N κ → Bool) (r : Registry N κ) (sh : Nat) : Option (Registry N κ) := do
  let share ← r.shares sh
  if share.openCount = 0 ∧ p share then fmFree r sh else some r

/-- `fm_close`. -/
def fmClose (r : Registry N κ) (i : Nat) : Option (Registry N κ) := do
  let info ← r.infos i
  let r ← openListRemove r i info
  let r ← r.modify info.s FmShare.decr
  let r ← freeIf FmShare.deleteOnClose r info.s
  some (r.setInfo i none)

/-- `fm_release_share`. -/
def fmReleaseShare (r : Registry N κ) (sh : Nat) (internalTable : Bool) : Option (Registry N κ) :=
  if internalTable then fmFree r sh
  else do
    let r ← r.modify sh FmShare.decr
    freeIf (fun _ => true) r sh

/-- `fm_try_free`. -/
def fmTryFree (r : Registry N κ) (sh : Nat) : Option (Registry N κ) := do
  let share ← r.shares sh
  if share.openCount = 0 then fmFree r sh
  else r.modify sh fun share => { share with deleteOnClose := true }

/-- `fm_delete_table`: `false` stands for `ENOENT`. -/
def fmDeleteTable (r : Registry N κ) (name : N) : Option (Bool × Registry N κ) := do
  match ← fmFindNamedShare r name with
  | none => some (false, r)
  | some sh => (fmTryFree r sh).map fun r => (true, r)

/-- `fm_rename`; `dup` says whether there is memory for the new name. -/
def fmRename (r : Registry N κ) (oldName newName : N) (dup : Bool) :
    Option (Bool × Registry N κ) := do
  match ← fmFindNamedShare r oldName with
  | none => some (true, r)
  | some sh =>
      if dup then (r.modify sh fun share => { share with name := newName }).map fun r => (true, r)
      else some (false, r)

end Calls

/-- Where a handler object is. -/
inductive Stage (N : Type)
  | idle
  /-- `open` has found no share of that name, or does not look for one. -/
  | noEntry (name : N)
  /-- `fm_create` has returned `internal_share`. -/
  | created (sh : Nat)
  /-- There was no memory for the handle. -/
  | noHandle (sh : Nat)
  | opened (i : Nat)
  /-- `drop_table` has set `delete_on_close` and not closed yet. -/
  | dropping (i : Nat)
  /-- `open` follows `file`, which is null: `fm_open` found the share and had no memory. -/
  | crashed

/-- An `ha_fastmem` object. -/
structure Client (N : Type) where
  stage : Stage N
  internalTable : Bool

/-- A handler object as it is constructed. -/
def Client.new (N : Type) : Client N := ⟨.idle, false⟩

/-- One call of the registry, with what its allocations do. -/
inductive HaCall (N κ : Type)
  /-- `open`, up to the return of `fm_open`. -/
  | openTable (name : N) (internal alloc : Bool)
  /-- `fm_prepare_create_info` fails in `open`. -/
  | prepareFails
  /-- `fm_create` in `open`. -/
  | createShare (fresh : Option κ)
  /-- `fm_open_from_share` or `fm_open_from_share_and_register` in `open`. -/
  | openShare (alloc : Bool)
  /-- `fm_release_share` in `open`. -/
  | releaseShare
  /-- `close`, also at the end of `drop_table`. -/
  | close
  /-- The first line of `drop_table`. -/
  | dropTable
  /-- `create`. -/
  | createTable (name : N) (fresh : Option κ)
  | deleteTable (name : N)
  | renameTable (oldName newName : N) (dup : Bool)
  /-- A row operation through the open handle leaves this core. -/
  | rows (core : κ)

/-- How a call ends: the handler is not where it makes this call, the call has followed
a pointer to freed memory, or it has returned. -/
inductive Outcome (N κ : Type)
  | notNow
  | fault
  | done (c : Client N) (r : Registry N κ)

/-- The outcome of a call that the handler does make. -/
def Outcome.of {α : Type} (result : Option (α × Registry N κ))
    (next : α → Client N) : Outcome N κ :=
  match result with
  | none => .fault
  | some (a, r) => .done (next a) r

/-- The same for a call that returns nothing. -/
def Outcome.after (result : Option (Registry N κ)) (c : Client N) : Outcome N κ :=
  .of (result.map fun r => ((), r)) fun _ => c

/-- Where `fm_open` leaves the handler. -/
def Stage.afterOpen (name : N) : Except OpenError Nat → Stage N
  | .ok i => .opened i
  | .error .noEntry => .noEntry name
  | .error .noMem => .crashed

/-- Where `fm_create` leaves an opening handler. -/
def Stage.afterCreate : Option (Nat × Bool) → Stage N
  | some (sh, _) => .created sh
  | none => .idle

/-- Where the allocation of the handle leaves an opening handler. -/
def Stage.afterHandle (sh : Nat) : Option Nat → Stage N
  | some i => .opened i
  | none => .noHandle sh

/-- A write through the handle to the share it refers to. -/
def throughHandle (r : Registry N κ) (i : Nat) (f : FmShare N κ → FmShare N κ) :
    Option (Registry N κ) := do
  let info ← r.infos i
  r.modify info.s f

/-- One call of a handler object. -/
def HaCall.run [DecidableEq N] (a : HaCall N κ) (c : Client N) (r : Registry N κ) : Outcome N κ :=
  match a, c.stage with
  | .openTable name true _, .idle => .done ⟨.noEntry name, true⟩ r
  | .openTable name false alloc, .idle => .of (fmOpen r name alloc) fun res =>
      ⟨.afterOpen name res, false⟩
  | .prepareFails, .noEntry _ => .done { c with stage := .idle } r
  | .createShare fresh, .noEntry name =>
      .of (fmCreate r name c.internalTable true fresh) fun res =>
        { c with stage := .afterCreate res }
  | .openShare alloc, .created sh =>
      .of (if c.internalTable then fmOpenFromShare r sh alloc
        else fmOpenFromShareAndRegister r sh alloc)
        fun res => { c with stage := .afterHandle sh res }
  | .releaseShare, .noHandle sh =>
      .after (fmReleaseShare r sh c.internalTable) { c with stage := .idle }
  | .close, .opened i => .after (fmClose r i) { c with stage := .idle }
  | .close, .dropping i => .after (fmClose r i) { c with stage := .idle }
  | .dropTable, .opened i =>
      .after (throughHandle r i fun share => { share with deleteOnClose := true })
        { c with stage := .dropping i }
  | .createTable name fresh, .idle => .of (fmCreate r name c.internalTable false fresh) fun _ => c
  | .deleteTable name, _ => .of (fmDeleteTable r name) fun _ => c
  | .renameTable oldName newName dup, _ => .of (fmRename r oldName newName dup) fun _ => c
  | .rows core, .opened i => .after (throughHandle r i fun share => { share with core := core }) c
  | _, _ => .notNow

/-- A call looks at the stage of the handler first. -/
theorem HaCall.run_at [DecidableEq N] {a : HaCall N κ} {c : Client N} {r : Registry N κ}
    {stage : Stage N} (hs : c.stage = stage) : a.run c r = a.run ⟨stage, c.internalTable⟩ r := by
  rw [← hs]

/-- A call runs on what its client remembers. -/
theorem HaCall.run_as [DecidableEq N] {a : HaCall N κ} {c : Client N} {r : Registry N κ}
    {stage : Stage N} {b : Bool} (hs : c.stage = stage)
    (hint : c.internalTable = b) : a.run c r = a.run ⟨stage, b⟩ r := by
  rw [← hs, ← hint]

/-- A call that returns goes on. -/
theorem Outcome.of_some {α : Type} {result : Option (α × Registry N κ)} {a : α} {r : Registry N κ}
    (h : result = some (a, r)) (next : α → Client N) :
    Outcome.of result next = .done (next a) r := by
  rw [h]
  rfl

theorem Outcome.after_some {result : Option (Registry N κ)} {r : Registry N κ} (h : result = some r)
    (c : Client N) : Outcome.after result c = .done c r := by
  rw [h]
  rfl

/-- The registry and the handler objects of a server. -/
structure Engine (N κ : Type) where
  reg : Registry N κ
  clients : Nat → Client N

/-- The server before the first call. -/
def Engine.start (N κ : Type) : Engine N κ := ⟨.empty N κ, fun _ => .new N⟩

/-- Handler `t` makes one call. -/
inductive Engine.Step [DecidableEq N] (w : Engine N κ) (t : Nat) (a : HaCall N κ) :
    Engine N κ → Prop
  | call {c : Client N} {r : Registry N κ} (h : a.run (w.clients t) w.reg = .done c r) :
      Step w t a ⟨r, Function.update w.clients t c⟩

/-- The states that any calls of any handlers, in any order, lead to. -/
inductive Engine.Reach [DecidableEq N] : Engine N κ → Prop
  | start : Reach (.start N κ)
  | step {w w' : Engine N κ} {t : Nat} {a : HaCall N κ} (h : Reach w)
    (hstep : w.Step t a w') : Reach w'

end FastMem
