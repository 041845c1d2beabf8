import FastMem.CoreSystem
import FastMem.SeqUpdate
import FastMem.Versioned

/-!
# What a completed call does to the rows

Whatever the state of the hash index, and whatever the arguments, a call that returns
has one of a few effects on the rows of the share: it puts one row in, replaces one,
takes one out, takes all out, or does nothing.  The share is abstracted to a table of
versioned slots, and each call is shown to refine one event of that table.

The walks along the chains, the duplicate checks and the locks need not be looked at
for this: they touch neither slots nor the free list, and the frame rule says so.
-/

namespace FastMem

open Conc

variable {n : Nat} {W PK : Type} {cfg : ShareCfg n W PK} {t lim : Nat} {s s' s'' : Share n W}
  {F : List Int} {out : Set Int} {α β : Type}

/-- The table of a share: the slots of its chunks, the images of the ACTIVE ones, and
the generation of each. -/
def Share.table (s : Share n W) : Versioned.Table Int (Image n W) where
  slots := {i | s.Grown i}
  row := fun i => if s.state i = .active then some (s.data i) else none
  gen := s.gen

/-- The slots, the free list and the number of chunks are the same in both shares. -/
structure SlotsKept (s s' : Share n W) : Prop where
  state : s'.state = s.state
  seq : s'.seq = s.seq
  gen : s'.gen = s.gen
  freeNext : s'.freeNext = s.freeNext
  data : s'.data = s.data
  freeHead : s'.freeHead = s.freeHead
  chunkCnt : s'.chunkCnt = s.chunkCnt
  records : s'.records = s.records

/-- A share has its own slots. -/
theorem SlotsKept.refl (s : Share n W) : SlotsKept s s := ⟨rfl, rfl, rfl, rfl, rfl, rfl, rfl, rfl⟩

/-- What keeps the slots twice keeps them. -/
theorem SlotsKept.trans (h : SlotsKept s s') (h' : SlotsKept s' s'') : SlotsKept s s'' :=
  ⟨h'.state.trans h.state, h'.seq.trans h.seq, h'.gen.trans h.gen, h'.freeNext.trans h.freeNext,
    h'.data.trans h.data, h'.freeHead.trans h.freeHead, h'.chunkCnt.trans h.chunkCnt,
    h'.records.trans h.records⟩

/-- A lock operation keeps the slots. -/
theorem SlotsKept.setOwner (s : Share n W) (o : Option Nat) (l : Lock) :
    SlotsKept s (s.setOwner o l) := by
  cases l <;> exact ⟨rfl, rfl, rfl, rfl, rfl, rfl, rfl, rfl⟩

/-- The same slots lie in chunks. -/
theorem SlotsKept.grown (h : SlotsKept s s') (i : Int) : s'.Grown i ↔ s.Grown i := by
  unfold Share.Grown
  rw [h.chunkCnt]

/-- The rows and their generations are the same. -/
theorem SlotsKept.table (h : SlotsKept s s') : s'.table = s.table := by
  simp only [Share.table, Share.Grown, h.chunkCnt, h.state, h.data, h.gen]

theorem SlotsKept.ledger (h : SlotsKept s s') (hl : Ledger cfg lim s F out) :
    Ledger cfg lim s' F out where
  free := by
    unfold Share.FreeList
    rw [h.freeNext, h.freeHead]
    exact hl.free
  free_inactive := by
    rw [h.state]
    exact hl.free_inactive
  free_all := by
    rw [h.state, h.chunkCnt]
    exact hl.free_all
  out_spec := by
    rw [h.state]
    exact hl.out_spec
  used := by
    rw [h.state, h.chunkCnt]
    exact hl.used
  seq_even := by
    rw [h.seq]
    exact hl.seq_even
  chunks := by
    rw [h.chunkCnt]
    exact hl.chunks

/-- An access to the index, to a lock, or a mere load. -/
def Act.besideSlots : Act n W → Bool
  | .storeState .. | .addGen _ | .addSeq _ | .storeWord .. | .storeFreeHead _ | .storeFreeNext ..
  | .storeChunkCnt _ | .initSlots _ | .addRecords _ | .storeRecords _ => false
  | _ => true

/-- An action beside the slots keeps them. -/
theorem exec_besideSlots {a : Act n W} (ha : a.besideSlots = true) {r : a.Res}
    (h : exec cfg t a s = some (r, s')) : SlotsKept s s' := by
  cases a <;> simp only [Act.besideSlots, Bool.false_eq_true] at ha <;> simp only [exec] at h
  case lock l =>
    split at h
    · cases h
      exact .setOwner s _ l
    · cases h
  case unlock l =>
    cases h
    exact .setOwner s _ l
  case casAutoInc cur new =>
    split at h <;> cases h <;> exact ⟨rfl, rfl, rfl, rfl, rfl, rfl, rfl, rfl⟩
  all_goals
    cases h
    exact ⟨rfl, rfl, rfl, rfl, rfl, rfl, rfl, rfl⟩

/-- A program that touches no slot, in any of its loops. -/
abbrev BesideSlots (p : Core n W PK α) : Prop :=
  Machine.Only (S := coreSig n W PK) (fun a => Act.besideSlots a = true) (fun _ => True) p

/-- An access that only loads. -/
def Act.loads : Act n W → Bool
  | .loadState _ | .loadGen _ | .loadSeq _ | .loadWord .. | .loadHead .. |
    .loadNext .. | .loadFreeHead
  | .loadFreeNext _ | .loadChunkCnt | .loadAutoInc => true
  | _ => false

/-- A loop that only loads. -/
def Proc.reads : Proc n W PK → Bool
  | .readRow .. | .dupWalk .. | .findWalk .. | .findNextWalk .. => true
  | .unlinkWalk .. | .reserveLoop .. | .observeLoop .. => false

/-- A program that only loads, in all of its loops. -/
abbrev Loads (p : Core n W PK α) : Prop :=
  Machine.Only (S := coreSig n W PK) (fun a => Act.loads a = true) (fun q => Proc.reads q = true) p

/-- A program that only loads keeps the slots. -/
theorem Loads.beside {p : Core n W PK α} (hp : Loads p) : BesideSlots p := by
  refine Machine.Only.mono (fun a ha => ?_) (fun _ _ => trivial) hp
  cases a <;> first | rfl | cases ha

section

variable {P : Act n W → Prop} {Q : Proc n W PK → Prop}

/-- A single access of the allowed kind. -/
theorem only_access {a : Act n W} (ha : P a) :
    Machine.Only (S := coreSig n W PK) P Q (access a : Core n W PK a.Res) :=
  ⟨ha, fun _ => trivial⟩

/-- A loop whose procedure is allowed. -/
theorem only_loop {p : Proc n W PK} (hp : Q p) :
    Machine.Only (S := coreSig n W PK) P Q (loop p) :=
  ⟨hp, fun _ => trivial⟩

/-- A result comes without an access. -/
theorem only_pure (a : α) : Machine.Only (S := coreSig n W PK) P Q
    (pure a : Core n W PK α) := trivial

/-- One program of the allowed kind after another. -/
theorem only_bind {p : Core n W PK α} {f : α → Core n W PK β}
    (hp : Machine.Only (S := coreSig n W PK) P Q p)
    (hf : ∀ a, Machine.Only (S := coreSig n W PK) P Q (f a)) :
    Machine.Only (S := coreSig n W PK) P Q (p >>= f) :=
  Machine.Only.bind hp hf

end

/-- Copying an image out of a slot only loads. -/
theorem loads_copyOut (idx : Int) (js : List (Fin n)) (buf : Image n W) :
    Loads (copyOut idx js buf : Core n W PK (Image n W)) := by
  induction js generalizing buf with
  | nil => exact only_pure _
  | cons j js ih => exact only_bind (only_access rfl) fun x => ih _

theorem loads_readRowCopy (idx : Int) (cg : Bool) (g : Nat) (buf : Image n W) :
    Loads (readRowCopy idx cg g buf : Core n W PK _) := by
  refine only_bind (only_access rfl) fun s₁ => .ite (only_loop rfl) ?_
  refine only_bind (loads_copyOut _ _ _) fun img => only_bind (only_access rfl) fun s₂ => ?_
  exact .ite (only_loop rfl) (only_pure _)

/-- The loops that only load. -/
theorem loads_procBody {p : Proc n W PK} (hp : p.reads = true) : Loads (procBody cfg p) := by
  cases p with
  | readRow idx cg g buf =>
      refine only_bind (only_access rfl) fun st =>
        .ite (only_pure _) (.ite ?_ (loads_readRowCopy ..))
      exact only_bind (only_access rfl) fun g' => .ite (only_pure _) (loads_readRowCopy ..)
  | dupWalk k rec scratch h =>
      refine .ite (only_pure _) (only_bind (only_loop rfl) fun r => .ite (only_pure _) ?_)
      exact only_bind (only_access rfl) fun nx => only_loop rfl
  | findWalk key pk buf h =>
      refine .ite (only_pure _) (only_bind (only_loop rfl) fun r => .ite (only_pure _) ?_)
      exact only_bind (only_access rfl) fun nx => only_loop rfl
  | findNextWalk key pk cur after buf h =>
      refine .ite (only_pure _) (.ite ?_ (.ite ?_ ?_))
      · exact only_bind (only_access rfl) fun nx => only_loop rfl
      · refine only_bind (only_loop rfl) fun r => .ite (only_pure _) ?_
        exact only_bind (only_access rfl) fun nx => only_loop rfl
      · exact only_bind (only_access rfl) fun nx => only_loop rfl
  | unlinkWalk | reserveLoop | observeLoop => cases hp

/-- A program that only loads leaves the share as it is. -/
theorem Loads.keeps {p : Core n W PK α} (hp : Loads p) {x : α}
    (h : (machine cfg).Runs t p s x s') : s' = s := by
  refine Machine.Runs.keeps (M := machine cfg) (R := fun s s' => s' = s) (fun _ => rfl)
    (fun _ _ _ h h' => h'.trans h) (fun a s r s' ha he => ?_) (fun p hp => loads_procBody hp) h hp
  cases a <;> cases ha <;> cases he <;> rfl

/-- What the loops do: they load, they cut a slot out of a chain, and they exchange the
auto-increment counter. -/
def Act.inLoop : Act n W → Bool
  | .storeHead .. | .storeNext .. | .casAutoInc .. => true
  | a => a.loads

/-- The bodies of the loops do nothing but the actions of loops. -/
theorem inLoop_procBody (p : Proc n W PK) :
    Machine.Only (S := coreSig n W PK) (fun a => Act.inLoop a = true) (fun _ => True)
      (procBody cfg p) := by
  by_cases hp : p.reads = true
  · refine Machine.Only.mono (fun a ha => ?_) (fun _ _ => trivial) (loads_procBody hp)
    cases a <;> first | rfl | cases ha
  cases p with
  | unlinkWalk k link idx =>
      refine only_bind (by cases link <;> exact only_access rfl) fun h =>
        .ite (only_pure _) (.ite ?_ (only_loop trivial))
      exact only_bind (only_access rfl) fun nx =>
        only_bind (by cases link <;> exact only_access rfl) fun _ => only_pure _
  | reserveLoop offset inc nb =>
      refine only_bind (only_access rfl) fun cur => ?_
      cases autoIncFirst cur offset inc with
      | none => exact only_pure _
      | some v =>
          refine .ite (only_pure _) (only_bind (only_access rfl) fun r => ?_)
          exact .ite (only_pure _) (only_loop trivial)
  | observeLoop value cur =>
      refine .ite (only_bind (only_access rfl) fun r => ?_) (only_pure _)
      exact .ite (only_pure _) (only_loop trivial)
  | readRow | dupWalk | findWalk | findNextWalk => exact absurd rfl hp

/-- None of the loops touches a slot. -/
theorem beside_procBody (p : Proc n W PK) : BesideSlots (procBody cfg p) := by
  refine Machine.Only.mono (fun a ha => ?_) (fun _ _ => trivial) (inLoop_procBody p)
  cases a <;> first | rfl | cases ha

/-- **The frame of the index.**  A program that touches no slot leaves all of them
alone. -/
theorem BesideSlots.keeps {p : Core n W PK α} (hp : BesideSlots p) {x : α}
    (h : (machine cfg).Runs t p s x s') : SlotsKept s s' :=
  Machine.Runs.keeps (M := machine cfg) SlotsKept.refl (fun _ _ _ => SlotsKept.trans)
    (fun _ _ _ _ ha he => exec_besideSlots ha he) (fun p _ => beside_procBody p) h hp

/-- A run whose first part touches no slot. -/
theorem runs_beside {p : Core n W PK α} {f : α → Core n W PK β} (hp : BesideSlots p) {x : β}
    (h : (machine cfg).Runs t (p >>= f) s x s'') :
    ∃ a s', SlotsKept s s' ∧ (machine cfg).Runs t (f a) s' x s'' := by
  obtain ⟨a, s', hfirst, hrest⟩ := Machine.Runs.split h
  exact ⟨a, s', hp.keeps hfirst, hrest⟩

/-- A run whose first part is known. -/
theorem runs_known {p : Core n W PK α} {f : α → Core n W PK β} {a : α} {x : β}
    (hp : (machine cfg).Runs t p s a s') (h : (machine cfg).Runs t (p >>= f) s x s'') :
    (machine cfg).Runs t (f a) s' x s'' :=
  hp.after h

/-- A program that neither takes nor releases a lock. -/
abbrev Silent (p : Core n W PK α) : Prop :=
  Machine.Only (S := coreSig n W PK) (fun a => Act.quiet a = true) (fun _ => True) p

/-- A program that only loads takes and releases no lock. -/
theorem Loads.silent {p : Core n W PK α} (hp : Loads p) : Silent p := by
  refine Machine.Only.mono (fun a ha => ?_) (fun _ _ => trivial) hp
  cases a <;> first | rfl | cases ha

/-- No loop takes or releases a lock. -/
theorem silent_procBody (p : Proc n W PK) : Silent (procBody cfg p) := by
  refine Machine.Only.mono (fun a ha => ?_) (fun _ _ => trivial) (inLoop_procBody p)
  cases a <;> first | rfl | cases ha

/-- Filling a slot takes no lock. -/
theorem silent_copyIn (idx : Int) (rec : Image n W) (js : List (Fin n)) :
    Silent (copyIn idx rec js : Core n W PK Unit) := by
  induction js with
  | nil => exact only_pure _
  | cons j js ih => exact only_bind (only_access rfl) fun _ => ih

theorem silent_writeImage (idx : Int) (rec : Image n W) :
    Silent (writeImage idx rec : Core n W PK Unit) :=
  only_bind (only_access rfl) fun _ => only_bind (silent_copyIn ..) fun _ => only_access rfl

theorem silent_chainLink (k b : Nat) (idx : Int) : Silent (chainLink k b idx : Core n W PK Unit) :=
  only_bind (only_access rfl) fun _ => only_bind (only_access rfl) fun _ => only_access rfl

theorem silent_moveKeys (idx : Int) (old new : Image n W) (ks : List Nat) :
    Silent (moveKeys cfg idx old new ks) := by
  induction ks with
  | nil => exact only_pure _
  | cons k ks ih =>
      exact only_bind (only_loop trivial) fun _ => only_bind (silent_chainLink ..) fun _ => ih

theorem silent_verifySlot (idx : Int) (g : Nat) : Silent (verifySlot idx g : Core n W PK Bool) :=
  only_bind (only_access rfl) fun _ =>
    .ite (only_pure _) (only_bind (only_access rfl) fun _ => only_pure _)

/-- The accesses with which slots are taken from the free list, given back to it, or made. -/
def Act.allocates : Act n W → Bool
  | .loadFreeHead | .storeFreeHead _ | .loadFreeNext _ | .storeFreeNext .. | .loadChunkCnt |
    .storeChunkCnt _ | .alloc
  | .initSlots _ | .initNext .. => true
  | _ => false

/-- A program that does nothing but this. -/
abbrev Allocates (p : Core n W PK α) : Prop :=
  Machine.Only (S := coreSig n W PK) (fun a => Act.allocates a = true) (fun _ => True) p

/-- What only allocates takes and releases no lock. -/
theorem Allocates.silent {p : Core n W PK α} (hp : Allocates p) : Silent p := by
  refine Machine.Only.mono (fun a ha => ?_) (fun _ _ => trivial) hp
  cases a <;> first | rfl | cases ha

/-- Putting a slot on the free list is an operation of the allocator. -/
theorem allocates_freeSlot (idx : Int) : Allocates (freeSlot idx : Core n W PK Unit) :=
  only_bind (only_access rfl) fun _ => only_bind (only_access rfl) fun _ => only_access rfl

/-- It takes no lock. -/
theorem silent_freeSlot (idx : Int) : Silent (freeSlot idx : Core n W PK Unit) :=
  (allocates_freeSlot idx).silent

theorem allocates_growChunk (cfg : ShareCfg n W PK) : Allocates (growChunk cfg) := by
  have hnext : ∀ c ks, Allocates (allocKeyNext c ks : Core n W PK Rc) := by
    intro c ks
    induction ks with
    | nil => exact only_pure _
    | cons k ks ih =>
        refine only_bind (only_access rfl) fun _ => .ite ?_ (only_pure _)
        exact only_bind (only_access rfl) fun _ => ih
  have hpublish : ∀ c, Allocates (publishChunk cfg c) := by
    intro c
    refine only_bind (hnext c _) fun rc => .ite ?_ (only_pure _)
    exact only_bind (only_access rfl) fun _ => only_pure _
  have harray : Allocates (allocKeyArray cfg) := .ite (only_pure _) (only_access rfl)
  have hbuild : ∀ c, Allocates (buildChunk cfg c) := by
    intro c
    refine only_bind (only_access rfl) fun _ => only_bind harray fun ok => ?_
    exact .ite (hpublish c) (only_pure _)
  refine only_bind (only_access rfl) fun c =>
    .ite (only_pure _) (only_bind (only_access rfl) fun ok => ?_)
  exact .ite (hbuild c) (only_pure _)

theorem allocates_allocSlot (cfg : ShareCfg n W PK) : Allocates (allocSlot cfg) := by
  have hpush : ∀ lo m, Allocates (pushSlots lo m : Core n W PK Unit) := by
    intro lo m
    induction m with
    | zero => exact only_pure _
    | succ m ih => exact only_bind (allocates_freeSlot _) fun _ => ih
  refine only_bind (only_access rfl) fun head => .ite ?_ (only_bind (only_access rfl) fun cnt => ?_)
  · exact only_bind (only_access rfl) fun _ => only_bind (only_access rfl) fun _ => only_pure _
  · refine .ite (only_pure _)
      (.ite (only_bind (allocates_growChunk cfg) fun rc => .ite ?_ (only_pure _)) (only_pure _))
    exact only_bind (hpush _ _) fun _ => only_pure _

/-- Taking a slot takes no lock. -/
theorem silent_allocSlot (cfg : ShareCfg n W PK) : Silent (allocSlot cfg) :=
  (allocates_allocSlot cfg).silent

/-- Taking the bucket locks of an update keeps the slots. -/
theorem beside_lockAll (prev : Option (Nat × Nat)) (vs : List (Nat × Nat)) :
    BesideSlots (lockAll prev vs : Core n W PK Unit) := by
  induction vs generalizing prev with
  | nil => exact only_pure _
  | cons v vs ih =>
      exact only_bind (.ite (only_pure _) (only_access rfl)) fun _ => ih _

theorem beside_unlockAll (vs : List (Nat × Nat)) :
    BesideSlots (unlockAll vs : Core n W PK Unit) := by
  induction vs with
  | nil => exact only_pure _
  | cons v vs ih => exact only_bind (.ite (only_pure _) (only_access rfl)) fun _ => ih

/-- A duplicate check only loads. -/
theorem loads_dupCheck (k b : Nat) (rec scratch : Image n W) :
    Loads (dupCheck cfg k b rec scratch) :=
  .ite (only_bind (only_access rfl) fun _ => only_loop rfl) (only_pure _)

theorem loads_dupChecks (new scratch : Image n W) (ks : List Nat) :
    Loads (dupChecks cfg new scratch ks) := by
  induction ks with
  | nil => exact only_pure _
  | cons k ks ih => exact only_bind (loads_dupCheck ..) fun _ => .ite ih (only_pure _)

/-- Linking into a chain keeps the slots. -/
theorem beside_chainLink (k b : Nat) (idx : Int) :
    BesideSlots (chainLink k b idx : Core n W PK Unit) :=
  only_bind (only_access rfl) fun _ => only_bind (only_access rfl) fun _ => only_access rfl

theorem beside_linkKeys (rec scratch : Image n W) (idx : Int) (ks : List Nat) :
    BesideSlots (linkKeys cfg rec scratch idx ks) := by
  induction ks with
  | nil => exact only_pure _
  | cons k ks ih =>
      refine only_bind (only_access rfl) fun _ => only_bind (loads_dupCheck ..).beside fun _ => ?_
      refine .ite ?_ (only_bind (only_access rfl) fun _ => only_pure _)
      exact only_bind (beside_chainLink ..) fun _ => only_bind (only_access rfl) fun _ => ih

theorem beside_rollback (rec : Image n W) (idx : Int) (k : Nat) :
    BesideSlots (rollback cfg rec idx k) := by
  induction k with
  | zero => exact only_pure _
  | succ k ih =>
      refine only_bind (only_access rfl) fun _ => only_bind (only_loop trivial) fun _ => ?_
      exact only_bind (only_access rfl) fun _ => ih

theorem beside_unlinkKeys (img : Image n W) (idx : Int) (ks : List Nat) :
    BesideSlots (unlinkKeys cfg img idx ks) := by
  induction ks with
  | nil => exact only_pure _
  | cons k ks ih =>
      refine only_bind (only_access rfl) fun _ => only_bind (only_loop trivial) fun _ => ?_
      exact only_bind (only_access rfl) fun _ => ih

theorem beside_moveKeys (idx : Int) (old new : Image n W) (ks : List Nat) :
    BesideSlots (moveKeys cfg idx old new ks) := by
  induction ks with
  | nil => exact only_pure _
  | cons k ks ih =>
      exact only_bind (only_loop trivial) fun _ => only_bind (beside_chainLink ..) fun _ => ih

theorem beside_clearHeads (ks : List Nat) : BesideSlots (clearHeads cfg ks) := by
  have hbuckets : ∀ k bs, BesideSlots (clearBuckets k bs : Core n W PK Unit) := by
    intro k bs
    induction bs with
    | nil => exact only_pure _
    | cons b bs ih =>
        refine only_bind (only_access rfl) fun _ => only_bind (only_access rfl) fun _ => ?_
        exact only_bind (only_access rfl) fun _ => ih
  induction ks with
  | nil => exact only_pure _
  | cons k ks ih => exact only_bind (hbuckets k _) fun _ => ih

/-- A step of a table scan only loads. -/
theorem loads_scanNext (pos : Nat) (buf : Image n W) :
    Loads (scanNext pos buf : Core n W PK _) := by
  have hfrom : ∀ fuel pos buf, Loads (scanFrom pos fuel buf : Core n W PK _) := by
    intro fuel
    induction fuel with
    | zero => exact fun _ _ => only_pure _
    | succ fuel ih =>
        intro pos buf
        exact only_bind (only_loop rfl) fun r => .ite (only_pure _) (ih _ _)
  exact only_bind (only_access rfl) fun cnt => hfrom _ _ _

/-- A lookup keeps the slots. -/
theorem beside_find (key : Nat) (pk : PK) (buf : Image n W) :
    BesideSlots (find cfg key pk buf) := by
  refine only_bind (only_access rfl) fun _ => only_bind (only_access rfl) fun _ => ?_
  exact only_bind (only_loop trivial) fun _ => only_bind (only_access rfl) fun _ => only_pure _

theorem beside_findNext (key : Nat) (pk : PK) (cur : Int) (buf : Image n W) :
    BesideSlots (findNext cfg key pk cur buf) := by
  refine only_bind (only_access rfl) fun _ => only_bind (only_access rfl) fun _ => ?_
  exact only_bind (only_loop trivial) fun _ => only_bind (only_access rfl) fun _ => only_pure _

/-- A share with the same rows is a table that has grown by nothing. -/
theorem grows_of_same (hrows : SameRows s s') (hindex : SameIndex s s') :
    Versioned.Grows s.table s'.table where
  slots := fun i hi => hindex.grown i hi
  row := by
    funext i
    simp only [Share.table, hrows.data, hindex.active]
  gen := fun i hi => hrows.gen i hi

/-- Another image in a slot that is not ACTIVE. -/
theorem Ledger.withData (h : Ledger cfg lim s F out) (idx : Int) (img : Image n W) :
    Ledger cfg lim (s.withData idx img) F out :=
  { h with }

/-- Writing into a slot that holds no row changes no row. -/
theorem table_withData {idx : Int} (hidx : s.state idx ≠ .active) (img : Image n W) :
    (s.withData idx img).table = s.table := by
  unfold Share.table
  congr 1
  funext i
  by_cases hi : i = idx
  · subst hi
    simp [Share.withData, hidx]
  · simp [Share.withData, hi]

/-- Making the slot that is out ACTIVE. -/
theorem Ledger.publish {idx : Int} (h : Ledger cfg lim s F {idx}) :
    Ledger cfg lim
      { s with state := Function.update s.state idx .active, records := s.records + 1 } F ∅ := by
  obtain ⟨hne, hnot⟩ := h.out_spec idx rfl
  have hother : ∀ i, i ≠ idx → Function.update s.state idx .active i = s.state i :=
    fun i hi => Function.update_of_ne hi _ _
  constructor
  case free => exact h.free
  case free_inactive =>
    intro i hi
    have hi' : i ≠ idx := fun heq => hnot (heq ▸ hi)
    show Function.update s.state idx .active i ≠ .active
    rw [hother i hi']
    exact h.free_inactive i hi
  case free_all =>
    intro u hu hu' hst
    have hi' : i32 u ≠ idx := by
      intro heq
      apply hst
      show Function.update s.state idx .active (i32 u) = .active
      rw [heq, Function.update_self]
    have hst' : Function.update s.state idx .active (i32 u) ≠ .active := hst
    rw [hother _ hi'] at hst'
    rcases h.free_all u hu hu' hst' with hmem | hmem
    · exact Or.inl hmem
    · exact absurd hmem hi'
  case out_spec => simp
  case used =>
    intro i hi
    by_cases hi' : i = idx
    · exact h.used i (Or.inr (Or.inl hi'))
    · rcases hi with hi | hi | hi
      · exact h.used i (Or.inl hi)
      · cases hi
      · have hst : Function.update s.state idx .active i = .active := hi
        rw [hother i hi'] at hst
        exact h.used i (Or.inr (Or.inr hst))
  case seq_even => exact h.seq_even
  case chunks => exact h.chunks

/-- Taking a row out: its slot is out then. -/
theorem Ledger.remove {idx : Int} (h : Ledger cfg lim s F ∅) (hactive : s.state idx = .active)
    (gn : Int → Nat) (d : Int) :
    Ledger cfg lim { s with state := Function.update s.state idx .deleted, gen := gn, records := d }
      F {idx} := by
  have hstate : ∀ i, Function.update s.state idx .deleted i = .active ↔
      i ≠ idx ∧ s.state i = .active := by
    intro i
    by_cases hi : i = idx
    · subst hi
      simp
    · simp [hi]
  constructor
  case free => exact h.free
  case free_inactive => exact fun i hi hst => h.free_inactive i hi ((hstate i).mp hst).2
  case free_all =>
    intro u hu hu' hne
    by_cases hi : i32 u = idx
    · exact Or.inr hi
    · have hne' : s.state (i32 u) ≠ .active := fun hst => hne ((hstate _).mpr ⟨hi, hst⟩)
      rcases h.free_all u hu hu' hne' with hmem | hmem
      · exact Or.inl hmem
      · cases hmem
  case out_spec =>
    intro i hi
    have hi : i = idx := hi
    subst hi
    exact ⟨fun hst => ((hstate i).mp hst).1 rfl, fun hmem => h.free_inactive i hmem hactive⟩
  case used =>
    intro i hi
    rcases hi with hi | hi | hi
    · exact h.used i (Or.inl hi)
    · have hi : i = idx := hi
      exact h.used i (Or.inr (Or.inr (hi ▸ hactive)))
    · exact h.used i (Or.inr (Or.inr ((hstate i).mp hi).2))
  case seq_even => exact h.seq_even
  case chunks => exact h.chunks

end FastMem
