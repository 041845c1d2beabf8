import Mathlib.Data.List.Nodup
import FastMem.LockOrder
import FastMem.Lockset
import FastMem.Threads

/-!
# Which locks a call holds

The ghost value of a thread is the stack of locks it holds.  The invariant is
that a lock's owner is the thread whose stack it is on; what is asked of the
next action of a thread is that it requests a lock only if a given policy
allows it on top of the locks it holds.  No part of this depends on what the
chains, slots or images contain, so every function of the core keeps it from
every share and for all arguments.

The ghost value also remembers which slots the thread has stored a state to
since it last took the struct mutex.  Only `fm_core_clear` is ever asked about
that.
-/

namespace FastMem

open Conc

variable {n : Nat} {W PK Op Loc Out : Type}

/-- What an access adds to the slots flipped since the struct mutex was taken. -/
def Act.flips : Act n W → List Int → List Int
  | .storeState i _, f => i :: f
  | .lock .mutex, _ => []
  | _, f => f

/-- The slots whose state thread `t` has stored since it last took the struct
mutex. -/
def flipped (t : Nat) : List (Entry (coreSig n W PK) (Share n W) Op) → List Int
  | [] => []
  | e :: es => if e.call.tid = t then Act.flips e.act (flipped t es) else flipped t es

/-- The locks a thread holds, the latest first, and the slots it has flipped. -/
structure Held where
  locks : List Lock
  flips : List Int

/-- A lock's owner is the thread that has it on its stack. -/
structure LocksOwned (w : World (coreSig n W PK) (Share n W) Op Out) (γ : Nat → Held) : Prop where
  owner : ∀ l t, w.mem.owner l = some t ↔ l ∈ (γ t).locks
  nodup : ∀ t, (γ t).locks.Nodup
  flips : ∀ t, (γ t).flips = flipped t w.past

/-- The logic of lock stacks under a policy. -/
def lockLogic (n : Nat) (W PK Out : Type) (Idle : Loc → Held → Prop)
    (Allowed : Op → Held → Lock → Prop) :
    Logic (coreSig n W PK) (Share n W) Op Loc Out Held where
  Inv := LocksOwned
  Idle := Idle
  Assume := fun _ _ _ => True
  Next := fun c a _ γ => ∀ l, a = .lock l → Allowed c.op (γ c.tid) l

section Rules

variable (cfg : ShareCfg n W PK) (Idle : Loc → Held → Prop) (Allowed : Op → Held → Lock → Prop)
  (c : Call Op) {α β : Type}

/-- For `m` steps, `p` follows the policy, and if it ends, a call that started
with ghost value `g` has ghost value `g'`. -/
def Exact (Out : Type) (m : Nat) (g g' : Held) (p : Core n W PK α) : Prop :=
  (lockLogic n W PK Out Idle Allowed).Safe (machine cfg) c m p (fun _ h => h = g') g

/-- For `m` steps, `p` follows the policy, and if it ends, a call that started
with the locks `H` holds the locks `H'`. -/
def Keeps (Out : Type) (m : Nat) (H H' : List Lock) (p : Core n W PK α) : Prop :=
  ∀ f, (lockLogic n W PK Out Idle Allowed).Safe (machine cfg) c m p
    (fun _ g => g.locks = H') ⟨H, f⟩

/-- For `m` steps, `p` follows the policy, and if it ends, the result and the
locks of a call that started with the locks `H` satisfy `R`. -/
def Ends (Out : Type) (m : Nat) (H : List Lock) (R : α → List Lock → Prop)
    (p : Core n W PK α) : Prop :=
  ∀ f, (lockLogic n W PK Out Idle Allowed).Safe (machine cfg) c m p (fun a g => R a g.locks) ⟨H, f⟩

variable {cfg Idle Allowed c} {m : Nat} {H H' H'' : List Lock} {f : List Int}

/-- A result with the locks held. -/
theorem Ends.ret {a : α} {R : α → List Lock → Prop} (h : R a H) :
    Ends cfg Idle Allowed c Out m H R (pure a : Core n W PK α) :=
  fun _ => Logic.Safe.ret h

/-- One program after another, each with the locks the one before leaves. -/
theorem Ends.bind {p : Core n W PK α} {q : α → Core n W PK β} {R : α → List Lock → Prop}
    {R' : β → List Lock → Prop} (hp : Ends cfg Idle Allowed c Out m H R p)
    (hq : ∀ a H', R a H' → Ends cfg Idle Allowed c Out m H' R' (q a)) :
    Ends cfg Idle Allowed c Out m H R' (p >>= q) :=
  fun f => (hp f).bind fun a g hg => hq a g.locks hg g.flips

/-- A program whose locks are known, and one that goes on from them. -/
theorem Keeps.then {p : Core n W PK α} {q : α → Core n W PK β} {R' : β → List Lock → Prop}
    (hp : Keeps cfg Idle Allowed c Out m H H' p)
    (hq : ∀ a, Ends cfg Idle Allowed c Out m H' R' (q a)) :
    Ends cfg Idle Allowed c Out m H R' (p >>= q) := by
  intro f
  refine (hp f).bind fun a g hg => ?_
  obtain ⟨locks, f'⟩ := g
  cases hg
  exact hq a f'

/-- Both branches of a test end with their locks. -/
theorem Ends.ite {P : Prop} [Decidable P] {p q : Core n W PK α} {R : α → List Lock → Prop}
    (hp : P → Ends cfg Idle Allowed c Out m H R p)
    (hq : ¬ P → Ends cfg Idle Allowed c Out m H R q) :
    Ends cfg Idle Allowed c Out m H R (if P then p else q) := by
  split
  · rename_i h
    exact hp h
  · rename_i h
    exact hq h

/-- A result changes nothing of what is held. -/
theorem Exact.ret {g : Held} {a : α} : Exact cfg Idle Allowed c Out m g g
    (pure a : Core n W PK α) :=
  Logic.Safe.ret rfl

/-- One program after another, with what is held in between. -/
theorem Exact.bind {g g' g'' : Held} {p : Core n W PK α} {q : α → Core n W PK β}
    (hp : Exact cfg Idle Allowed c Out m g g' p)
    (hq : ∀ a, Exact cfg Idle Allowed c Out m g' g'' (q a)) :
    Exact cfg Idle Allowed c Out m g g'' (p >>= q) := by
  refine Logic.Safe.bind hp fun a h hh => ?_
  subst hh
  exact hq a

/-- A result comes with the locks held before. -/
theorem Keeps.ret {a : α} : Keeps cfg Idle Allowed c Out m H H (pure a : Core n W PK α) :=
  fun _ => Logic.Safe.ret rfl

/-- One program after another, with the locks held in between. -/
theorem Keeps.bind {p : Core n W PK α} {q : α → Core n W PK β}
    (hp : Keeps cfg Idle Allowed c Out m H H' p)
    (hq : ∀ a, Keeps cfg Idle Allowed c Out m H' H'' (q a)) :
    Keeps cfg Idle Allowed c Out m H H'' (p >>= q) := by
  intro f
  refine (hp f).bind fun a g hg => ?_
  obtain ⟨locks, f'⟩ := g
  cases hg
  exact hq a f'

/-- Owners after a step that changes the stack of one thread only. -/
theorem LocksOwned.step {w : World (coreSig n W PK) (Share n W) Op Out} {γ : Nat → Held}
    (h : LocksOwned w γ) (hg : γ c.tid = ⟨H, f⟩) (a : Act n W) (s : Share n W) (ls : List Lock)
    (hnd : ls.Nodup) (hown : ∀ l, s.owner l = some c.tid ↔ l ∈ ls)
    (hother : ∀ l t, t ≠ c.tid → (s.owner l = some t ↔ w.mem.owner l = some t)) :
    LocksOwned (w.push c a s) (Function.update γ c.tid ⟨ls, a.flips f⟩) := by
  have hf : f = flipped c.tid w.past := by rw [← h.flips, hg]
  refine ⟨?_, ?_, ?_⟩
  · intro l t
    by_cases ht : t = c.tid
    · subst ht; simpa using hown l
    · simpa [ht] using (hother l t ht).trans (h.owner l t)
  · intro t
    by_cases ht : t = c.tid
    · subst ht; simpa using hnd
    · simpa [ht] using h.nodup t
  · intro t
    by_cases ht : t = c.tid
    · subst ht; simp [flipped, hf]
    · have hne : ¬ c.tid = t := fun h => ht h.symm
      simpa [ht, flipped, hne] using h.flips t

/-- An access that is no lock operation. -/
theorem Exact.quiet {a : Act n W} (ha : a.quiet = true) :
    Exact cfg Idle Allowed c Out m ⟨H, f⟩ ⟨H, a.flips f⟩ (access a) := by
  cases m with
  | zero => trivial
  | succ m =>
      refine Logic.Safe.act fun w γ hinv hg => ⟨?_, fun _ r s hexec => ?_⟩
      · rintro l rfl
        simp [Act.quiet] at ha
      · have hown := exec_owner ha hexec
        have hH : (γ c.tid).locks = H := by rw [hg]
        have hinv' := hinv.step hg a s H (hH ▸ hinv.nodup c.tid)
          (by intro l; rw [hown, ← hH]; exact hinv.owner l c.tid)
          (by intro l t _; rw [hown])
        exact ⟨_, hinv', Logic.Safe.ret rfl⟩

/-- Taking a lock the policy allows. -/
theorem Exact.lock {l : Lock} (hl : Allowed c.op ⟨H, f⟩ l) :
    Exact cfg Idle Allowed c Out m ⟨H, f⟩ ⟨l :: H, (Act.lock l : Act n W).flips f⟩
      (access (.lock l)) := by
  cases m with
  | zero => trivial
  | succ m =>
      refine Logic.Safe.act fun w γ hinv hg => ⟨?_, fun _ r s hexec => ?_⟩
      · rintro l' ⟨⟩
        rw [hg]
        exact hl
      · have hH : (γ c.tid).locks = H := by rw [hg]
        simp only [exec] at hexec
        split at hexec
        · rename_i hfree
          cases hexec
          have hnot : l ∉ H := by
            intro hmem
            rw [← hH, ← hinv.owner, hfree] at hmem
            cases hmem
          have hinv' := hinv.step hg (.lock l) (w.mem.setOwner (some c.tid) l)
            (l :: H) (List.nodup_cons.mpr ⟨hnot, hH ▸ hinv.nodup c.tid⟩)
            (by
              intro l'
              by_cases h' : l' = l
              · simp [h']
              · simp [h', ← hH, hinv.owner])
            (by
              intro l' t ht
              by_cases h' : l' = l
              · subst h'
                simp [hfree]
                exact fun h => ht h.symm
              · simp [h'])
          exact ⟨_, hinv', Logic.Safe.ret rfl⟩
        · cases hexec

/-- Releasing the lock taken last. -/
theorem Exact.unlock {l : Lock} :
    Exact cfg Idle Allowed c Out m ⟨l :: H, f⟩ ⟨H, f⟩ (access (.unlock l)) := by
  cases m with
  | zero => trivial
  | succ m =>
      refine Logic.Safe.act fun w γ hinv hg => ⟨?_, fun _ r s hexec => ?_⟩
      · rintro l' ⟨⟩
      · have hH : (γ c.tid).locks = l :: H := by rw [hg]
        cases hexec
        have hnd : (l :: H).Nodup := hH ▸ hinv.nodup c.tid
        have hown : w.mem.owner l = some c.tid := by rw [hinv.owner, hH]; exact List.mem_cons_self
        have hinv' := hinv.step hg (.unlock l) (w.mem.setOwner none l)
          H (List.nodup_cons.mp hnd).2
          (by
            intro l'
            by_cases h' : l' = l
            · subst h'
              simpa using (List.nodup_cons.mp hnd).1
            · simp [h', hinv.owner, hH])
          (by
            intro l' t ht
            by_cases h' : l' = l
            · subst h'
              simp [hown]
              exact fun h => ht h.symm
            · simp [h'])
        exact ⟨_, hinv', Logic.Safe.ret rfl⟩

/-- An action that is no lock operation keeps the locks. -/
theorem Keeps.quiet {a : Act n W} (ha : a.quiet = true) :
    Keeps cfg Idle Allowed c Out m H H (access a) :=
  fun _ => (Exact.quiet ha).imp fun _ _ h => by rw [h]

/-- A lock the policy allows is held once it is taken. -/
theorem Keeps.lock {l : Lock} (hl : ∀ f, Allowed c.op ⟨H, f⟩ l) :
    Keeps cfg Idle Allowed c Out m H (l :: H) (access (.lock l)) :=
  fun f => (Exact.lock (hl f)).imp fun _ _ h => by rw [h]

/-- The lock taken last may be given back. -/
theorem Keeps.unlock {l : Lock} :
    Keeps cfg Idle Allowed c Out m (l :: H) H (access (.unlock l)) :=
  fun _ => Exact.unlock.imp fun _ _ h => by rw [h]

/-- A program that branches. -/
theorem Keeps.ite {P : Prop} [Decidable P] {p q : Core n W PK α}
    (hp : Keeps cfg Idle Allowed c Out m H H' p) (hq : Keeps cfg Idle Allowed c Out m H H' q) :
    Keeps cfg Idle Allowed c Out m H H' (if P then p else q) := by
  split
  · exact hp
  · exact hq

/-- Copying an image out of a slot needs no lock. -/
theorem keeps_copyOut {idx : Int} {js : List (Fin n)} {buf : Image n W} :
    Keeps cfg Idle Allowed c Out m H H (copyOut idx js buf) := by
  induction js generalizing buf with
  | nil => exact .ret
  | cons j js ih => exact (Keeps.quiet rfl).bind fun _ => ih

/-- Filling a slot needs no lock. -/
theorem keeps_copyIn {idx : Int} {rec : Image n W} {js : List (Fin n)} :
    Keeps cfg Idle Allowed c Out m H H (copyIn idx rec js) := by
  induction js with
  | nil => exact .ret
  | cons j js ih => exact (Keeps.quiet rfl).bind fun _ => ih

/-- Every loop of the core is free of lock operations, for any number of rounds. -/
theorem keeps_loop (p : Proc n W PK) : Keeps cfg Idle Allowed c Out m H H (loop p) := by
  induction m using Nat.strong_induction_on generalizing p with
  | _ m ih =>
      intro f
      refine Logic.Safe.enter fun m' hm' => ?_
      have hloop : ∀ q : Proc n W PK, Keeps cfg Idle Allowed c Out m' H H (loop q) :=
        fun q => ih m' hm' q
      have hq : ∀ a : Act n W, a.quiet = true → Keeps cfg Idle Allowed c Out m' H H (access a) :=
        fun a ha => Keeps.quiet ha
      suffices Keeps cfg Idle Allowed c Out m' H H (procBody cfg p) from this f
      cases p with
      | readRow idx cg g buf =>
          have hcopy : Keeps cfg Idle Allowed c Out m' H H (readRowCopy idx cg g buf) :=
            (hq _ rfl).bind fun _ => .ite (hloop _)
              (keeps_copyOut.bind fun _ => (hq _ rfl).bind fun _ => .ite (hloop _) .ret)
          exact (hq _ rfl).bind fun _ => .ite .ret
            (.ite ((hq _ rfl).bind fun _ => .ite .ret hcopy) hcopy)
      | unlinkWalk k link idx =>
          have hload : Keeps cfg Idle Allowed c Out m' H H (loadLink k link) := by
            cases link <;> exact hq _ rfl
          have hstore : ∀ j, Keeps cfg Idle Allowed c Out m' H H
              (storeLink k j link) := by
            intro j; cases link <;> exact hq _ rfl
          exact hload.bind fun _ => .ite .ret
            (.ite ((hq _ rfl).bind fun _ => (hstore _).bind fun _ => .ret) (hloop _))
      | dupWalk k rec scratch h =>
          exact .ite .ret ((hloop _).bind fun _ => .ite .ret ((hq _ rfl).bind fun _ => hloop _))
      | findWalk key pk buf h =>
          exact .ite .ret ((hloop _).bind fun _ => .ite .ret ((hq _ rfl).bind fun _ => hloop _))
      | findNextWalk key pk cur after buf h =>
          exact .ite .ret (.ite ((hq _ rfl).bind fun _ => hloop _)
            (.ite ((hloop _).bind fun _ => .ite .ret ((hq _ rfl).bind fun _ => hloop _))
              ((hq _ rfl).bind fun _ => hloop _)))
      | reserveLoop offset inc nb =>
          refine (hq _ rfl).bind fun cur => ?_
          split
          · exact .ret
          · exact .ite .ret ((hq _ rfl).bind fun _ => .ite .ret (hloop _))
      | observeLoop value cur =>
          exact .ite ((hq _ rfl).bind fun _ => .ite .ret (hloop _)) .ret

/-! Each function of the core holds the same locks when it returns as when it was
called, if the policy allows what it takes on the way. -/

/-- `fm_core_read_row` needs no lock. -/
theorem keeps_readRow {idx : Int} {cg : Bool} {g : Nat} {buf : Image n W} :
    Keeps cfg Idle Allowed c Out m H H (readRow idx cg g buf) :=
  keeps_loop _

/-- Putting a slot on the free list, with whatever is held. -/
theorem keeps_freeSlot {idx : Int} :
    Keeps cfg Idle Allowed c Out m H H (freeSlot idx) :=
  (Keeps.quiet rfl).bind fun _ => (Keeps.quiet rfl).bind fun _ => Keeps.quiet rfl

/-- The slots of a new chunk, one after another. -/
theorem keeps_pushSlots {lo k : Nat} :
    Keeps cfg Idle Allowed c Out m H H (pushSlots lo k) := by
  induction k with
  | zero => exact .ret
  | succ k ih => exact keeps_freeSlot.bind fun _ => ih

/-- The link arrays of a new chunk. -/
theorem keeps_allocKeyNext {ch : Nat} {ks : List Nat} :
    Keeps cfg Idle Allowed c Out m H H (allocKeyNext ch ks) := by
  induction ks with
  | nil => exact .ret
  | cons k ks ih =>
      exact (Keeps.quiet rfl).bind fun _ => .ite ((Keeps.quiet rfl).bind fun _ => ih) .ret

/-- The arrays of all keys. -/
theorem keeps_allocKeyArray : Keeps cfg Idle Allowed c Out m H H (allocKeyArray cfg) :=
  .ite .ret (Keeps.quiet rfl)

/-- Growing the table takes no further lock. -/
theorem keeps_growChunk : Keeps cfg Idle Allowed c Out m H H (growChunk cfg) :=
  (Keeps.quiet rfl).bind fun _ => .ite .ret <| (Keeps.quiet rfl).bind fun _ => .ite
    ((Keeps.quiet rfl).bind fun _ => keeps_allocKeyArray.bind fun _ => .ite
      (keeps_allocKeyNext.bind fun _ => .ite ((Keeps.quiet rfl).bind fun _ => .ret) .ret) .ret)
    .ret

/-- Taking a slot takes no further lock. -/
theorem keeps_allocSlot : Keeps cfg Idle Allowed c Out m H H (allocSlot cfg) :=
  (Keeps.quiet rfl).bind fun _ => .ite
    ((Keeps.quiet rfl).bind fun _ => (Keeps.quiet rfl).bind fun _ => .ret) <|
    (Keeps.quiet rfl).bind fun _ => .ite .ret <| .ite
      (keeps_growChunk.bind fun _ => .ite (keeps_pushSlots.bind fun _ => .ret) .ret) .ret

/-- Unlinking from a chain takes no further lock. -/
theorem keeps_chainUnlink {k b : Nat} {idx : Int} :
    Keeps cfg Idle Allowed c Out m H H (chainUnlink k b idx) :=
  keeps_loop _

/-- Linking into a chain takes no further lock. -/
theorem keeps_chainLink {k b : Nat} {idx : Int} :
    Keeps cfg Idle Allowed c Out m H H (chainLink k b idx) :=
  (Keeps.quiet rfl).bind fun _ => (Keeps.quiet rfl).bind fun _ => Keeps.quiet rfl

theorem keeps_dupCheck {k b : Nat} {rec scratch : Image n W} :
    Keeps cfg Idle Allowed c Out m H H (dupCheck cfg k b rec scratch) :=
  .ite ((Keeps.quiet rfl).bind fun _ => keeps_loop _) .ret

/-- A table scan needs no lock. -/
theorem keeps_scanFrom {fuel pos : Nat} {buf : Image n W} :
    Keeps cfg Idle Allowed c Out m H H (scanFrom pos fuel buf) := by
  induction fuel generalizing pos buf with
  | zero => exact .ret
  | succ fuel ih => exact keeps_readRow.bind fun _ => .ite .ret ih

theorem keeps_scanNext {pos : Nat} {buf : Image n W} :
    Keeps cfg Idle Allowed c Out m H H (scanNext pos buf) :=
  (Keeps.quiet rfl).bind fun _ => keeps_scanFrom

/-- A lookup takes the lock of its bucket and gives it back. -/
theorem keeps_find {key : Nat} {pk : PK} {buf : Image n W}
    (hb : ∀ b f, Allowed c.op ⟨H, f⟩ (.bucket key b)) :
    Keeps cfg Idle Allowed c Out m H H (find cfg key pk buf) :=
  (Keeps.lock (hb _)).bind fun _ => (Keeps.quiet rfl).bind fun _ => (keeps_loop _).bind fun _ =>
    Keeps.unlock.bind fun _ => .ret

theorem keeps_findNext {key : Nat} {pk : PK} {cur : Int} {buf : Image n W}
    (hb : ∀ b f, Allowed c.op ⟨H, f⟩ (.bucket key b)) :
    Keeps cfg Idle Allowed c Out m H H (findNext cfg key pk cur buf) :=
  (Keeps.lock (hb _)).bind fun _ => (Keeps.quiet rfl).bind fun _ => (keeps_loop _).bind fun _ =>
    Keeps.unlock.bind fun _ => .ret

section Bucket

variable (hb : ∀ k b f, Allowed c.op ⟨H, f⟩ (.bucket k b))

include hb

/-- The rollback works under the locks of the insert. -/
theorem keeps_rollback {rec : Image n W} {idx : Int} {k : Nat} :
    Keeps cfg Idle Allowed c Out m H H (rollback cfg rec idx k) := by
  induction k with
  | zero => exact .ret
  | succ k ih =>
      exact (Keeps.lock (hb _ _)).bind fun _ => keeps_chainUnlink.bind fun _ =>
        Keeps.unlock.bind fun _ => ih

/-- The chains are linked under the locks of the insert. -/
theorem keeps_linkKeys {rec scratch : Image n W} {idx : Int} {ks : List Nat} :
    Keeps cfg Idle Allowed c Out m H H (linkKeys cfg rec scratch idx ks) := by
  induction ks with
  | nil => exact .ret
  | cons k ks ih =>
      exact (Keeps.lock (hb _ _)).bind fun _ => keeps_dupCheck.bind fun _ => .ite
        (keeps_chainLink.bind fun _ => Keeps.unlock.bind fun _ => ih)
        (Keeps.unlock.bind fun _ => .ret)

/-- A row is unlinked under the locks of the delete. -/
theorem keeps_unlinkKeys {img : Image n W} {idx : Int} {ks : List Nat} :
    Keeps cfg Idle Allowed c Out m H H (unlinkKeys cfg img idx ks) := by
  induction ks with
  | nil => exact .ret
  | cons k ks ih =>
      exact (Keeps.lock (hb _ _)).bind fun _ => keeps_chainUnlink.bind fun _ =>
        Keeps.unlock.bind fun _ => ih

end Bucket

/-- `fm_core_insert_row` takes the struct mutex and, under it, one bucket lock at
a time. -/
theorem keeps_insertRow {rec scratch : Image n W} (hm : ∀ f, Allowed c.op ⟨H, f⟩ .mutex)
    (hb : ∀ k b f, Allowed c.op ⟨.mutex :: H, f⟩ (.bucket k b)) :
    Keeps cfg Idle Allowed c Out m H H (insertRow cfg rec scratch) := by
  have hat : ∀ idx,
      Keeps cfg Idle Allowed c Out m (.mutex :: H) H (insertAt cfg rec scratch idx) := by
    intro idx
    refine keeps_copyIn.bind fun _ => (keeps_linkKeys hb).bind fun stop => ?_
    cases stop with
    | some k =>
        exact (keeps_rollback hb).bind fun _ => keeps_freeSlot.bind fun _ =>
          Keeps.unlock.bind fun _ => .ret
    | none =>
        exact (Keeps.quiet rfl).bind fun _ => (Keeps.quiet rfl).bind fun _ =>
          Keeps.unlock.bind fun _ => .ret
  exact (Keeps.lock hm).bind fun _ => keeps_allocSlot.bind fun idx => .ite
    (Keeps.unlock.bind fun _ => (Keeps.quiet rfl).bind fun _ => .ret) (hat idx)

/-- The check of state and generation needs no lock. -/
theorem keeps_verifySlot {idx : Int} {g : Nat} :
    Keeps cfg Idle Allowed c Out m H H (verifySlot idx g) :=
  (Keeps.quiet rfl).bind fun _ => .ite .ret ((Keeps.quiet rfl).bind fun _ => .ret)

/-- Rewriting an image needs no further lock. -/
theorem keeps_writeImage {idx : Int} {rec : Image n W} :
    Keeps cfg Idle Allowed c Out m H H (writeImage idx rec) :=
  (Keeps.quiet rfl).bind fun _ => keeps_copyIn.bind fun _ => Keeps.quiet rfl

/-- The duplicate checks of an update need no further lock. -/
theorem keeps_dupChecks {new scratch : Image n W} {ks : List Nat} :
    Keeps cfg Idle Allowed c Out m H H (dupChecks cfg new scratch ks) := by
  induction ks with
  | nil => exact .ret
  | cons k ks ih => exact keeps_dupCheck.bind fun _ => .ite ih .ret

theorem keeps_moveKeys {idx : Int} {old new : Image n W} {ks : List Nat} :
    Keeps cfg Idle Allowed c Out m H H (moveKeys cfg idx old new ks) := by
  induction ks with
  | nil => exact .ret
  | cons k ks ih => exact keeps_chainUnlink.bind fun _ => keeps_chainLink.bind fun _ => ih

/-- The acquire loop takes the distinct pairs, in order. -/
theorem keeps_lockAll {us vs : List (Nat × Nat)} {prev : Option (Nat × Nat)}
    (hb : ∀ done v rest, us ++ distinct prev vs = done ++ v :: rest →
      ∀ f, Allowed c.op ⟨bucketLocks done ++ H, f⟩ (.bucket v.1 v.2)) :
    Keeps cfg Idle Allowed c Out m (bucketLocks us ++ H)
      (bucketLocks (us ++ distinct prev vs) ++ H) (lockAll prev vs) := by
  induction vs generalizing us prev with
  | nil =>
      rw [distinct, List.append_nil]
      exact Keeps.ret
  | cons v vs ih =>
      unfold lockAll unlessSame
      by_cases hp : prev = some v
      · have hd : distinct prev (v :: vs) = distinct (some v) vs := by simp [distinct, hp]
        rw [hd] at hb ⊢
        simp only [hp, if_true]
        exact Keeps.ret.bind fun _ => ih hb
      · have hd : us ++ distinct prev (v :: vs) = (us ++ [v]) ++ distinct (some v) vs := by
          simp [distinct, hp]
        rw [hd] at hb ⊢
        simp only [hp, if_false]
        have hlock : Keeps cfg Idle Allowed c Out m (bucketLocks us ++ H)
            (bucketLocks (us ++ [v]) ++ H) (access (.lock (.bucket v.1 v.2))) := by
          have hlocks : bucketLocks (us ++ [v]) ++ H = .bucket v.1 v.2 ::
              (bucketLocks us ++ H) := by
            simp [bucketLocks]
          rw [hlocks]
          exact Keeps.lock (hb us v (distinct (some v) vs) (by simp))
        exact hlock.bind fun _ => ih hb

/-- The release loop gives back the pairs it finds, and ends with the locks held
before. -/
theorem keeps_unlockAll {vs : List (Nat × Nat)} :
    Keeps cfg Idle Allowed c Out m ((released vs).map (fun v => .bucket v.1 v.2) ++ H) H
      (unlockAll vs) := by
  induction vs with
  | nil => exact .ret
  | cons v vs ih =>
      unfold unlockAll unlessSame
      by_cases hv : vs.head? = some v
      · simp only [released, hv, if_true]
        exact Keeps.ret.bind fun _ => ih
      · simp only [released, hv, if_false]
        exact Keeps.unlock.bind fun _ => ih

/-- The lock set is given back in reverse. -/
theorem keeps_unlockAll_reverse {vs : List (Nat × Nat)} :
    Keeps cfg Idle Allowed c Out m (bucketLocks (distinct none vs) ++ H) H
      (unlockAll vs.reverse) := by
  have hlocks : bucketLocks (distinct none vs) =
      (released vs.reverse).map fun v => .bucket v.1 v.2 := by
    rw [released_reverse, List.map_reverse, bucketLocks]
  rw [hlocks]
  exact keeps_unlockAll

/-- What a policy must allow for the bucket locks of an update: each on top of
pairs below it. -/
def AllowsAscending (Allowed : Op → Held → Lock → Prop) (o : Op) (H : List Lock) : Prop :=
  ∀ done v, (∀ u ∈ done, pairLt u v) → ∀ f, Allowed o ⟨bucketLocks done ++ H, f⟩ (.bucket v.1 v.2)

/-- The lock set of an update is taken in ascending order. -/
theorem keeps_lockset {old new : Image n W} (hb : AllowsAscending Allowed c.op H) :
    Keeps cfg Idle Allowed c Out m H (bucketLocks (distinct none (lockset cfg old new)) ++ H)
      (lockAll none (lockset cfg old new)) := by
  have hasc := (distinct_ascending (fun p => lockset_bucket_lt cfg old new)
    (lockset_sorted cfg old new) none (by simp)).1
  have hall : ∀ done v rest, [] ++ distinct none (lockset cfg old new) = done ++ v :: rest →
      ∀ f, Allowed c.op ⟨bucketLocks done ++ H, f⟩ (.bucket v.1 v.2) := by
    intro done v rest heq f
    rw [List.nil_append] at heq
    rw [heq, List.pairwise_append] at hasc
    exact hb done v (fun u hu => hasc.2.2 u hu v List.mem_cons_self) f
  exact keeps_lockAll hall

/-- `fm_core_update_row` takes the wlock alone, or the bucket locks in ascending
order and the wlock on top of them. -/
theorem keeps_updateRow {idx : Int} {g : Nat} {old new scratch : Image n W}
    (hb : AllowsAscending Allowed c.op H)
    (hr : ∀ vs f, Allowed c.op ⟨bucketLocks vs ++ H, f⟩ (.row idx)) :
    Keeps cfg Idle Allowed c Out m H H (updateRow cfg idx g old new scratch) := by
  unfold updateRow
  refine .ite ?_ ?_
  · have hr₀ : ∀ f, Allowed c.op ⟨H, f⟩ (.row idx) := hr []
    exact (Keeps.lock hr₀).bind fun _ => keeps_verifySlot.bind fun _ => .ite
      (keeps_writeImage.bind fun _ => Keeps.unlock.bind fun _ => .ret)
      (Keeps.unlock.bind fun _ => .ret)
  · refine (keeps_lockset hb).bind fun _ => keeps_dupChecks.bind fun dup => ?_
    cases dup with
    | some k => exact keeps_unlockAll_reverse.bind fun _ => .ret
    | none =>
        exact (Keeps.lock (hr _)).bind fun _ => keeps_verifySlot.bind fun _ => .ite
          (keeps_writeImage.bind fun _ => keeps_moveKeys.bind fun _ => Keeps.unlock.bind fun _ =>
            keeps_unlockAll_reverse.bind fun _ => .ret)
          (Keeps.unlock.bind fun _ => keeps_unlockAll_reverse.bind fun _ => .ret)

/-- `fm_core_update_row_locked` takes bucket locks only, in ascending order. -/
theorem keeps_updateRowLocked {idx : Int} {g : Nat} {old new scratch : Image n W}
    (hb : AllowsAscending Allowed c.op H) :
    Keeps cfg Idle Allowed c Out m H H (updateRowLocked cfg idx g old new scratch) := by
  refine keeps_verifySlot.bind fun _ => .ite (.ite (keeps_writeImage.bind fun _ => .ret) ?_) .ret
  refine (keeps_lockset hb).bind fun _ => keeps_dupChecks.bind fun dup => ?_
  cases dup with
  | some k => exact keeps_unlockAll_reverse.bind fun _ => .ret
  | none =>
      exact keeps_writeImage.bind fun _ => keeps_moveKeys.bind fun _ =>
        keeps_unlockAll_reverse.bind fun _ => .ret

/-- The rest of a delete takes the bucket locks and the struct mutex in turn. -/
theorem keeps_deleteTail {idx : Int} {scratch : Image n W} (hm : ∀ f, Allowed c.op ⟨H, f⟩ .mutex)
    (hb : ∀ k b f, Allowed c.op ⟨H, f⟩ (.bucket k b)) :
    Keeps cfg Idle Allowed c Out m H H (deleteTail cfg idx scratch) :=
  keeps_copyOut.bind fun _ => (keeps_unlinkKeys hb).bind fun _ => (Keeps.quiet rfl).bind fun _ =>
    (Keeps.quiet rfl).bind fun _ => (Keeps.quiet rfl).bind fun _ => (Keeps.lock hm).bind fun _ =>
    keeps_freeSlot.bind fun _ => Keeps.unlock.bind fun _ => .ret

/-- `fm_core_delete_row` takes the wlock, single bucket locks and the struct
mutex, one after the other. -/
theorem keeps_deleteRow {idx : Int} {g : Nat} {scratch : Image n W}
    (hr : ∀ f, Allowed c.op ⟨H, f⟩ (.row idx)) (hm : ∀ f, Allowed c.op ⟨H, f⟩ .mutex)
    (hb : ∀ k b f, Allowed c.op ⟨H, f⟩ (.bucket k b)) :
    Keeps cfg Idle Allowed c Out m H H (deleteRow cfg idx g scratch) :=
  (Keeps.lock hr).bind fun _ => keeps_verifySlot.bind fun _ => .ite
    ((Keeps.quiet rfl).bind fun _ => Keeps.unlock.bind fun _ => keeps_deleteTail hm hb)
    (Keeps.unlock.bind fun _ => .ret)

/-- `fm_core_delete_row_locked` takes single bucket locks and then the struct
mutex. -/
theorem keeps_deleteRowLocked {idx : Int} {g : Nat} {scratch : Image n W}
    (hm : ∀ f, Allowed c.op ⟨H, f⟩ .mutex) (hb : ∀ k b f, Allowed c.op ⟨H, f⟩ (.bucket k b)) :
    Keeps cfg Idle Allowed c Out m H H (deleteRowLocked cfg idx g scratch) :=
  keeps_verifySlot.bind fun _ => .ite ((Keeps.quiet rfl).bind fun _ => keeps_deleteTail hm hb) .ret

/-- A clear empties the buckets of a key, each under its lock. -/
theorem exact_clearBuckets {k : Nat} {bs : List Nat} {f : List Int}
    (hb : ∀ b, Allowed c.op ⟨H, f⟩ (.bucket k b)) :
    Exact cfg Idle Allowed c Out m ⟨H, f⟩ ⟨H, f⟩
      (clearBuckets k bs) := by
  induction bs with
  | nil => exact .ret
  | cons b bs ih =>
      exact (Exact.lock (hb b)).bind fun _ => (Exact.quiet rfl).bind fun _ =>
        Exact.unlock.bind fun _ => ih

theorem exact_clearHeads {ks : List Nat} {f : List Int}
    (hb : ∀ k b, Allowed c.op ⟨H, f⟩ (.bucket k b)) :
    Exact cfg Idle Allowed c Out m ⟨H, f⟩ ⟨H, f⟩ (clearHeads cfg ks) := by
  induction ks with
  | nil => exact .ret
  | cons k ks ih => exact (exact_clearBuckets (hb k)).bind fun _ => ih

/-- The slots are flipped one after the other, none twice. -/
theorem exact_clearSlots {is : List Nat} {f : List Int}
    (hr : ∀ f i, i ∉ f → Allowed c.op ⟨H, f⟩ (.row i)) (hnd : is.Nodup)
    (hlt : ∀ i ∈ is, i < 2 ^ 32) (hf : ∀ i ∈ is, i32 i ∉ f) :
    Exact cfg Idle Allowed c Out m ⟨H, f⟩ ⟨H, (is.map i32).reverse ++ f⟩
      (clearSlots is) := by
  induction is generalizing f with
  | nil => exact .ret
  | cons i is ih =>
      obtain ⟨hi, hnd'⟩ := List.nodup_cons.mp hnd
      have hrest := ih (f := i32 i :: f) hnd' (fun j hj => hlt j (List.mem_cons_of_mem _ hj)) (by
        intro j hj hmem
        rcases List.mem_cons.mp hmem with heq | hmem
        · have := i32_inj (hlt j (List.mem_cons_of_mem _ hj)) (hlt i List.mem_cons_self) heq
          exact hi (this ▸ hj)
        · exact hf j (List.mem_cons_of_mem _ hj) hmem)
      refine (Exact.lock (hr f _ (hf i List.mem_cons_self))).bind fun _ => ?_
      refine (Exact.quiet rfl).bind fun _ => (Exact.quiet rfl).bind fun _ => ?_
      refine Exact.unlock.bind fun _ => ?_
      simpa [Act.flips] using hrest

/-- The free list is rebuilt under the struct mutex. -/
theorem keeps_rebuildFree {is : List Nat} :
    Keeps cfg Idle Allowed c Out m H H (rebuildFree is) := by
  induction is with
  | nil => exact .ret
  | cons i is ih => exact keeps_freeSlot.bind fun _ => ih

/-- `fm_core_clear` takes the struct mutex and, under it, one bucket lock or one
wlock at a time; it asks for the wlock of no slot it has flipped already. -/
theorem keeps_clear (hm : ∀ f, Allowed c.op ⟨H, f⟩ .mutex)
    (hb : ∀ k b f, Allowed c.op ⟨.mutex :: H, f⟩ (.bucket k b))
    (hr : ∀ f i, i ∉ f → Allowed c.op ⟨.mutex :: H, f⟩ (.row i)) :
    Keeps cfg Idle Allowed c Out m H H (clear cfg) := by
  intro f
  refine Logic.Safe.bind (Exact.lock (hm f)) fun _ g hg => ?_
  subst hg
  refine Logic.Safe.bind (exact_clearHeads fun k b => hb k b []) fun _ g hg => ?_
  subst hg
  refine Logic.Safe.bind (Exact.quiet (a := .loadChunkCnt) rfl) fun cnt g hg => ?_
  subst hg
  have hlt : ∀ i ∈ List.range (slotCount cnt), i < 2 ^ 32 := by
    intro i hi
    have : slotCount cnt < 2 ^ 32 := Nat.mod_lt _ (by decide)
    exact (List.mem_range.mp hi).trans this
  refine Logic.Safe.bind (exact_clearSlots hr List.nodup_range hlt (by simp [Act.flips]))
    fun _ g hg => ?_
  subst hg
  have hrest : Keeps cfg Idle Allowed c Out m (.mutex :: H) H (do
      access (.storeFreeHead nullSlot)
      rebuildFree (List.range (slotCount cnt))
      access (.storeRecords 0)
      access (.unlock .mutex) : Core n W PK Unit) :=
    (Keeps.quiet rfl).bind fun _ => keeps_rebuildFree.bind fun _ => (Keeps.quiet rfl).bind fun _ =>
      Keeps.unlock
  exact hrest _

/-- The auto-increment counter needs no lock. -/
theorem keeps_autoIncObserve {v : Nat} :
    Keeps cfg Idle Allowed c Out m H H (autoIncObserve v) :=
  (Keeps.quiet rfl).bind fun _ => keeps_loop _

end Rules

end FastMem
