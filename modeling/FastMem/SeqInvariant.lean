import FastMem.CoreSystem
import FastMem.SeqUpdate

/-!
# Every sequence of calls

One client calls the write functions of the core one after the other, on a freshly
initialised share, with nobody else around.  Whatever the calls return, the share
is consistent after each of them, and every lock is free but the row locks the
client holds itself.  A call returns unless it needs a row lock its own caller
holds.
-/

namespace FastMem

open Conc

variable {n : Nat} {W PK : Type} {cfg : ShareCfg n W PK} {t : Nat} {s s' : Share n W}

/-- What the client owes a call: an update of an ACTIVE slot passes the stored image
as the old one, and a call made under a row lock holds it. -/
def Allowed (t : Nat) (s : Share n W) : CoreOp n W PK → Prop
  | .insertRow .. | .deleteRow .. | .clear | .lockRow _ => True
  | .updateRow idx _ old _ _ => s.state idx = .active → s.data idx = old
  | .updateRowLocked idx _ old _ _ =>
      s.wlock idx = some t ∧ (s.state idx = .active → s.data idx = old)
  | .deleteRowLocked idx _ _ => s.wlock idx = some t
  | .unlockRow idx => s.wlock idx = some t
  | _ => False

/-- The call needs no row lock its own caller holds. -/
def Unblocked (t : Nat) (s : Share n W) : CoreOp n W PK → Prop
  | .updateRow idx .. | .deleteRow idx .. | .lockRow idx => s.wlock idx ≠ some t
  | .clear => ∀ i, s.Grown i → s.wlock i ≠ some t
  | _ => True

/-- The shares that client `t` can leave behind: a fresh one, and what any allowed
call makes of one that it can leave behind. -/
inductive CallSeq (cfg : ShareCfg n W PK) (t : Nat) (data : Int → Image n W) : Share n W → Prop
  | fresh : CallSeq cfg t data (Share.fresh data)
  | call {s s' : Share n W} {op : CoreOp n W PK} {l : Session n W} {x : CoreOut n W × Session n W}
      (before : CallSeq cfg t data s) (allowed : Allowed t s op)
      (runs : (machine cfg).Runs t (op.code cfg l) s x s') : CallSeq cfg t data s'

instance [DecidableEq (Image n W)] : (op : CoreOp n W PK) → Decidable (Allowed t s op)
  | .insertRow .. | .deleteRow .. | .clear | .lockRow _ => inferInstanceAs (Decidable True)
  | .updateRow idx _ old _ _ =>
      inferInstanceAs (Decidable (s.state idx = .active → s.data idx = old))
  | .updateRowLocked idx _ old _ _ =>
      inferInstanceAs
        (Decidable (s.wlock idx = some t ∧ (s.state idx = .active → s.data idx = old)))
  | .deleteRowLocked idx _ _ | .unlockRow idx => inferInstanceAs (Decidable (s.wlock idx = some t))
  | .find .. | .findNext .. | .readRow .. | .scanNext .. | .reread .. =>
      inferInstanceAs (Decidable False)

/-- Make the calls of client `t` one after the other, the last of the list first, each if it is
allowed and for at most `fuel` steps. -/
def callAllowed [DecidableEq (Image n W)] (cfg : ShareCfg n W PK) (t fuel : Nat) :
    List (CoreOp n W PK) → Share n W → Option (Share n W)
  | [], s => some s
  | op :: ops, s => (callAllowed cfg t fuel ops s).bind fun s =>
      if Allowed t s op then ((machine cfg).eval t fuel (op.code cfg Session.empty) s).map
        Prod.snd else none

/-- Calls that are evaluated and allowed are a sequence of calls. -/
theorem CallSeq.of_callAllowed [DecidableEq (Image n W)] {data : Int → Image n W} {fuel : Nat}
    {ops : List (CoreOp n W PK)} (h : callAllowed cfg t fuel ops (Share.fresh data) = some s) :
    CallSeq cfg t data s := by
  induction ops generalizing s with
  | nil =>
      cases h
      exact .fresh
  | cons op ops ih =>
      obtain ⟨s₁, hbefore, hrest⟩ := Option.bind_eq_some_iff.mp h
      by_cases hallowed : Allowed t s₁ op
      · rw [if_pos hallowed] at hrest
        obtain ⟨⟨x, s₂⟩, heval, rfl⟩ := Option.map_eq_some_iff.mp hrest
        exact .call (ih hbefore) hallowed (.of_eval heval)
      · rw [if_neg hallowed] at hrest
        cases hrest

/-- The representation invariant, as client `t` sees it between two calls. -/
structure Represented (cfg : ShareCfg n W PK) (t : Nat) (s : Share n W) : Prop where
  chains : ∀ k, k < cfg.keys → ∀ b, ∃ L, IsChain nullSlot (s.next k) (s.head k b) L ∧ L.Nodup ∧
    ∀ i, i ∈ L ↔ s.state i = .active ∧ cfg.keyBucket k (s.data i) = b
  freeList : ∃ F, IsChain nullSlot s.freeNext s.freeHead F ∧ F.Nodup ∧
    (∀ i ∈ F, s.state i ≠ .active) ∧
    ∀ i : Int, 0 ≤ i → i < min (slotCount s.chunkCnt) cfg.maxRecords → s.state i ≠ .active → i ∈ F
  finite : {i | s.state i = .active}.Finite
  records : s.records = {i | s.state i = .active}.ncard
  seq_even : ∀ i, s.seq i % 2 = 0
  locks : ∀ l, s.owner l = none ∨ (∃ i, l = .row i) ∧ s.owner l = some t

/-- The share is consistent, and client `t` holds row locks at most. -/
def Quiet (cfg : ShareCfg n W PK) (t : Nat) (s : Share n W) : Prop :=
  (∃ C F, Consistent cfg s C F ∅) ∧
    ∀ l, s.owner l = none ∨ (∃ i, l = .row i) ∧ s.owner l = some t

/-- Between calls the struct mutex is free. -/
theorem Quiet.mutex (h : Quiet cfg t s) : s.owner .mutex = none := by
  rcases h.2 .mutex with hfree | ⟨⟨i, hi⟩, -⟩
  · exact hfree
  · cases hi

theorem Quiet.bucket (h : Quiet cfg t s) (k b : Nat) : s.owner (.bucket k b) = none := by
  rcases h.2 (.bucket k b) with hfree | ⟨⟨i, hi⟩, -⟩
  · exact hfree
  · cases hi

theorem Quiet.row (h : Quiet cfg t s) {i : Int} (hi : s.wlock i ≠ some t) :
    s.owner (.row i) = none := by
  rcases h.2 (.row i) with hfree | ⟨-, hheld⟩
  · exact hfree
  · exact absurd hheld hi

/-- A share is quiet if its locks are as before. -/
theorem Quiet.of_owner {C : Index} {F : List Int} (h : Quiet cfg t s)
    (hcons : Consistent cfg s' C F ∅) (howner : s'.owner = s.owner) : Quiet cfg t s' :=
  ⟨⟨C, F, hcons⟩, by rw [howner]; exact h.2⟩

/-- A quiet share represents a table. -/
theorem Quiet.represented (h : Quiet cfg t s) (hmax : cfg.maxRecords ≤ 2 ^ 31) :
    Represented cfg t s := by
  obtain ⟨⟨C, F, hcons⟩, hlocks⟩ := h
  constructor
  case chains =>
    intro k hk b
    exact ⟨C k b, hcons.index k b, (hcons.index k b).nodup, hcons.index_mem k hk b⟩
  case freeList =>
    refine ⟨F, hcons.free, IsChain.nodup hcons.free, hcons.free_inactive, fun i h0 hlt hst => ?_⟩
    have hi : i32 i.toNat = i := by
      rw [i32_of_lt (by omega)]
      omega
    rw [← hi] at hst ⊢
    rcases hcons.free_all i.toNat (by omega) (by omega) hst with hmem | hmem
    · exact hmem
    · cases hmem
  case finite => exact hcons.active_finite
  case records => exact hcons.records
  case seq_even => exact hcons.seq_even
  case locks => exact hlocks

/-- A call that its caller's own row locks do not block returns, and leaves the
share as it should be. -/
theorem call_returns (hhash : HashRespects cfg) (hkeys : cfg.keys ≤ 64) (h : Quiet cfg t s)
    {op : CoreOp n W PK}
    (hallowed : Allowed t s op) (hfree : Unblocked t s op) (l : Session n W) :
    ∃ x s', (machine cfg).Runs t (op.code cfg l) s x s' ∧ Quiet cfg t s' ∧
      (op.selfLocking = true → s'.owner = s.owner) := by
  obtain ⟨C, F, hcons⟩ := h.1
  cases op with
  | insertRow rec scratch =>
      obtain ⟨r, s', C', F', hruns, hcons', howner, -⟩ :=
        runs_insertRow hcons t h.mutex h.bucket rec scratch
      exact ⟨_, s', runs_then hruns runs_pure, h.of_owner hcons' howner, fun _ => howner⟩
  | updateRow idx g old new scratch =>
      obtain ⟨r, s', C', F', hruns, hcons', howner, -⟩ :=
        runs_updateRow hcons hkeys hhash t h.bucket (h.row hfree) g
          (fun hrow => hallowed hrow.1) new scratch
      exact ⟨_, s', runs_then hruns runs_pure, h.of_owner hcons' howner, fun _ => howner⟩
  | deleteRow idx g scratch =>
      obtain ⟨s', C', F', hruns, hcons', howner⟩ :=
        runs_deleteRow hcons t h.mutex h.bucket (h.row hfree) g scratch
      exact ⟨_, s', runs_then hruns runs_pure, h.of_owner hcons' howner, fun _ => howner⟩
  | clear =>
      obtain ⟨s', L, hruns, hcons', howner⟩ :=
        runs_clear hcons t h.mutex h.bucket (fun i hi => h.row (hfree i hi))
      exact ⟨_, s', runs_then hruns runs_pure, h.of_owner hcons' howner, fun _ => howner⟩
  | updateRowLocked idx g old new scratch =>
      obtain ⟨r, s', C', F', hruns, hcons', howner, -⟩ :=
        runs_updateRowLocked hcons hkeys hhash t h.bucket g
          (fun hrow => hallowed.2 hrow.1) new scratch
      exact ⟨_, s', runs_then hruns runs_pure, h.of_owner hcons' howner, fun _ => howner⟩
  | deleteRowLocked idx g scratch =>
      obtain ⟨s', C', F', hruns, hcons', howner⟩ :=
        runs_deleteRowLocked hcons t h.mutex h.bucket idx g scratch
      exact ⟨_, s', runs_then hruns runs_pure, h.of_owner hcons' howner, fun _ => howner⟩
  | lockRow idx =>
      refine ⟨_, _, runs_access (exec_lock (h.row hfree)) runs_pure,
        ⟨⟨C, F, hcons.setOwner _ _⟩, fun l' => ?_⟩, nofun⟩
      rw [owner_setOwner]
      split
      · rename_i hl
        exact Or.inr ⟨⟨idx, hl⟩, rfl⟩
      · exact h.2 l'
  | unlockRow idx =>
      refine ⟨_, _, runs_access rfl runs_pure, ⟨⟨C, F, hcons.setOwner _ _⟩, fun l' => ?_⟩, nofun⟩
      rw [owner_setOwner]
      split
      · exact Or.inl rfl
      · exact h.2 l'
  | find | findNext | readRow | scanNext | reread => exact absurd hallowed id

/-- A call that returns although its caller holds a row lock it may need has not
got as far as needing it, and has changed nothing. -/
theorem blocked_call (h : Quiet cfg t s) {op : CoreOp n W PK} (hblocked : ¬ Unblocked t s op)
    {l : Session n W} {x : CoreOut n W × Session n W}
    (hruns : (machine cfg).Runs t (op.code cfg l) s x s') : s' = s := by
  obtain ⟨C, F, hcons⟩ := h.1
  -- no run gets past the lock of a row that is held
  have hstuck : ∀ {s₁ s₂ : Share n W} {i : Int} {α : Type} {f : Unit → Core n W PK α} {y : α},
      s₁.wlock i = some t → ¬ (machine cfg).Runs t (access (.lock (.row i)) >>= f) s₁ y s₂ := by
    intro s₁ s₂ i α f y hheld hr
    have hne : s₁.owner (.row i) ≠ none := by
      show s₁.wlock i ≠ none
      rw [hheld]
      exact Option.some_ne_none t
    cases hr with
    | act hlock _ => simp [exec, hne] at hlock
  cases op with
  | updateRow idx g old new scratch =>
      have hheld : s.wlock idx = some t := not_not.mp hblocked
      have hrest : (machine cfg).Runs t ((updateRow cfg idx g old new scratch).bind
        fun r => pure (.write r, l)) s x s' := hruns
      unfold updateRow at hrest
      by_cases hch : changedKeys cfg old new = []
      · simp only [hch, if_true] at hrest
        exact absurd hrest (hstuck hheld)
      · simp only [hch, if_false] at hrest
        obtain ⟨r, hdup, -⟩ := runs_dupChecks cfg t
          (hcons.lockBuckets t (distinct none (lockset cfg old new))).index
          hcons.seq_even new scratch (changedKeys cfg old new)
        rw [Prog.bind_eq, Prog.bind_assoc] at hrest
        have hrest := (runs_lockset h.bucket).after hrest
        rw [Prog.bind_eq, Prog.bind_assoc] at hrest
        have hrest := hdup.after hrest
        cases r with
        | some k =>
            dsimp only at hrest
            rw [Prog.bind_eq, Prog.bind_assoc] at hrest
            cases (runs_unlockset fun _ _ => h.bucket _ _).after hrest
            rfl
        | none => exact absurd hrest (hstuck hheld)
  | deleteRow idx g scratch => exact absurd hruns (hstuck (not_not.mp hblocked))
  | lockRow idx => exact absurd hruns (hstuck (not_not.mp hblocked))
  | clear =>
      have hgrown : ∃ i, s.Grown i ∧ s.wlock i = some t := by
        simpa [Unblocked] using hblocked
      obtain ⟨i, ⟨u, hu, rfl⟩, hheld⟩ := hgrown
      have hfree₁ : ∀ k b, (s.setOwner (some t) .mutex).owner (.bucket k b) = none := h.bucket
      obtain ⟨hd, hheads, -⟩ := runs_clearHeads cfg t (List.range cfg.keys) hfree₁
      have hlocked : (machine cfg).Runs t (access (.lock .mutex)) s ()
          (s.setOwner (some t) .mutex) :=
        runs_last (exec_lock h.mutex)
      have hrest : (machine cfg).Runs t ((clear cfg).bind fun _ => pure (.done, l)) s x s' := hruns
      unfold clear at hrest
      rw [Prog.bind_eq, Prog.bind_assoc] at hrest
      have hrest := hlocked.after hrest
      rw [Prog.bind_eq, Prog.bind_assoc] at hrest
      have hrest := hheads.after hrest
      cases hrest with
      | act hcnt hrest =>
          cases hcnt
          simp only [Prog.bind_eq, Prog.ret_bind] at hrest
          rw [Prog.bind_assoc] at hrest
          have hfree := free_of_clearSlots hrest u (List.mem_range.mpr hu)
          have hheld' : s.wlock (i32 u) = none := hfree
          rw [hheld'] at hheld
          cases hheld
  | _ => exact absurd trivial hblocked

/-- Every allowed call keeps the share as it should be. -/
theorem CallSeq.quiet {data : Int → Image n W} (hhash : HashRespects cfg) (hkeys : cfg.keys ≤ 64)
    (h : CallSeq cfg t data s) : Quiet cfg t s := by
  induction h with
  | fresh =>
      refine ⟨⟨_, _, consistent_fresh cfg data⟩, fun l => Or.inl ?_⟩
      cases l <;> rfl
  | @call s s' op l x _ allowed runs ih =>
      by_cases hfree : Unblocked t s op
      · obtain ⟨x', s₁, hruns, hquiet, -⟩ := call_returns hhash hkeys ih allowed hfree l
        obtain ⟨-, rfl⟩ := hruns.det runs
        exact hquiet
      · rw [blocked_call ih hfree runs]
        exact ih

/-- With no lock held no call waits. -/
theorem unblocked_of_free (hfree : ∀ l, s.owner l = none) (op : CoreOp n W PK) :
    Unblocked t s op := by
  have hrow : ∀ i, s.wlock i ≠ some t := by
    intro i hheld
    have hnone : s.wlock i = none := hfree (.row i)
    rw [hnone] at hheld
    cases hheld
  cases op with
  | updateRow idx | deleteRow idx | lockRow idx => exact hrow idx
  | clear => exact fun i _ => hrow i
  | _ => trivial

/-- Calls that take their own locks leave no lock held. -/
theorem free_of_callAllowed [DecidableEq (Image n W)] {data : Int → Image n W}
    (hhash : HashRespects cfg) (hkeys : cfg.keys ≤ 64) {fuel : Nat} {ops : List (CoreOp n W PK)}
    (hops : ∀ op ∈ ops, op.selfLocking = true)
    (h : callAllowed cfg t fuel ops (Share.fresh data) = some s) : ∀ l, s.owner l = none := by
  induction ops generalizing s with
  | nil =>
      cases h
      exact fun l => by cases l <;> rfl
  | cons op ops ih =>
      obtain ⟨s₁, hbefore, hrest⟩ := Option.bind_eq_some_iff.mp h
      have hfree := ih (fun o ho => hops o (List.mem_cons_of_mem op ho)) hbefore
      by_cases hallowed : Allowed t s₁ op
      · rw [if_pos hallowed] at hrest
        obtain ⟨⟨x, s₂⟩, heval, rfl⟩ := Option.map_eq_some_iff.mp hrest
        have hquiet := (CallSeq.of_callAllowed hbefore).quiet hhash hkeys
        obtain ⟨x', s', hruns, -, howner⟩ :=
          call_returns hhash hkeys hquiet hallowed (unblocked_of_free hfree op) Session.empty
        obtain ⟨-, rfl⟩ := hruns.det (.of_eval heval)
        rw [howner (hops op List.mem_cons_self)]
        exact hfree
      · rw [if_neg hallowed] at hrest
        cases hrest

/-- **The representation invariant.**  After every sequence of inserts, updates,
deletes and clears, successful or failing, the chains of every key hold exactly the
ACTIVE slots of their bucket, the free list holds every other usable slot and no
ACTIVE one, `records` counts the ACTIVE slots, no sequence number is odd, and every
lock is free but the row locks the client holds; and the next call returns, unless
it needs a row lock its own caller holds. -/
theorem calls_keep_representation (cfg : ShareCfg n W PK) (t : Nat) (data : Int → Image n W)
    (hhash : HashRespects cfg) (hkeys : cfg.keys ≤ 64) (hmax : cfg.maxRecords ≤ 2 ^ 31)
    (s : Share n W) (h : CallSeq cfg t data s) :
    Represented cfg t s ∧
      ∀ op l, Allowed t s op → Unblocked t s op → ∃ x s', (machine cfg).Runs t
        (op.code cfg l) s x s' := by
  have hquiet := h.quiet hhash hkeys
  refine ⟨hquiet.represented hmax, fun op l hallowed hfree => ?_⟩
  obtain ⟨x, s', hruns, -⟩ := call_returns hhash hkeys hquiet hallowed hfree l
  exact ⟨x, s', hruns⟩

/-- In the table of words equal keys have one bucket. -/
theorem hashRespects_wordTable (keys : Nat) : HashRespects (wordTable keys) := by
  intro k _ a b hcmp
  have hcmp' : (a 0 : Int) - b 0 = 0 := hcmp
  show a 0 = b 0
  omega

/-- Two rows are inserted, one is rewritten under another key, the other deleted and a third one
put in its slot; then the table is cleared. -/
theorem calls_keep_representation_recycled_slot :
    ∃ s x s', CallSeq (wordTable 1) 0 (fun _ _ => 0) s ∧ s.gen 0 = 1 ∧ s.data 0 = (fun _ => 5) ∧
      s.data 1 = (fun _ => 9) ∧ s.records = 2 ∧ Represented (wordTable 1) 0 s ∧
      (machine (wordTable 1)).Runs 0 (CoreOp.code (wordTable 1) .clear Session.empty) s x s' ∧
      Represented (wordTable 1) 0 s' := by
  have heval : (callAllowed (wordTable 1) 0 200 [.insertRow (fun _ => 5) fun _ => 0,
      .deleteRow 0 0 fun _ => 0,
      .updateRow 1 0 (fun _ => 3) (fun _ => 9) fun _ => 0, .insertRow (fun _ => 3) fun _ => 0,
      .insertRow (fun _ => 7) fun _ => 0] (Share.fresh fun _ _ => 0)).any (fun s =>
        decide (s.gen 0 = 1 ∧ s.data 0 = (fun _ => 5) ∧ s.data 1 = (fun _ => 9) ∧ s.records = 2)) =
          true := by
    decide +kernel
  obtain ⟨s, hops, hrows⟩ := (Option.any_eq_true _ _).mp heval
  obtain ⟨hgen, hdata₀, hdata₁, hrecords⟩ := of_decide_eq_true hrows
  have hhash := hashRespects_wordTable 1
  have hseq := CallSeq.of_callAllowed hops
  obtain ⟨hrep, hnext⟩ :=
    calls_keep_representation (wordTable 1) 0 (fun _ _ => 0) hhash (by decide) (by decide) s hseq
  have hallowed : Allowed 0 s (.clear : CoreOp 1 Nat Nat) := trivial
  have hfree := free_of_callAllowed hhash (by decide) (by decide) hops
  obtain ⟨x, s', hruns⟩ := hnext .clear Session.empty hallowed (unblocked_of_free hfree _)
  have hrep' :=
    (calls_keep_representation (wordTable 1) 0 (fun _ _ => 0) hhash (by decide) (by decide) s'
    (.call hseq hallowed hruns)).1
  exact ⟨s, x, s', hseq, hgen, hdata₀, hdata₁, hrecords, hrep, hruns, hrep'⟩

end FastMem
