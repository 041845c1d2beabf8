import FastMem.StaleRefs

/-!
# The variants under a row lock

`fm_core_update_row_locked` and `fm_core_delete_row_locked` are the variants for a caller
that holds the row lock already.  What becomes of the row lock makes no difference to
the rest of either program, so the variants can be compared with nobody else around:
they agree on every share that calls have left behind, with one exception.
`fm_core_update_row` looks for duplicates before it looks at the slot.

Nothing is asked of the chains.  They may have become cyclic, and where a variant does not
return, neither does the other.
-/

namespace FastMem

open Conc

variable {n : Nat} {W PK : Type} {cfg : ShareCfg n W PK} {t : Nat}
  {s s' s'' : Share n W} {α β : Type} {idx : Int} {g : Nat} {old new scratch : Image n W}

/-- An access that is not to the lock of row `idx`. -/
def Act.besideRow (idx : Int) : Act n W → Bool
  | .lock (.row i) | .unlock (.row i) => i ≠ idx
  | _ => true

/-- A program that neither takes nor releases the lock of row `idx`. -/
abbrev BesideRow (idx : Int) (p : Core n W PK α) : Prop :=
  Machine.Only (S := coreSig n W PK) (fun a => Act.besideRow idx a = true) (fun _ => True) p

/-- An access does the same whoever holds the lock of another row. -/
theorem exec_besideRow {a : Act n W} (ha : a.besideRow idx = true) (o : Option Nat) :
    exec cfg t a (s.setOwner o (.row idx)) =
      (exec cfg t a s).map fun x => (x.1, x.2.setOwner o (.row idx)) := by
  cases a with
  | lock l =>
      have hl : l ≠ .row idx := by
        rintro rfl
        simp [Act.besideRow] at ha
      simp only [exec, owner_setOwner, hl, if_false]
      split
      · cases l with
        | row i =>
            have hi : i ≠ idx := fun heq => hl (by rw [heq])
            simp [Share.setOwner, Function.update_comm hi]
        | _ => rfl
      · rfl
  | unlock l =>
      have hl : l ≠ .row idx := by
        rintro rfl
        simp [Act.besideRow] at ha
      cases l with
      | row i =>
          have hi : i ≠ idx := fun heq => hl (by rw [heq])
          simp [exec, Share.setOwner, Function.update_comm hi]
      | _ => rfl
  | casAutoInc cur new =>
      by_cases h : s.autoInc = cur ∧ cfg.spurious s.cas = false <;>
        simp [exec, Share.setOwner, h]
  | _ => rfl

/-- Beside a row its lock stays with its owner. -/
theorem exec_row {a : Act n W} (ha : a.besideRow idx = true) {r : a.Res}
    (h : exec cfg t a s = some (r, s')) : s'.owner (.row idx) = s.owner (.row idx) := by
  have hsame : exec cfg t a (s.setOwner (s.owner (.row idx)) (.row idx)) = _ := exec_besideRow ha _
  have hself : s.setOwner (s.owner (.row idx)) (.row idx) = s := by
    simp [Share.setOwner, Share.owner]
  rw [hself, h, Option.map_some, Option.some.injEq, Prod.mk.injEq] at hsame
  rw [hsame.2, owner_setOwner, if_pos rfl]

/-- A program without lock operations is beside the row. -/
theorem Silent.besideRow {p : Core n W PK α} (hp : Silent p) (idx : Int) : BesideRow idx p := by
  refine Machine.Only.mono (fun a ha => ?_) (fun _ _ => trivial) hp
  cases a <;> first | rfl | cases ha

/-- **The frame of a row lock.**  A program that does not touch the lock runs the same
whoever holds it. -/
theorem BesideRow.runs {p : Core n W PK α} (hp : BesideRow idx p) {x : α}
    (h : (machine cfg).Runs t p s x s') (o : Option Nat) :
    (machine cfg).Runs t p (s.setOwner o (.row idx)) x (s'.setOwner o (.row idx)) := by
  induction h with
  | ret a s => exact .ret a _
  | act hexec _ ih =>
      refine .act ?_ (ih (hp.2 _))
      show exec cfg t _ _ = _
      rw [exec_besideRow hp.1, show exec cfg t _ _ = _ from hexec]
      rfl
  | call _ ih => exact .call (ih (((silent_procBody _).besideRow idx).bind hp.2))

/-- What is beside the row leaves its lock alone. -/
theorem BesideRow.owner {p : Core n W PK α} (hp : BesideRow idx p) {x : α}
    (h : (machine cfg).Runs t p s x s') : s'.owner (.row idx) = s.owner (.row idx) :=
  Machine.Runs.keeps (M := machine cfg) (R := fun s s' => s'.owner (.row idx) = s.owner (.row idx))
    (fun _ => rfl) (fun _ _ _ h h' => h'.trans h) (fun _ _ _ _ ha he => exec_row ha he)
    (fun p _ => (silent_procBody p).besideRow idx) h hp

/-- A run whose first part is known. -/
theorem runs_known_iff {p : Core n W PK α} {f : α → Core n W PK β} {a : α} {x : β}
    (hp : (machine cfg).Runs t p s a s') :
    (machine cfg).Runs t (p >>= f) s x s'' ↔ (machine cfg).Runs t (f a) s' x s'' :=
  Machine.Runs.after_iff hp

/-- A run of two programs is one of each. -/
theorem runs_split_iff {p : Core n W PK α} {f : α → Core n W PK β} {x : β} :
    (machine cfg).Runs t (p >>= f) s x s'' ↔
      ∃ a s', (machine cfg).Runs t p s a s' ∧ (machine cfg).Runs t (f a) s' x s'' :=
  Machine.Runs.bind_iff

/-- A program that is run with the row locked, up to the release of the lock. -/
theorem runs_row_held_iff {p : Core n W PK α} {f : α → Core n W PK β} (hp : BesideRow idx p)
    (hfree : s.owner (.row idx) = none) {x : β} :
    (machine cfg).Runs t (do
      let a ← p
      access (.unlock (.row idx))
      f a) (s.setOwner (some t) (.row idx)) x s'' ↔ (machine cfg).Runs t (p >>= f) s x s'' := by
  rw [runs_split_iff, runs_split_iff]
  constructor
  · intro h
    obtain ⟨a, s₁, hfirst, hrest⟩ := h
    have hback := hp.runs hfirst none
    rw [setOwner_none_setOwner hfree] at hback
    have hunlock : (machine cfg).Runs t (access (.unlock (.row idx))) s₁ ()
        (s₁.setOwner none (.row idx)) :=
      runs_last rfl
    exact ⟨a, _, hback, hunlock.after hrest⟩
  · intro h
    obtain ⟨a, s₁, hfirst, hrest⟩ := h
    refine ⟨a, _, hp.runs hfirst (some t), runs_access rfl ?_⟩
    rw [setOwner_none_setOwner ((hp.owner hfirst).trans hfree)]
    exact hrest

/-- A program that is run under the row lock. -/
theorem runs_row_locked_iff {p : Core n W PK α} {f : α → Core n W PK β} (hp : BesideRow idx p)
    (hfree : s.owner (.row idx) = none) {x : β} :
    (machine cfg).Runs t (do
      access (.lock (.row idx))
      let a ← p
      access (.unlock (.row idx))
      f a) s x s'' ↔ (machine cfg).Runs t (p >>= f) s x s'' :=
  (runs_known_iff (runs_last (exec_lock hfree))).trans (runs_row_held_iff hp hfree)

section

variable (idx : Int)

/-- Bucket locks are beside the row. -/
theorem besideRow_lockAll (prev : Option (Nat × Nat)) (vs : List (Nat × Nat)) :
    BesideRow idx (lockAll prev vs : Core n W PK Unit) := by
  induction vs generalizing prev with
  | nil => exact only_pure _
  | cons v vs ih => exact only_bind (.ite (only_pure _) (only_access rfl)) fun _ => ih _

theorem besideRow_unlockAll (vs : List (Nat × Nat)) : BesideRow idx
    (unlockAll vs : Core n W PK Unit) := by
  induction vs with
  | nil => exact only_pure _
  | cons v vs ih => exact only_bind (.ite (only_pure _) (only_access rfl)) fun _ => ih

/-- `fm_core_update_row_locked` leaves every row lock alone. -/
theorem besideRow_updateRowLocked (i : Int) (g : Nat) (old new scratch : Image n W) :
    BesideRow idx (updateRowLocked cfg i g old new scratch) := by
  refine only_bind ((silent_verifySlot ..).besideRow idx) fun valid =>
    .ite (.ite ?_ ?_) (only_pure _)
  · exact only_bind ((silent_writeImage ..).besideRow idx) fun _ => only_pure _
  · refine only_bind (besideRow_lockAll ..) fun _ =>
      only_bind ((loads_dupChecks ..).silent.besideRow idx) fun dup => ?_
    cases dup with
    | some k => exact only_bind (besideRow_unlockAll ..) fun _ => only_pure _
    | none =>
        refine only_bind ((silent_writeImage ..).besideRow idx) fun _ =>
          only_bind ((silent_moveKeys ..).besideRow idx) fun _ => ?_
        exact only_bind (besideRow_unlockAll ..) fun _ => only_pure _

/-- `fm_core_delete_row_locked` leaves every row lock alone. -/
theorem besideRow_deleteRowLocked (i : Int) (g : Nat) (scratch : Image n W) :
    BesideRow idx (deleteRowLocked cfg i g scratch) := by
  have hunlink : ∀ img ks, BesideRow idx (unlinkKeys cfg img i ks) := by
    intro img ks
    induction ks with
    | nil => exact only_pure _
    | cons k ks ih =>
        refine only_bind (only_access rfl) fun _ => only_bind (only_loop trivial) fun _ => ?_
        exact only_bind (only_access rfl) fun _ => ih
  refine only_bind ((silent_verifySlot ..).besideRow idx) fun valid => .ite ?_ (only_pure _)
  refine only_bind (only_access rfl) fun _ => only_bind ((loads_copyOut ..).silent.besideRow idx)
    fun img => ?_
  refine only_bind (hunlink ..) fun _ => only_bind (only_access rfl) fun _ => ?_
  refine only_bind (only_access rfl) fun _ => only_bind (only_access rfl) fun _ => ?_
  refine only_bind (only_access rfl) fun _ =>
    only_bind ((silent_freeSlot i).besideRow idx) fun _ => ?_
  exact only_bind (only_access rfl) fun _ => only_pure _

end

/-- `fm_core_update_row_locked` between taking and releasing the row lock. -/
def lockedUpdate (cfg : ShareCfg n W PK) (idx : Int) (expectGen : Nat)
    (old new scratch : Image n W) : Core n W PK WriteResult := do
  access (.lock (.row idx))
  let r ← updateRowLocked cfg idx expectGen old new scratch
  access (.unlock (.row idx))
  pure r

/-- `fm_core_delete_row_locked` between taking and releasing the row lock. -/
def lockedDelete (cfg : ShareCfg n W PK) (idx : Int) (expectGen : Nat) (scratch : Image n W) :
    Core n W PK Rc := do
  access (.lock (.row idx))
  let rc ← deleteRowLocked cfg idx expectGen scratch
  access (.unlock (.row idx))
  pure rc

/-- Two programs give the same results, and leave the same share behind, or neither
returns. -/
def Agree (cfg : ShareCfg n W PK) (t : Nat) (s : Share n W) (p q : Core n W PK α) : Prop :=
  ∀ x s', (machine cfg).Runs t p s x s' ↔ (machine cfg).Runs t q s x s'

/-- With the row lock free the locked update is the update between lock and unlock. -/
theorem runs_lockedUpdate_iff (hfree : s.owner (.row idx) = none) {r : WriteResult} :
    (machine cfg).Runs t (lockedUpdate cfg idx g old new scratch) s r s' ↔
      (machine cfg).Runs t (updateRowLocked cfg idx g old new scratch) s r s' := by
  refine (runs_row_locked_iff (besideRow_updateRowLocked ..) hfree).trans ?_
  show (machine cfg).Runs t (Prog.bind _ Prog.ret) s r s' ↔ _
  rw [Prog.bind_ret]

theorem runs_lockedDelete_iff (hfree : s.owner (.row idx) = none) {rc : Rc} :
    (machine cfg).Runs t (lockedDelete cfg idx g scratch) s rc s' ↔
      (machine cfg).Runs t (deleteRowLocked cfg idx g scratch) s rc s' := by
  refine (runs_row_locked_iff (besideRow_deleteRowLocked ..) hfree).trans ?_
  show (machine cfg).Runs t (Prog.bind _ Prog.ret) s rc s' ↔ _
  rw [Prog.bind_ret]

/-- What the check of state and generation returns. -/
theorem runs_verify (cfg : ShareCfg n W PK) (t : Nat) (s : Share n W) (idx : Int) (g : Nat) :
    (machine cfg).Runs t (verifySlot idx g) s (decide (s.state idx = .active ∧ s.gen idx = g)) s :=
  runs_verifySlot idx g

/-- Up to the release of the row lock, `fm_core_delete_row` is
`fm_core_delete_row_locked`. -/
theorem deleteRow_agrees (hfree : s.owner (.row idx) = none) :
    Agree cfg t s (deleteRow cfg idx g scratch) (lockedDelete cfg idx g scratch) := by
  intro rc s'
  rw [runs_lockedDelete_iff hfree]
  have hlocked := runs_verify cfg t (s.setOwner (some t) (.row idx)) idx g
  rw [setOwner_state, setOwner_gen] at hlocked
  unfold deleteRow deleteRowLocked
  rw [runs_known_iff (runs_last (exec_lock hfree)), runs_known_iff hlocked,
    runs_known_iff (runs_verify cfg t s idx g)]
  by_cases hvalid : s.state idx = .active ∧ s.gen idx = g
  · rw [if_pos (decide_eq_true hvalid), if_pos (decide_eq_true hvalid)]
    exact runs_row_held_iff (only_access rfl) hfree
  · rw [if_neg (by simpa using hvalid), if_neg (by simpa using hvalid),
      runs_known_iff (runs_last rfl), setOwner_none_setOwner hfree]

/-- On a valid reference `fm_core_update_row` is `fm_core_update_row_locked`. -/
theorem updateRow_agrees_of_valid (hfree : ∀ l, s.owner l = none)
    (hvalid : s.state idx = .active ∧ s.gen idx = g) :
    Agree cfg t s (updateRow cfg idx g old new scratch)
      (lockedUpdate cfg idx g old new scratch) := by
  intro r s'
  rw [runs_lockedUpdate_iff (hfree _)]
  -- the check of the slot, on any share with these slots
  have hverify : ∀ s₁ : Share n W, s₁.state = s.state → s₁.gen = s.gen →
      (machine cfg).Runs t (verifySlot idx g) s₁ true s₁ := by
    intro s₁ hst hgn
    have hruns := runs_verify cfg t s₁ idx g
    rwa [hst, hgn, decide_eq_true hvalid] at hruns
  unfold updateRow updateRowLocked
  rw [runs_known_iff (hverify s rfl rfl), if_pos rfl]
  by_cases hch : changedKeys cfg old new = []
  · simp only [hch, if_true]
    rw [runs_known_iff (runs_last (exec_lock (hfree _))),
      runs_known_iff (hverify _ (by rfl) (by rfl)), if_pos rfl]
    exact runs_row_held_iff ((silent_writeImage ..).besideRow idx) (hfree _)
  · simp only [hch, if_false]
    have hlocks : (machine cfg).Runs t (lockAll none (lockset cfg old new)) s ()
        (s.lockBuckets t (distinct none (lockset cfg old new))) := runs_lockset fun _ _ => hfree _
    rw [runs_known_iff hlocks, runs_known_iff hlocks, runs_split_iff, runs_split_iff]
    refine exists_congr fun dup => exists_congr fun s₁ => and_congr_right fun hdup => ?_
    obtain rfl := (loads_dupChecks ..).keeps hdup
    cases dup with
    | some k => exact Iff.rfl
    | none =>
        have hrow : (s.lockBuckets t (distinct none (lockset cfg old new))).owner
            (.row idx) = none :=
          hfree (.row idx)
        have hmove : BesideRow idx (do
            writeImage idx new
            moveKeys cfg idx old new (changedKeys cfg old new) : Core n W PK Unit) :=
          only_bind ((silent_writeImage ..).besideRow idx) fun _ =>
            (silent_moveKeys ..).besideRow idx
        dsimp only
        rw [runs_known_iff (runs_last (exec_lock hrow)),
          runs_known_iff (hverify _ (by rfl) (by rfl)), if_pos rfl]
        have hheld : _ ↔ (machine cfg).Runs t ((do
            writeImage idx new
            moveKeys cfg idx old new (changedKeys cfg old new)) >>= fun _ => do
              unlockAll (lockset cfg old new).reverse
              pure ⟨.ok, none, none⟩)
                (s.lockBuckets t (distinct none (lockset cfg old new))) r s' :=
          runs_row_held_iff hmove hrow
        simp only [Prog.bind_eq, Prog.bind_assoc] at hheld ⊢
        exact hheld

/-- No duplicate is found under key `k`: the key is not checked, or its chain ends and
holds no ACTIVE row that equals `rec`. -/
def NoDuplicate (cfg : ShareCfg n W PK) (s : Share n W) (k : Nat) (rec : Image n W) : Prop :=
  (cfg.keydef k).unique = true → (cfg.keydef k).ops.hasNullPart rec = false →
    ∃ L, IsChain nullSlot (s.next k) (s.head k (cfg.keyBucket k rec)) L ∧
      ∀ i ∈ L, ¬ (s.state i = .active ∧ (cfg.keydef k).ops.cmpRecRec (s.data i) rec = 0)

/-- A walk that ends without a duplicate has seen the whole chain. -/
theorem chain_of_dupWalk (heven : ∀ i, s.seq i % 2 = 0) {k : Nat} {rec : Image n W}
    {fuel : Nat} {h : Int}
    (heval : (machine cfg).eval t fuel (loop (.dupWalk k rec scratch h)) s = some (.ok, s')) :
    ∃ L, IsChain nullSlot (s.next k) h L ∧
      ∀ i ∈ L, ¬ (s.state i = .active ∧ (cfg.keydef k).ops.cmpRecRec (s.data i) rec = 0) := by
  induction fuel using Nat.strong_induction_on generalizing h scratch with
  | _ fuel ih =>
      cases fuel with
      | zero => cases heval
      | succ fuel =>
          have hbody : (machine cfg).eval t fuel (dupBody cfg k rec scratch h) s =
              some (.ok, s') := by
            have : (machine cfg).eval t fuel ((dupBody cfg k rec scratch h).bind Prog.ret) s =
                some (.ok, s') :=
              heval
            rwa [Prog.bind_ret] at this
          unfold dupBody at hbody
          by_cases hnull : h = nullSlot
          · exact ⟨[], hnull, by simp⟩
          rw [if_neg hnull] at hbody
          -- the row of `h` is read, and is no duplicate
          have hrow : ∃ rc img, (machine cfg).Runs t (readRow h false 0 scratch) s (rc, img) s ∧
              ((rc = .ok ∧ (cfg.keydef k).ops.cmpRecRec img rec = 0) ↔
                (s.state h = .active ∧ (cfg.keydef k).ops.cmpRecRec (s.data h) rec = 0)) := by
            by_cases hactive : s.state h = .active
            · exact ⟨.ok, s.data h,
                runs_readRow (heven h) hactive (by simp) scratch, by simp [hactive]⟩
            · exact ⟨.deleted, scratch,
                runs_readRow_gone scratch (Or.inl hactive), by simp [hactive]⟩
          obtain ⟨rc, img, hread, hdup⟩ := hrow
          obtain ⟨fuel₁, hle₁, hrest⟩ := hread.eval_after hbody
          dsimp only at hrest
          by_cases hfound : s.state h = .active ∧ (cfg.keydef k).ops.cmpRecRec (s.data h) rec = 0
          · rw [if_pos (hdup.mpr hfound)] at hrest
            cases fuel₁ with
            | zero => cases hrest
            | succ fuel₁ => cases hrest
          · rw [if_neg fun hd => hfound (hdup.mp hd)] at hrest
            have hnext : (machine cfg).Runs t (access (.loadNext k h) : Core n W PK Int) s
                (s.next k h) s :=
              runs_last rfl
            obtain ⟨fuel₂, hle₂, hwalk⟩ := hnext.eval_after hrest
            obtain ⟨L, hL, hnone⟩ := ih fuel₂ (by omega) hwalk
            refine ⟨h :: L, ⟨rfl, hnull, hL⟩, fun i hi => ?_⟩
            rcases List.mem_cons.mp hi with rfl | hi
            · exact hfound
            · exact hnone i hi

/-- The duplicate check of one key finds nothing. -/
theorem runs_dupCheck_none_iff (heven : ∀ i, s.seq i % 2 = 0) {k : Nat} {rec : Image n W} :
    (machine cfg).Runs t (dupCheck cfg k (cfg.keyBucket k rec) rec scratch) s .ok s ↔
      NoDuplicate cfg s k rec := by
  unfold dupCheck NoDuplicate
  by_cases hu : (cfg.keydef k).unique = true ∧ (cfg.keydef k).ops.hasNullPart rec = false
  · have hhead : (machine cfg).Runs t
        (access (.loadHead k (cfg.keyBucket k rec)) : Core n W PK Int) s
        (s.head k (cfg.keyBucket k rec)) s := runs_last rfl
    rw [if_pos (by simp [hu.1, hu.2]), runs_known_iff hhead]
    constructor
    · intro hwalk _ _
      obtain ⟨fuel, heval⟩ := hwalk.to_eval
      exact chain_of_dupWalk heven heval
    · intro hnone
      obtain ⟨L, hL, hL'⟩ := hnone hu.1 hu.2
      have hwalk := runs_dupWalk cfg t heven k rec scratch hL
      rwa [if_neg fun hd => by
        obtain ⟨i, hi, hdup⟩ := hd
        exact hL' i hi hdup] at hwalk
  · rw [if_neg (by simpa using hu)]
    exact ⟨fun _ h1 h2 => absurd ⟨h1, h2⟩ hu, fun _ => runs_pure⟩

/-- The duplicate checks of an update find nothing. -/
theorem runs_dupChecks_none_iff (heven : ∀ i, s.seq i % 2 = 0) {ks : List Nat} :
    (machine cfg).Runs t (dupChecks cfg new scratch ks) s none s ↔ ∀ k ∈ ks,
    NoDuplicate cfg s k new := by
  induction ks with
  | nil => exact ⟨fun _ => by simp, fun _ => runs_pure⟩
  | cons k ks ih =>
      rw [List.forall_mem_cons, ← ih, dupChecks, runs_split_iff]
      constructor
      · intro h
        obtain ⟨rc, s₁, hcheck, hrest⟩ := h
        obtain rfl := (loads_dupCheck ..).keeps hcheck
        by_cases hrc : rc = .ok
        · subst hrc
          exact ⟨(runs_dupCheck_none_iff heven).mp hcheck, hrest⟩
        · rw [if_neg hrc] at hrest
          cases hrest
      · intro h
        exact ⟨.ok, s, (runs_dupCheck_none_iff heven).mpr h.1, h.2⟩

/-- On a stale reference the variants agree exactly if the duplicate checks find
nothing. -/
theorem updateRow_agrees_iff_of_stale (hfree : ∀ l, s.owner l = none) (heven : ∀ i, s.seq i % 2 = 0)
    (hstale : ¬ (s.state idx = .active ∧ s.gen idx = g)) :
    Agree cfg t s (updateRow cfg idx g old new scratch) (lockedUpdate cfg idx g old new scratch) ↔
      ∀ k ∈ changedKeys cfg old new, NoDuplicate cfg s k new := by
  have hverify : ∀ s₁ : Share n W, s₁.state = s.state → s₁.gen = s.gen →
      (machine cfg).Runs t (verifySlot idx g) s₁ false s₁ := by
    intro s₁ hst hgn
    have hruns := runs_verify cfg t s₁ idx g
    rwa [hst, hgn, decide_eq_false hstale] at hruns
  have hlocked : (machine cfg).Runs t (updateRowLocked cfg idx g old new scratch) s
      ⟨.deleted, none, none⟩ s :=
    runs_then (hverify s rfl rfl) runs_pure
  -- it is all a matter of what `fm_core_update_row` returns
  have hagree : Agree cfg t s (updateRow cfg idx g old new scratch)
      (lockedUpdate cfg idx g old new scratch) ↔
      (machine cfg).Runs t (updateRow cfg idx g old new scratch) s ⟨.deleted, none, none⟩ s := by
    constructor
    · intro h
      exact (h _ _).mpr ((runs_lockedUpdate_iff (hfree _)).mpr hlocked)
    · intro h r s'
      rw [runs_lockedUpdate_iff (hfree _)]
      constructor
      · intro hr
        obtain ⟨rfl, rfl⟩ := h.det hr
        exact hlocked
      · intro hr
        obtain ⟨rfl, rfl⟩ := hlocked.det hr
        exact h
  rw [hagree]
  unfold updateRow
  by_cases hch : changedKeys cfg old new = []
  · simp only [hch, if_true, List.not_mem_nil, false_implies, implies_true, iff_true]
    refine runs_access (exec_lock (hfree _))
      (runs_then (hverify _ (by rfl) (by rfl)) (runs_access rfl ?_))
    rw [setOwner_none_setOwner (hfree _)]
    exact runs_pure
  · simp only [hch, if_false]
    have hlocks : (machine cfg).Runs t (lockAll none (lockset cfg old new)) s ()
        (s.lockBuckets t (distinct none (lockset cfg old new))) := runs_lockset fun _ _ => hfree _
    have hunlock : (machine cfg).Runs t (unlockAll (lockset cfg old new).reverse)
        (s.lockBuckets t (distinct none (lockset cfg old new))) () s :=
          runs_unlockset fun _ _ => hfree _
    have heven' : ∀ i, (s.lockBuckets t (distinct none (lockset cfg old new))).seq i % 2 = 0 :=
      heven
    have hchecks : (machine cfg).Runs t (dupChecks cfg new scratch (changedKeys cfg old new))
        (s.lockBuckets t (distinct none (lockset cfg old new))) none _ ↔ _ :=
      runs_dupChecks_none_iff heven'
    have hsame : (∀ k ∈ changedKeys cfg old new, NoDuplicate cfg
        (s.lockBuckets t (distinct none (lockset cfg old new))) k new) ↔
        ∀ k ∈ changedKeys cfg old new, NoDuplicate cfg s k new := Iff.rfl
    rw [runs_known_iff hlocks, ← hsame, ← hchecks, runs_split_iff]
    constructor
    · intro h
      obtain ⟨dup, s₁, hdup, hrest⟩ := h
      obtain rfl := (loads_dupChecks ..).keeps hdup
      cases dup with
      | none => exact hdup
      | some k =>
          have hrest := runs_known hunlock hrest
          cases hrest
    · intro h
      have hrow : (s.lockBuckets t (distinct none (lockset cfg old new))).owner (.row idx) = none :=
        hfree (.row idx)
      refine ⟨none, _, h, ?_⟩
      refine runs_access (exec_lock hrow)
        (runs_then (hverify _ (by rfl) (by rfl)) (runs_access rfl ?_))
      rw [setOwner_none_setOwner hrow]
      exact runs_then hunlock runs_pure

/-- **The variants agree** on every share that calls have left behind with no lock held,
for all arguments: the deletes always, the updates exactly if the reference is valid, or
no changed unique key has a duplicate. -/
theorem variants_agree_iff (cfg : ShareCfg n W PK) (data : Int → Image n W)
    (h : List (CoreOp n W PK × CoreOut n W)) (s : Share n W)
    (hcalls : Calls cfg (Share.fresh data) h s) (hfree : ∀ l, s.owner l = none) (t : Nat)
    (idx : Int) (g : Nat) (old new scratch : Image n W) :
    Agree cfg t s (updateRow cfg idx g old new scratch) (lockedUpdate cfg idx g old new scratch) ∧
        Agree cfg t s (deleteRow cfg idx g scratch) (lockedDelete cfg idx g scratch) ↔
      (s.state idx = .active ∧ s.gen idx = g) ∨ ∀ k ∈ changedKeys cfg old new,
      NoDuplicate cfg s k new := by
  obtain ⟨⟨F, hled⟩, -⟩ := hcalls.run (ledger_fresh cfg (2 ^ 32) data)
  have hdelete : Agree cfg t s (deleteRow cfg idx g scratch) (lockedDelete cfg idx g scratch) :=
    deleteRow_agrees (hfree _)
  rw [and_iff_left hdelete]
  by_cases hvalid : s.state idx = .active ∧ s.gen idx = g
  · exact iff_of_true (updateRow_agrees_of_valid hfree hvalid) (Or.inl hvalid)
  · rw [or_iff_right hvalid]
    exact updateRow_agrees_iff_of_stale hfree hled.seq_even hvalid

/-- Inserts and deletes, one after the other, leave no lock held. -/
theorem free_of_callAll {data : Int → Image n W} {fuel : Nat} {ops : List (CoreOp n W PK)}
    {h : List (CoreOp n W PK × CoreOut n W)}
    (heval : callAll cfg fuel ops (Share.fresh data) = some (h, s))
    (hops : ∀ op ∈ ops, (∃ rec scratch, op = .insertRow rec scratch) ∨
      ∃ i g scratch, op = .deleteRow i g scratch) :
    (∃ C F, Consistent cfg s C F ∅) ∧ ∀ l, s.owner l = none := by
  induction ops generalizing h s with
  | nil =>
      cases heval
      exact ⟨⟨_, _, consistent_fresh cfg data⟩, fun l => by cases l <;> rfl⟩
  | cons op ops ih =>
      obtain ⟨⟨h', s'⟩, hbefore, hrest⟩ := Option.bind_eq_some_iff.mp heval
      obtain ⟨⟨⟨x, l⟩, s''⟩, hop, hdone⟩ := Option.bind_eq_some_iff.mp hrest
      cases hdone
      have hruns := Machine.Runs.of_eval hop
      obtain ⟨⟨C, F, hcons⟩, hfree⟩ :=
        ih hbefore fun op' hop' => hops op' (List.mem_cons_of_mem _ hop')
      obtain ⟨rec, scratch, rfl⟩ | ⟨i, g, scratch, rfl⟩ := hops _ List.mem_cons_self
      · obtain ⟨r, s₁, C', F', hinsert, hcons', howner, -⟩ :=
          runs_insertRow hcons 0 (hfree _) (fun _ _ => hfree _) rec scratch
        obtain ⟨-, rfl⟩ := hruns.det (runs_then hinsert runs_pure)
        exact ⟨⟨C', F', hcons'⟩, fun l => by rw [howner, hfree]⟩
      · obtain ⟨s₁, C', F', hdelete, hcons', howner⟩ :=
          runs_deleteRow hcons 0 (hfree _) (fun _ _ => hfree _) (hfree _) g scratch
        obtain ⟨-, rfl⟩ := hruns.det (runs_then hdelete runs_pure)
        exact ⟨⟨C', F', hcons'⟩, fun l => by rw [howner, hfree]⟩

/-- A row that has been deleted, and an update of it to the key of another row. -/
theorem deleted_row_and_duplicate :
    ∃ h s, Calls (wordTable 1) (Share.fresh fun _ _ => 0) h s ∧ (∀ l, s.owner l = none) ∧
      s.state 0 = .active ∧ s.gen 0 = 0 ∧
      (∃ r s', (machine (wordTable 1)).Runs 0
        (updateRow (wordTable 1) 1 0 (fun _ => 9) (fun _ => 7) fun _ => 0) s r s' ∧
          r.rc = .dupKey) ∧
      ∃ r s', (machine (wordTable 1)).Runs 0
        (lockedUpdate (wordTable 1) 1 0 (fun _ => 9) (fun _ => 7) fun _ => 0) s r s' ∧
        r.rc = .deleted := by
  have heval : (callAll (wordTable 1) 200 [.deleteRow 1 0 fun _ => 0,
      .insertRow (fun _ => 9) fun _ => 0,
      .insertRow (fun _ => 7) fun _ => 0] (Share.fresh fun _ _ => 0)).any
      (fun x => x.2.state 0 = .active && x.2.gen 0 = 0 &&
        ((machine (wordTable 1)).eval 0 200
          (updateRow (wordTable 1) 1 0 (fun _ => 9) (fun _ => 7) fun _ => 0) x.2).any
          (·.1.rc = .dupKey) &&
        ((machine (wordTable 1)).eval 0 200
          (lockedUpdate (wordTable 1) 1 0 (fun _ => 9) (fun _ => 7) fun _ => 0) x.2).any
            (·.1.rc = .deleted)) = true := by
    decide +kernel
  obtain ⟨⟨h, s⟩, hrun, hend⟩ := (Option.any_eq_true _ _).mp heval
  simp only [Bool.and_eq_true, decide_eq_true_eq] at hend
  obtain ⟨⟨⟨hactive, hgen⟩, hupdate⟩, hlocked⟩ := hend
  obtain ⟨⟨r, s₁⟩, hupdate, hdup⟩ := (Option.any_eq_true _ _).mp hupdate
  obtain ⟨⟨r', s₂⟩, hlocked, hdel⟩ := (Option.any_eq_true _ _).mp hlocked
  have hfree := (free_of_callAll hrun (by simp)).2
  exact ⟨h, s, .of_callAll hrun, hfree, hactive, hgen,
    ⟨r, s₁, .of_eval hupdate, by simpa using hdup⟩, r', s₂, .of_eval hlocked, by simpa using hdel⟩

/-- A row is updated under a valid reference: the variants agree. -/
theorem variants_agree_valid_reference :
    ∃ s, s.state 0 = .active ∧
      Agree (wordTable 1) 0 s (updateRow (wordTable 1) 0 0 (fun _ => 7) (fun _ => 5) fun _ => 0)
        (lockedUpdate (wordTable 1) 0 0 (fun _ => 7) (fun _ => 5) fun _ => 0) := by
  obtain ⟨h, s, hcalls, hfree, hactive, hgen, -⟩ := deleted_row_and_duplicate
  exact ⟨s, hactive,
    ((variants_agree_iff (wordTable 1) (fun _ _ => 0) h s hcalls hfree 0 0 0 (fun _ => 7)
    (fun _ => 5) fun _ => 0).mpr (Or.inl ⟨hactive, hgen⟩)).1⟩

/-- An update of a deleted row to the key of another row: `fm_core_update_row` reports a
duplicate, `fm_core_update_row_locked` that the row is gone. -/
theorem variants_disagree_deleted_row :
    ¬ ∀ (cfg : ShareCfg 1 Nat Nat) (data : Int → Image 1 Nat)
      (h : List (CoreOp 1 Nat Nat × CoreOut 1 Nat)) (s : Share 1 Nat),
      Calls cfg (Share.fresh data) h s → (∀ l, s.owner l = none) →
      ∀ (t : Nat) (idx : Int) (g : Nat) (old new scratch : Image 1 Nat),
        Agree cfg t s (updateRow cfg idx g old new scratch)
          (lockedUpdate cfg idx g old new scratch) ∧
          Agree cfg t s (deleteRow cfg idx g scratch) (lockedDelete cfg idx g scratch) := by
  intro hall
  obtain ⟨h, s, hcalls, hfree, -, -, ⟨r, s₁, hupdate, hdup⟩, r', s₂, hlocked, hdel⟩ :=
    deleted_row_and_duplicate
  have hagree :=
    (hall (wordTable 1) _ h s hcalls hfree 0 1 0 (fun _ => 9) (fun _ => 7) fun _ => 0).1
  obtain ⟨rfl, -⟩ := hlocked.det ((hagree r s₁).mp hupdate)
  rw [hdup] at hdel
  cases hdel

end FastMem
