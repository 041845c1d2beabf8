import FastMem.Handler
import FastMem.SeqCalls

/-!
# Stale references

A reference is a slot number with the generation the slot had when the reference was
taken.  Calls that are given one whose row has been deleted or cleared since are
refused and change nothing; as long as the row is there they are not refused as
deleted.  Both are facts about the table of versioned slots, carried over to every
sequence of calls of the core.
-/

namespace FastMem

open Conc Versioned

variable {n : Nat} {W PK : Type} {cfg : ShareCfg n W PK} {t : Nat} {s s' : Share n W}
  {F : List Int} {idx : Int} {g : Nat}

/-- The call has taken the row of slot `i` away: a delete of it that succeeded, or a
clear. -/
def takesAway (i : Int) : CoreOp n W PK × CoreOut n W → Bool
  | (.deleteRow idx _ _, .code rc) => idx = i ∧ rc = .ok
  | (.deleteRowLocked idx _ _, .code rc) => idx = i ∧ rc = .ok
  | (.clear, _) => true
  | _ => false

/-- A call bumps the generation of a slot if it takes its row away. -/
theorem bumps_event (i : Int) (c : CoreOp n W PK × CoreOut n W) :
    (c.1.event c.2).bumps i = if takesAway i c then 1 else 0 := by
  obtain ⟨op, x⟩ := c
  have hput : ∀ (rc : Rc) (e : Versioned.Event Int (Image n W)), e.bumps i = 0 →
      (if rc = .ok then e else .keep).bumps i = 0 := by
    intro rc e he
    split
    · exact he
    · rfl
  have hdel : ∀ (idx : Int) (rc : Rc),
      (if rc = .ok then .remove idx else .keep : Versioned.Event Int (Image n W)).bumps i =
        if (decide (idx = i ∧ rc = .ok)) = true then 1 else 0 := by
    intro idx rc
    by_cases hrc : rc = .ok
    · by_cases hi : idx = i <;> simp [hrc, hi, Event.bumps]
    · simp [hrc, Event.bumps]
  cases op with
  | insertRow rec scratch =>
      cases x with
      | write r =>
          obtain ⟨rc, oi, ek⟩ := r
          cases rc <;> cases oi <;> rfl
      | _ => rfl
  | updateRow idx g old new scratch =>
      cases x with
      | write r => exact hput r.rc _ rfl
      | _ => rfl
  | updateRowLocked idx g old new scratch =>
      cases x with
      | write r => exact hput r.rc _ rfl
      | _ => rfl
  | deleteRow idx g scratch =>
      cases x with
      | code rc => exact hdel idx rc
      | _ => rfl
  | deleteRowLocked idx g scratch =>
      cases x with
      | code rc => exact hdel idx rc
      | _ => rfl
  | clear => rfl
  | _ => rfl

/-- The generation counts the calls that do. -/
theorem bumps_events (i : Int) (h : List (CoreOp n W PK × CoreOut n W)) :
    Versioned.bumps i (events h) = h.countP (takesAway i) := by
  induction h with
  | nil => rfl
  | cons c h ih =>
      have hcons : Versioned.bumps i (events (c :: h)) = (c.1.event c.2).bumps i +
          Versioned.bumps i (events h) := rfl
      rw [hcons, bumps_event, ih, List.countP_cons]
      omega

/-- What an update reports that was refused: that the row is gone, or the changed key whose
duplicate check has failed. -/
def UpdateRefused (cfg : ShareCfg n W PK) (t : Nat) (s : Share n W) (old new scratch : Image n W)
    (r : WriteResult) : Prop :=
  r = ⟨.deleted, none, none⟩ ∨
    ∃ k : Nat, r = ⟨.dupKey, none, some (k + 1)⟩ ∧
      (machine cfg).Runs t (dupChecks cfg new scratch (changedKeys cfg old new))
        (s.lockBuckets t (distinct none (lockset cfg old new))) (some k)
        (s.lockBuckets t (distinct none (lockset cfg old new)))

section

variable {old new scratch : Image n W} {r : WriteResult}

/-- The lock was free that a run has taken. -/
theorem free_of_lock {l : Lock} {α : Type} {f : Unit → Core n W PK α} {x : α}
    (h : (machine cfg).Runs t (access (.lock l) >>= f) s x s') :
    s.owner l = none ∧ (machine cfg).Runs t (f ()) (s.setOwner (some t) l) x s' := by
  cases h with
  | act hlock hrest =>
      have hfree : s.owner l = none := by
        by_contra hheld
        simp [exec, hheld] at hlock
      rw [show (machine cfg).exec = exec cfg from rfl, exec_lock hfree] at hlock
      cases hlock
      exact ⟨hfree, hrest⟩

/-- The part of `fm_core_update_row` under the row lock ends in `p`, or it has released the
lock and goes on with `q`. -/
theorem update_under_row_lock {p q : Core n W PK WriteResult} (h : (machine cfg).Runs t (do
      access (.lock (.row idx))
      let valid ← verifySlot idx g
      if valid then p else do
        access (.unlock (.row idx))
        q) s r s') :
    (machine cfg).Runs t p (s.setOwner (some t) (.row idx)) r s' ∨
    (machine cfg).Runs t q s r s' := by
  obtain ⟨hfree, hrest⟩ := free_of_lock h
  have hverify : (machine cfg).Runs t (verifySlot idx g) (s.setOwner (some t) (.row idx))
      (decide (s.state idx = .active ∧ s.gen idx = g)) (s.setOwner (some t) (.row idx)) :=
    runs_verifySlot idx g
  have hrest := runs_known hverify hrest
  by_cases hvalid : s.state idx = .active ∧ s.gen idx = g
  · rw [if_pos (decide_eq_true hvalid)] at hrest
    exact Or.inl hrest
  · rw [if_neg (by simpa using hvalid)] at hrest
    have hrest := runs_known (runs_last rfl) hrest
    rw [setOwner_none_setOwner hfree] at hrest
    exact Or.inr hrest

/-- An update that does not succeed gives everything back. -/
theorem updateRow_exits
    (hruns : (machine cfg).Runs t (updateRow cfg idx g old new scratch) s r s') :
    r.rc = .ok ∨ s' = s ∧ UpdateRefused cfg t s old new scratch r := by
  unfold updateRow at hruns
  by_cases hch : changedKeys cfg old new = []
  · simp only [hch, if_true] at hruns
    rcases update_under_row_lock hruns with hok | hgone
    · obtain ⟨_, s₁, -, hrest⟩ := Machine.Runs.split hok
      obtain ⟨_, s₂, -, hrest⟩ := Machine.Runs.split hrest
      cases hrest
      exact Or.inl rfl
    · cases hgone
      exact Or.inr ⟨rfl, Or.inl rfl⟩
  · simp only [hch, if_false] at hruns
    obtain ⟨_, s₁, hlocks, hrest⟩ := Machine.Runs.split hruns
    have hnd : ([] ++ distinct none (lockset cfg old new)).Nodup := distinct_lockset_nodup
    obtain ⟨hfree, rfl⟩ := free_of_lockAll hnd (by rw [lockBuckets_nil]; exact hlocks)
    rw [List.nil_append] at hrest
    have hunlock := runs_unlockset (t := t) hfree
    obtain ⟨dup, s₂, hdup, hrest⟩ := Machine.Runs.split hrest
    obtain rfl := (loads_dupChecks ..).keeps hdup
    cases dup with
    | some k =>
        have hrest := runs_known hunlock hrest
        cases hrest
        exact Or.inr ⟨rfl, Or.inr ⟨k, rfl, hdup⟩⟩
    | none =>
        rcases update_under_row_lock hrest with hok | hgone
        · obtain ⟨_, s₁, -, hrest⟩ := Machine.Runs.split hok
          obtain ⟨_, s₂, -, hrest⟩ := Machine.Runs.split hrest
          obtain ⟨_, s₃, -, hrest⟩ := Machine.Runs.split hrest
          obtain ⟨_, s₄, -, hrest⟩ := Machine.Runs.split hrest
          cases hrest
          exact Or.inl rfl
        · have hrest := runs_known hunlock hgone
          cases hrest
          exact Or.inr ⟨rfl, Or.inl rfl⟩

/-- An update of a locked row succeeds, or changes nothing and says why. -/
theorem updateRowLocked_exits
    (hruns : (machine cfg).Runs t (updateRowLocked cfg idx g old new scratch) s r s') :
    r.rc = .ok ∨ s' = s ∧ UpdateRefused cfg t s old new scratch r := by
  have hverify : (machine cfg).Runs t (verifySlot idx g) s
      (decide (s.state idx = .active ∧ s.gen idx = g)) s := runs_verifySlot idx g
  have hrest := runs_known hverify hruns
  by_cases hvalid : s.state idx = .active ∧ s.gen idx = g
  · rw [if_pos (decide_eq_true hvalid)] at hrest
    by_cases hch : changedKeys cfg old new = []
    · simp only [hch, if_true] at hrest
      obtain ⟨_, s₁, -, hrest⟩ := Machine.Runs.split hrest
      cases hrest
      exact Or.inl rfl
    · simp only [hch, if_false] at hrest
      obtain ⟨_, s₁, hlocks, hrest⟩ := Machine.Runs.split hrest
      have hnd : ([] ++ distinct none (lockset cfg old new)).Nodup := distinct_lockset_nodup
      obtain ⟨hfree, rfl⟩ := free_of_lockAll hnd (by rw [lockBuckets_nil]; exact hlocks)
      rw [List.nil_append] at hrest
      obtain ⟨dup, s₂, hdup, hrest⟩ := Machine.Runs.split hrest
      obtain rfl := (loads_dupChecks ..).keeps hdup
      cases dup with
      | some k =>
          have hrest := runs_known (runs_unlockset (t := t) hfree) hrest
          cases hrest
          exact Or.inr ⟨rfl, Or.inr ⟨k, rfl, hdup⟩⟩
      | none =>
          obtain ⟨_, s₁, -, hrest⟩ := Machine.Runs.split hrest
          obtain ⟨_, s₂, -, hrest⟩ := Machine.Runs.split hrest
          obtain ⟨_, s₃, -, hrest⟩ := Machine.Runs.split hrest
          cases hrest
          exact Or.inl rfl
  · rw [if_neg (by simpa using hvalid)] at hrest
    cases hrest
    exact Or.inr ⟨rfl, Or.inl rfl⟩

/-- An update that is given an invalid reference fails, and changes nothing. -/
theorem Updated.stale (h : Updated s s' idx g new r.rc)
    (hstale : ¬ (s.state idx = .active ∧ s.gen idx = g))
    (hexits : r.rc = .ok ∨ s' = s ∧ UpdateRefused cfg t s old new scratch r) :
    r.rc ≠ .ok ∧ s' = s := by
  have hrc : r.rc ≠ .ok := by
    rcases h with ⟨-, hvalid, -⟩ | ⟨hrc, -⟩
    · exact absurd hvalid hstale
    · rcases hrc with h | ⟨h, -⟩ <;> rw [h] <;> decide
  exact ⟨hrc, (hexits.resolve_left hrc).1⟩

end

/-- A delete that fails changes nothing. -/
theorem Deleted.failed {lim : Nat} {rc : Rc} (h : Deleted cfg lim s s' idx g rc)
    (hrc : rc ≠ .ok) : s' = s := by
  rcases h with ⟨hok, -⟩ | ⟨-, -, hsame⟩
  · exact absurd hok hrc
  · exact hsame

/-- A delete through a stale reference fails. -/
theorem Deleted.stale {lim : Nat} {rc : Rc} (h : Deleted cfg lim s s' idx g rc)
    (hstale : ¬ (s.state idx = .active ∧ s.gen idx = g)) : rc ≠ .ok ∧ s' = s := by
  rcases h with ⟨-, hvalid, -⟩ | ⟨rfl, -, rfl⟩
  · exact absurd hvalid hstale
  · exact ⟨by decide, rfl⟩

/-- `fm_rrnd` on a reference: the row, or that it is gone. -/
theorem runs_fmRrnd (hidx : idx ≠ -1) (heven : s.seq idx % 2 = 0) (info : Info n W PK)
    (buf : Image n W) :
    ∃ img info', (machine cfg).Runs t (fmRrnd info buf (idx, g)) s
      (if s.state idx = .active ∧ s.gen idx = g then none else some .recordDeleted,
        img, info') s := by
  have hrest : ∀ {rc : Rc} {img : Image n W},
      (machine cfg).Runs t (readRow idx true g buf) s (rc, img) s →
      ∃ info', (machine cfg).Runs t (fmRrnd info buf (idx, g)) s
        (if rc = .ok then none else some .recordDeleted, img, info') s := by
    intro rc img hread
    unfold fmRrnd
    simp only [hidx, if_false]
    by_cases hrc : rc = .ok
    · refine ⟨{ info with
        lastinx := -1, currentSlot := idx, currentGen := g
        update := ⟨true, false, false, true, true⟩ }, runs_then hread ?_⟩
      simp only [hrc, if_true]
      exact runs_pure
    · refine ⟨{ info with lastinx := -1, update := ⟨false, false, false, true, true⟩ },
        runs_then hread ?_⟩
      simp only [hrc, if_false]
      exact runs_pure
  by_cases hvalid : s.state idx = .active ∧ s.gen idx = g
  · obtain ⟨info', h⟩ := hrest (runs_readRow heven hvalid.1 (fun _ => hvalid.2) buf)
    rw [if_pos rfl] at h
    rw [if_pos hvalid]
    exact ⟨_, info', h⟩
  · have hgone : s.state idx ≠ .active ∨ true = true ∧ s.gen idx ≠ g := by
      by_cases hactive : s.state idx = .active
      · exact Or.inr ⟨rfl, fun hg => hvalid ⟨hactive, hg⟩⟩
      · exact Or.inl hactive
    obtain ⟨info', h⟩ := hrest (runs_readRow_gone buf hgone)
    rw [if_neg (by decide)] at h
    rw [if_neg hvalid]
    exact ⟨_, info', h⟩

/-- Every call that is given the reference fails, and changes nothing. -/
structure Refused (cfg : ShareCfg n W PK) (s : Share n W) (idx : Int) (g : Nat) : Prop where
  readRow : ∀ t buf, (machine cfg).Runs t (readRow idx true g buf) s (.deleted, buf) s
  rrnd : ∀ t info buf, ∃ img info',
    (machine cfg).Runs t (fmRrnd info buf (idx, g)) s (some .recordDeleted, img, info') s
  updateRow : ∀ t old new scratch r s',
    (machine cfg).Runs t (updateRow cfg idx g old new scratch) s r s' → r.rc ≠ .ok ∧ s' = s
  updateRowLocked : ∀ t old new scratch r s',
    (machine cfg).Runs t (updateRowLocked cfg idx g old new scratch) s r s' → r.rc ≠ .ok ∧ s' = s
  deleteRow : ∀ t scratch rc s',
    (machine cfg).Runs t (deleteRow cfg idx g scratch) s rc s' → rc ≠ .ok ∧ s' = s
  deleteRowLocked : ∀ t scratch rc s',
    (machine cfg).Runs t (deleteRowLocked cfg idx g scratch) s rc s' → rc ≠ .ok ∧ s' = s

/-- No call that is given the reference reports the row as deleted; a read returns it. -/
structure Accepted (cfg : ShareCfg n W PK) (s : Share n W) (idx : Int) (g : Nat) : Prop where
  readRow : ∀ t buf, (machine cfg).Runs t (readRow idx true g buf) s (.ok, s.data idx) s
  rrnd : ∀ t info buf, ∃ img info',
    (machine cfg).Runs t (fmRrnd info buf (idx, g)) s (none, img, info') s
  updateRow : ∀ t old new scratch r s',
    (machine cfg).Runs t (updateRow cfg idx g old new scratch) s r s' → r.rc ≠ .deleted
  updateRowLocked : ∀ t old new scratch r s',
    (machine cfg).Runs t (updateRowLocked cfg idx g old new scratch) s r s' → r.rc ≠ .deleted
  deleteRow : ∀ t scratch rc s', (machine cfg).Runs t (deleteRow cfg idx g scratch) s rc s' →
    rc ≠ .deleted
  deleteRowLocked : ∀ t scratch rc s',
    (machine cfg).Runs t (deleteRowLocked cfg idx g scratch) s rc s' → rc ≠ .deleted

/-- Every call through a stale reference is refused. -/
theorem refused_of_stale (h : Ledger cfg (2 ^ 32) s F ∅) (hidx : idx ≠ -1)
    (hstale : ¬ (s.state idx = .active ∧ s.gen idx = g)) : Refused cfg s idx g where
  readRow := by
    intro t buf
    apply runs_readRow_gone
    by_cases hactive : s.state idx = .active
    · exact Or.inr ⟨rfl, fun hg => hstale ⟨hactive, hg⟩⟩
    · exact Or.inl hactive
  rrnd := by
    intro t info buf
    obtain ⟨img, info', hruns⟩ := runs_fmRrnd (t := t) (g := g) hidx (h.seq_even idx) info buf
    rw [if_neg hstale] at hruns
    exact ⟨img, info', hruns⟩
  updateRow :=
    fun _ _ _ _ _ _ hruns => (updateRow_effect hruns).stale hstale (updateRow_exits hruns)
  updateRowLocked := fun _ _ _ _ _ _ hruns =>
    (updateRowLocked_effect hruns).stale hstale (updateRowLocked_exits hruns)
  deleteRow := fun _ _ _ _ hruns => (deleteRow_effect h hruns).stale hstale
  deleteRowLocked := fun _ _ _ _ hruns => (deleteRowLocked_effect h hruns).stale hstale

/-- An update through a valid reference does not find the row gone. -/
theorem Updated.not_deleted {new : Image n W} {rc : Rc} (h : Updated s s' idx g new rc)
    (hvalid : s.state idx = .active ∧ s.gen idx = g) : rc ≠ .deleted := by
  rcases h with ⟨rfl, -, -⟩ | ⟨rfl | ⟨-, hnot⟩, -⟩
  · decide
  · decide
  · exact absurd hvalid hnot

theorem Deleted.not_deleted {lim : Nat} {rc : Rc} (h : Deleted cfg lim s s' idx g rc)
    (hvalid : s.state idx = .active ∧ s.gen idx = g) : rc ≠ .deleted := by
  rcases h with ⟨rfl, -, -⟩ | ⟨-, hnot, -⟩
  · decide
  · exact absurd hvalid hnot

/-- Every call through a valid reference gets to the row. -/
theorem accepted_of_valid (h : Ledger cfg (2 ^ 32) s F ∅) (hidx : idx ≠ -1)
    (hvalid : s.state idx = .active ∧ s.gen idx = g) : Accepted cfg s idx g where
  readRow := fun _ buf => runs_readRow (h.seq_even idx) hvalid.1 (fun _ => hvalid.2) buf
  rrnd := by
    intro t info buf
    obtain ⟨img, info', hruns⟩ := runs_fmRrnd (t := t) (g := g) hidx (h.seq_even idx) info buf
    rw [if_pos hvalid] at hruns
    exact ⟨img, info', hruns⟩
  updateRow := fun _ _ _ _ _ _ hruns => (updateRow_effect hruns).not_deleted hvalid
  updateRowLocked := fun _ _ _ _ _ _ hruns => (updateRowLocked_effect hruns).not_deleted hvalid
  deleteRow := fun _ _ _ _ hruns => (deleteRow_effect h hruns).not_deleted hvalid
  deleteRowLocked := fun _ _ _ _ hruns => (deleteRowLocked_effect h hruns).not_deleted hvalid

/-- Generations are 32-bit numbers, whatever the calls do. -/
theorem gen_lt_of_runs {α : Type} {p : Core n W PK α} {x : α} (h : (machine cfg).Runs t p s x s')
    (hlt : ∀ i, s.gen i < 2 ^ 32) : ∀ i, s'.gen i < 2 ^ 32 := by
  have hall : ∀ {β : Type} (q : Core n W PK β),
      Machine.Only (S := coreSig n W PK) (fun _ => True) (fun _ => True) q := by
    intro β q
    induction q with
    | ret a => trivial
    | act a k ih => exact ⟨trivial, ih⟩
    | call p k ih => exact ⟨trivial, ih⟩
  refine Machine.Runs.keeps (M := machine cfg)
    (R := fun s s' => (∀ i, s.gen i < 2 ^ 32) → ∀ i, s'.gen i < 2 ^ 32) (fun _ h => h)
    (fun _ _ _ h h' hlt => h' (h hlt)) (fun a s r s' _ he hlt i => ?_)
    (fun p _ => hall _) h (hall p) hlt
  cases a with
  | lock l =>
      have he : exec cfg t (.lock l) s = some (r, s') := he
      simp only [exec] at he
      split at he
      · cases he
        rw [setOwner_gen]
        exact hlt i
      · cases he
  | unlock l =>
      cases he
      rw [setOwner_gen]
      exact hlt i
  | casAutoInc cur new =>
      have he : exec cfg t (.casAutoInc cur new) s = some (r, s') := he
      simp only [exec] at he
      split at he <;> cases he <;> exact hlt i
  | addGen j =>
      cases he
      by_cases hi : i = j
      · subst hi
        simp only [Function.update_self]
        exact Nat.mod_lt _ (by decide)
      · simpa [hi] using hlt i
  | initSlots c =>
      cases he
      show (if u32 i / chunkSize = c then 0 else s.gen i) < 2 ^ 32
      split
      · decide
      · exact hlt i
  | _ =>
      cases he
      exact hlt i

/-- Generations fit into 32 bits. -/
theorem Calls.gen_lt {s₀ : Share n W} {h : List (CoreOp n W PK × CoreOut n W)}
    (hcalls : Calls cfg s₀ h s) (hlt : ∀ i, s₀.gen i < 2 ^ 32) : ∀ i, s.gen i < 2 ^ 32 := by
  induction hcalls with
  | refl => exact hlt
  | call _ runs ih => exact gen_lt_of_runs runs ih

/-- **Stale references never reach another row.**  Take a reference from an ACTIVE
slot in any share that calls have made of a fresh one, and let any calls follow.  Once
the row has been deleted or cleared, and as long as that has not happened 2^32 times,
every call that is given the reference fails and changes nothing, whatever the slot is
used for.  As long as the row has not been deleted or cleared, no call that is given
the reference reports it as deleted. -/
theorem stale_references_never_reach_another_row (cfg : ShareCfg n W PK) (data : Int → Image n W)
    (h₀ h : List (CoreOp n W PK × CoreOut n W)) (s₀ s : Share n W)
    (hbefore : Calls cfg (Share.fresh data) h₀ s₀) (idx : Int) (g : Nat)
    (hactive : s₀.state idx = .active) (hgen : s₀.gen idx = g) (hafter : Calls cfg s₀ h s) :
    (0 < h.countP (takesAway idx) → h.countP (takesAway idx) < 2 ^ 32 → Refused cfg s idx g) ∧
      (h.countP (takesAway idx) = 0 → Accepted cfg s idx g) := by
  obtain ⟨⟨F₀, hled₀⟩, -⟩ := hbefore.run (ledger_fresh cfg (2 ^ 32) data)
  obtain ⟨⟨F, hled⟩, hrun⟩ := hafter.run hled₀
  have hgrown : s₀.Grown idx := hled₀.grown (Or.inr (Or.inr hactive))
  have hidx : idx ≠ -1 := grown_ne_null hled₀.chunks hgrown
  have hlt : g < 2 ^ 32 := by
    rw [← hgen]
    exact hbefore.gen_lt (fun _ => Nat.two_pow_pos 32) idx
  have hvalid₀ : s₀.table.Valid idx g := ⟨by simp [Share.table, hactive], hgen⟩
  have hvalid : s.table.Valid idx g ↔ s.state idx = .active ∧ s.gen idx = g := by
    simp [Table.Valid, Share.table]
  rw [← bumps_events]
  constructor
  · intro hpos hsmall
    apply refused_of_stale hled hidx
    rw [← hvalid]
    exact hrun.stale hgrown hlt hvalid₀ hpos hsmall
  · intro hzero
    apply accepted_of_valid hled hidx
    rw [← hvalid]
    exact hrun.valid hgrown hlt hvalid₀ hzero

/-- A row is inserted, deleted and its slot used again: the reference to the first row
is refused. -/
theorem stale_references_recycled_slot :
    ∃ s : Share 1 Nat, s.state 0 = .active ∧ s.data 0 0 = 9 ∧ Refused (wordTable 1) s 0 0 := by
  have heval : (callAll (wordTable 1) 200 [.insertRow (fun _ => 7) fun _ => 0]
      (Share.fresh fun _ _ => 0)).any (fun x₀ => x₀.2.state 0 = .active && x₀.2.gen 0 = 0 &&
        (callAll (wordTable 1) 200 [.insertRow (fun _ => 9) fun _ => 0,
          .deleteRow 0 0 fun _ => 0] x₀.2).any
          fun x => x.1.countP (takesAway 0) = 1 && x.2.state 0 = .active && x.2.data 0 0 = 9) =
          true := by
    decide +kernel
  obtain ⟨⟨h₀, s₀⟩, hrun₀, hcond⟩ := (Option.any_eq_true _ _).mp heval
  simp only [Bool.and_eq_true, decide_eq_true_eq] at hcond
  obtain ⟨⟨hactive, hgen⟩, hlater⟩ := hcond
  obtain ⟨⟨h, s⟩, hrun, hend⟩ := (Option.any_eq_true _ _).mp hlater
  simp only [Bool.and_eq_true, decide_eq_true_eq] at hend
  obtain ⟨⟨hcount, hactive'⟩, hdata⟩ := hend
  refine ⟨s, hactive', hdata, ?_⟩
  apply (stale_references_never_reach_another_row (wordTable 1) (fun _ _ => 0) h₀ h s₀ s
    (.of_callAll hrun₀) 0 0 hactive hgen (.of_callAll hrun)).1
  · omega
  · omega

end FastMem
