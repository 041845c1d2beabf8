import FastMem.SeqEffects

/-!
# Each call refines one event

The effect of every completed call on the table of versioned slots, and from it the
effect of every sequence of completed calls.  The ledger is all that is asked of the
share before the call, and nothing is asked of the arguments.
-/

namespace FastMem

open Conc Versioned

variable {n : Nat} {W PK : Type} {cfg : ShareCfg n W PK} {t lim : Nat} {s s' : Share n W}
  {F : List Int} {rec scratch old new : Image n W} {idx : Int} {g : Nat} {r : WriteResult} {rc : Rc}

/-- A slot that is out holds no row. -/
theorem Ledger.row_of_out {F : List Int} (h : Ledger cfg lim s F {idx}) :
    s.table.row idx = none := by
  simp [Share.table, (h.out_spec idx rfl).1]

/-- The last steps of an insert that found no duplicate. -/
theorem publish_effect (h : Ledger cfg lim s F {idx}) (hrec : s.data idx = rec)
    (hruns : (machine cfg).Runs t (do
      access (.storeState idx .active)
      access (.addRecords 1)
      access (.unlock .mutex)
      pure ⟨.ok, some idx, none⟩) s r s') :
    r = ⟨.ok, some idx, none⟩ ∧ Ledger cfg lim s' F ∅ ∧ s'.table = s.table.after (2 ^ 32)
      (.put idx rec) := by
  have hdone : (machine cfg).Runs t (do
      access (.storeState idx .active)
      access (.addRecords 1)
      access (.unlock .mutex)
      pure ⟨.ok, some idx, none⟩) s (⟨.ok, some idx, none⟩ : WriteResult)
      (Share.setOwner
        { s with state := Function.update s.state idx .active, records := s.records + 1 }
        none .mutex) :=
    runs_access rfl (runs_access rfl (runs_access rfl runs_pure))
  obtain ⟨rfl, rfl⟩ := hdone.det hruns
  refine ⟨rfl, h.publish.setOwner none .mutex, ?_⟩
  rw [(SlotsKept.setOwner _ none .mutex).table]
  simp only [Share.table, Table.after]
  congr 1
  funext i
  by_cases hi : i = idx
  · subst hi
    simp [hrec]
  · simp [hi]

/-- What is left of an insert once it has got a slot. -/
theorem insertAt_effect (h : Ledger cfg lim s F {idx})
    (hruns : (machine cfg).Runs t (insertAt cfg rec scratch idx) s r s') :
    ∃ F', Ledger cfg lim s' F' ∅ ∧
      (r = ⟨.ok, some idx, none⟩ ∧ s'.table = s.table.after (2 ^ 32) (.put idx rec) ∨
        r.rc = .dupKey ∧ r.outIdx = none ∧ s'.table = s.table) := by
  have hidx := (h.out_spec idx rfl).1
  have htable := table_withData hidx rec
  have hrest := runs_known (runs_copyIn_all idx rec) hruns
  obtain ⟨stop, s₁, hlink, hrest⟩ := runs_beside (beside_linkKeys ..) hrest
  have hled := hlink.ledger (h.withData idx rec)
  cases stop with
  | none =>
      have hrec : s₁.data idx = rec := by
        rw [hlink.data]
        simp [Share.withData]
      obtain ⟨rfl, hled', htable'⟩ := publish_effect hled hrec hrest
      rw [hlink.table, htable] at htable'
      exact ⟨F, hled', Or.inl ⟨rfl, htable'⟩⟩
  | some k =>
      obtain ⟨k', s₂, hroll, hrest⟩ := runs_beside (beside_rollback ..) hrest
      have hfree := runs_known (runs_freeSlot idx) hrest
      obtain ⟨_, s₃, hunlock, hrest⟩ := runs_beside (only_access rfl) hfree
      cases hrest
      refine ⟨idx :: F, hunlock.ledger (hroll.ledger hled).push, Or.inr ⟨rfl, rfl, ?_⟩⟩
      rw [hunlock.table]
      have hback : (s₂.withFree (Function.update s₂.freeNext idx s₂.freeHead) idx).table =
          s₂.table := rfl
      rw [hback, hroll.table, hlink.table, htable]

/-- `fm_core_insert_row`: one more row at `*out_idx`, a duplicate, or no slot. -/
theorem insertRow_effect (h : Ledger cfg lim s F ∅) (hlim : cfg.maxRecords ≤ lim)
    (hruns : (machine cfg).Runs t (insertRow cfg rec scratch) s r s') :
    ∃ F', Ledger cfg lim s' F' ∅ ∧
      ((∃ idx, r = ⟨.ok, some idx, none⟩ ∧ s.table.row idx = none ∧
          Grows (s.table.after (2 ^ 32) (.put idx rec)) s'.table) ∨
        (r.rc = .dupKey ∧ r.outIdx = none ∧ Grows s.table s'.table) ∨
        (r = ⟨if cfg.chunkCap ≤ s.chunkCnt then .full else .noMem, none, none⟩ ∧ F = [] ∧
          NoRoom cfg s ∧ Grows s.table s'.table)) := by
  obtain ⟨_, s₀, hlock, hrest⟩ := runs_beside (only_access rfl) hruns
  obtain ⟨idx, s₁, halloc, hrows, hindex, hcase⟩ := runs_allocSlot (hlock.ledger h) hlim t
  have hgrows := grows_of_same hrows hindex
  rw [hlock.table] at hgrows
  have hrest := runs_known halloc hrest
  rcases hcase with ⟨rfl, rfl, hroom, hcnt, hled⟩ | ⟨F', hne, hled⟩
  · rw [if_pos rfl] at hrest
    obtain ⟨_, s₂, hunlock, hrest⟩ := runs_beside (only_access rfl) hrest
    cases hrest with
    | act hload hrest =>
        cases hload
        cases hrest
        have hroom' : NoRoom cfg s := by
          unfold NoRoom at hroom ⊢
          rw [hlock.chunkCnt] at hroom
          exact hroom
        refine ⟨[], hunlock.ledger hled, Or.inr (Or.inr ⟨?_, rfl, hroom', ?_⟩)⟩
        · rw [hunlock.chunkCnt, hcnt, hlock.chunkCnt]
        · rw [hunlock.table]
          exact hgrows
  · rw [if_neg hne] at hrest
    have hempty : s.table.row idx = none := by
      rw [← hgrows.row]
      exact hled.row_of_out
    obtain ⟨F'', hled', hok | hdup⟩ := insertAt_effect hled hrest
    · refine ⟨F'', hled', Or.inl ⟨idx, hok.1, hempty, ?_⟩⟩
      rw [hok.2]
      exact hgrows.after _
    · refine ⟨F'', hled', Or.inr (Or.inl ⟨hdup.1, hdup.2.1, ?_⟩)⟩
      rw [hdup.2.2]
      exact hgrows

/-- A new image in an ACTIVE slot. -/
theorem Ledger.rewritten (h : Ledger cfg lim s F ∅) (idx : Int) (img : Image n W)
    (nx : Nat → Int → Int) (hd : Nat → Nat → Int) : Ledger cfg lim
    (s.rewritten idx img nx hd) F ∅ := by
  refine { h with seq_even := fun i => ?_ }
  by_cases hi : i = idx
  · subst hi
    have := h.seq_even i
    simp only [Share.rewritten, Function.update_self]
    omega
  · simpa [Share.rewritten, hi] using h.seq_even i

/-- A rewritten image is an event of the table. -/
theorem table_rewritten (hactive : s.state idx = .active) (img : Image n W) (nx : Nat → Int → Int)
    (hd : Nat → Nat → Int) :
    (s.rewritten idx img nx hd).table = s.table.after (2 ^ 32) (.replace idx img) := by
  simp only [Share.table, Table.after]
  congr 1
  funext i
  by_cases hi : i = idx
  · subst hi
    simp [Share.rewritten, Share.withIndex, hactive]
  · simp [Share.rewritten, Share.withIndex, hi]

/-- Shares with the same slots are rewritten alike. -/
theorem SlotsKept.rewritten {s₁ : Share n W} (h : SlotsKept s s₁) (idx : Int) (img : Image n W) :
    SlotsKept (s.rewritten idx img s.next s.head) (s₁.rewritten idx img s₁.next s₁.head) := by
  obtain ⟨h1, h2, h3, h4, h5, h6, h7, h8⟩ := h
  constructor <;> simp [Share.rewritten, Share.withIndex, *]

/-- How a completed update leaves the share: with the new image, or as it was. -/
def Updated (s s' : Share n W) (idx : Int) (g : Nat) (new : Image n W) (rc : Rc) : Prop :=
  (rc = .ok ∧ (s.state idx = .active ∧ s.gen idx = g) ∧
    SlotsKept (s.rewritten idx new s.next s.head) s') ∨
  ((rc = .dupKey ∨ rc = .deleted ∧ ¬ (s.state idx = .active ∧ s.gen idx = g)) ∧ SlotsKept s s')

/-- What an update did to a share with the same slots it did to this one. -/
theorem Updated.of_same {s₁ : Share n W} {rc : Rc} (h : SlotsKept s s₁)
    (hu : Updated s₁ s' idx g new rc) : Updated s s' idx g new rc := by
  unfold Updated at hu ⊢
  rw [h.state, h.gen] at hu
  rcases hu with ⟨hok, hvalid, hsame⟩ | ⟨hrc, hsame⟩
  · exact Or.inl ⟨hok, hvalid, (h.rewritten idx new).trans hsame⟩
  · exact Or.inr ⟨hrc, h.trans hsame⟩

/-- `fm_core_update_row`, once the locks are taken: verify, write and move, release.
The chain moves and the releases are the program `p`. -/
theorem commit_effect {p q : Core n W PK WriteResult}
    (hp : BesideSlots p) (hp' : ∀ {s s' r}, (machine cfg).Runs t p s r s' → r = ⟨.ok, none, none⟩)
    (hq : BesideSlots q)
    (hq' : ∀ {s s' r}, (machine cfg).Runs t q s r s' → r = ⟨.deleted, none, none⟩)
    (hruns : (machine cfg).Runs t (do
      let valid ← verifySlot idx g
      if valid then do
        writeImage idx new
        p
      else q) s r s') : Updated s s' idx g new r.rc := by
  have hverify : (machine cfg).Runs t (verifySlot idx g) s
      (decide (s.state idx = .active ∧ s.gen idx = g)) s := runs_verifySlot idx g
  have hrest := runs_known hverify hruns
  by_cases hvalid : s.state idx = .active ∧ s.gen idx = g
  · rw [if_pos (decide_eq_true hvalid)] at hrest
    have hwrite : (machine cfg).Runs t (writeImage idx new) s ()
        (s.rewritten idx new s.next s.head) :=
      runs_writeImage idx new
    have hrest := runs_known hwrite hrest
    rw [hp' hrest]
    exact Or.inl ⟨rfl, hvalid, hp.keeps hrest⟩
  · rw [if_neg (by simpa using hvalid)] at hrest
    rw [hq' hrest]
    exact Or.inr ⟨Or.inr ⟨rfl, hvalid⟩, hq.keeps hrest⟩

/-- The result of a program that ends in a constant. -/
theorem runs_const {p : Core n W PK α} {a x : β}
    (h : (machine cfg).Runs t (p >>= fun _ => pure a) s x s') : x = a := by
  obtain ⟨_, _, -, hrest⟩ := Machine.Runs.split h
  cases hrest
  rfl

/-- `fm_core_update_row`. -/
theorem updateRow_effect
    (hruns : (machine cfg).Runs t (updateRow cfg idx g old new scratch) s r s') :
    Updated s s' idx g new r.rc := by
  unfold updateRow at hruns
  by_cases hch : changedKeys cfg old new = []
  · simp only [hch, if_true] at hruns
    obtain ⟨_, s₁, hlock, hrest⟩ := runs_beside (only_access rfl) hruns
    apply Updated.of_same hlock
    exact commit_effect (only_bind (only_access rfl) fun _ => only_pure _) runs_const
      (only_bind (only_access rfl) fun _ => only_pure _) runs_const hrest
  · simp only [hch, if_false] at hruns
    obtain ⟨_, s₁, hlocks, hrest⟩ := runs_beside (beside_lockAll ..) hruns
    obtain ⟨dup, s₂, hdup, hrest⟩ := runs_beside (loads_dupChecks ..).beside hrest
    apply Updated.of_same (hlocks.trans hdup)
    cases dup with
    | some k =>
        obtain ⟨_, s₃, hunlock, hrest⟩ := runs_beside (beside_unlockAll ..) hrest
        cases hrest
        exact Or.inr ⟨Or.inl rfl, hunlock⟩
    | none =>
        obtain ⟨_, s₃, hlock, hrest⟩ := runs_beside (only_access rfl) hrest
        apply Updated.of_same hlock
        refine commit_effect ?_ ?_ ?_ ?_ hrest
        · refine only_bind (beside_moveKeys ..) fun _ => only_bind (only_access rfl) fun _ => ?_
          exact only_bind (beside_unlockAll ..) fun _ => only_pure _
        · intro s s' r h
          obtain ⟨_, s₄, -, h⟩ := Machine.Runs.split h
          obtain ⟨_, s₅, -, h⟩ := Machine.Runs.split h
          exact runs_const h
        · exact only_bind (only_access rfl) fun _ => only_bind (beside_unlockAll ..)
            fun _ => only_pure _
        · intro s s' r h
          obtain ⟨_, s₄, -, h⟩ := Machine.Runs.split h
          exact runs_const h

/-- `fm_core_update_row_locked`. -/
theorem updateRowLocked_effect
    (hruns : (machine cfg).Runs t (updateRowLocked cfg idx g old new scratch) s r s') :
    Updated s s' idx g new r.rc := by
  have hverify : (machine cfg).Runs t (verifySlot idx g) s
      (decide (s.state idx = .active ∧ s.gen idx = g)) s := runs_verifySlot idx g
  have hrest := runs_known hverify hruns
  have hwrite : ∀ s₁ : Share n W, (machine cfg).Runs t (writeImage idx new) s₁ ()
      (s₁.rewritten idx new s₁.next s₁.head) := fun _ => runs_writeImage idx new
  by_cases hvalid : s.state idx = .active ∧ s.gen idx = g
  · rw [if_pos (decide_eq_true hvalid)] at hrest
    by_cases hch : changedKeys cfg old new = []
    · simp only [hch, if_true] at hrest
      have hrest := runs_known (hwrite s) hrest
      cases hrest
      exact Or.inl ⟨rfl, hvalid, .refl _⟩
    · simp only [hch, if_false] at hrest
      obtain ⟨_, s₁, hlocks, hrest⟩ := runs_beside (beside_lockAll ..) hrest
      obtain ⟨dup, s₂, hdup, hrest⟩ := runs_beside (loads_dupChecks ..).beside hrest
      have hsame := hlocks.trans hdup
      cases dup with
      | some k =>
          obtain ⟨_, s₃, hunlock, hrest⟩ := runs_beside (beside_unlockAll ..) hrest
          cases hrest
          exact Or.inr ⟨Or.inl rfl, hsame.trans hunlock⟩
      | none =>
          have hrest := runs_known (hwrite s₂) hrest
          obtain ⟨_, s₃, hmove, hrest⟩ := runs_beside (beside_moveKeys ..) hrest
          obtain ⟨_, s₄, hunlock, hrest⟩ := runs_beside (beside_unlockAll ..) hrest
          cases hrest
          exact Or.inl ⟨rfl, hvalid, (hsame.rewritten idx new).trans (hmove.trans hunlock)⟩
  · rw [if_neg (by simpa using hvalid)] at hrest
    cases hrest
    exact Or.inr ⟨Or.inr ⟨rfl, hvalid⟩, .refl s⟩

/-- The table after an update. -/
theorem Updated.table (h : Updated s s' idx g new rc) (hl : Ledger cfg lim s F ∅) :
    Ledger cfg lim s' F ∅ ∧ s'.table = s.table.after (2 ^ 32)
      (if rc = .ok then .replace idx new else .keep) := by
  rcases h with ⟨rfl, hvalid, hsame⟩ | ⟨hrc, hsame⟩
  · refine ⟨hsame.ledger (hl.rewritten ..), ?_⟩
    rw [hsame.table, if_pos rfl]
    exact table_rewritten hvalid.1 ..
  · refine ⟨hsame.ledger hl, ?_⟩
    have hne : rc ≠ .ok := by
      rcases hrc with rfl | ⟨rfl, -⟩ <;> decide
    rw [hsame.table, if_neg hne]
    rfl

/-- An update is an event the table allows. -/
theorem Updated.enabled (h : Updated s s' idx g new rc) :
    Event.Enabled s.table (if rc = .ok then .replace idx new else .keep) := by
  rcases h with ⟨rfl, hvalid, -⟩ | ⟨hrc, -⟩
  · rw [if_pos rfl]
    simp [Event.Enabled, Share.table, hvalid.1]
  · have hne : rc ≠ .ok := by
      rcases hrc with rfl | ⟨rfl, -⟩ <;> decide
    rw [if_neg hne]
    trivial

/-- What a delete does once the slot is DELETING. -/
theorem deleteTail_effect (h : Ledger cfg lim s F ∅) (hactive : s.state idx = .active)
    {s₀ : Share n W} (hs₀ : SlotsKept { s with state := Function.update s.state idx .deleting } s₀)
    (hruns : (machine cfg).Runs t (deleteTail cfg idx scratch) s₀ rc s') :
    rc = .ok ∧ ∃ F', Ledger cfg lim s' F' ∅ ∧ s'.table = s.table.after (2 ^ 32) (.remove idx) := by
  obtain ⟨img, s₁, hcopy, hrest⟩ := runs_beside (loads_copyOut ..).beside hruns
  obtain ⟨_, s₂, hunlink, hrest⟩ := runs_beside (beside_unlinkKeys ..) hrest
  have hsame := (hs₀.trans hcopy).trans hunlink
  -- the share once the slot is DELETED, its generation bumped and the row counted out
  let s₃ : Share n W := { s₂ with
    state := Function.update s₂.state idx .deleted
    gen := Function.update s₂.gen idx ((s₂.gen idx + 1) % 2 ^ 32)
    records := s₂.records + -1 }
  have hflip : (machine cfg).Runs t (do
      access (.lock .mutex)
      freeSlot idx
      access (.unlock .mutex)
      pure .ok) s₃ rc s' := by
    have hrest := runs_known (runs_last rfl) hrest
    have hrest := runs_known (runs_last rfl) hrest
    have hrest := runs_known (runs_last rfl) hrest
    exact hrest
  have hmark : SlotsKept { s with
      state := Function.update s.state idx .deleted
      gen := Function.update s.gen idx ((s.gen idx + 1) % 2 ^ 32)
      records := s.records + -1 } s₃ := by
    constructor
    case state => simp [s₃, hsame.state]
    case gen => simp [s₃, hsame.gen]
    case records => simp [s₃, hsame.records]
    all_goals first | exact hsame.seq | exact hsame.freeNext | exact hsame.data |
      exact hsame.freeHead |
      exact hsame.chunkCnt
  have hled := hmark.ledger (h.remove hactive _ _)
  obtain ⟨_, s₄, hlock, hrest⟩ := runs_beside (only_access rfl) hflip
  have hrest := runs_known (runs_freeSlot idx) hrest
  obtain ⟨_, s₅, hunlock, hrest⟩ := runs_beside (only_access rfl) hrest
  cases hrest
  refine ⟨rfl, idx :: F, hunlock.ledger (hlock.ledger hled).push, ?_⟩
  have hfree : (s₄.withFree (Function.update s₄.freeNext idx s₄.freeHead) idx).table = s₄.table :=
    rfl
  rw [hunlock.table, hfree, hlock.table, hmark.table]
  simp only [Share.table, Table.after]
  congr 1
  funext i
  by_cases hi : i = idx
  · subst hi
    simp
  · simp [hi]

/-- How a completed delete leaves the share. -/
def Deleted (cfg : ShareCfg n W PK) (lim : Nat) (s s' : Share n W) (idx : Int) (g : Nat)
    (rc : Rc) : Prop :=
  (rc = .ok ∧ (s.state idx = .active ∧ s.gen idx = g) ∧
    ∃ F', Ledger cfg lim s' F' ∅ ∧ s'.table = s.table.after (2 ^ 32) (.remove idx)) ∨
  (rc = .deleted ∧ ¬ (s.state idx = .active ∧ s.gen idx = g) ∧ s' = s)

/-- `fm_core_delete_row`. -/
theorem deleteRow_effect (h : Ledger cfg lim s F ∅)
    (hruns : (machine cfg).Runs t (deleteRow cfg idx g scratch) s rc s') :
    Deleted cfg lim s s' idx g rc := by
  cases hruns with
  | act hlock hrest =>
      rename_i s₁ _
      have hfree : s.owner (.row idx) = none := by
        by_contra hheld
        simp [exec, hheld] at hlock
      rw [show (machine cfg).exec = exec cfg from rfl, exec_lock hfree] at hlock
      cases hlock
      have hverify : (machine cfg).Runs t (verifySlot idx g) (s.setOwner (some t) (.row idx))
          (decide (s.state idx = .active ∧ s.gen idx = g)) (s.setOwner (some t) (.row idx)) :=
        runs_verifySlot idx g
      have hrest := runs_known hverify hrest
      by_cases hvalid : s.state idx = .active ∧ s.gen idx = g
      · rw [if_pos (decide_eq_true hvalid)] at hrest
        have hrest := runs_known (runs_last rfl) hrest
        obtain ⟨_, s₂, hunlock, hrest⟩ := runs_beside (only_access rfl) hrest
        have hs₂ : SlotsKept { s with state := Function.update s.state idx .deleting } s₂ := by
          refine SlotsKept.trans ?_ hunlock
          exact ⟨rfl, rfl, rfl, rfl, rfl, rfl, rfl, rfl⟩
        obtain ⟨rfl, hdone⟩ := deleteTail_effect h hvalid.1 hs₂ hrest
        exact Or.inl ⟨rfl, hvalid, hdone⟩
      · rw [if_neg (by simpa using hvalid)] at hrest
        have hrest := runs_known (runs_last rfl) hrest
        rw [setOwner_none_setOwner hfree] at hrest
        cases hrest
        exact Or.inr ⟨rfl, hvalid, rfl⟩

/-- `fm_core_delete_row_locked`. -/
theorem deleteRowLocked_effect (h : Ledger cfg lim s F ∅)
    (hruns : (machine cfg).Runs t (deleteRowLocked cfg idx g scratch) s rc s') :
    Deleted cfg lim s s' idx g rc := by
  have hverify : (machine cfg).Runs t (verifySlot idx g) s
      (decide (s.state idx = .active ∧ s.gen idx = g)) s := runs_verifySlot idx g
  have hrest := runs_known hverify hruns
  by_cases hvalid : s.state idx = .active ∧ s.gen idx = g
  · rw [if_pos (decide_eq_true hvalid)] at hrest
    have hrest := runs_known (runs_last rfl) hrest
    obtain ⟨rfl, hdone⟩ := deleteTail_effect h hvalid.1 (.refl _) hrest
    exact Or.inl ⟨rfl, hvalid, hdone⟩
  · rw [if_neg (by simpa using hvalid)] at hrest
    cases hrest
    exact Or.inr ⟨rfl, hvalid, rfl⟩

/-- The event a delete amounts to. -/
theorem Deleted.event (h : Deleted cfg lim s s' idx g rc) (hl : Ledger cfg lim s F ∅) :
    (∃ F', Ledger cfg lim s' F' ∅) ∧
      Event.Enabled s.table (if rc = .ok then .remove idx else .keep) ∧
      Grows (s.table.after (2 ^ 32) (if rc = .ok then .remove idx else .keep)) s'.table := by
  rcases h with ⟨rfl, hvalid, F', hled, htable⟩ | ⟨rfl, -, rfl⟩
  · rw [if_pos rfl, htable]
    exact ⟨⟨F', hled⟩, by simp [Event.Enabled, Share.table, hvalid.1], .refl _⟩
  · rw [if_neg (by decide)]
    exact ⟨⟨F, hl⟩, trivial, .refl _⟩

/-- Without a row and with every slot on the free list, the slots are in balance. -/
theorem ledger_cleared (hchunks : s.chunkCnt ≤ cfg.chunkCap) (hlim : slotCount s.chunkCnt ≤ lim)
    (heven : ∀ i, s.seq i % 2 = 0) (hactive : ∀ i, s.state i ≠ .active)
    (hlist : s.FreeList s.allSlots) : Ledger cfg lim s s.allSlots ∅ where
  free := hlist
  free_inactive := fun i _ => hactive i
  free_all := fun u hu _ _ => Or.inl (mem_allSlots.mpr ⟨u, hu, rfl⟩)
  out_spec := by simp
  used := by
    rintro i (hi | hi | hi)
    · obtain ⟨u, hu, rfl⟩ := mem_allSlots.mp hi
      exact ⟨u, hu, lt_of_lt_of_le hu hlim, rfl⟩
    · cases hi
    · exact absurd hi (hactive i)
  seq_even := heven
  chunks := hchunks

/-- `fm_core_clear`: no row is left, every generation is bumped, and every slot of the
share is on the free list, the last one in front. -/
theorem clear_effect (h : Ledger cfg lim s F ∅) (hlim : slotCount s.chunkCnt ≤ lim)
    (hruns : (machine cfg).Runs t (clear cfg) s () s') :
    Ledger cfg lim s' ((List.range (slotCount s.chunkCnt)).map i32).reverse ∅ ∧
      s'.chunkCnt = s.chunkCnt ∧ Grows (s.table.after (2 ^ 32) .clear) s'.table := by
  obtain ⟨_, s₁, hlock, hrest⟩ := runs_beside (only_access rfl) hruns
  obtain ⟨_, s₂, hheads, hrest⟩ := runs_beside (beside_clearHeads ..) hrest
  have hsame := hlock.trans hheads
  have hl := hsame.ledger h
  have hcnt : s₂.chunkCnt = s.chunkCnt := hsame.chunkCnt
  have hrest := runs_known (runs_last rfl) hrest
  -- the flips: the row locks were free, or the run would not have got through
  have hfree : ∀ i, s₂.Grown i → s₂.owner (.row i) = none := by
    rintro _ ⟨u, hu, rfl⟩
    exact free_of_clearSlots hrest u (List.mem_range.mpr hu)
  obtain ⟨st, gn, hflip, hactive, hgen⟩ := runs_clearSlots_all cfg (s := s₂) t hl.chunks
    (fun i hi => hl.grown (Or.inr (Or.inr hi))) hfree
  have hrest := runs_known hflip hrest
  have hrest := runs_known (runs_last rfl) hrest
  obtain ⟨fn, fh, hrebuild, hlist⟩ := runs_rebuildFree_all cfg t
    (s := { s₂ with state := st, gen := gn, freeHead := nullSlot }) hl.chunks rfl
  have hrest := runs_known hrebuild hrest
  have hrest := runs_known (runs_last rfl) hrest
  have hbeside : BesideSlots (access (.unlock .mutex) : Core n W PK Unit) := only_access rfl
  have hunlock := hbeside.keeps hrest
  rw [← hcnt] at hlim ⊢
  refine ⟨hunlock.ledger (ledger_cleared hl.chunks hlim hl.seq_even hactive hlist),
    hunlock.chunkCnt, ?_, ?_, ?_⟩
  · intro i hi
    rw [hunlock.table]
    exact (hsame.grown i).mpr hi
  · rw [hunlock.table]
    funext i
    exact if_neg (hactive i)
  · intro i hi
    rw [hunlock.table]
    show gn i = (s.gen i + 1) % 2 ^ 32
    rw [hgen i ((hsame.grown i).mpr hi), hsame.gen]

/-- The event that a completed call amounts to. -/
def CoreOp.event : CoreOp n W PK → CoreOut n W → Versioned.Event Int (Image n W)
  | .insertRow rec _, .write ⟨.ok, some idx, _⟩ => .put idx rec
  | .updateRow idx _ _ new _, .write r => if r.rc = .ok then .replace idx new else .keep
  | .updateRowLocked idx _ _ new _, .write r => if r.rc = .ok then .replace idx new else .keep
  | .deleteRow idx _ _, .code rc => if rc = .ok then .remove idx else .keep
  | .deleteRowLocked idx _ _, .code rc => if rc = .ok then .remove idx else .keep
  | .clear, _ => .clear
  | _, _ => .keep

/-- The shares that any clients can make of `s₀` by calls that return, one after the
other, with the calls and what they returned, the latest first.  Nothing is asked of
the arguments. -/
inductive Calls (cfg : ShareCfg n W PK) (s₀ : Share n W) :
    List (CoreOp n W PK × CoreOut n W) → Share n W → Prop
  | refl : Calls cfg s₀ [] s₀
  | call {h : List (CoreOp n W PK × CoreOut n W)} {s s' : Share n W} {t : Nat} {op : CoreOp n W PK}
      {l l' : Session n W} {x : CoreOut n W} (before : Calls cfg s₀ h s)
      (runs : (machine cfg).Runs t (op.code cfg l) s (x, l') s') : Calls cfg s₀ ((op, x) :: h) s'

/-- Make the calls one after the other, each for at most `fuel` steps. -/
def callAll (cfg : ShareCfg n W PK) (fuel : Nat) :
    List (CoreOp n W PK) → Share n W → Option (List (CoreOp n W PK × CoreOut n W) × Share n W)
  | [], s => some ([], s)
  | op :: ops, s => do
      let (h, s) ← callAll cfg fuel ops s
      let ((x, _), s) ← (machine cfg).eval 0 fuel (op.code cfg Session.empty) s
      pure ((op, x) :: h, s)

/-- Calls that are evaluated are calls. -/
theorem Calls.of_callAll {fuel : Nat} {ops : List (CoreOp n W PK)} {s₀ : Share n W}
    {h : List (CoreOp n W PK × CoreOut n W)} (heval : callAll cfg fuel ops s₀ = some (h, s)) :
    Calls cfg s₀ h s := by
  induction ops generalizing h s with
  | nil =>
      cases heval
      exact .refl
  | cons op ops ih =>
      obtain ⟨⟨h', s'⟩, hbefore, hrest⟩ := Option.bind_eq_some_iff.mp heval
      obtain ⟨⟨⟨x, l⟩, s''⟩, hop, hdone⟩ := Option.bind_eq_some_iff.mp hrest
      cases hdone
      exact .call (ih hbefore) (.of_eval hop)

/-- The events of a history. -/
def events (h : List (CoreOp n W PK × CoreOut n W)) : List (Versioned.Event Int (Image n W)) :=
  h.map fun c => c.1.event c.2

/-- A call that touches no slot. -/
theorem beside_effect {l' : Session n W} {x : CoreOut n W}
    {p : Core n W PK (CoreOut n W × Session n W)} (h : Ledger cfg lim s F ∅) (hp : BesideSlots p)
    (hruns : (machine cfg).Runs t p s (x, l') s') :
    (∃ F', Ledger cfg lim s' F' ∅) ∧ Event.Enabled s.table .keep ∧
      Grows (s.table.after (2 ^ 32) .keep) s'.table := by
  have hsame := hp.keeps hruns
  refine ⟨⟨F, hsame.ledger h⟩, trivial, ?_⟩
  rw [hsame.table]
  exact .refl _

/-- **Each call refines one event.**  The slots in circulation stay below `lim`, if no
clear puts more of them on the free list. -/
theorem call_effect (h : Ledger cfg lim s F ∅) (hlim : cfg.maxRecords ≤ lim) {op : CoreOp n W PK}
    (hclear : op = .clear → slotCount s.chunkCnt ≤ lim) {l l' : Session n W} {x : CoreOut n W}
    (hruns : (machine cfg).Runs t (op.code cfg l) s (x, l') s') :
    (∃ F', Ledger cfg lim s' F' ∅) ∧ (op.event x).Enabled s.table ∧
      Grows (s.table.after (2 ^ 32) (op.event x)) s'.table := by
  cases op with
  | insertRow rec scratch =>
      obtain ⟨r, s₁, hins, hret⟩ := Machine.Runs.split hruns
      cases hret
      obtain ⟨F', hled, ⟨idx, rfl, hempty, hgrows⟩ | ⟨hrc, hidx, hgrows⟩ | ⟨rfl, -, -, hgrows⟩⟩ :=
        insertRow_effect h hlim hins
      · exact ⟨⟨F', hled⟩, hempty, hgrows⟩
      · obtain ⟨rc, oi, ek⟩ := r
        cases hrc
        exact ⟨⟨F', hled⟩, trivial, hgrows⟩
      · refine ⟨⟨F', hled⟩, ?_⟩
        have hkeep : CoreOp.event (.insertRow rec scratch : CoreOp n W PK)
            (.write ⟨if cfg.chunkCap ≤ s.chunkCnt then .full else .noMem, none, none⟩) = .keep := by
          split <;> rfl
        rw [hkeep]
        exact ⟨trivial, hgrows⟩
  | updateRow idx g old new scratch =>
      obtain ⟨r, s₁, hupd, hret⟩ := Machine.Runs.split hruns
      cases hret
      have hu := updateRow_effect hupd
      obtain ⟨hled, htable⟩ := hu.table h
      refine ⟨⟨F, hled⟩, hu.enabled, ?_⟩
      rw [htable]
      exact .refl _
  | updateRowLocked idx g old new scratch =>
      obtain ⟨r, s₁, hupd, hret⟩ := Machine.Runs.split hruns
      cases hret
      have hu := updateRowLocked_effect hupd
      obtain ⟨hled, htable⟩ := hu.table h
      refine ⟨⟨F, hled⟩, hu.enabled, ?_⟩
      rw [htable]
      exact .refl _
  | deleteRow idx g scratch =>
      obtain ⟨rc, s₁, hdel, hret⟩ := Machine.Runs.split hruns
      cases hret
      exact (deleteRow_effect h hdel).event h
  | deleteRowLocked idx g scratch =>
      obtain ⟨rc, s₁, hdel, hret⟩ := Machine.Runs.split hruns
      cases hret
      exact (deleteRowLocked_effect h hdel).event h
  | clear =>
      obtain ⟨u, s₁, hclr, hret⟩ := Machine.Runs.split hruns
      cases hret
      obtain ⟨hled, -, hgrows⟩ := clear_effect h (hclear rfl) hclr
      exact ⟨⟨_, hled⟩, trivial, hgrows⟩
  | find key pk buf =>
      exact beside_effect h (only_bind (beside_find ..) fun _ => only_pure _) hruns
  | findNext key pk cur buf =>
      exact beside_effect h (only_bind (beside_findNext ..) fun _ => only_pure _) hruns
  | readRow idx cg g buf =>
      exact beside_effect h (only_bind (only_loop trivial) fun _ => only_pure _) hruns
  | scanNext pos buf =>
      exact beside_effect h (only_bind (loads_scanNext ..).beside fun _ => only_pure _) hruns
  | lockRow idx =>
      exact beside_effect h (only_bind (only_access rfl) fun _ => only_pure _) hruns
  | unlockRow idx =>
      exact beside_effect h (only_bind (only_access rfl) fun _ => only_pure _) hruns
  | reread idx buf =>
      refine beside_effect h (only_bind ?_ fun _ => only_pure _) hruns
      exact only_bind (only_access rfl) fun _ => only_bind (only_loop trivial) fun _ => only_pure _

/-- **Every sequence of calls refines a run of the table.** -/
theorem Calls.run {s₀ : Share n W} {h : List (CoreOp n W PK × CoreOut n W)}
    (hcalls : Calls cfg s₀ h s) (hled : Ledger cfg (2 ^ 32) s₀ F ∅) :
    (∃ F', Ledger cfg (2 ^ 32) s F' ∅) ∧ Run (2 ^ 32) s₀.table (events h) s.table := by
  induction hcalls with
  | refl => exact ⟨⟨F, hled⟩, .refl⟩
  | @call h s s' t op l l' x before runs ih =>
      obtain ⟨⟨F', hled'⟩, hrun⟩ := ih
      have hcnt : slotCount s.chunkCnt ≤ 2 ^ 32 := Nat.le_of_lt (Nat.mod_lt _ (by decide))
      obtain ⟨hled'', henabled, hgrows⟩ := call_effect hled' (Nat.le_of_lt cfg.maxRecords_lt)
        (fun _ => hcnt) runs
      exact ⟨hled'', .step hrun henabled hgrows⟩

end FastMem
