import FastMem.RowLimit

/-!
# The capacity of a table

`fm_prepare_create_info` estimates how many rows a table may hold, as a 64-bit number.
`fm_core_init_share` takes a 32-bit one, rounds it up to chunks, and the slots end up
with signed 32-bit numbers.  Up to 2^31 rows nothing is lost on the way, and an insert
reports a full table only when it is full.  Above, some table of that size is refused
a row it has room for, or gets one in a slot with a negative number.

In the source a slot numbered 2^31 or above lies outside of the chunk array.  Here
such slots have cells of their own, so that a run can get as far as handing one out.
-/

namespace FastMem

open Conc Versioned

variable {n : Nat} {W PK : Type} {cfg : ShareCfg n W PK} {t : Nat} {s s' : Share n W} {F : List Int}

/-- What `fm_prepare_create_info` computes the row limit from: the session's
`max_heap_table_size`, the record length, the number of keys and the table's
`MAX_ROWS`, 0 if it has none. -/
structure CreateInfo where
  maxHeapTableSize : Nat
  reclength : Nat
  keys : Nat
  maxRows : Nat

/-- `fm_align8`. -/
def align8 (x : Nat) : Nat := (x + 7) % 2 ^ 32 / 8 * 8

/-- `FM_SLOT_DATA_OFFSET`. -/
def slotDataOffset : Nat := 16

/-- The row limit, `max_records` of `fm_prepare_create_info`. -/
def CreateInfo.maxRecords (info : CreateInfo) : Nat :=
  let maxTableSize := max info.maxHeapTableSize 8
  let memPerRow := align8 (slotDataOffset + info.reclength) + info.keys * 4 + 16
  let fitting := maxTableSize / memPerRow
  let limit := if info.maxRows ≠ 0 ∧ info.maxRows < fitting then info.maxRows else fitting
  if limit = 0 then 1 else limit

/-- The row limit `fm_core_init_share` stores: its parameter has 32 bits, and 0 stands
for 1. -/
def initMaxRecords (maxRecords : Nat) : Nat :=
  if maxRecords % 2 ^ 32 = 0 then 1 else maxRecords % 2 ^ 32

/-- A table has room for one row. -/
theorem initMaxRecords_pos (m : Nat) : 0 < initMaxRecords m := by
  unfold initMaxRecords
  split <;> omega

/-- Its limit fits into 32 bits. -/
theorem initMaxRecords_lt (m : Nat) : initMaxRecords m < 2 ^ 32 := by
  unfold initMaxRecords
  split <;> omega

/-- Up to 2^31 it is the limit asked for. -/
theorem initMaxRecords_of_le {m : Nat} (hpos : 0 < m) (hle : m ≤ 2 ^ 31) :
    initMaxRecords m = m := by
  unfold initMaxRecords
  split <;> omega

/-- An insert that has returned `r` has not lost a slot: it reports a full table only
if `m` rows are ACTIVE, it never runs out of memory, and a slot it returns has a number
that is not negative and was not ACTIVE. -/
def LostNothing (m : Nat) (s : Share n W) (r : WriteResult) : Prop :=
  (r.rc = .full → m ≤ {i | s.state i = .active}.ncard) ∧ r.rc ≠ .noMem ∧
    ∀ idx, r.outIdx = some idx → 0 ≤ idx ∧ s.state idx ≠ .active

/-- No table created with the row limit `m` ever loses a slot: not in any sequence of
inserts, updates and deletes, when every allocation succeeds. -/
def LosesNoSlot (m : Nat) : Prop :=
  ∀ (n : Nat) (W PK : Type) (cfg : ShareCfg n W PK), cfg.maxRecords = initMaxRecords m →
    (∀ a, cfg.alloc a = true) →
    ∀ data h s, Calls cfg (Share.fresh data) h s → (∀ c ∈ h, c.1 ≠ .clear) →
      ∀ t rec scratch r s', (machine cfg).Runs t (insertRow cfg rec scratch) s r s' →
        LostNothing m s r

/-- Without a clear no slot of the table is lost. -/
theorem Calls.ledger_of_no_clear {s₀ : Share n W} {h : List (CoreOp n W PK × CoreOut n W)}
    (hcalls : Calls cfg s₀ h s) (hclear : ∀ c ∈ h, c.1 ≠ .clear)
    (hled : Ledger cfg cfg.maxRecords s₀ F ∅) : ∃ F', Ledger cfg cfg.maxRecords s F' ∅ := by
  induction hcalls with
  | refl => exact ⟨F, hled⟩
  | @call h s s' t op l l' x before runs ih =>
      obtain ⟨F', hled'⟩ := ih fun c hc => hclear c (List.mem_cons_of_mem _ hc)
      have hop : op ≠ .clear := hclear (op, x) List.mem_cons_self
      exact (call_effect hled' le_rfl (fun heq => absurd heq hop) runs).1

/-- One insert, on a share whose slots are all below the limit. -/
theorem lostNothing_of_ledger (h : Ledger cfg cfg.maxRecords s F ∅) (hmax : cfg.maxRecords ≤ 2 ^ 31)
    (halloc : ∀ a, cfg.alloc a = true) {rec scratch : Image n W} {r : WriteResult}
    (hruns : (machine cfg).Runs t (insertRow cfg rec scratch) s r s') :
    LostNothing cfg.maxRecords s r := by
  obtain ⟨F', hled, ⟨idx, rfl, hempty, hgrows⟩ | ⟨hrc, hidx, -⟩ | ⟨rfl, rfl, hroom, -⟩⟩ :=
    insertRow_effect h le_rfl hruns
  · refine ⟨by simp, by simp, fun i hi => ?_⟩
    cases hi
    have hactive : s'.state idx = .active := by
      have hrow : s'.table.row idx = some rec := by
        rw [hgrows.row]
        simp [Table.after]
      by_contra hst
      simp [Share.table, hst] at hrow
    obtain ⟨u, -, hu, rfl⟩ := hled.used idx (Or.inr (Or.inr hactive))
    refine ⟨?_, fun hst => ?_⟩
    · rw [i32_of_lt (by omega)]
      omega
    · simp [Share.table, hst] at hempty
  · obtain ⟨rc, oi, ek⟩ := r
    cases hrc
    cases hidx
    exact ⟨by simp, by simp, by simp⟩
  · obtain ⟨hcap, hfull⟩ := h.full hmax halloc hroom
    rw [if_pos hcap]
    exact ⟨fun _ => hfull, by decide, by simp⟩

/-- A table of at most 2^31 rows loses no slot. -/
theorem losesNoSlot_of_le {m : Nat} (hpos : 0 < m) (hle : m ≤ 2 ^ 31) : LosesNoSlot m := by
  intro n W PK cfg hcfg halloc data h s hcalls hclear t rec scratch r s' hruns
  rw [initMaxRecords_of_le hpos hle] at hcfg
  obtain ⟨F, hled⟩ := hcalls.ledger_of_no_clear hclear (ledger_fresh cfg _ data)
  rw [← hcfg] at hle ⊢
  exact lostNothing_of_ledger hled hle halloc hruns

/-- A table without keys, created with the row limit `m`. -/
def plainTable (m : Nat) : ShareCfg 1 Nat Nat where
  keys := 0
  keydef := (wordTable 0).keydef
  maxRecords := initMaxRecords m
  maxRecords_pos := initMaxRecords_pos m
  maxRecords_lt := initMaxRecords_lt m
  alloc := fun _ => true
  spurious := fun _ => false

/-- A table without keys has no duplicates. -/
theorem not_duplicate_plainTable (m : Nat) (s : Share 1 Nat) (C : Index) (rec : Image 1 Nat) :
    ¬ Duplicate (plainTable m) s C rec := by
  rintro ⟨k, hk, -⟩
  exact absurd hk (Nat.not_lt_zero k)

/-- `j` inserts into a fresh table leave `j` rows, in slots with numbers that are not
negative. -/
structure Filled (m j : Nat) (s : Share 1 Nat) : Prop where
  calls : ∃ h, Calls (plainTable m) (Share.fresh fun _ _ => 0) h s ∧ ∀ c ∈ h, c.1 ≠ .clear
  consistent : ∃ C F, Consistent (plainTable m) s C F ∅
  owner : ∀ l, s.owner l = none
  nonneg : ∀ i, s.state i = .active → 0 ≤ i
  rows : {i | s.state i = .active}.ncard = j

/-- If no slot is lost, one more row goes in. -/
theorem Filled.succ {m j : Nat} {s : Share 1 Nat} (hlose : LosesNoSlot m) (hj : j < m)
    (h : Filled m j s) : ∃ s', Filled m (j + 1) s' := by
  obtain ⟨C, F, hcons⟩ := h.consistent
  obtain ⟨hist, hcalls, hclear⟩ := h.calls
  obtain ⟨r, s', C', F', hruns, hcons', howner, hends⟩ := runs_insertRow hcons 0 (h.owner _)
    (fun _ _ => h.owner _) (fun _ => 0) (fun _ => 0)
  obtain ⟨hfull, hmem, hidx⟩ := hlose 1 Nat Nat (plainTable m) rfl (fun _ => rfl) _ hist s hcalls
    hclear 0 _ _ r s' hruns
  obtain ⟨-, -, ⟨idx, rfl, hempty, hgrows⟩ | ⟨hrc, -⟩ | ⟨rfl, -⟩⟩ :=
    insertRow_effect hcons.ledger (Nat.le_of_lt (plainTable m).maxRecords_lt) hruns
  · obtain ⟨hpos, hnot⟩ := hidx idx rfl
    have hactive : ∀ i, s'.state i = .active ↔ i = idx ∨ s.state i = .active := by
      intro i
      have hrow := congrFun hgrows.row i
      by_cases hi : i = idx
      · subst hi
        simp only [Share.table, Table.after, Function.update_self] at hrow
        have hst : s'.state i = .active := by
          by_contra hst
          rw [if_neg hst] at hrow
          cases hrow
        simp [hst]
      · simp only [Share.table, Table.after, Function.update_of_ne hi] at hrow
        constructor
        · intro hst
          rw [if_pos hst] at hrow
          right
          by_contra hst'
          rw [if_neg hst'] at hrow
          cases hrow
        · intro hst
          rw [if_pos (hst.resolve_left hi)] at hrow
          by_contra hst'
          rw [if_neg hst'] at hrow
          cases hrow
    have hset : {i | s'.state i = .active} = insert idx {i | s.state i = .active} := Set.ext hactive
    have hcall : (machine (plainTable m)).Runs 0
        (CoreOp.code (plainTable m) (.insertRow (fun _ => 0) fun _ => 0) Session.empty) s
        (.write ⟨.ok, some idx, none⟩, Session.empty) s' :=
      runs_then hruns runs_pure
    refine ⟨s', ⟨_, .call hcalls hcall, ?_⟩, ⟨C', F', hcons'⟩, ?_, ?_, ?_⟩
    · intro c hc
      rcases List.mem_cons.mp hc with rfl | hc
      · simp
      · exact hclear c hc
    · rw [howner]
      exact h.owner
    · intro i hi
      rcases (hactive i).mp hi with rfl | hi
      · exact hpos
      · exact h.nonneg i hi
    · have hnot' : idx ∉ {i | s.state i = .active} := hnot
      rw [hset, Set.ncard_insert_of_notMem hnot' hcons.active_finite, h.rows]
  · rw [hrc] at hends
    exact absurd hends (not_duplicate_plainTable m s C _)
  · by_cases hcap : (plainTable m).chunkCap ≤ s.chunkCnt
    · have := hfull (if_pos hcap)
      rw [h.rows] at this
      omega
    · exact absurd (if_neg hcap) hmem

/-- A table that loses no slot can be filled to its limit. -/
theorem exists_filled {m : Nat} (hlose : LosesNoSlot m) {j : Nat} (hj : j ≤ m) :
    ∃ s, Filled m j s := by
  induction j with
  | zero =>
      refine ⟨Share.fresh fun _ _ => 0, ⟨[], .refl, by simp⟩,
        ⟨_, _, consistent_fresh _ _⟩, ?_, ?_, ?_⟩
      · intro l
        cases l <;> rfl
      · intro i hi
        cases hi
      · simp [Share.fresh]
  | succ j ih =>
      obtain ⟨s, hs⟩ := ih (by omega)
      exact hs.succ hlose (by omega)

/-- Fewer than 2^31 + 1 rows fit into slots with numbers that are not negative. -/
theorem Filled.le {m j : Nat} {s : Share 1 Nat} (h : Filled m j s) : j ≤ 2 ^ 31 := by
  obtain ⟨C, F, hcons⟩ := h.consistent
  rw [← h.rows]
  refine ncard_le_of_numbered (f := fun u => (u : Int)) fun i hi => ?_
  have hpos := h.nonneg i hi
  have hlt : i < 2 ^ 31 := by
    obtain ⟨u, hu, rfl⟩ := hcons.active_grown i hi
    unfold i32 at hpos ⊢
    split <;> omega
  refine Finset.mem_coe.mpr (Finset.mem_image.mpr ⟨i.toNat, Finset.mem_range.mpr ?_, ?_⟩)
  · omega
  · exact Int.toNat_of_nonneg hpos

/-- A table that loses no slot has at most 2^31 rows. -/
theorem le_of_losesNoSlot {m : Nat} (hlose : LosesNoSlot m) : m ≤ 2 ^ 31 := by
  by_contra hgt
  obtain ⟨s, hs⟩ := exists_filled hlose (show 2 ^ 31 + 1 ≤ m by omega)
  have := hs.le
  omega

/-- The limit asked for is positive. -/
theorem CreateInfo.maxRecords_pos (info : CreateInfo) : 0 < info.maxRecords := by
  unfold CreateInfo.maxRecords
  by_cases hzero : (if info.maxRows ≠ 0 ∧ info.maxRows < max info.maxHeapTableSize 8 /
      (align8 (slotDataOffset + info.reclength) + info.keys * 4 + 16) then info.maxRows
      else max info.maxHeapTableSize 8 /
        (align8 (slotDataOffset + info.reclength) + info.keys * 4 + 16)) = 0
  · simp only [hzero, if_true]
    exact Nat.one_pos
  · simp only [hzero, if_false]
    exact Nat.pos_of_ne_zero hzero

/-- **When no slot is lost.**  Tables created with a given limit lose no slot in any
sequence of inserts, updates and deletes exactly if the limit is at most 2^31. -/
theorem no_slot_lost_up_to_two_pow_31 (info : CreateInfo) :
    LosesNoSlot info.maxRecords ↔ info.maxRecords ≤ 2 ^ 31 :=
  ⟨le_of_losesNoSlot, losesNoSlot_of_le info.maxRecords_pos⟩

/-- A table that may hold 2^32 + 1 rows of 8 bytes is reported full after one row. -/
theorem full_after_one_of_many :
    ∃ info : CreateInfo, info.maxRecords = 2 ^ 32 + 1 ∧ ∃ h s s' r,
      Calls (plainTable info.maxRecords) (Share.fresh fun _ _ => 0) h s ∧
      (machine (plainTable info.maxRecords)).Runs 0
        (insertRow (plainTable info.maxRecords) (fun _ => 8) fun _ => 0) s r s' ∧
      r.rc = .full ∧ {i | s.state i = .active}.ncard ≤ 1 ∧ ¬ LosesNoSlot info.maxRecords := by
  have hinfo : CreateInfo.maxRecords ⟨40 * (2 ^ 32 + 1), 8, 0, 0⟩ = 2 ^ 32 + 1 := by decide
  refine ⟨⟨40 * (2 ^ 32 + 1), 8, 0, 0⟩, hinfo, ?_⟩
  rw [hinfo]
  have heval : (callAll (plainTable (2 ^ 32 + 1)) 200 [.insertRow (fun _ => 7) fun _ => 0]
      (Share.fresh fun _ _ => 0)).any
      (fun x => x.1.all (fun c => decide (c.1 = .insertRow (fun _ => 7) fun _ => 0)) &&
        ((machine (plainTable (2 ^ 32 + 1))).eval 0 200
          (insertRow (plainTable (2 ^ 32 + 1)) (fun _ => 8) fun _ => 0) x.2).any
            fun y => y.1.rc = .full) = true := by
    decide +kernel
  obtain ⟨⟨h, s⟩, hcalls, hcond⟩ := (Option.any_eq_true _ _).mp heval
  simp only [Bool.and_eq_true, List.all_eq_true] at hcond
  obtain ⟨hinserts, hlast⟩ := hcond
  obtain ⟨⟨r, s'⟩, hruns, hfull⟩ := (Option.any_eq_true _ _).mp hlast
  have hrc : r.rc = .full := by simpa using hfull
  have hcalls := Calls.of_callAll hcalls
  have hclear : ∀ c ∈ h, c.1 ≠ .clear := by
    intro c hc heq
    have hinsert := of_decide_eq_true (hinserts c hc)
    rw [heq] at hinsert
    cases hinsert
  obtain ⟨F, hled⟩ := hcalls.ledger_of_no_clear hclear (ledger_fresh _ _ _)
  have hrows : {i | s.state i = .active}.ncard ≤ 1 := ncard_le_of_numbered hled.active_subset
  refine ⟨h, s, s', r, hcalls, .of_eval hruns, hrc, hrows, fun hlose => ?_⟩
  have hmany :=
    (hlose 1 Nat Nat (plainTable (2 ^ 32 + 1)) rfl (fun _ => rfl) _ h s hcalls hclear 0 _ _ r s'
    (.of_eval hruns)).1 hrc
  omega

end FastMem
