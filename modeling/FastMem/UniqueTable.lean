import FastMem.Keyed
import FastMem.RowLimit

/-!
# A table with unique keys

With nobody else around, the core is a table of rows under unique keys: an insert adds
one row, an update replaces one, a delete removes one, a clear removes all, and the
first two refuse exactly the rows that clash with another one.

A share stands for the map from its ACTIVE slots to their images, `Share.table`.  The
duplicate check of an update looks at the changed keys only, and at one chain for each.
That it misses nothing rests on the index, on equal keys having equal hashes, and on
the rows having been distinct before; so distinctness is carried along every sequence
of calls.
-/

namespace FastMem

open Conc Versioned Keyed

variable {n : Nat} {W PK : Type} {cfg : ShareCfg n W PK} {t : Nat} {s s' : Share n W} {C : Index}
  {F : List Int} {rec old new : Image n W} {idx : Int} {g : Nat} {rc : Rc}

/-- Rows that compare equal on key `k`. -/
def ShareCfg.same (cfg : ShareCfg n W PK) (k : Fin cfg.keys) (a b : Image n W) : Prop :=
  (cfg.keydef k).ops.cmpRecRec a b = 0

/-- Rows that key `k` lets through unchecked: all rows if it is not unique, and those
with a NULL part. -/
def ShareCfg.exempt (cfg : ShareCfg n W PK) (k : Fin cfg.keys) (a : Image n W) : Prop :=
  ¬ ((cfg.keydef k).unique = true ∧ (cfg.keydef k).ops.hasNullPart a = false)

/-- Comparing equal on a key is an equivalence, and rows that compare equal have the
same hash and are alike in having a NULL part. -/
structure KeysAgree (cfg : ShareCfg n W PK) : Prop where
  equiv : ∀ k : Fin cfg.keys, Equivalence (cfg.same k)
  hash : HashRespects cfg
  null : ∀ (k : Fin cfg.keys) (a b : Image n W), cfg.same k a b →
    (cfg.keydef k).ops.hasNullPart a = (cfg.keydef k).ops.hasNullPart b

/-- Agreeing on a key is symmetric. -/
theorem KeysAgree.symm (h : KeysAgree cfg) (k : Fin cfg.keys) (a b : Image n W)
    (hab : cfg.same k a b) : cfg.same k b a :=
  (h.equiv k).symm hab

/-- It is transitive. -/
theorem KeysAgree.trans (h : KeysAgree cfg) (k : Fin cfg.keys) (a b c : Image n W)
    (hab : cfg.same k a b) (hbc : cfg.same k b c) : cfg.same k a c :=
  (h.equiv k).trans hab hbc

/-- Images that agree on a key are both exempt or both not. -/
theorem KeysAgree.exempt (h : KeysAgree cfg) (k : Fin cfg.keys) (a b : Image n W)
    (hab : cfg.same k a b) (ha : cfg.exempt k a) : cfg.exempt k b := by
  unfold ShareCfg.exempt at ha ⊢
  rwa [← h.null k a b hab]

/-- `rec` equals some ACTIVE row other than `but` on a unique key that it has no NULL
part in. -/
def Taken (cfg : ShareCfg n W PK) (s : Share n W) (rec : Image n W) (but : Option Int) : Prop :=
  Clashes cfg.same cfg.exempt s.table.row rec but

/-- No two ACTIVE rows are equal on a unique key without NULL parts. -/
def RowsDistinct (cfg : ShareCfg n W PK) (s : Share n W) : Prop :=
  Distinct cfg.same cfg.exempt s.table.row

/-- The rows of the table are the ACTIVE slots. -/
theorem row_eq_some {i : Int} {a : Image n W} :
    s.table.row i = some a ↔ s.state i = .active ∧ s.data i = a := by
  by_cases hi : s.state i = .active <;> simp [Share.table, hi]

/-- An ACTIVE row that equals `rec` is in the chain of `rec`. -/
theorem Consistent.duplicateIn_iff (h : Consistent cfg s C F ∅) (hhash : HashRespects cfg)
    (k : Fin cfg.keys) : DuplicateIn cfg s k rec (C k (cfg.keyBucket k rec)) ↔
      ¬ cfg.exempt k rec ∧ ∃ i a, s.table.row i = some a ∧ cfg.same k a rec := by
  unfold DuplicateIn ShareCfg.exempt
  rw [not_not, and_assoc]
  constructor
  · rintro ⟨hu, hn, i, -, hactive, hcmp⟩
    exact ⟨hu, hn, i, s.data i, row_eq_some.mpr ⟨hactive, rfl⟩, hcmp⟩
  · rintro ⟨hu, hn, i, a, hrow, hcmp⟩
    obtain ⟨hactive, rfl⟩ := row_eq_some.mp hrow
    refine ⟨hu, hn, i, (h.index_mem k k.isLt _ i).mpr ⟨hactive, ?_⟩, hactive, hcmp⟩
    unfold ShareCfg.keyBucket
    rw [hhash k k.isLt _ _ hcmp]

/-- An insert finds a duplicate exactly if the row is taken. -/
theorem Consistent.duplicate_iff (h : Consistent cfg s C F ∅) (hhash : HashRespects cfg) :
    Duplicate cfg s C rec ↔ Taken cfg s rec none := by
  constructor
  · rintro ⟨k, hk, hdup⟩
    obtain ⟨hex, i, a, hrow, hcmp⟩ := (h.duplicateIn_iff hhash ⟨k, hk⟩).mp hdup
    exact ⟨⟨k, hk⟩, hex, i, a, by simp, hrow, hcmp⟩
  · rintro ⟨k, hex, i, a, -, hrow, hcmp⟩
    exact ⟨k, k.isLt, (h.duplicateIn_iff hhash k).mpr ⟨hex, i, a, hrow, hcmp⟩⟩

/-- An update finds a duplicate under a changed key exactly if the new row is taken by
another one. -/
theorem Consistent.changedDuplicate_iff (h : Consistent cfg s C F ∅) (hagree : KeysAgree cfg)
    (hkeys : cfg.keys ≤ 64) (hdistinct : RowsDistinct cfg s) (hrow : s.table.row idx = some old) :
    ChangedDuplicate cfg s C old new ↔ Taken cfg s new (some idx) := by
  constructor
  · rintro ⟨k, hk, hdup⟩
    obtain ⟨hlt, hne⟩ := (mem_changedKeys hkeys).mp hk
    obtain ⟨hex, i, a, hrow', hcmp⟩ := (h.duplicateIn_iff hagree.hash ⟨k, hlt⟩).mp hdup
    refine ⟨⟨k, hlt⟩, hex, i, a, fun heq => ?_, hrow', hcmp⟩
    -- the row itself differs from its new image on a changed key
    cases heq
    rw [hrow] at hrow'
    cases hrow'
    exact hne hcmp
  · intro htaken
    obtain ⟨k, hne, hex, j, c, -, hrow', hcmp⟩ :=
      hdistinct.clashes_changed hagree.symm hagree.trans hagree.exempt hrow htaken
    exact ⟨k, (mem_changedKeys hkeys).mpr ⟨k.isLt, hne⟩,
      (h.duplicateIn_iff hagree.hash k).mpr ⟨hex, j, c, hrow', hcmp⟩⟩

/-- What an insert does to the rows. -/
theorem insert_spec (h : Quiet cfg t s) (hagree : KeysAgree cfg) (rec scratch : Image n W) :
    ∃ r s', (machine cfg).Runs t (insertRow cfg rec scratch) s r s' ∧
      ((r.rc = .dupKey ∧ Taken cfg s rec none ∧ s'.table.row = s.table.row) ∨
        (∃ idx, r = ⟨.ok, some idx, none⟩ ∧ ¬ Taken cfg s rec none ∧ s.table.row idx = none ∧
          s'.table.row = Function.update s.table.row idx (some rec)) ∨
        (Ledger cfg (2 ^ 32) s [] ∅ ∧ NoRoom cfg s ∧ s'.table.row = s.table.row)) := by
  obtain ⟨C, F, hcons⟩ := h.1
  obtain ⟨r, s', C', F', hruns, -, -, hends⟩ := runs_insertRow hcons t h.mutex h.bucket rec scratch
  refine ⟨r, s', hruns, ?_⟩
  obtain ⟨-, -, ⟨idx, rfl, hempty, hgrows⟩ | ⟨hrc, -, hgrows⟩ | ⟨rfl, rfl, hroom, hgrows⟩⟩ :=
    insertRow_effect hcons.ledger (Nat.le_of_lt cfg.maxRecords_lt) hruns
  · have hnot : ¬ Duplicate cfg s C rec := hends
    rw [hcons.duplicate_iff hagree.hash] at hnot
    exact Or.inr (Or.inl ⟨idx, rfl, hnot, hempty, hgrows.row⟩)
  · rw [hrc] at hends
    exact Or.inl ⟨hrc, (hcons.duplicate_iff hagree.hash).mp hends, hgrows.row⟩
  · exact Or.inr (Or.inr ⟨hcons.ledger, hroom, hgrows.row⟩)

/-- What an update does to the rows, from what its two descriptions say about it. -/
theorem update_spec (h : Consistent cfg s C F ∅) (hagree : KeysAgree cfg) (hkeys : cfg.keys ≤ 64)
    (hdistinct : RowsDistinct cfg s)
    (hold : s.state idx = .active ∧ s.gen idx = g → s.data idx = old)
    (hends : UpdateEnds cfg s C idx g old new rc) (hupd : Updated s s' idx g new rc) :
    (rc = .dupKey ∧ (s.state idx = .active ∧ s.gen idx = g → Taken cfg s new (some idx)) ∧
        s'.table.row = s.table.row) ∨
      (rc = .deleted ∧ ¬ (s.state idx = .active ∧ s.gen idx = g) ∧ s'.table.row = s.table.row) ∨
      (rc = .ok ∧ (s.state idx = .active ∧ s.gen idx = g) ∧ ¬ Taken cfg s new (some idx) ∧
        s'.table.row = Function.update s.table.row idx (some new)) := by
  have htaken : s.state idx = .active ∧ s.gen idx = g →
      (ChangedDuplicate cfg s C old new ↔ Taken cfg s new (some idx)) := by
    intro hvalid
    exact h.changedDuplicate_iff hagree hkeys hdistinct (row_eq_some.mpr ⟨hvalid.1, hold hvalid⟩)
  have htable := congrArg Table.row (hupd.table h.ledger).2
  rcases hupd with ⟨rfl, hvalid, -⟩ | ⟨rfl | ⟨rfl, hinvalid⟩, -⟩
  · have hnot : ¬ ChangedDuplicate cfg s C old new := hends.2
    rw [htaken hvalid] at hnot
    exact Or.inr (Or.inr ⟨rfl, hvalid, hnot, htable⟩)
  · exact Or.inl ⟨rfl, fun hvalid => (htaken hvalid).mp hends, htable⟩
  · exact Or.inr (Or.inl ⟨rfl, hinvalid, htable⟩)

/-- What a delete does to the rows. -/
theorem delete_spec {lim : Nat} (h : Deleted cfg lim s s' idx g rc) :
    (rc = .ok ∧ (s.state idx = .active ∧ s.gen idx = g) ∧
        s'.table.row = Function.update s.table.row idx none) ∨
      (rc = .deleted ∧ ¬ (s.state idx = .active ∧ s.gen idx = g) ∧ s'.table.row = s.table.row) := by
  rcases h with ⟨rfl, hvalid, F', -, htable⟩ | ⟨rfl, hinvalid, rfl⟩
  · exact Or.inl ⟨rfl, hvalid, congrArg Table.row htable⟩
  · exact Or.inr ⟨rfl, hinvalid, rfl⟩

/-- A clear empties the table. -/
theorem clear_spec (h : Quiet cfg t s) (hruns : (machine cfg).Runs t (clear cfg) s () s') :
    s'.table.row = fun _ => none := by
  obtain ⟨C, F, hcons⟩ := h.1
  have hcnt : slotCount s.chunkCnt ≤ 2 ^ 32 := Nat.le_of_lt (Nat.mod_lt _ (by decide))
  obtain ⟨-, -, hgrows⟩ := clear_effect hcons.ledger hcnt hruns
  exact hgrows.row

/-- The rows are distinct if they are the same rows. -/
theorem RowsDistinct.of_row (h : RowsDistinct cfg s) (hrow : s'.table.row = s.table.row) :
    RowsDistinct cfg s' := by
  unfold RowsDistinct at h ⊢
  rwa [hrow]

/-- They are if a row is put whose keys are not taken. -/
theorem RowsDistinct.put (h : RowsDistinct cfg s) (hagree : KeysAgree cfg)
    (hfree : ¬ Taken cfg s rec (some idx))
    (hrow : s'.table.row = Function.update s.table.row idx (some rec)) : RowsDistinct cfg s' := by
  unfold RowsDistinct at h ⊢
  rw [hrow]
  exact h.update hagree.symm hagree.exempt hfree

/-- They are if rows are removed. -/
theorem RowsDistinct.removed (h : RowsDistinct cfg s)
    (hrow : ∀ i a, s'.table.row i = some a → s.table.row i = some a) : RowsDistinct cfg s' :=
  Distinct.mono h hrow

/-- An update keeps the rows distinct. -/
theorem RowsDistinct.updated (h : RowsDistinct cfg s) (hcons : Consistent cfg s C F ∅)
    (hagree : KeysAgree cfg) (hkeys : cfg.keys ≤ 64)
    (hold : s.state idx = .active ∧ s.gen idx = g → s.data idx = old)
    (hends : UpdateEnds cfg s C idx g old new rc) (hupd : Updated s s' idx g new rc) :
    RowsDistinct cfg s' := by
  rcases update_spec hcons hagree hkeys h hold hends hupd with ⟨-, -, hrow⟩ | ⟨-, -, hrow⟩ |
    ⟨-, -, hfree, hrow⟩
  · exact h.of_row hrow
  · exact h.of_row hrow
  · exact h.put hagree hfree hrow

/-- A delete keeps the rows distinct. -/
theorem RowsDistinct.deleted {lim : Nat} (h : RowsDistinct cfg s)
    (hdel : Deleted cfg lim s s' idx g rc) : RowsDistinct cfg s' := by
  rcases delete_spec hdel with ⟨-, -, hrow⟩ | ⟨-, -, hrow⟩
  · apply h.removed
    intro i a hi
    rw [hrow] at hi
    by_cases hidx : i = idx
    · subst hidx
      simp at hi
    · rwa [Function.update_of_ne hidx] at hi
  · exact h.of_row hrow

/-- Every call keeps the rows distinct. -/
theorem RowsDistinct.call (h : RowsDistinct cfg s) (hquiet : Quiet cfg t s) (hagree : KeysAgree cfg)
    (hkeys : cfg.keys ≤ 64) {op : CoreOp n W PK} (hallowed : Allowed t s op)
    (hfree : Unblocked t s op) {l : Session n W} {x : CoreOut n W × Session n W}
    (hruns : (machine cfg).Runs t (op.code cfg l) s x s') : RowsDistinct cfg s' := by
  obtain ⟨C, F, hcons⟩ := hquiet.1
  cases op with
  | insertRow rec scratch =>
      obtain ⟨r', s₁, hins, hspec⟩ := insert_spec hquiet hagree rec scratch
      obtain ⟨r, s₂, hins', hret⟩ := Machine.Runs.split hruns
      cases hret
      obtain ⟨rfl, rfl⟩ := hins.det hins'
      rcases hspec with ⟨-, -, hrow⟩ | ⟨idx, -, hnot, -, hrow⟩ | ⟨-, -, hrow⟩
      · exact h.of_row hrow
      · exact h.put hagree (fun htaken => hnot htaken.to_none) hrow
      · exact h.of_row hrow
  | updateRow idx g old new scratch =>
      obtain ⟨r', s₁, C', F', hupd, -, -, hends⟩ :=
        runs_updateRow hcons hkeys hagree.hash t hquiet.bucket
        (hquiet.row hfree) g (fun hrow => hallowed hrow.1) new scratch
      obtain ⟨r, s₂, hupd', hret⟩ := Machine.Runs.split hruns
      cases hret
      obtain ⟨rfl, rfl⟩ := hupd.det hupd'
      exact h.updated hcons hagree hkeys (fun hrow => hallowed hrow.1) hends
        (updateRow_effect hupd')
  | updateRowLocked idx g old new scratch =>
      obtain ⟨r', s₁, C', F', hupd, -, -, hends⟩ := runs_updateRowLocked hcons hkeys hagree.hash t
        hquiet.bucket g (fun hrow => hallowed.2 hrow.1) new scratch
      obtain ⟨r, s₂, hupd', hret⟩ := Machine.Runs.split hruns
      cases hret
      obtain ⟨rfl, rfl⟩ := hupd.det hupd'
      exact h.updated hcons hagree hkeys (fun hrow => hallowed.2 hrow.1) hends
        (updateRowLocked_effect hupd')
  | deleteRow idx g scratch =>
      obtain ⟨rc, s₂, hdel, hret⟩ := Machine.Runs.split hruns
      cases hret
      exact h.deleted (deleteRow_effect hcons.ledger hdel)
  | deleteRowLocked idx g scratch =>
      obtain ⟨rc, s₂, hdel, hret⟩ := Machine.Runs.split hruns
      cases hret
      exact h.deleted (deleteRowLocked_effect hcons.ledger hdel)
  | clear =>
      obtain ⟨u, s₂, hclear, hret⟩ := Machine.Runs.split hruns
      cases hret
      apply h.removed
      intro i a hi
      rw [clear_spec hquiet hclear] at hi
      cases hi
  | lockRow idx =>
      obtain ⟨_, s₂, hsame, hret⟩ := runs_beside (only_access rfl) hruns
      cases hret
      exact h.of_row (congrArg Table.row hsame.table)
  | unlockRow idx =>
      obtain ⟨_, s₂, hsame, hret⟩ := runs_beside (only_access rfl) hruns
      cases hret
      exact h.of_row (congrArg Table.row hsame.table)
  | find | findNext | readRow | scanNext | reread => exact absurd hallowed id

/-- The rows are distinct after any calls. -/
theorem CallSeq.distinct {data : Int → Image n W} (hagree : KeysAgree cfg) (hkeys : cfg.keys ≤ 64)
    (h : CallSeq cfg t data s) : RowsDistinct cfg s := by
  induction h with
  | fresh =>
      intro i a hrow
      cases hrow
  | @call s s' op l x before allowed runs ih =>
      have hquiet := before.quiet hagree.hash hkeys
      by_cases hfree : Unblocked t s op
      · exact ih.call hquiet hagree hkeys allowed hfree runs
      · rw [blocked_call hquiet hfree runs]
        exact ih

/-- A share that has fewer rows than it may hold has room for one more. -/
theorem Quiet.not_noRoom (h : Quiet cfg t s) (hmax : cfg.maxRecords ≤ 2 ^ 31)
    (halloc : ∀ a, cfg.alloc a = true) (hrecords : s.records < cfg.maxRecords)
    (hled : Ledger cfg (2 ^ 32) s [] ∅) :
    ¬ NoRoom cfg s := by
  intro hroom
  obtain ⟨C, F, hcons⟩ := h.1
  have hfull := (hled.full hmax halloc hroom).2
  rw [hcons.records] at hrecords
  omega

/-- **The core is a table with unique keys.**  In every state that calls of one client
lead to: an insert into a table that is not full refuses exactly the rows that equal
another one on a unique key without NULL parts, and else adds the row at `*out_idx`; an
update of a valid reference refuses exactly the rows taken by another one, and else
replaces the row; a delete removes it; a clear removes all rows.  No call changes any
other row, and a call with a stale reference changes none. -/
theorem core_refines_unique_table (cfg : ShareCfg n W PK) (t : Nat) (data : Int → Image n W)
    (hagree : KeysAgree cfg) (hkeys : cfg.keys ≤ 64) (hmax : cfg.maxRecords ≤ 2 ^ 31)
    (halloc : ∀ m, cfg.alloc m = true) (s : Share n W) (h : CallSeq cfg t data s) :
    {i | s.table.row i ≠ none}.Finite ∧
    (∀ rec scratch, s.records < cfg.maxRecords →
      ∃ r s', (machine cfg).Runs t (insertRow cfg rec scratch) s r s' ∧
        (Taken cfg s rec none ∧ r.rc = .dupKey ∧ s'.table.row = s.table.row ∨
          ¬ Taken cfg s rec none ∧ ∃ idx, r = ⟨.ok, some idx, none⟩ ∧ s.table.row idx = none ∧
            s'.table.row = Function.update s.table.row idx (some rec))) ∧
    (∀ idx old new scratch, s.table.row idx = some old → s.wlock idx ≠ some t →
      ∃ r s', (machine cfg).Runs t (updateRow cfg idx (s.gen idx) old new scratch) s r s' ∧
        (Taken cfg s new (some idx) ∧ r.rc = .dupKey ∧ s'.table.row = s.table.row ∨
          ¬ Taken cfg s new (some idx) ∧ r.rc = .ok ∧
            s'.table.row = Function.update s.table.row idx (some new))) ∧
    (∀ idx scratch, s.table.row idx ≠ none → s.wlock idx ≠ some t →
      ∃ s', (machine cfg).Runs t (deleteRow cfg idx (s.gen idx) scratch) s .ok s' ∧
        s'.table.row = Function.update s.table.row idx none) ∧
    ((∀ i, s.Grown i → s.wlock i ≠ some t) →
      ∃ s', (machine cfg).Runs t (clear cfg) s () s' ∧ s'.table.row = fun _ => none) ∧
    (∀ idx g, (s.table.row idx = none ∨ s.gen idx ≠ g) →
      (∀ old new scratch r s', (machine cfg).Runs t (updateRow cfg idx g old new scratch) s r s' →
        r.rc ≠ .ok ∧ s'.table.row = s.table.row) ∧
      ∀ scratch rc s', (machine cfg).Runs t (deleteRow cfg idx g scratch) s rc s' →
        rc = .deleted ∧ s'.table.row = s.table.row) := by
  have hquiet := h.quiet hagree.hash hkeys
  have hdistinct := h.distinct hagree hkeys
  obtain ⟨C, F, hcons⟩ := hquiet.1
  have hrows : ∀ i, s.table.row i ≠ none ↔ s.state i = .active := by
    intro i
    simp [Share.table]
  refine ⟨?_, ?_, ?_, ?_, ?_, ?_⟩
  · simp only [hrows]
    exact hcons.active_finite
  · intro rec scratch hrecords
    obtain ⟨r, s', hruns, ⟨hrc, htaken, hrow⟩ | ⟨idx, hr, hnot, hempty, hrow⟩ | ⟨hled, hroom, -⟩⟩ :=
      insert_spec hquiet hagree rec scratch
    · exact ⟨r, s', hruns, Or.inl ⟨htaken, hrc, hrow⟩⟩
    · exact ⟨r, s', hruns, Or.inr ⟨hnot, idx, hr, hempty, hrow⟩⟩
    · exact absurd hroom (hquiet.not_noRoom hmax halloc hrecords hled)
  · intro idx old new scratch hrow hunlocked
    obtain ⟨hactive, hdata⟩ := row_eq_some.mp hrow
    obtain ⟨r, s', C', F', hruns, -, -, hends⟩ :=
      runs_updateRow hcons hkeys hagree.hash t hquiet.bucket
      (hquiet.row hunlocked) (s.gen idx) (fun _ => hdata) new scratch
    refine ⟨r, s', hruns, ?_⟩
    rcases update_spec hcons hagree hkeys hdistinct (fun _ => hdata) hends
      (updateRow_effect hruns) with
      ⟨hrc, htaken, hsame⟩ | ⟨-, hinvalid, -⟩ | ⟨hrc, -, hnot, hput⟩
    · exact Or.inl ⟨htaken ⟨hactive, rfl⟩, hrc, hsame⟩
    · exact absurd ⟨hactive, rfl⟩ hinvalid
    · exact Or.inr ⟨hnot, hrc, hput⟩
  · intro idx scratch hrow hunlocked
    have hvalid : s.state idx = .active ∧ s.gen idx = s.gen idx := ⟨(hrows idx).mp hrow, rfl⟩
    obtain ⟨s', C', F', hruns, -, -⟩ := runs_deleteRow hcons t hquiet.mutex hquiet.bucket
      (hquiet.row hunlocked) (s.gen idx) scratch
    rw [if_pos hvalid] at hruns
    refine ⟨s', hruns, ?_⟩
    rcases delete_spec (deleteRow_effect hcons.ledger hruns) with ⟨-, -, hrow'⟩ | ⟨hrc, -, -⟩
    · exact hrow'
    · cases hrc
  · intro hunlocked
    obtain ⟨s', L, hruns, -, -⟩ := runs_clear hcons t hquiet.mutex hquiet.bucket
      (fun i hi => hquiet.row (hunlocked i hi))
    exact ⟨s', hruns, clear_spec hquiet hruns⟩
  · intro idx g hstale
    have hinvalid : ¬ (s.state idx = .active ∧ s.gen idx = g) := by
      intro hvalid
      rcases hstale with hempty | hgen
      · exact (hrows idx).mpr hvalid.1 hempty
      · exact hgen hvalid.2
    constructor
    · intro old new scratch r s' hruns
      rcases updateRow_effect hruns with ⟨-, hvalid, -⟩ | ⟨hrc, hsame⟩
      · exact absurd hvalid hinvalid
      · refine ⟨?_, congrArg Table.row hsame.table⟩
        rcases hrc with hrc | ⟨hrc, -⟩ <;> rw [hrc] <;> decide
    · intro scratch rc s' hruns
      rcases delete_spec (deleteRow_effect hcons.ledger hruns) with ⟨-, hvalid, -⟩ | ⟨hrc, -, hsame⟩
      · exact absurd hvalid hinvalid
      · exact ⟨hrc, hsame⟩

/-- The keys of the table of words agree with their comparison. -/
theorem keysAgree_wordTable (keys : Nat) : KeysAgree (wordTable keys) where
  equiv := by
    intro k
    constructor
    · intro a
      exact Int.sub_self _
    · intro a b (hab : (a 0 : Int) - b 0 = 0)
      show (b 0 : Int) - a 0 = 0
      omega
    · intro a b c (hab : (a 0 : Int) - b 0 = 0) (hbc : (b 0 : Int) - c 0 = 0)
      show (a 0 : Int) - c 0 = 0
      omega
  hash := hashRespects_wordTable keys
  null := fun _ _ _ _ => rfl

/-- The first row goes into a fresh table, and the same row again is refused. -/
theorem core_refines_unique_table_same_row_twice :
    ∃ r s r' s', (machine (wordTable 1)).Runs 0 (insertRow (wordTable 1) (fun _ => 7) fun _ => 0)
        (Share.fresh fun _ _ => 0) r s ∧ r.rc = .ok ∧
      (machine (wordTable 1)).Runs 0 (insertRow (wordTable 1) (fun _ => 7) fun _ => 0) s r' s' ∧
      r'.rc = .dupKey ∧ s'.table.row = s.table.row := by
  have hagree := keysAgree_wordTable 1
  have hspec :=
    fun s h => (core_refines_unique_table (wordTable 1) 0 (fun _ _ => 0) hagree (by decide)
    (by decide) (fun _ => rfl) s h).2.1 (fun _ => 7) fun _ => 0
  obtain ⟨r, s, hruns, ⟨⟨k, -, i, a, -, hrow, -⟩, -⟩ | ⟨-, idx, rfl, -, hrow⟩⟩ :=
    hspec _ .fresh (by decide)
  · cases hrow
  have hcall : (machine (wordTable 1)).Runs 0
      (CoreOp.code (wordTable 1) (.insertRow (fun _ => 7) fun _ => 0) Session.empty)
      (Share.fresh fun _ _ => 0) (.write ⟨.ok, some idx, none⟩, Session.empty) s :=
    runs_then hruns runs_pure
  have hcalls : CallSeq (wordTable 1) 0 (fun _ _ => 0) s := .call .fresh (by exact trivial) hcall
  have htaken : Taken (wordTable 1) s (fun _ => 7) none := by
    refine ⟨⟨0, by decide⟩, ?_, idx, fun _ => 7, by simp, ?_, Int.sub_self _⟩
    · exact not_not.mpr ⟨rfl, rfl⟩
    · rw [hrow, Function.update_self]
  have heval : ((machine (wordTable 1)).eval 0 200 (insertRow (wordTable 1) (fun _ => 7) fun _ => 0)
      (Share.fresh fun _ _ => 0)).any (fun x => x.2.records < ((wordTable 1).maxRecords : Int)) =
      true := by
    decide +kernel
  have hrecords : s.records < (wordTable 1).maxRecords := by
    obtain ⟨x, hx, hcond⟩ := (Option.any_eq_true _ _).mp heval
    obtain ⟨-, rfl⟩ := (Machine.Runs.of_eval hx).det hruns
    simpa using hcond
  obtain ⟨r', s', hruns', ⟨-, hrc, hsame⟩ | ⟨hnot, -⟩⟩ := hspec s hcalls hrecords
  · exact ⟨_, s, r', s', hruns, rfl, hruns', hrc, hsame⟩
  · exact absurd htaken hnot

end FastMem
