import FastMem.IndexScan

/-!
# Deleting through an index scan

The loop of a DELETE by key: `index_read_map`, `delete_row`, and then `index_next` and
`delete_row` until `index_next` reports an error.  A delete resets the current slot of
the handle, and `fm_core_find_next` never gets behind a cursor that is not in the chain:
it goes through the whole chain waiting for it.  So the loop ends after the first row it
has deleted.

A row in a slot with a negative number cannot be locked, and `delete_row` refuses it;
the loop goes on behind it.
-/

namespace FastMem

open Conc Versioned

variable {n : Nat} {W PK : Type} {tab : TableCfg n W PK} {t : Nat} {s s' : Share n W} {C : Index}
  {F : List Int} {h : Handler n W PK} {k : Nat} {pk : PK} [DecidableEq (Image n W)]

/-- One round of the loop: read the next row, and delete it.  What `delete_row` answers
makes no difference. -/
def deleteCall (tab : TableCfg n W PK) (k : Nat) (pk : PK) (started : Bool) (buf : Image n W)
    (h : Handler n W PK) : Core n W PK (HandlerOut n W × Handler n W PK) := do
  let r ← indexCall tab k pk started buf h
  if r.1.err = none then
    let d ← handlerDeleteRow tab (r.1.buf.getD buf) r.2
    pure (r.1, d.2)
  else
    pure r

omit [DecidableEq (Image n W)] in
/-- The row that a round has read, until a read reports an error. -/
def deleteMore (r : HandlerOut n W × Handler n W PK) :
    Option (Image n W × Bool × Image n W × Handler n W PK) :=
  match r.1.err, r.1.buf with
  | none, some img => some (img, true, img, r.2)
  | _, _ => none

/-- The loop, from the round given to the end. -/
def DeleteLoop (tab : TableCfg n W PK) (t k : Nat) (pk : PK) (c : Bool × Image n W × Handler n W PK)
    (s : Share n W) (rows : List (Image n W)) (s' : Share n W) : Prop :=
  (machine tab.toShareCfg).Collects t (fun c => deleteCall tab k pk c.1 c.2.1 c.2.2)
    deleteMore c s rows s'

/-- The read check of a row that has not changed since it was read. -/
theorem runs_fmReadCheck {cfg : ShareCfg n W PK} (heven : ∀ i, s.seq i % 2 = 0) {info : Info n W PK}
    (hactive : s.state info.currentSlot = .active)
    (hgen : s.gen info.currentSlot = info.currentGen) :
    (machine cfg).Runs t (fmReadCheck info (s.data info.currentSlot)) s none s := by
  unfold fmReadCheck
  by_cases hcheck : info.readCheck = true
  · rw [if_pos hcheck]
    refine runs_then (runs_readRow (heven _) hactive (fun _ => hgen) info.scratch) ?_
    simp only [if_true]
    exact runs_pure
  · rw [if_neg hcheck]
    exact runs_pure

/-- The handle after `fm_delete_locked` has deleted the current row. -/
def Info.atDeleted (info : Info n W PK) : Info n W PK :=
  { info with update := { HaState.clear with deleted := true }, currentSlot := -1 }

/-- `delete_row` of the locked row. -/
theorem runs_handlerDeleteRow (hcons : Consistent tab.toShareCfg s C F ∅)
    (hmutex : s.owner .mutex = none) (hbucket : ∀ k b, s.owner (.bucket k b) = none)
    (hwrite : h.writeStmt = true) (hlocked : h.rowLocked = true)
    (hslot : h.lockedSlot = h.file.currentSlot) (hactive : s.state h.file.currentSlot = .active)
    (hgen : s.gen h.file.currentSlot = h.file.currentGen) :
    ∃ s' C' F', (machine tab.toShareCfg).Runs t (handlerDeleteRow tab (s.data h.file.currentSlot) h)
        (s.withRows t h)
        (⟨none, none⟩, ({ h with file := h.file.atDeleted } : Handler n W PK).unlocked)
        (s'.withRows t ({ h with file := h.file.atDeleted } : Handler n W PK).unlocked) ∧
      Consistent tab.toShareCfg s' C' F' ∅ ∧ (∀ k b, s'.owner (.bucket k b) = none) ∧
      s'.table.row = Function.update s.table.row h.file.currentSlot none := by
  have hheld := hcons.withRows t h
  obtain ⟨s', C', F', hdel, hcons', howner⟩ := runs_deleteRowLocked hheld t hmutex hbucket
    h.file.currentSlot h.file.currentGen h.file.scratch
  rw [if_pos ⟨hactive, hgen⟩] at hdel
  have hrows : SoleHolder t s' ({ h with file := h.file.atDeleted } : Handler n W PK) := by
    intro i
    have := congrFun howner (.row i)
    exact this
  have hrow : s'.table.row = Function.update s.table.row h.file.currentSlot none := by
    rcases deleteRowLocked_effect hheld.ledger hdel with ⟨-, -, -, -, htable⟩ | ⟨hrc, -, -⟩
    · exact congrArg Table.row htable
    · cases hrc
  refine ⟨s', C', F', ?_, hcons', fun k b => ?_, hrow⟩
  · have hfirst : (machine tab.toShareCfg).Runs t (ensureRowLocked h) (s.withRows t h) (true, h)
        (s.withRows t h) := by
      unfold ensureRowLocked
      rw [if_pos ⟨hwrite, hlocked, hslot⟩]
      exact runs_pure
    have hfile : (machine tab.toShareCfg).Runs t
        (fmDeleteLocked tab h.file (s.data h.file.currentSlot))
        (s.withRows t h) (none, h.file.atDeleted) s' := by
      have hcheck : (machine tab.toShareCfg).Runs t (fmReadCheck h.file (s.data h.file.currentSlot))
          (s.withRows t h) none (s.withRows t h) :=
        runs_fmReadCheck (s := s.withRows t h) hcons.seq_even hactive hgen
      refine runs_then hcheck (runs_then hdel ?_)
      simp only [if_true]
      exact runs_pure
    have hunlock := runs_unlockCurrentRow tab.toShareCfg s' t { h with file := h.file.atDeleted }
    rw [hrows.eq] at hunlock
    exact runs_then hfirst (runs_then hfile (runs_then hunlock runs_pure))
  · have := congrFun howner (.bucket k b)
    rw [this]
    exact hbucket k b

/-- `delete_row` of a row that is not locked because its number is negative. -/
theorem runs_handlerDeleteRow_refused (tab : TableCfg n W PK) (s : Share n W) (t : Nat)
    (hneg : h.file.currentSlot < 0) (hpos : h.rowLocked = true → 0 ≤ h.lockedSlot)
    (old : Image n W) :
    (machine tab.toShareCfg).Runs t (handlerDeleteRow tab old h) (s.withRows t h)
      (⟨some .recordChanged, none⟩, h.unlocked) (s.withRows t h.unlocked) := by
  have hnot : ¬ (h.rowLocked = true ∧ h.lockedSlot = h.file.currentSlot) := by
    rintro ⟨hlocked, hslot⟩
    have := hpos hlocked
    omega
  have hfirst : (machine tab.toShareCfg).Runs t (ensureRowLocked h) (s.withRows t h)
      (false, h.unlocked) (s.withRows t h.unlocked) := by
    unfold ensureRowLocked lockIfUnlocked
    rw [if_neg fun hcond => hnot ⟨hcond.2.1, hcond.2.2⟩]
    rw [if_neg (by omega)]
    refine runs_then runs_pure ?_
    rw [if_neg hnot]
    exact runs_then (runs_unlockCurrentRow _ s t h) runs_pure
  exact runs_then hfirst runs_pure

omit [DecidableEq (Image n W)] in
/-- A row that is found in a write statement is locked, unless its number is negative. -/
theorem moved_locked {info : Info n W PK} (hwrite : h.writeStmt = true)
    (hslot : 0 ≤ info.currentSlot) :
    (h.moved info).rowLocked = true ∧ (h.moved info).lockedSlot = info.currentSlot := by
  unfold Handler.moved Handler.locked
  rw [if_pos hwrite, if_neg (by simpa using hslot)]
  exact ⟨rfl, rfl⟩

omit [DecidableEq (Image n W)] in
/-- A handler never locks a row with a negative number. -/
theorem moved_pos {info : Info n W PK} (hpos : h.rowLocked = true → 0 ≤ h.lockedSlot) :
    (h.moved info).rowLocked = true → 0 ≤ (h.moved info).lockedSlot := by
  unfold Handler.moved Handler.locked
  split
  · split
    · exact hpos
    · rename_i hslot
      intro _
      exact Int.not_lt.mp hslot
  · exact hpos

/-- The rows without the first of the slots that is not negative. -/
def withoutFirst (s : Share n W) (Y : List Int) : Int → Option (Image n W) :=
  match Y.find? (0 ≤ ·) with
  | none => s.table.row
  | some j => Function.update s.table.row j none

/-- The handler stands in the loop for key `k` and search key `pk`. -/
structure InLoop (h : Handler n W PK) (k : Nat) (pk : PK) : Prop where
  writeStmt : h.writeStmt = true
  lastinx : h.file.lastinx = k
  lastkey : h.file.lastkey = pk
  pos : h.rowLocked = true → 0 ≤ h.lockedSlot

section

variable (hcons : Consistent tab.toShareCfg s C F ∅) (hmutex : s.owner .mutex = none)
  (hbucket : ∀ k b, s.owner (.bucket k b) = none)

omit [DecidableEq (Image n W)] in
/-- The loop goes on with the row it has found. -/
theorem deleteMore_found (img : Image n W) (h : Handler n W PK) :
    deleteMore (⟨none, some img⟩, h) = some (img, true, img, h) := rfl

include hcons hmutex hbucket in
/-- What is left of the loop once it has read the row in slot `j`. -/
theorem deleteLoop_found {started : Bool} {buf : Image n W} {h₁ : Handler n W PK}
    {j : Int}
    {Y : List Int}
    (hread : (machine tab.toShareCfg).Runs t (indexCall tab k pk started buf h) (s.withRows t h)
      (⟨none, some (s.data j)⟩, h₁) (s.withRows t h₁))
    (hloop : InLoop h₁ k pk) (hslot : h₁.file.currentSlot = j) (hgen : h₁.file.currentGen = s.gen j)
    (hactive : s.state j = .active) (hlocked : 0 ≤ j → h₁.rowLocked = true ∧ h₁.lockedSlot = j)
    (hrest : ∀ h₂ buf, InLoop h₂ k pk → h₂.file.currentSlot = j →
      ∃ rows s', DeleteLoop tab t k pk (true, buf, h₂) (s.withRows t h₂) rows s' ∧
        s'.table.row = withoutFirst s Y) :
    ∃ rows s', DeleteLoop tab t k pk (started, buf, h) (s.withRows t h) rows s' ∧
      s'.table.row = withoutFirst s (j :: Y) := by
  subst hslot
  by_cases hneg : h₁.file.currentSlot < 0
  · -- the row is refused, and the loop goes on behind it
    have hdel := runs_handlerDeleteRow_refused tab s t hneg hloop.pos (s.data h₁.file.currentSlot)
    have hloop' : InLoop h₁.unlocked k pk := by
      refine ⟨?_, ?_, ?_, ?_⟩
      · rw [unlocked_writeStmt]
        exact hloop.writeStmt
      · rw [unlocked_file]
        exact hloop.lastinx
      · rw [unlocked_file]
        exact hloop.lastkey
      · rw [unlocked_rowLocked]
        exact nofun
    obtain ⟨rows, s', hloop'', hrow⟩ := hrest h₁.unlocked (s.data h₁.file.currentSlot) hloop'
      (by rw [unlocked_file])
    refine ⟨_, s',
      .next (runs_then hread ?_) (deleteMore_found (s.data h₁.file.currentSlot) h₁.unlocked)
      hloop'', ?_⟩
    · rw [if_pos rfl]
      exact runs_then hdel runs_pure
    · rw [hrow]
      have hnot : ¬ (0 : Int) ≤ h₁.file.currentSlot := by omega
      simp [withoutFirst, hnot]
  · -- the row is deleted, and the next read ends the loop
    have hpos : 0 ≤ h₁.file.currentSlot := Int.not_lt.mp hneg
    obtain ⟨hlock, hlockslot⟩ := hlocked hpos
    obtain ⟨s', C', F', hdel, hcons', hbucket', hrow⟩ := runs_handlerDeleteRow (t := t) hcons hmutex
      hbucket hloop.writeStmt hlock hlockslot hactive hgen.symm
    have hend : (behind (-1) (C' k (tab.packedBucket k pk))).find?
        (Matches tab.toShareCfg s' k pk ·) = none := by
      have hnot : (-1 : Int) ∉ C' k (tab.packedBucket k pk) :=
        fun hmem => (hcons'.index k _).ne_nil hmem rfl
      rw [behind_of_notMem hnot]
      rfl
    obtain ⟨out, h₂, hnext, herr⟩ := runs_indexNext_none (t := t)
      (h := ({ h₁ with file := h₁.file.atDeleted } : Handler n W PK).unlocked)
        hcons'.index hcons'.seq_even
      hbucket' (by rw [unlocked_file]; exact hloop.lastinx)
      (by rw [unlocked_file]; simpa [Info.atDeleted, hloop.lastkey] using hend)
      (s.data h₁.file.currentSlot)
    have hstop : deleteMore (out, h₂) = none := by
      simp [deleteMore, herr]
    refine ⟨_, s'.withRows t h₂,
      .next (runs_then hread ?_) (deleteMore_found (s.data h₁.file.currentSlot)
      ({ h₁ with file := h₁.file.atDeleted } : Handler n W PK).unlocked)
      (.stop (runs_then hnext ?_) hstop), ?_⟩
    · rw [if_pos rfl]
      exact runs_then hdel runs_pure
    · rw [if_neg (by simp [herr])]
      exact runs_pure
    · simp [withoutFirst, hpos, hrow]

include hcons hmutex hbucket in
/-- The loop once it has started: it goes through the matches behind the current slot up
to the first that it can delete. -/
theorem deleteLoop_started {Y : List Int} (hloop : InLoop h k pk)
    (hY : (behind h.file.currentSlot (C k (tab.packedBucket k pk))).filter
      (Matches tab.toShareCfg s k pk ·) = Y)
    (buf : Image n W) :
    ∃ rows s', DeleteLoop tab t k pk (true, buf, h) (s.withRows t h) rows s' ∧
      s'.table.row = withoutFirst s Y := by
  induction Y generalizing h buf with
  | nil =>
      have hfind := List.find?_eq_none.mpr (List.filter_eq_nil_iff.mp hY)
      rw [← hloop.lastkey] at hfind
      obtain ⟨out, h', hnext, herr⟩ :=
        runs_indexNext_none (t := t) hcons.index hcons.seq_even hbucket hloop.lastinx hfind buf
      have hstop : deleteMore (out, h') = none := by
        simp [deleteMore, herr]
      refine ⟨[], s.withRows t h', .stop (runs_then hnext ?_) hstop, rfl⟩
      rw [if_neg (by simp [herr])]
      exact runs_pure
  | cons j Y ih =>
      obtain ⟨hfind, hrest⟩ := filter_behind (hcons.index k _).nodup (behind_suffix _ _) hY
      have hmatch : Matches tab.toShareCfg s k pk j := by simpa using List.find?_some hfind
      obtain rfl := hloop.lastkey
      have hnext :=
        runs_indexNext (t := t) hcons.index hcons.seq_even hbucket hloop.lastinx hfind buf
      refine deleteLoop_found hcons hmutex hbucket hnext ⟨?_, ?_, ?_, moved_pos hloop.pos⟩ ?_
        ?_ hmatch.1 ?_ ?_
      · rw [moved_writeStmt]
        exact hloop.writeStmt
      · simp [Info.atNext]
      · simp [Info.atNext]
      · simp [Info.atNext]
      · simp [Info.atNext]
      · exact fun hj => moved_locked hloop.writeStmt hj
      · intro h₂ buf hloop₂ hslot
        apply ih hloop₂
        rw [hslot]
        exact hrest

include hcons hmutex hbucket in
/-- What the loop deletes: the first match in the chain of the key's bucket, if the key is
not unique and the row's number is not negative. -/
theorem deleteLoop_rows (hunique : (tab.keydef k).unique = false) (hwrite : h.writeStmt = true)
    (hpos : h.rowLocked = true → 0 ≤ h.lockedSlot) (pk : PK) (buf : Image n W) :
    ∃ rows s', DeleteLoop tab t k pk (false, buf, h) (s.withRows t h) rows s' ∧
      s'.table.row = withoutFirst s
        ((C k (tab.packedBucket k pk)).filter (Matches tab.toShareCfg s k pk ·)) := by
  cases hY : (C k (tab.packedBucket k pk)).filter (Matches tab.toShareCfg s k pk ·) with
  | nil =>
      have hfind := List.find?_eq_none.mpr (List.filter_eq_nil_iff.mp hY)
      obtain ⟨out, h', hread, herr⟩ :=
        runs_indexRead_none (t := t) (h := h) hcons.index hcons.seq_even hbucket hfind buf
      have hstop : deleteMore (out, h') = none := by
        simp [deleteMore, herr]
      refine ⟨[], s.withRows t h', .stop (runs_then hread ?_) hstop, rfl⟩
      rw [if_neg (by simp [herr])]
      exact runs_pure
  | cons j Y =>
      obtain ⟨hfind, hrest⟩ := filter_behind (hcons.index k _).nodup (List.suffix_refl _) hY
      have hmatch : Matches tab.toShareCfg s k pk j := by simpa using List.find?_some hfind
      have hread := runs_indexRead (t := t) (h := h) hcons.index hcons.seq_even hbucket hfind buf
      refine deleteLoop_found hcons hmutex hbucket hread ⟨?_, ?_, ?_, moved_pos hpos⟩ ?_
        ?_ hmatch.1 ?_ ?_
      · rw [moved_writeStmt]
        exact hwrite
      · simp [Info.atKey]
      · simp [Info.atKey, hunique]
      · simp [Info.atKey]
      · simp [Info.atKey]
      · exact fun hj => moved_locked hwrite hj
      · intro h₂ buf hloop hslot
        apply deleteLoop_started hcons hmutex hbucket hloop
        rw [hslot]
        exact hrest

end

/-- The loop comes to an end, leaves no ACTIVE row equal to the search key, and every
other row as it was. -/
def DeletesAll (tab : TableCfg n W PK) (t k : Nat) (pk : PK) (buf : Image n W) (h : Handler n W PK)
    (s : Share n W) : Prop :=
  ∃ rows s', DeleteLoop tab t k pk (false, buf, h) s rows s' ∧
    (∀ i, ¬ Matches tab.toShareCfg s' k pk i) ∧
    ∀ i, ¬ Matches tab.toShareCfg s k pk i → s'.table.row i = s.table.row i

omit [DecidableEq (Image n W)] in
/-- A match is a row with the key. -/
theorem matches_iff_row {i : Int} : Matches tab.toShareCfg s k pk i ↔
    ∃ a, s.table.row i = some a ∧ (tab.keydef k).ops.cmpRecKey a pk = 0 := by
  by_cases hi : s.state i = .active <;> simp [Matches, Share.table, hi]

omit [DecidableEq (Image n W)] in
/-- The same row matches the same keys. -/
theorem matches_congr {i : Int} (hrow : s'.table.row i = s.table.row i) :
    Matches tab.toShareCfg s' k pk i ↔ Matches tab.toShareCfg s k pk i := by
  rw [matches_iff_row, matches_iff_row, hrow]

/-- **When a DELETE by key deletes all rows.**  In every state that sequential writes
lead to, for every key that is not unique, the loop comes to an end; it leaves no ACTIVE
row equal to the search key, and every other row unchanged, if and only if at most one
row equals the key, and that one hashes to the key's bucket and has a number that is not
negative. -/
theorem delete_loop_deletes_all_iff (tab : TableCfg n W PK) (hhash : HashRespects tab.toShareCfg)
    (hkeys : tab.keys ≤ 64) (t : Nat) (data : Int → Image n W) (s : Share n W)
    (hs : CallSeq tab.toShareCfg t data s) (h : Handler n W PK) (hwrite : h.writeStmt = true)
    (hsole : SoleHolder t s h) (hpos : h.rowLocked = true → 0 ≤ h.lockedSlot) (k : Nat)
    (hk : k < tab.keys) (hunique : (tab.keydef k).unique = false) (pk : PK) (buf : Image n W) :
    (∃ rows s', DeleteLoop tab t k pk (false, buf, h) s rows s') ∧
    (DeletesAll tab t k pk buf h s ↔
      (∀ i j, Matches tab.toShareCfg s k pk i → Matches tab.toShareCfg s k pk j → i = j) ∧
      ∀ i, Matches tab.toShareCfg s k pk i →
        0 ≤ i ∧ tab.keyBucket k (s.data i) = tab.packedBucket k pk) := by
  have hquiet := hs.quiet hhash hkeys
  obtain ⟨C, F, hcons⟩ := hquiet.1
  obtain ⟨rows, s', hloop, hrow⟩ :=
    deleteLoop_rows (t := t) hcons hquiet.mutex hquiet.bucket hunique hwrite hpos pk buf
  rw [hsole.eq] at hloop
  refine ⟨⟨rows, s', hloop⟩, ?_⟩
  have hmem : ∀ i, i ∈ (C k (tab.packedBucket k pk)).filter (Matches tab.toShareCfg s k pk ·) ↔
      Matches tab.toShareCfg s k pk i ∧ tab.keyBucket k (s.data i) = tab.packedBucket k pk := by
    intro i
    rw [List.mem_filter, hcons.index_mem k hk, decide_eq_true_eq]
    constructor
    · rintro ⟨⟨-, hb⟩, hmatch⟩
      exact ⟨hmatch, hb⟩
    · rintro ⟨hmatch, hb⟩
      exact ⟨⟨hmatch.1, hb⟩, hmatch⟩
  generalize (C k (tab.packedBucket k pk)).filter (Matches tab.toShareCfg s k pk ·) = Y at hrow hmem
  unfold withoutFirst at hrow
  cases hfind : Y.find? (0 ≤ ·) with
  | none =>
      -- nothing has been deleted
      rw [hfind] at hrow
      have hneg : ∀ i ∈ Y, ¬ 0 ≤ i := by simpa using List.find?_eq_none.mp hfind
      constructor
      · rintro ⟨rows', s'', hloop', hgone, -⟩
        obtain ⟨-, rfl⟩ := hloop.det hloop'
        have hno : ∀ i, ¬ Matches tab.toShareCfg s k pk i :=
          fun i hi => hgone i ((matches_congr (congrFun hrow i)).mpr hi)
        exact ⟨fun i j hi => absurd hi (hno i), fun i hi => absurd hi (hno i)⟩
      · rintro ⟨-, hall⟩
        refine ⟨rows, s', hloop, fun i hi => ?_, fun i _ => congrFun hrow i⟩
        have hi := (matches_congr (congrFun hrow i)).mp hi
        obtain ⟨hnn, hb⟩ := hall i hi
        exact hneg i ((hmem i).mpr ⟨hi, hb⟩) hnn
  | some j =>
      -- row `j` has been deleted, and no other
      rw [hfind] at hrow
      have hj := (hmem j).mp (List.mem_of_find?_eq_some hfind)
      have hnn : 0 ≤ j := by simpa using List.find?_some hfind
      have hother : ∀ i, i ≠ j → s'.table.row i = s.table.row i := by
        intro i hi
        rw [hrow]
        exact Function.update_of_ne hi _ _
      constructor
      · rintro ⟨rows', s'', hloop', hgone, -⟩
        obtain ⟨-, rfl⟩ := hloop.det hloop'
        have honly : ∀ i, Matches tab.toShareCfg s k pk i → i = j := by
          intro i hi
          by_contra hne
          exact hgone i ((matches_congr (hother i hne)).mpr hi)
        refine ⟨fun i i' hi hi' => (honly i hi).trans (honly i' hi').symm, fun i hi => ?_⟩
        rw [honly i hi]
        exact ⟨hnn, hj.2⟩
      · rintro ⟨hone, -⟩
        refine ⟨rows, s', hloop, fun i hi => ?_, fun i hi => hother i fun heq => hi (heq ▸ hj.1)⟩
        by_cases heq : i = j
        · have hempty : s'.table.row j = none := by
            rw [hrow]
            exact Function.update_self ..
          obtain ⟨a, ha, -⟩ := matches_iff_row.mp hi
          rw [heq, hempty] at ha
          cases ha
        · exact heq (hone i j ((matches_congr (hother i heq)).mp hi) hj.1)

/-- A handle in a write statement that has read nothing yet. -/
def writing : Handler 1 Nat Nat := { Handler.opened 5 fun _ => 0 with writeStmt := true }

/-- The only row with its key is deleted, and the other row in its bucket is not. -/
theorem delete_loop_deletes_all_iff_two_rows :
    ∃ s, CallSeq (nullableTable false).toShareCfg 0 (fun _ _ => 0) s ∧
      Matches (nullableTable false).toShareCfg s 0 7 0 ∧ s.state 1 = .active ∧
      s.data 1 = (fun _ => 3) ∧
      (nullableTable false).keyBucket 0 (fun _ => 3) = (nullableTable false).packedBucket 0 7 ∧
      DeletesAll (nullableTable false) 0 0 7 (fun _ => 0) writing s := by
  have hhash := hashRespects_nullableTable false
  have heval : (callAllowed (nullableTable false).toShareCfg 0 200
      [.insertRow (fun _ => 3) fun _ => 0,
      .insertRow (fun _ => 7) fun _ => 0] (Share.fresh fun _ _ => 0)).any (fun s =>
        decide (Matches (nullableTable false).toShareCfg s 0 7 0 ∧ s.state 1 = .active ∧
          s.data 1 = (fun _ => 3) ∧ s.records = 2)) = true := by
    decide +kernel
  obtain ⟨s, hops, hrows⟩ := (Option.any_eq_true _ _).mp heval
  obtain ⟨hrow, hactive, hdata, hrecords⟩ := of_decide_eq_true hrows
  have hseq := CallSeq.of_callAllowed hops
  have hfree := free_of_callAllowed hhash (by decide) (by decide) hops
  obtain ⟨C, F, hcons⟩ := (hseq.quiet hhash (by decide)).1
  -- there are two rows, and the one in slot 1 does not match
  have htwo : ({0, 1} : Set Int) = {i | s.state i = .active} := by
    refine Set.eq_of_subset_of_ncard_le ?_ ?_ hcons.active_finite
    · rintro i (rfl | rfl)
      · exact hrow.1
      · exact hactive
    · have hcard := hcons.records
      rw [Set.ncard_pair (by decide)]
      omega
  have honly : ∀ i, Matches (nullableTable false).toShareCfg s 0 7 i → i = 0 := by
    intro i hi
    have hmem : i ∈ ({0, 1} : Set Int) := htwo ▸ hi.1
    rcases hmem with rfl | rfl
    · rfl
    · have hcmp := hi.2
      rw [hdata] at hcmp
      exact absurd hcmp (by decide)
  refine ⟨s, hseq, hrow, hactive, hdata, by decide, ?_⟩
  rw [(delete_loop_deletes_all_iff (nullableTable false) hhash (by decide) 0 _ s hseq writing rfl
    (soleHolder_of_unlocked rfl hfree) (by simp [writing, Handler.opened]) 0 (by decide)
    rfl 7 fun _ => 0).2]
  refine ⟨fun i j hi hj => (honly i hi).trans (honly j hj).symm, fun i hi => ⟨(honly i hi).ge, ?_⟩⟩
  have hcmp : (s.data i 0 : Int) - (7 : Nat) = 0 := hi.2
  have hword : s.data i 0 = 7 := by omega
  show ((nullableTable false).keydef 0).bucket (s.data i 0) =
    ((nullableTable false).keydef 0).bucket 7
  rw [hword]

/-- Of two rows with the same key, the loop deletes one and ends. -/
theorem delete_loop_leaves_second_row :
    ∃ s, CallSeq (nullableTable false).toShareCfg 0 (fun _ _ => 0) s ∧ SoleHolder 0 s writing ∧
      Matches (nullableTable false).toShareCfg s 0 7 0 ∧ Matches
        (nullableTable false).toShareCfg s 0 7 1 ∧
      ¬ DeletesAll (nullableTable false) 0 0 7 (fun _ => 0) writing s := by
  have hhash := hashRespects_nullableTable false
  have heval : ((machine (nullableTable false).toShareCfg).eval 0 200
      (insertRow (nullableTable false).toShareCfg (fun _ => 7) fun _ => 0)
        (Share.fresh fun _ _ => 0)).any (fun x =>
        ((machine (nullableTable false).toShareCfg).eval 0 200
          (insertRow (nullableTable false).toShareCfg (fun _ => 7) fun _ => 0) x.2).any fun y =>
            Matches (nullableTable false).toShareCfg y.2 0 7 0 && Matches
              (nullableTable false).toShareCfg y.2 0 7 1 &&
            ((machine (nullableTable false).toShareCfg).eval 0 200
              (deleteCall (nullableTable false) 0 7 false (fun _ => 0) writing) y.2).any fun z =>
                z.1.1.err = none && z.1.1.buf = some (fun _ => 7) &&
                ((machine (nullableTable false).toShareCfg).eval 0 200
                  (deleteCall (nullableTable false) 0 7 true (fun _ => 7) z.1.2) z.2).any fun u =>
                    u.1.1.err = some .endOfFile && Matches (nullableTable false).toShareCfg u.2 0
                      7 0) = true := by
    decide +kernel
  obtain ⟨⟨r, s₁⟩, hfirst, hcond⟩ := (Option.any_eq_true _ _).mp heval
  obtain ⟨⟨r', s⟩, hsecond, hcond⟩ := (Option.any_eq_true _ _).mp hcond
  simp only [Bool.and_eq_true, decide_eq_true_eq] at hcond
  obtain ⟨⟨hrow₀, hrow₁⟩, hcond⟩ := hcond
  obtain ⟨⟨⟨out, h₁⟩, s₂⟩, hread, hcond⟩ := (Option.any_eq_true _ _).mp hcond
  simp only [Bool.and_eq_true, decide_eq_true_eq] at hcond
  obtain ⟨⟨herr, hbuf⟩, hcond⟩ := hcond
  obtain ⟨⟨⟨out', h₂⟩, s₃⟩, hnext, hcond⟩ := (Option.any_eq_true _ _).mp hcond
  simp only [Bool.and_eq_true, decide_eq_true_eq] at hcond
  obtain ⟨hend, hleft⟩ := hcond
  obtain ⟨hseq₁, howner₁⟩ := CallSeq.insert hhash (by decide) .fresh (.of_eval hfirst)
  obtain ⟨hseq, howner⟩ := CallSeq.insert hhash (by decide) hseq₁ (.of_eval hsecond)
  have hfree : ∀ l, s.owner l = none := by
    rw [howner, howner₁]
    exact owner_fresh _
  have hmore : deleteMore (out, h₁) = some ((fun _ => 7), true, (fun _ => 7), h₁) := by
    simp [deleteMore, herr, hbuf]
  have hstop : deleteMore (out', h₂) = none := by
    simp [deleteMore, hend]
  have hloop : DeleteLoop (nullableTable false) 0 0 7 (false, fun _ => 0, writing) s
      [fun _ => 7] s₃ :=
    .next (.of_eval hread) hmore (.stop (.of_eval hnext) hstop)
  refine ⟨s, hseq, soleHolder_of_unlocked rfl hfree, hrow₀, hrow₁, ?_⟩
  rintro ⟨rows, s', hloop', hgone, -⟩
  obtain ⟨-, rfl⟩ := hloop.det hloop'
  exact hgone 0 hleft

end FastMem
