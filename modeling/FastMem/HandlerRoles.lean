import FastMem.Handler
import FastMem.Operations

/-!
# Handlers follow the protocol

The methods of a handler, from a thread that is in the middle of nothing and holds the
row lock its handler remembers, or none.  Each takes steps the protocol allows and
leaves the thread in the same way with the handler it returns.

A row read in a write statement leaves more behind: it has locked the row and read it
again, so the thread knows all about the row it returns.  What else is known when the
row is pinned down is asked of the caller.
-/

namespace FastMem

open Conc

variable {n : Nat} {W PK Op Loc Out : Type} {T : Setting n W PK Op Out}
  {Idle : Loc → Role n W → Prop} {c : Call Op} {m : Nat} {g g' : Role n W} {tab : TableCfg n W PK}
  {h : Handler n W PK}

/-- The thread holds the wlock of slot `idx` and knows the generation and the image of
the row there. -/
structure Knows (idx : Int) (v : Nat) (img : Image n W) (g : Role n W) : Prop where
  phase : g.phase = .row
  slot : g.slot = idx
  gen : g.gen = some v
  words : g.words = allWords img
  unread : g.read = .none

/-- What a round of `fm_core_read_row` does once it has seen the slot ACTIVE, when the
thread knows the row. -/
theorem follows_round_known (hT : T.Sound) {idx : Int} {v : Nat} {img : Image n W}
    (cg : Bool) (r : Nat) (buf : Image n W) (hknows : Knows idx v img g)
    (hretry : ∀ buf', Follows T Idle c m (readRow idx cg r buf')
      (fun x g' => g' = g ∧ (x.1 = .ok → x.2 = img ∧ (cg = true → r = v))) g) :
    Follows T Idle c m
      (if cg then access (.loadGen idx) >>= fun v' =>
        if v' ≠ r then pure (.deleted, buf) else readRowCopy idx cg r buf
      else readRowCopy idx cg r buf)
      (fun x g' => g' = g ∧ (x.1 = .ok → x.2 = img ∧ (cg = true → r = v))) g := by
  have hcopy : (cg = true → r = v) → Follows T Idle c m (readRowCopy idx cg r buf)
      (fun x g' => g' = g ∧ (x.1 = .ok → x.2 = img ∧ (cg = true → r = v))) g := by
    intro hr
    refine follows_peek rfl hknows.unread fun s₁ => follows_ite (fun _ => hretry buf) fun _ => ?_
    refine Follows.then (follows_copyOut_known hT _ buf (by rw [hknows.phase]; rfl)
      hknows.slot hknows.words) ?_
    rintro buf' g' ⟨rfl, hbuf⟩
    refine follows_peek rfl hknows.unread fun s₂ => follows_ite (fun _ => hretry buf') fun _ => ?_
    have himg : buf' = img := by
      funext j
      rw [hbuf j, if_pos (List.mem_finRange j)]
    exact follows_pure ⟨rfl, fun _ => ⟨himg, hr⟩⟩
  refine follows_ite (fun hcg => ?_) fun hcg => hcopy fun h => absurd h hcg
  refine follows_access fun w γ r' _ htrace hg _ hexec => ⟨g, .view (.look rfl (Or.inl rfl)), ?_⟩
  have hr' : r' = v := by
    have hv :=
      gen_eq_of_trace hT htrace (t := c.tid) (v := v) (by rw [hg, hknows.phase])
        (by rw [hg, hknows.gen])
    rw [hg, hknows.slot] at hv
    simp only [exec, Option.some.injEq, Prod.mk.injEq] at hexec
    exact hexec.1.symm.trans hv
  refine follows_ite (fun _ => follows_pure ⟨rfl, by simp⟩) fun hne => hcopy fun _ => ?_
  exact (not_not.mp hne).symm.trans hr'

/-- `fm_core_read_row` of a row the thread knows. -/
theorem follows_readRow_known (hT : T.Sound) {idx : Int} {v : Nat} {img : Image n W}
    (cg : Bool) (r : Nat) (buf : Image n W) (hknows : Knows idx v img g) :
    Follows T Idle c m (readRow idx cg r buf)
      (fun x g' => g' = g ∧ (x.1 = .ok → x.2 = img ∧ (cg = true → r = v))) g := by
  induction m using Nat.strong_induction_on generalizing buf with
  | _ m ih =>
      refine Logic.Safe.enter fun m' hm' => ?_
      show Follows T Idle c m' (readRowBody idx cg r buf) _ g
      refine follows_peek rfl hknows.unread fun st =>
        follows_ite (fun _ => follows_pure ⟨rfl, by simp⟩) fun _ => ?_
      exact follows_round_known hT cg r buf hknows fun buf' => ih m' hm' buf'

/-- The role with other knowledge of the row, and other notes. -/
def Role.noting (g : Role n W) (p : Phase) (i : Int) (gen : Option Nat) (words : Fin n → Option W)
    (pinned : Option (Int × Nat)) : Role n W :=
  { g with phase := p, slot := i, gen := gen, words := words, pinned := pinned }

/-- What a thread has of a row it has read again under its wlock, if the read went
well: everything, and `P` of its generation and image. -/
def Pinned (idx : Int) (g : Role n W) (ok : Prop) (v : Nat) (img : Image n W)
    (P : Nat → Image n W → Prop) (g' : Role n W) : Prop :=
  ∃ p i gen words pinned, g' = g.noting p i gen words pinned ∧ (p = .idle ∨ p = .row) ∧
    (ok → p = .row ∧ i = idx ∧ gen = some v ∧ words = allWords img ∧
      pinned = some (idx, v) ∧ P v img)

/-- When a call that has seen a slot ACTIVE before holds its wlock and sees it ACTIVE again, it
may note the row, and `P` is true of it. -/
def Setting.Pins (T : Setting n W PK Op Out) (c : Call Op) (P : Nat → Image n W → Prop) : Prop :=
  ∀ w γ i, T.Trace w γ → Lock.row i ∈ (γ c.tid).locks → (γ c.tid).seen = some i →
    (γ c.tid).since = c.start → T.meets c (.loadState i) w → w.mem.state i = .active →
    T.commits c w (.pin i c.start) ∧ P (w.mem.gen i) (w.mem.data i)

/-- The role of a thread that has just pinned down the row in slot `idx`. -/
def Role.pinning (g : Role n W) (idx : Int) (v : Nat) (img : Image n W) : Role n W :=
  { g with
    phase := .row, slot := idx, gen := some v, words := allWords img, pinned := some (idx, v) }

/-- A thread that pins a row knows it. -/
theorem knows_pinning {idx : Int} {v : Nat} {img : Image n W} (hread : g.read = .none) :
    Knows idx v img (g.pinning idx v img) :=
  ⟨rfl, rfl, rfl, rfl, hread⟩

/-- `fm_core_read_row` of a locked row, at the end of a re-read. -/
theorem follows_readRow_pin (hT : T.Sound) {P : Nat → Image n W → Prop} (hP : T.Pins c P)
    {idx : Int} (r : Nat) (buf : Image n W) (hrow : AtRow idx g) (hseen : g.seen = some idx)
    (hsince : g.since = c.start) :
    Follows T Idle c m (readRow idx true r buf) (fun x => Pinned idx g (x.1 = .ok) r x.2 P) g := by
  refine Logic.Safe.enter fun m' _ => ?_
  show Follows T Idle c m' (readRowBody idx true r buf) _ g
  refine follows_access fun w γ st _ htrace hg hmeets hexec => ?_
  by_cases hst : st = .active
  · subst hst
    have hactive : w.mem.state idx = .active := by
      simp only [exec, Option.some.injEq, Prod.mk.injEq] at hexec
      exact hexec.1
    obtain ⟨hcommit, hPw⟩ :=
      hP w γ idx htrace (by rw [hg]; exact hrow.held) (by rw [hg]; exact hseen)
      (by rw [hg]; exact hsince) hmeets hactive
    rw [← hsince] at hcommit
    refine ⟨g.pinning idx (w.mem.gen idx) (w.mem.data idx),
      .note (.pin hrow.held hrow.phase hrow.unread hcommit), ?_⟩
    refine follows_ite (fun h => absurd rfl h) fun _ => ?_
    -- from here on the thread knows the row, whatever the rest of the read does
    refine Follows.weaken (follows_round_known hT true r buf (knows_pinning hrow.unread) fun buf' =>
      follows_readRow_known hT true r buf' (knows_pinning hrow.unread)) ?_
    rintro x g' ⟨rfl, hok⟩
    refine ⟨_, _, _, _, _, rfl, Or.inr rfl, fun hx => ?_⟩
    obtain ⟨himg, hr⟩ := hok hx
    rw [hr rfl, himg]
    exact ⟨rfl, rfl, rfl, rfl, rfl, hPw⟩
  · refine ⟨g, .view (.look rfl (Or.inr hrow.unread)), ?_⟩
    refine follows_ite (fun _ => follows_pure ?_) fun h => absurd (not_not.mp h) hst
    exact ⟨g.phase, g.slot, g.gen, g.words, g.pinned, rfl, hrow.phase, by simp⟩

/-- The role of a thread whose handler is between two steps of its own: in the middle of
nothing, with the row lock the handler remembers. -/
structure AtHome (h : Handler n W PK) (g : Role n W) : Prop where
  rest : Resting { g with read := .none }
  locks : g.locks = h.rowStack
  phase : g.phase = .idle ∨ g.phase = .row

/-- How a step of a handler leaves its thread. -/
structure Back (g : Role n W) (h' : Handler n W PK) (g' : Role n W) : Prop where
  home : AtHome h' g'
  since : g'.since = g.since
  read : g'.read = g.read

/-- A thread between the accesses of a call is at rest. -/
theorem AtHome.resting (hhome : AtHome h g) (hread : g.read = .none) : Resting g :=
  ⟨hhome.rest.walk, hhome.rest.dup, hhome.rest.checked, hhome.rest.free, hhome.rest.chunk,
    hhome.rest.extra, hhome.rest.flipped, hread⟩

/-- It is back where it is. -/
theorem AtHome.back (hhome : AtHome h g) : Back g h g := ⟨hhome, rfl, rfl⟩

/-- Back from one call, and back from the next. -/
theorem Back.trans {h' : Handler n W PK} {g₁ : Role n W} (hback : Back g h g₁)
    (hback' : Back g₁ h' g') : Back g h' g' :=
  ⟨hback'.home, hback'.since.trans hback.since, hback'.read.trans hback.read⟩

/-- The handle of a handler may change while it keeps its row lock. -/
theorem AtHome.withFile (hhome : AtHome h g) (info : Info n W PK) :
    AtHome { h with file := info } g :=
  ⟨hhome.rest, hhome.locks, hhome.phase⟩

/-- The handle of a handler is no part of its role. -/
theorem Back.withFile {h' : Handler n W PK} (hback : Back g h' g') (info : Info n W PK) :
    Back g { h' with file := info } g' :=
  ⟨hback.home.withFile info, hback.since, hback.read⟩

/-- Other locks and another phase for a thread in the middle of nothing. -/
theorem AtHome.relocked {h' : Handler n W PK} (hhome : AtHome h g) {H : List Lock} {p : Phase}
    (hlocks : H = h'.rowStack) (hphase : p = .idle ∨ p = .row) :
    Back g h' { g with locks := H, phase := p } := by
  refine ⟨⟨?_, hlocks, hphase⟩, rfl, rfl⟩
  exact ⟨hhome.rest.walk, hhome.rest.dup, hhome.rest.checked, hhome.rest.free, hhome.rest.chunk,
    hhome.rest.extra, hhome.rest.flipped, rfl⟩

/-- A handler with its row locked holds that lock. -/
theorem rowStack_of_locked (hlocked : h.rowLocked = true) : h.rowStack = [.row h.lockedSlot] := by
  unfold Handler.rowStack
  rw [if_pos hlocked]

/-- A handler with no row locked holds none. -/
theorem rowStack_of_unlocked (hlocked : h.rowLocked = false) : h.rowStack = [] := by
  unfold Handler.rowStack
  rw [if_neg (by simp [hlocked])]

/-- A thread at home has the wlock of the row its handler has locked. -/
theorem AtHome.atRow {idx : Int} (hhome : AtHome h g) (hread : g.read = .none)
    (hlocked : h.rowLocked = true) (hslot : h.lockedSlot = idx) : AtRow idx g := by
  refine ⟨?_, hhome.phase, hread⟩
  rw [hhome.locks, rowStack_of_locked hlocked, hslot]
  exact List.mem_singleton_self _

/-- `unlock_current_row` follows the protocol. -/
theorem follows_unlockCurrentRow (hhome : AtHome h g) :
    Follows T Idle c m (unlockCurrentRow h)
      (fun h' g' => h' = h.unlocked ∧ Back g h' g' ∧ g'.seen = g.seen) g := by
  unfold unlockCurrentRow Handler.unlocked
  by_cases hlocked : h.rowLocked = true
  · rw [if_pos hlocked, if_pos hlocked]
    have hlocks : g.locks = .row h.lockedSlot :: [] := by
      rw [hhome.locks, rowStack_of_locked hlocked]
    have hphase : g.phase ≠ .write ∧ g.phase ≠ .move := by
      rcases hhome.phase with hp | hp <;> simp [hp]
    refine Turns.then (turns_unlockRow hlocks hphase) fun _ => follows_pure ⟨rfl, ?_, rfl⟩
    refine hhome.relocked (rowStack_of_unlocked rfl).symm ?_
    rcases hhome.phase with hp | hp <;> simp [hp]
  · rw [if_neg hlocked, if_neg hlocked]
    exact follows_pure ⟨rfl, hhome.back, rfl⟩

theorem follows_lockCurrentRow (hhome : AtHome h g) :
    Follows T Idle c m (lockCurrentRow h)
      (fun h' g' => h' = h.locked ∧ Back g h' g' ∧ g'.seen = g.seen) g := by
  unfold lockCurrentRow Handler.locked
  by_cases hneg : h.file.currentSlot < 0
  · rw [if_pos hneg, if_pos hneg]
    exact follows_pure ⟨rfl, hhome.back, rfl⟩
  rw [if_neg hneg, if_neg hneg]
  refine follows_ite (fun hheld => ?_) fun _ => ?_
  · have hsame : h = { h with rowLocked := true, lockedSlot := h.file.currentSlot } := by
      rw [← hheld.1, ← hheld.2]
    exact follows_pure ⟨hsame, hhome.back, rfl⟩
  · refine Follows.then (follows_unlockCurrentRow hhome) ?_
    rintro h₁ g₁ ⟨rfl, hback, hseen⟩
    refine Turns.then (turns_lockAnew _ hback.home.phase) fun _ => follows_pure ⟨?_, ?_, hseen⟩
    · rw [unlocked_file]
      unfold Handler.unlocked
      split <;> rfl
    · refine hback.trans (hback.home.relocked ?_ (Or.inl rfl))
      rw [hback.home.locks, rowStack_of_unlocked (unlocked_rowLocked h), rowStack_of_locked rfl]

variable {P : Nat → Image n W → Prop} {N : Int → Prop}

/-- `fm_reread_locked` of a row whose wlock the thread holds. -/
theorem follows_reread_pin (hT : T.Sound) (hP : T.Pins c P)
    (hN : ∀ w i, T.meets c (.loadGen i) w → N i) {idx : Int} (buf : Image n W) (hrow : AtRow idx g)
    (hseen : g.seen = some idx) (hsince : g.since = c.start) : Follows T Idle c m (reread idx buf)
      (fun x g' => N idx ∧ Pinned idx g (x.1 = .ok) x.2.2 x.2.1 P g') g := by
  refine follows_access fun w γ r _ _ _ hmeets _ => ⟨g, .view (.look rfl (Or.inl rfl)), ?_⟩
  exact Follows.then (follows_readRow_pin hT hP r buf hrow hseen hsince) fun x g' hpin =>
    follows_pure ⟨hN w idx hmeets, hpin⟩

/-- `fm_reread_locked` of a row that is not locked because its number is negative. -/
theorem follows_reread_look (hN : ∀ w i, T.meets c (.loadGen i) w → N i) (idx : Int)
    (buf : Image n W) (hread : g.read = .none) :
    Follows T Idle c m (reread idx buf) (fun _ g' => N idx ∧ g' = g) g := by
  refine follows_access fun w γ r _ _ _ hmeets _ => ⟨g, .view (.look rfl (Or.inl rfl)), ?_⟩
  exact Turns.then (turns_readRow hread idx true r buf) fun x => follows_pure ⟨hN w idx hmeets, rfl⟩

/-- What a row read in a write statement leaves behind when it returns a row. -/
structure ReadBack (P : Nat → Image n W → Prop) (N : Int → Prop) (h' : Handler n W PK)
    (img : Image n W) (g' : Role n W) : Prop where
  slot : N h'.file.currentSlot
  locked : 0 ≤ h'.file.currentSlot → h'.rowLocked = true ∧ h'.lockedSlot = h'.file.currentSlot
  knows : 0 ≤ h'.file.currentSlot → Knows h'.file.currentSlot h'.file.currentGen img g'
  pinned : 0 ≤ h'.file.currentSlot → g'.pinned = some (h'.file.currentSlot, h'.file.currentGen)
  holds : 0 ≤ h'.file.currentSlot → P h'.file.currentGen img

/-- A thread that has pinned a row is back. -/
theorem Pinned.back {idx : Int} {ok : Prop} {v : Nat} {img : Image n W}
    (hpin : Pinned idx g ok v img P g') (hhome : AtHome h g) : Back g h g' := by
  obtain ⟨p, i, gen, words, pinned, rfl, hp, -⟩ := hpin
  refine ⟨⟨?_, hhome.locks, hp⟩, rfl, rfl⟩
  exact ⟨hhome.rest.walk, hhome.rest.dup, hhome.rest.checked, hhome.rest.free, hhome.rest.chunk,
    hhome.rest.extra, hhome.rest.flipped, rfl⟩

/-- `fm_reread_locked`, by a handler that has locked its current row unless the number
of the row is negative. -/
theorem follows_fmRereadLocked (hT : T.Sound) (hP : T.Pins c P)
    (hN : ∀ w i, T.meets c (.loadGen i) w → N i) (buf : Image n W) (hhome : AtHome h g)
    (hread : g.read = .none) (hseen : g.seen = some h.file.currentSlot)
    (hsince : g.since = c.start)
    (hheld : 0 ≤ h.file.currentSlot → h.rowLocked = true ∧ h.lockedSlot = h.file.currentSlot) :
    Follows T Idle c m (fmRereadLocked h.file buf) (fun x g' => Back g h g' ∧ (x.1 = .ok →
      ReadBack P N { h with file := x.2.2 } x.2.1 g' ∧
        x.2.2 = { h.file with currentGen := x.2.2.currentGen })) g := by
  by_cases hneg : h.file.currentSlot < 0
  · refine Follows.then (follows_reread_look hN h.file.currentSlot buf hread) ?_
    rintro ⟨rc, img, v⟩ g' ⟨hslot, rfl⟩
    refine follows_pure ⟨hhome.back, fun hrc => ?_⟩
    simp only at hrc
    subst hrc
    have hnot : ¬ 0 ≤ h.file.currentSlot := by omega
    exact ⟨⟨hslot, fun hp => absurd hp hnot, fun hp => absurd hp hnot, fun hp => absurd hp hnot,
      fun hp => absurd hp hnot⟩, rfl⟩
  · have hpos : 0 ≤ h.file.currentSlot := by omega
    refine Follows.then
      (follows_reread_pin hT hP hN buf (hhome.atRow hread (hheld hpos).1 (hheld hpos).2)
      hseen hsince) ?_
    rintro ⟨rc, img, v⟩ g' ⟨hslot, hpin⟩
    refine follows_pure ⟨hpin.back hhome, fun hrc => ?_⟩
    simp only at hrc
    subst hrc
    obtain ⟨p, i, gen, words, pinned, rfl, -, hok⟩ := hpin
    obtain ⟨rfl, rfl, rfl, rfl, rfl, hPx⟩ := hok rfl
    exact ⟨⟨hslot, fun _ => hheld hpos, fun _ => ⟨rfl, rfl, rfl, rfl, hread⟩, fun _ =>
      rfl, fun _ => hPx⟩, rfl⟩

/-- A current slot is locked once `lock_current_row` has returned. -/
theorem locked_held (h : Handler n W PK) (hpos : 0 ≤ h.file.currentSlot) :
    h.locked.rowLocked = true ∧ h.locked.lockedSlot = h.file.currentSlot := by
  unfold Handler.locked
  rw [if_neg (Int.not_lt.mpr hpos)]
  exact ⟨rfl, rfl⟩

/-- Locking the row that was found and reading it again. -/
theorem follows_rereadInWriteStmt (hT : T.Sound) (hP : T.Pins c P)
    (hN : ∀ w i, T.meets c (.loadGen i) w → N i) (gone : HaErr)
    (found : Option HaErr × Image n W × Info n W PK) (hhome : AtHome h g) (hread : g.read = .none)
    (hseen : found.1 = none → g.seen = some found.2.2.currentSlot) (hsince : g.since = c.start)
    (hwrite : h.writeStmt = true) :
    Follows T Idle c m (rereadInWriteStmt gone found h) (fun x g' => Back g x.2.2 g' ∧
      (x.1 = none → ReadBack P N x.2.2 x.2.1 g' ∧
        x.2.2.file = { found.2.2 with currentGen := x.2.2.file.currentGen })) g := by
  unfold rereadInWriteStmt
  refine follows_ite (fun hand => ?_) fun hnot => ?_
  · refine Follows.then (follows_lockCurrentRow (hhome.withFile found.2.2)) ?_
    rintro h₁ g₁ ⟨rfl, hback, hseen₁⟩
    have hheld := locked_held { h with file := found.2.2 }
    rw [← locked_file { h with file := found.2.2 }] at hheld
    have hslot : g₁.seen = some (Handler.locked { h with file := found.2.2 }).file.currentSlot := by
      rw [hseen₁, hseen hand.1, locked_file]
    refine Follows.then
      (follows_fmRereadLocked hT hP hN found.2.1 hback.home (hback.read.trans hread) hslot
      (hback.since.trans hsince) hheld) ?_
    rintro ⟨rc, img, info⟩ g' ⟨hback', hok⟩
    refine follows_ite (fun hrc => ?_) fun _ => ?_
    · obtain ⟨hreadBack, hinfo⟩ := hok hrc
      rw [locked_file] at hinfo
      exact follows_pure ⟨(hback.trans hback').withFile info, fun _ => ⟨hreadBack, hinfo⟩⟩
    · refine Follows.then (follows_unlockCurrentRow ((hback.trans hback').withFile info).home) ?_
      rintro h₂ g₂ ⟨rfl, hback₂, -⟩
      exact follows_pure ⟨((hback.trans hback').withFile info).trans hback₂, by simp⟩
  · refine follows_pure ⟨(hhome.withFile found.2.2).back, fun herr => ?_⟩
    exact absurd ⟨herr, hwrite⟩ hnot

/-- How a row read ends, `S` being what is known of the slot that was found. -/
def ReadEnds (P : Nat → Image n W → Prop) (N S : Int → Prop) (write : Bool) (g : Role n W)
    (x : HandlerOut n W × Handler n W PK) (g' : Role n W) : Prop :=
  Back g x.2 g' ∧ (write = true → x.1.err = none →
    ∃ img, x.1.buf = some img ∧ ReadBack P N x.2 img g' ∧ S x.2.file.currentSlot)

/-- A read that fails gives nothing. -/
theorem ReadEnds.failed {S : Int → Prop} {write : Bool} {err : HaErr} {buf : Option (Image n W)}
    (hback : Back g h g') : ReadEnds P N S write g (⟨some err, buf⟩, h) g' :=
  ⟨hback, by simp⟩

/-- The end of a row read that has found a row, or none. -/
theorem follows_foundRow (hT : T.Sound) (hP : h.writeStmt = true → T.Pins c P)
    (hN : ∀ w i, T.meets c (.loadGen i) w → N i) {S : Int → Prop} (gone : HaErr)
    (found : Option HaErr × Image n W × Info n W PK) (hhome : AtHome h g)
    (hread : g.read = .none) (hseen : found.1 = none → g.seen = some found.2.2.currentSlot)
    (hsince : g.since = c.start) (hS : found.1 = none → S found.2.2.currentSlot) :
    Follows T Idle c m (rereadInWriteStmt gone found h >>= fun r => pure (readResult r))
      (ReadEnds P N S h.writeStmt g) g := by
  by_cases hwrite : h.writeStmt = true
  · by_cases herr : found.1 = none
    · refine Follows.then (follows_rereadInWriteStmt hT (hP hwrite) hN gone found hhome hread hseen
        hsince hwrite) ?_
      rintro ⟨err, img, h'⟩ g' ⟨hback, hok⟩
      refine follows_pure ⟨hback, fun _ hnone => ⟨img, rfl, (hok hnone).1, ?_⟩⟩
      have hfile := (hok hnone).2
      show S h'.file.currentSlot
      simp only at hfile
      rw [hfile]
      exact hS herr
    · have hpure : (rereadInWriteStmt gone found h : Core n W PK _) =
          pure (found.1, found.2.1, { h with file := found.2.2 }) := by
        unfold rereadInWriteStmt
        rw [if_neg fun hand => herr hand.1]
      rw [hpure]
      exact follows_pure ⟨(hhome.withFile _).back, fun _ hnone => absurd hnone herr⟩
  · have hpure : (rereadInWriteStmt gone found h : Core n W PK _) =
        pure (found.1, found.2.1, { h with file := found.2.2 }) := by
      unfold rereadInWriteStmt
      rw [if_neg fun hand => hwrite hand.2]
    rw [hpure]
    exact follows_pure ⟨(hhome.withFile _).back, fun hw => absurd hw hwrite⟩

variable (htab : T.cfg = tab.toShareCfg) (hT : T.Sound) (hhome : AtHome h g)
  (hread : g.read = .none)

/-- An operation of the core that left the thread in the middle of nothing. -/
theorem Left.back {g₁ : Role n W} (hleft : Left g g₁) (hhome : AtHome h g) : Back g h g₁ := by
  refine ⟨⟨?_, hleft.locks.trans hhome.locks, hleft.phase⟩, hleft.since, hleft.read⟩
  exact ⟨hleft.rest.walk, hleft.rest.dup, hleft.rest.checked, hleft.rest.free, hleft.rest.chunk,
    hleft.rest.extra, hleft.rest.flipped, rfl⟩

/-- Raising the counter after a write changes no role. -/
theorem turns_fmUpdateAutoIncrement (rec : Image n W) :
    Turns T Idle c m g g (fmUpdateAutoIncrement tab rec) := by
  unfold fmUpdateAutoIncrement
  split
  · exact turns_pure
  · exact turns_autoIncObserve _

theorem turns_nextRecord (auto : Option (AutoRequest n W)) (rec : Image n W) :
    Turns T Idle c m g g (nextRecord auto rec) := by
  unfold nextRecord
  split
  · exact turns_pure
  · unfold getAutoIncrement
    exact ((turns_autoIncReserve _ _ _).bind fun _ => turns_pure).bind fun _ => turns_pure

include htab hT hhome hread in
/-- `write_row`. -/
theorem follows_writeRow (hins : T.kinds .insert)
    (hpublish : ∀ w i rec, T.commits c w (.publish i rec)) (auto : Option (AutoRequest n W))
    (rec : Image n W) :
    Follows T Idle c m (writeRow tab auto rec h) (fun x g' => Back g x.2 g') g := by
  refine Turns.then (turns_nextRecord auto rec) fun rec? => ?_
  cases rec? with
  | none => exact follows_pure hhome.back
  | some rec =>
      have hwrite : Follows T Idle c m (fmWrite tab h.file rec) (fun _ g' => Back g h g') g := by
        unfold fmWrite
        rw [← htab]
        refine Follows.then (follows_insertRow hT hins rec h.file.scratch hhome.phase
          (hhome.resting hread) fun w i => hpublish w i rec) ?_
        rintro r g₁ ⟨-, hleft⟩
        refine follows_ite (fun _ => ?_) fun _ => follows_pure (hleft.back hhome)
        refine Turns.then (turns_fmUpdateAutoIncrement rec) fun _ => ?_
        exact follows_look rfl fun _ => follows_pure (hleft.back hhome)
      refine Follows.then hwrite ?_
      rintro x g₁ hback
      exact follows_pure (hback.withFile x.2)

include hhome in
/-- The guard of `update_row` and `delete_row`. -/
theorem follows_ensureRowLocked :
    Follows T Idle c m (ensureRowLocked h) (fun x g' => Back g x.2 g' ∧ x.2.file = h.file ∧
      (x.1 = true → x.2.rowLocked = true ∧ x.2.lockedSlot = h.file.currentSlot ∧
        (h.rowLocked = true → g' = g))) g := by
  unfold ensureRowLocked
  refine follows_ite
    (fun hheld => follows_pure ⟨hhome.back, rfl, fun _ => ⟨hheld.2.1, hheld.2.2, fun _ => rfl⟩⟩)
    fun _ => ?_
  have hlock : Follows T Idle c m (lockIfUnlocked h)
      (fun h' g' => Back g h' g' ∧ h'.file = h.file ∧ (h.rowLocked = true → g' = g)) g := by
    unfold lockIfUnlocked
    refine follows_ite (fun hcond => ?_) fun _ => follows_pure ⟨hhome.back, rfl, fun _ => rfl⟩
    refine (follows_lockCurrentRow hhome).weaken ?_
    rintro h' g' ⟨rfl, hback, -⟩
    refine ⟨hback, locked_file h, fun hlocked => ?_⟩
    rw [hcond.2.2] at hlocked
    cases hlocked
  refine Follows.then hlock ?_
  rintro h' g' ⟨hback, hfile, hsame⟩
  refine follows_ite (fun hheld => follows_pure ⟨hback, hfile, fun _ => ⟨hheld.1, ?_, hsame⟩⟩)
    fun _ => ?_
  · rw [hheld.2, hfile]
  · refine Follows.then (follows_unlockCurrentRow hback.home) ?_
    rintro h₂ g₂ ⟨rfl, hback₂, -⟩
    exact follows_pure ⟨hback.trans hback₂, (unlocked_file h').trans hfile, by simp⟩

/-- `fm_readcheck` changes no role. -/
theorem turns_fmReadCheck [DecidableEq (Image n W)] (info : Info n W PK) (old : Image n W)
    (hread : g.read = .none) : Turns T Idle c m g g (fmReadCheck info old) := by
  unfold fmReadCheck
  refine turns_ite ?_ turns_pure
  exact (turns_readRow hread _ _ _ _).bind fun _ => turns_ite turns_pure turns_pure

include hhome hread in
/-- What `update_row` and `delete_row` have in common: the guard, the write under the row
lock, and the release of the lock. -/
theorem follows_lockedWrite (write : Info n W PK → Core n W PK (Option HaErr × Info n W PK))
    (hwrite : ∀ h₁ g₁, AtHome h₁ g₁ → g₁.read = .none → AtRow h.file.currentSlot g₁ →
      h₁.file = h.file → (h.rowLocked = true → g₁ = g) →
        Follows T Idle c m (write h₁.file) (fun _ g' => Back g₁ h₁ g') g₁) :
    Follows T Idle c m (do
        let (locked, h) ← ensureRowLocked h
        if locked then
          let (err, info) ← write h.file
          let h ← unlockCurrentRow { h with file := info }
          pure (⟨err, none⟩, h)
        else
          pure (⟨some .recordChanged, none⟩, h))
      (fun (x : HandlerOut n W × Handler n W PK) g' => Back g x.2 g') g := by
  refine Follows.then (follows_ensureRowLocked hhome) ?_
  rintro ⟨locked, h₁⟩ g₁ ⟨hback, hfile, hok⟩
  refine follows_ite (fun hlocked => ?_) fun _ => follows_pure hback
  obtain ⟨hheld, hslot, hsame⟩ := hok hlocked
  have hread₁ : g₁.read = .none := hback.read.trans hread
  refine Follows.then
    (hwrite h₁ g₁ hback.home hread₁ (hback.home.atRow hread₁ hheld hslot) hfile hsame) ?_
  rintro ⟨err, info⟩ g₂ hback₂
  refine Follows.then (follows_unlockCurrentRow (hback₂.withFile info).home) ?_
  rintro h₃ g₃ ⟨-, hback₃, -⟩
  exact follows_pure (hback.trans ((hback₂.withFile info).trans hback₃))

include htab hhome hread in
/-- `update_row`, given what `fm_core_update_row_locked` does. -/
theorem follows_handlerUpdateRow [DecidableEq (Image n W)] (old new : Image n W)
    (hupd : ∀ g₁, AtRow h.file.currentSlot g₁ → Resting g₁ → (h.rowLocked = true → g₁ = g) →
      Follows T Idle c m
        (updateRowLocked T.cfg h.file.currentSlot h.file.currentGen old new h.file.scratch)
        (fun _ g' => Left g₁ g') g₁) :
    Follows T Idle c m (handlerUpdateRow tab old new h) (fun x g' => Back g x.2 g') g := by
  refine follows_lockedWrite hhome hread (fun info => fmUpdateLocked tab info old new)
    fun h₁ g₁ hhome₁ hread₁ hrow hfile hsame => ?_
  unfold fmUpdateLocked
  refine Turns.then (turns_fmReadCheck _ old hread₁) fun stale => ?_
  cases stale with
  | some err => exact follows_pure hhome₁.back
  | none =>
      rw [hfile, ← htab]
      refine Follows.then (hupd g₁ hrow (hhome₁.resting hread₁) hsame) ?_
      rintro r g₂ hleft
      refine follows_ite (fun _ => ?_) fun _ => follows_pure (hleft.back hhome₁)
      exact Turns.then (turns_fmUpdateAutoIncrement new) fun _ => follows_pure (hleft.back hhome₁)

include htab hhome hread in
/-- `delete_row`, given what `fm_core_delete_row_locked` does. -/
theorem follows_handlerDeleteRow [DecidableEq (Image n W)] (old : Image n W)
    (hdel : ∀ g₁, AtRow h.file.currentSlot g₁ → Resting g₁ → (h.rowLocked = true → g₁ = g) →
      Follows T Idle c m (deleteRowLocked T.cfg h.file.currentSlot h.file.currentGen h.file.scratch)
        (fun _ g' => Left g₁ g') g₁) :
    Follows T Idle c m (handlerDeleteRow tab old h) (fun x g' => Back g x.2 g') g := by
  refine follows_lockedWrite hhome hread (fun info => fmDeleteLocked tab info old)
    fun h₁ g₁ hhome₁ hread₁ hrow hfile hsame => ?_
  unfold fmDeleteLocked
  refine Turns.then (turns_fmReadCheck _ old hread₁) fun stale => ?_
  cases stale with
  | some err => exact follows_pure hhome₁.back
  | none =>
      rw [hfile, ← htab]
      refine Follows.then (hdel g₁ hrow (hhome₁.resting hread₁) hsame) ?_
      rintro rc g₂ hleft
      exact follows_ite (fun _ => follows_pure (hleft.back hhome₁)) fun _ =>
        follows_pure (hleft.back hhome₁)

include htab hT hhome hread in
/-- `delete_all_rows`. -/
theorem follows_deleteAllRows (hclear : T.kinds .clear)
    (hflip : ∀ w i, T.meets c (.storeState i .free) w → T.commits c w (.flip i)) :
    Follows T Idle c m (deleteAllRows tab h) (fun x g' => Back g x.2 g') g := by
  have hfm : Follows T Idle c m (fmClear tab h.file) (fun _ g' => Back g h g') g := by
    unfold fmClear
    rw [← htab]
    refine Follows.then (follows_clear hT hclear hhome.phase (hhome.resting hread) hflip) ?_
    exact fun _ g₁ hg₁ => follows_pure (hg₁.2.back hhome)
  exact Follows.then hfm fun info g₁ hback => follows_pure (hback.withFile info)

include hhome in
/-- `reset`. -/
theorem follows_handlerReset : Follows T Idle c m (handlerReset h)
    (fun x g' => Back g x.2 g') g := by
  refine Follows.then (follows_unlockCurrentRow hhome) ?_
  rintro h' g' ⟨-, hback, -⟩
  exact follows_pure (hback.withFile _)

include hhome in
/-- `external_lock` with `F_UNLCK`. -/
theorem follows_externalUnlock : Follows T Idle c m (externalUnlock h)
    (fun x g' => Back g x.2 g') g := by
  have hhome' : AtHome { h with writeStmt := false } g := ⟨hhome.rest, hhome.locks, hhome.phase⟩
  refine Follows.then (follows_unlockCurrentRow hhome') ?_
  rintro h' g' ⟨-, hback, -⟩
  exact follows_pure hback

include hhome in
/-- `rnd_init`. -/
theorem follows_rndInit (scan : Bool) : Follows T Idle c m (rndInit scan h)
    (fun x g' => Back g x.2 g') g := by
  unfold rndInit
  refine follows_ite (fun _ => ?_) fun _ => follows_pure hhome.back
  refine Follows.then (follows_unlockCurrentRow hhome) ?_
  rintro h' g' ⟨-, hback, -⟩
  exact follows_pure (hback.withFile _)

end FastMem
