import FastMem.Events
import FastMem.RecycledReads

/-!
# The writes of a row, one after the other

An update commits when it makes the sequence number of its slot odd, a delete when it
marks its slot DELETING.  The commits between the insert that makes a slot ACTIVE and the
next one are what has become of one row.  If every write was computed from the image the
slot holds when it commits, they are a serial chain: each was computed from what the one
before it has left, and none comes after a delete.
-/

namespace FastMem

open Conc

/-- A write: the value it was computed from, and the value it leaves, if it leaves one. -/
structure Rewrite (α : Type) where
  old : α
  new : Option α

/-- What writes leave of the value `x`, the latest write first. -/
def leaves {α : Type} (x : α) : List (Rewrite α) → Option α
  | [] => some x
  | u :: _ => u.new

/-- Each write was computed from what the writes before it have left. -/
def SerialFrom {α : Type} (x : α) : List (Rewrite α) → Prop
  | [] => True
  | u :: us => leaves x us = some u.old ∧ SerialFrom x us

variable {n : Nat} {W PK Op Out : Type}

/-- The write with which a step commits to slot `i`: that of an update when the sequence
number is about to become odd, that of a delete when the slot is about to be DELETING. -/
def commitTo (write : Op → Option (Rewrite (Image n W))) (i : Int) (e : CoreEntry n W PK Op) :
    Option (Rewrite (Image n W)) :=
  match e.act with
  | .addSeq j => if j = i ∧ e.mem.seq i % 2 = 0 then write e.call.op else none
  | .storeState j .deleting => if j = i then write e.call.op else none
  | _ => none

/-- Whether a step makes slot `i` ACTIVE. -/
def insertsIn (i : Int) (e : CoreEntry n W PK Op) : Bool :=
  match e.act with
  | .storeState j .active => decide (j = i)
  | _ => false

/-- The last row that slot `i` was made ACTIVE with: the image it was inserted with, and
the writes that have been committed to it since, the latest first. -/
def rowLife (write : Op → Option (Rewrite (Image n W))) (i : Int) :
    List (CoreEntry n W PK Op) → Option (Image n W × List (Rewrite (Image n W)))
  | [] => none
  | e :: es =>
    if insertsIn i e then some (e.mem.data i, [])
    else
      match commitTo write i e with
      | some u => (rowLife write i es).map fun life => (life.1, u :: life.2)
      | none => rowLife write i es

/-- The image the row in slot `i` should have, if it should be there. -/
def leftIn (write : Op → Option (Rewrite (Image n W))) (i : Int)
    (past : List (CoreEntry n W PK Op)) : Option (Image n W) :=
  (rowLife write i past).bind fun life => leaves life.1 life.2

section

variable {write : Op → Option (Rewrite (Image n W))} {i : Int} {e : CoreEntry n W PK Op}
  {es : List (CoreEntry n W PK Op)}

/-- The first bump of an image write commits it. -/
theorem commitTo_bump (he : e.act = .addSeq i) (heven : e.mem.seq i % 2 = 0) :
    commitTo write i e = write e.call.op := by
  simp [commitTo, he, heven]

/-- The mark commits a delete. -/
theorem commitTo_mark (he : e.act = .storeState i .deleting) :
    commitTo write i e = write e.call.op := by
  simp [commitTo, he]

/-- An insert begins the life of a row. -/
theorem rowLife_insert (he : insertsIn i e = true) : rowLife write i (e :: es) = some
    (e.mem.data i, []) := by
  rw [rowLife, if_pos he]

/-- A commit goes on with it. -/
theorem rowLife_commit {u : Rewrite (Image n W)} (he : insertsIn i e = false)
    (hu : commitTo write i e = some u) :
    rowLife write i (e :: es) = (rowLife write i es).map fun life => (life.1, u :: life.2) := by
  rw [rowLife, if_neg (by simp [he]), hu]

/-- Nothing else does. -/
theorem rowLife_other (he : insertsIn i e = false) (hu : commitTo write i e = none) :
    rowLife write i (e :: es) = rowLife write i es := by
  rw [rowLife, if_neg (by simp [he]), hu]

/-- A step that does nothing to the sequence number and the state of the slot is nothing
in the life of its row. -/
theorem rowLife_apart (hseq : e.act ≠ .addSeq i) (hstate : ∀ x, e.act ≠ .storeState i x) :
    rowLife write i (e :: es) = rowLife write i es := by
  apply rowLife_other
  · unfold insertsIn
    split
    · rename_i j hact
      exact decide_eq_false fun hj => hstate _ (hj ▸ hact)
    · rfl
  · unfold commitTo
    split
    · rename_i j hact
      rw [if_neg]
      rintro ⟨rfl, -⟩
      exact hseq hact
    · rename_i j hact
      rw [if_neg]
      rintro rfl
      exact hstate _ hact
    · rfl

end

section

variable {cfg : ShareCfg n W PK} {K : Kind → Prop} {G : Commit n W → Prop} {now : Nat}
  {s s' : Share n W} {g g' : Role n W} {a : Act n W} {r : a.Res} {γ : Nat → Role n W}
  {w : CoreWorld n W PK Op Out}
    {c : Call Op} {i : Int}
  {T : Setting n W PK Op Out}

/-- Who bumps a sequence number: an update on its way into an image write, or out of it. -/
theorem Step.bumpSeq {r : Unit} (h : Step cfg K G now s g (.addSeq i) r g') :
    g.slot = i ∧
    ((g.phase = .row ∧ ∃ old new, G (.write i old new) ∧ g'.phase = .write ∧ g'.slot = i ∧
        g'.target = some new) ∨
      g.phase = .write ∧ g'.phase ≠ .write ∧ ∃ new, g.target = some new ∧
        g.words = allWords new) := by
  cases h with
  | image hs =>
      cases hs with
      | begin kind phase commit => exact ⟨rfl, Or.inl ⟨phase, _, _, commit, rfl, rfl, rfl⟩⟩
      | finish phase target words commit after =>
          exact ⟨rfl, Or.inr ⟨phase, by grind, _, target, words⟩⟩
  | view hs => cases hs with | look passive => cases passive
  | read hs => cases hs with | miss passive => cases passive
  | lock hs | free hs | grow hs | slot hs | chain hs | dup hs | note hs => cases hs

/-- Who changes the state of a slot. -/
theorem Step.restates {x : SlotState} {r : Unit} (h : Step cfg K G now s g (.storeState i x) r g') :
    x = .active ∧ g.phase = .fill ∧ g.slot = i ∨ x = .deleting ∧ g.phase = .row ∧ g.slot = i ∧ G
      (.mark i) ∨ x = .deleted ∧ g.phase = .del ∧ g.slot = i ∨ x = .free ∧ G (.flip i) := by
  cases h with
  | slot hs =>
      cases hs with
      | publish phase => exact Or.inl ⟨rfl, phase, rfl⟩
      | mark kind phase commit => exact Or.inr (Or.inl ⟨rfl, phase, rfl, commit⟩)
      | bury phase => exact Or.inr (Or.inr (Or.inl ⟨rfl, phase, rfl⟩))
      | flip kind phase held commit => exact Or.inr (Or.inr (Or.inr ⟨rfl, commit⟩))
  | view hs => cases hs with | look passive => cases passive
  | read hs => cases hs with | miss passive => cases passive
  | lock hs | free hs | grow hs | image hs | chain hs | dup hs | note hs => cases hs

/-- A thread begins an image write by bumping the sequence number. -/
theorem Step.wasWriting (h : Step cfg K G now s g a r g') (ha : ∀ i, a ≠ .addSeq i)
    (hphase : g'.phase = .write) : g.phase = .write := by
  cases h with
  | lock hs => cases hs <;> grind
  | view hs => cases hs <;> grind
  | free hs => cases hs <;> grind
  | grow hs => cases hs <;> grind
  | slot hs => cases hs <;> grind
  | image hs => cases hs <;> grind
  | chain hs => cases hs <;> grind
  | dup hs => cases hs <;> grind
  | read hs => cases hs <;> grind
  | note hs => cases hs <;> grind

/-- A thread in the middle of an image write stays in it until it bumps the sequence number. -/
theorem Step.keepsWriting (h : Step cfg K G now s g a r g') (hphase : g.phase = .write)
    (ha : a ≠ .addSeq g.slot) : g'.phase = .write ∧ g'.slot = g.slot ∧ g'.target = g.target := by
  cases h with
  | lock hs => cases hs <;> grind
  | view hs => cases hs <;> grind
  | free hs => cases hs <;> grind
  | grow hs => cases hs <;> grind
  | slot hs => cases hs <;> grind
  | image hs => cases hs <;> grind
  | chain hs => cases hs <;> grind
  | dup hs => cases hs <;> grind
  | read hs => cases hs <;> grind
  | note hs => cases hs <;> grind

/-- What a setting must know of its commits: which write of the call it is, and that the
slot holds the image the write was computed from.  Nothing is cleared. -/
structure Setting.Rewrites (T : Setting n W PK Op Out) (write : Op → Option (Rewrite (Image n W))) :
    Prop where
  sound : T.Sound
  update : ∀ c w i old new, T.commits c w (.write i old new) →
    write c.op = some ⟨old, some new⟩ ∧ w.mem.data i = old
  delete : ∀ c w i, T.commits c w (.mark i) → ∃ old, write c.op = some ⟨old, none⟩ ∧
    w.mem.data i = old
  flip : ∀ c w i, ¬ T.commits c w (.flip i)

/-- A thread is in the middle of writing `x` to slot `i`. -/
def Writing (γ : Nat → Role n W) (i : Int) (x : Image n W) : Prop :=
  ∃ t, (γ t).phase = .write ∧ (γ t).slot = i ∧ (γ t).target = some x

/-- Slot `i` holds `x`, or will when a thread has written it. -/
def Becoming (s : Share n W) (γ : Nat → Role n W) (i : Int) (x : Image n W) : Prop :=
  Writing γ i x ∨ s.seq i % 2 = 0 ∧ s.data i = x

/-- The row in slot `i` has come about by a serial chain of writes, and is what they leave. -/
structure Chained (write : Op → Option (Rewrite (Image n W))) (w : CoreWorld n W PK Op Out)
    (γ : Nat → Role n W) (i : Int) : Prop where
  serial : ∀ life ∈ rowLife write i w.past, SerialFrom life.1 life.2
  gone : leftIn write i w.past = none → w.mem.state i ≠ .active
  there : ∀ x, leftIn write i w.past = some x → w.mem.state i = .active ∧ Becoming w.mem γ i x

variable {write : Op → Option (Rewrite (Image n W))}

/-- The row of an ACTIVE slot whose image nobody rewrites is what its writes leave. -/
theorem Chained.current (h : Chained write w γ i) (himages : Images w.mem γ)
    (hactive : w.mem.state i = .active)
    (heven : w.mem.seq i % 2 = 0) : leftIn write i w.past = some (w.mem.data i) := by
  cases hleft : leftIn write i w.past with
  | none => exact absurd hactive (h.gone hleft)
  | some x =>
      obtain ⟨-, ⟨t, hwrite, hslot, -⟩ | ⟨-, hdata⟩⟩ := h.there x hleft
      · have hodd := (himages.odd i).mpr ⟨t, hwrite, hslot⟩
        omega
      · rw [hdata]

/-- A step that leaves the state of the slot alone, and is no commit to it. -/
theorem Chained.keep (h : Chained write w γ i)
    (hpast : rowLife write i (w.push c a s').past = rowLife write i w.past)
    (hstate : s'.state i = w.mem.state i)
    (hbecoming : ∀ x, w.mem.state i = .active → Becoming w.mem γ i x →
      Becoming s' (Function.update γ c.tid g') i x) :
    Chained write (w.push c a s') (Function.update γ c.tid g') i := by
  have hleft : leftIn write i (w.push c a s').past = leftIn write i w.past := by
    unfold leftIn
    rw [hpast]
  constructor
  case serial =>
    rw [hpast]
    exact h.serial
  case gone =>
    rw [hleft, World.push_mem, hstate]
    exact h.gone
  case there =>
    intro x hx
    rw [hleft] at hx
    obtain ⟨hactive, hx⟩ := h.there x hx
    rw [World.push_mem, hstate]
    exact ⟨hactive, hbecoming x hactive hx⟩

/-- A commit, of a write that was computed from the row as it is. -/
theorem Chained.commit {u : Rewrite (Image n W)} (h : Chained write w γ i)
    (himages : Images w.mem γ) (hactive : w.mem.state i = .active) (heven : w.mem.seq i % 2 = 0)
    (hold : w.mem.data i = u.old)
    (hcommit : rowLife write i (w.push c a s').past = (rowLife write i w.past).map fun life =>
      (life.1, u :: life.2))
    (hgone : u.new = none → s'.state i ≠ .active)
    (hthere : ∀ x, u.new = some x → s'.state i = .active ∧
      Becoming s' (Function.update γ c.tid g') i x) :
    Chained write (w.push c a s') (Function.update γ c.tid g') i := by
  have hcurrent := h.current himages hactive heven
  obtain ⟨life, hlife, hleft⟩ := Option.bind_eq_some_iff.mp hcurrent
  have hpast : rowLife write i (w.push c a s').past = some (life.1, u :: life.2) := by
    rw [hcommit, hlife]
    rfl
  have hnew : leftIn write i (w.push c a s').past = u.new := by
    unfold leftIn
    rw [hpast]
    rfl
  constructor
  case serial =>
    intro life' hmem
    rw [hpast] at hmem
    cases hmem
    exact ⟨hleft.trans (congrArg some hold), h.serial life hlife⟩
  case gone =>
    rw [hnew]
    exact hgone
  case there =>
    rw [hnew]
    exact hthere

section

variable (hT : T.Rewrites write) (hslots : Slots T.cfg w.mem γ) (himages : Images w.mem γ)
  (hlocked : Locked T.cfg w.mem γ) (hexec : exec T.cfg c.tid a w.mem = some (r, s'))
  (hstep : Step T.cfg T.kinds (T.commits c w) w.now w.mem (γ c.tid) a r g')

include hstep in
/-- An image write is under way until its sequence number is bumped again. -/
theorem Writing.keep {x : Image n W} (h : Writing γ i x) (ha : a ≠ .addSeq i) :
    Writing (Function.update γ c.tid g') i x := by
  obtain ⟨t, hwrite, hslot, htarget⟩ := h
  by_cases ht : t = c.tid
  · subst ht
    obtain ⟨hwrite', hslot', htarget'⟩ := hstep.keepsWriting hwrite (by rw [hslot]; exact ha)
    refine ⟨c.tid, ?_⟩
    rw [Function.update_self]
    exact ⟨hwrite', hslot'.trans hslot, htarget'.trans htarget⟩
  · refine ⟨t, ?_⟩
    rw [Function.update_of_ne ht]
    exact ⟨hwrite, hslot, htarget⟩

include hstep in
/-- A step that does not touch the image or the sequence number of the slot. -/
theorem Becoming.keep {x : Image n W} (h : Becoming w.mem γ i x) (ha : a ≠ .addSeq i)
    (hseq : s'.seq i = w.mem.seq i)
    (hdata : s'.data i = w.mem.data i) : Becoming s' (Function.update γ c.tid g') i x := by
  obtain hwriting | ⟨heven, hx⟩ := h
  · exact Or.inl (hwriting.keep hstep ha)
  · exact Or.inr ⟨hseq.symm ▸ heven, hdata.trans hx⟩

include hT hslots himages hlocked hexec hstep in
/-- A bump keeps the writes of the row chained. -/
theorem Chained.addSeq (h : Chained write w γ i) (ha : a = .addSeq i) :
    Chained write (w.push c a s') (Function.update γ c.tid g') i := by
  subst ha
  obtain ⟨rfl, ⟨hrow, old, new, hcommit, hphase, hslot, htarget⟩ |
    ⟨hwrite, -, new, htarget, hwords⟩⟩ := hstep.bumpSeq
  · -- the commit of an update
    have hactive := (hslots.mine c.tid).active (by rw [hrow]; rfl)
    have hheld := (hlocked.ok c.tid).rowed (by rw [hrow]; rfl)
    have heven := even_of_held hlocked himages hheld (by simp [hrow])
    obtain ⟨hwrites, hold⟩ := hT.update c w _ old new hcommit
    cases hexec
    apply h.commit (u := ⟨old, some new⟩) himages hactive heven hold
    · apply rowLife_commit
      · rfl
      · exact (commitTo_bump rfl heven).trans hwrites
    · simp
    · rintro x hx
      cases hx
      refine ⟨hactive, Or.inl ⟨c.tid, ?_⟩⟩
      rw [Function.update_self]
      exact ⟨hphase, hslot, htarget⟩
  · -- its image is complete
    have hodd := (himages.odd (γ c.tid).slot).mpr ⟨c.tid, hwrite, rfl⟩
    have himage := (himages.seen c.tid).image (by rw [hwrite]; rfl) hwords
    have hlock := (hlocked.ok c.tid).rowed (by rw [hwrite]; rfl)
    cases hexec
    apply h.keep
    · apply rowLife_other
      · rfl
      · simp [commitTo, hodd]
    · rfl
    · intro x _ hx
      obtain ⟨t, hwrite', hslot, htarget'⟩ | ⟨heven, -⟩ := hx
      · have hlock' := (hlocked.ok t).rowed (by rw [hwrite']; rfl)
        rw [hslot] at hlock'
        obtain rfl := hlocked.eq hlock' hlock
        obtain rfl : new = x := Option.some.inj (htarget.symm.trans htarget')
        refine Or.inr ⟨?_, himage⟩
        simp only [Function.update_self]
        omega
      · omega

include hslots himages hexec hstep in
theorem Chained.storeWord (h : Chained write w γ i) {j : Fin n} {y : W}
    (ha : a = .storeWord i j y) : Chained write (w.push c a s') (Function.update γ c.tid g') i := by
  subst ha
  obtain ⟨hslot, hphase⟩ := hstep.storeWord
  cases hexec
  apply h.keep
  · apply rowLife_apart
    · simp
    · simp
  · rfl
  · intro x hactive hx
    obtain ⟨hfill, -⟩ | hwrite := hphase
    · have howns : (γ c.tid).Owns i := Or.inl ⟨by rw [hfill]; rfl, hslot⟩
      exact absurd hactive ((hslots.mine c.tid).not_active howns)
    · have hodd := (himages.odd i).mpr ⟨c.tid, hwrite, hslot⟩
      obtain hwriting | ⟨heven, -⟩ := hx
      · exact Or.inl (hwriting.keep hstep (by simp))
      · omega

include hT hslots himages hlocked hexec hstep in
theorem Chained.storeState (h : Chained write w γ i) {x : SlotState} (ha : a = .storeState i x) :
    Chained write (w.push c a s') (Function.update γ c.tid g') i := by
  subst ha
  cases hexec
  obtain ⟨rfl, hfill, rfl⟩ | ⟨rfl, hrow, rfl, hcommit⟩ | ⟨rfl, hdel, rfl⟩ | ⟨rfl, hcommit⟩ :=
    hstep.restates
  · -- a new row
    have hnot :=
      (hslots.mine c.tid).not_active (i := (γ c.tid).slot) (Or.inl ⟨by rw [hfill]; rfl, rfl⟩)
    have heven : w.mem.seq (γ c.tid).slot % 2 = 0 := by
      by_contra hodd
      obtain ⟨t, hwrite, hslot⟩ := (himages.odd (γ c.tid).slot).mp (by omega)
      have hactive := (hslots.mine t).active (by rw [hwrite]; rfl)
      rw [hslot] at hactive
      exact hnot hactive
    have hpast : rowLife write (γ c.tid).slot
        (⟨c, .storeState (γ c.tid).slot .active, w.mem⟩ :: w.past) =
        some (w.mem.data (γ c.tid).slot, []) := by
      apply rowLife_insert
      simp [insertsIn]
    constructor
    case serial =>
      intro life hlife
      rw [World.push_past, hpast] at hlife
      cases hlife
      trivial
    case gone =>
      intro hnone
      rw [World.push_past, leftIn, hpast] at hnone
      cases hnone
    case there =>
      intro x hx
      rw [World.push_past, leftIn, hpast] at hx
      cases hx
      exact ⟨by simp, Or.inr ⟨heven, rfl⟩⟩
  · -- the commit of a delete
    have hactive := (hslots.mine c.tid).active (by rw [hrow]; rfl)
    have hheld := (hlocked.ok c.tid).rowed (by rw [hrow]; rfl)
    have heven := even_of_held hlocked himages hheld (by simp [hrow])
    obtain ⟨old, hwrites, hold⟩ := hT.delete c w _ hcommit
    apply h.commit (u := ⟨old, none⟩) himages hactive heven hold
    · apply rowLife_commit
      · rfl
      · exact (commitTo_mark rfl).trans hwrites
    · simp
    · exact nofun
  · -- the end of a delete
    have hnot :=
      (hslots.mine c.tid).not_active (i := (γ c.tid).slot) (Or.inl ⟨by rw [hdel]; rfl, rfl⟩)
    have hpast : rowLife write (γ c.tid).slot
        (⟨c, .storeState (γ c.tid).slot .deleted, w.mem⟩ :: w.past) =
        rowLife write (γ c.tid).slot w.past := rowLife_other rfl rfl
    constructor
    case serial =>
      rw [World.push_past, hpast]
      exact h.serial
    case gone => simp
    case there =>
      intro x hx
      rw [World.push_past, leftIn, hpast] at hx
      exact absurd (h.there x hx).1 hnot
  · exact absurd hcommit (hT.flip c w i)

include hT hslots himages hlocked hexec hstep in
/-- **Every step keeps the rows what their writes leave.** -/
theorem Chained.push (h : Chained write w γ i) : Chained write (w.push c a s')
    (Function.update γ c.tid g') i := by
  obtain ⟨ha, -⟩ | ⟨⟨j, y, ha⟩, -⟩ | ⟨k, rfl, hk⟩ | ⟨hne, hword, hseq, hdata⟩ := exec_image i hexec
  · exact h.addSeq hT hslots himages hlocked hexec hstep ha
  · exact h.storeWord hslots himages hexec hstep ha
  · -- a chunk is built: its slots are nobody's yet
    have hnot : w.mem.state i ≠ .active := fun hactive =>
      not_grown_of_initSlots hslots hstep hk (hslots.grown_of_active hactive)
    have hpast : rowLife write i (w.push c (.initSlots k) s').past = rowLife write i w.past :=
      rowLife_apart (by simp) (by simp)
    cases hexec
    constructor
    case serial =>
      rw [hpast]
      exact h.serial
    case gone => simp [hk]
    case there =>
      intro x hx
      rw [leftIn, hpast] at hx
      exact absurd (h.there x hx).1 hnot
  · by_cases hstate : ∃ x, a = .storeState i x
    · obtain ⟨x, ha⟩ := hstate
      exact h.storeState hT hslots himages hlocked hexec hstep ha
    · apply h.keep
      · exact rowLife_apart hne fun x ha => hstate ⟨x, ha⟩
      · obtain ⟨x, ha, -⟩ | ⟨-, hsame, -⟩ | ⟨⟨j, y, ha⟩, -⟩ | ⟨k, rfl, hk, -⟩ | ⟨-, hsame, -⟩ :=
          exec_slot i hexec
        · exact absurd ⟨x, ha⟩ hstate
        · exact hsame
        · exact absurd ha (hword j y)
        · have hnot := not_grown_of_initSlots hslots hstep hk
          rw [hslots.ungrown i hnot]
          cases hexec
          simp [hk]
        · exact hsame
      · exact fun x _ hx => hx.keep hstep hne hseq hdata

end

/-- **The rows of every trace are what their writes leave.** -/
theorem trace_chained (hT : T.Rewrites write) (h : T.Trace w γ) : ∀ i, Chained write w γ i := by
  have hfresh := hT.sound.1
  have hclear := hT.sound.2
  induction h with
  | init =>
      intro i
      obtain ⟨data, hdata⟩ := hfresh
      refine ⟨nofun, fun _ => ?_, nofun⟩
      rw [hdata]
      simp [Share.fresh]
  | @start w γ t _ ih =>
      intro i
      refine ⟨(ih i).serial, (ih i).gone, fun x hx => ?_⟩
      obtain ⟨hactive, ⟨u, hu⟩ | hsettled⟩ := (ih i).there x hx
      · refine ⟨hactive, Or.inl ⟨u, ?_⟩⟩
        by_cases hut : u = t
        · subst hut
          rw [Function.update_self]
          exact hu
        · rw [Function.update_of_ne hut]
          exact hu
      · exact ⟨hactive, Or.inr hsettled⟩
  | act before _ hexec hstep ih =>
      intro i
      exact (ih i).push hT (trace_slots hfresh hclear before) (trace_images hfresh hclear before)
        (trace_locked hfresh.owner before) hexec hstep
  | stop _ _ ih => exact fun i => ⟨(ih i).serial, (ih i).gone, (ih i).there⟩

/-- Every commit of a trace is of a write that was computed from the image the slot holds
then. -/
theorem trace_commits (hT : T.Rewrites write) (h : T.Trace w γ) :
    ∀ e ∈ w.past, ∀ i u, commitTo write i e = some u → e.mem.state i = .active ∧
    e.mem.data i = u.old := by
  have hfresh := hT.sound.1
  have hclear := hT.sound.2
  induction h with
  | init => simp
  | start _ _ ih => exact ih
  | @act w γ c a r s g before _ _ hstep ih =>
      intro e he i u hu
      obtain rfl | he := List.mem_cons.mp he
      · have hslots := trace_slots hfresh hclear before
        have hrowed : (γ c.tid).phase = .row → w.mem.state (γ c.tid).slot = .active := fun hrow =>
          (hslots.mine c.tid).active (by rw [hrow]; rfl)
        unfold commitTo at hu
        split at hu
        · rename_i j hact
          simp only at hact hu
          subst hact
          obtain ⟨hslot, ⟨hrow, old, new, hcommit, -⟩ | ⟨hwrite, -⟩⟩ := hstep.bumpSeq
          · obtain ⟨hwrites, hold⟩ := hT.update c w _ old new hcommit
            split at hu
            · rename_i hj
              obtain rfl := hj.1
              cases hwrites.symm.trans hu
              exact ⟨hslot ▸ hrowed hrow, hold⟩
            · cases hu
          · have hodd := ((trace_images hfresh hclear before).odd j).mpr ⟨c.tid, hwrite, hslot⟩
            split at hu
            · rename_i hj
              rw [hj.1] at hodd
              omega
            · cases hu
        · rename_i j hact
          simp only at hact hu
          subst hact
          obtain ⟨hx, -⟩ | ⟨-, hrow, hslot, hcommit⟩ | ⟨hx, -⟩ | ⟨hx, -⟩ := hstep.restates
          · cases hx
          · obtain ⟨old, hwrites, hold⟩ := hT.delete c w _ hcommit
            split at hu
            · rename_i hj
              subst hj
              cases hwrites.symm.trans hu
              exact ⟨hslot ▸ hrowed hrow, hold⟩
            · cases hu
          · cases hx
          · cases hx
        · cases hu
      · exact ih e he i u hu
  | stop _ _ ih => exact ih

/-- The step bumps a sequence number. -/
def Act.bumps : Act n W → Bool
  | .addSeq _ => true
  | _ => false

/-- The step bumps a sequence number that is even. -/
def Odden (e : CoreEntry n W PK Op) : Prop := ∃ i, e.act = .addSeq i ∧ e.mem.seq i % 2 = 0

/-- The bumps of thread `t`. -/
def bumpsBy (t : Nat) (past : List (CoreEntry n W PK Op)) : List (CoreEntry n W PK Op) :=
  (System.doneBy t past).filter fun e => e.act.bumps

/-- A thread in the middle of an image write has made the sequence number odd, and of two
bumps one after the other one is of this kind. -/
structure BumpsPair (past : List (CoreEntry n W PK Op)) (γ : Nat → Role n W) (t : Nat) : Prop where
  writing : (γ t).phase = .write → ∃ e es, bumpsBy t past = e :: es ∧ Odden e
  pair : ∀ es e₂ e₁ es', bumpsBy t past = es ++ e₂ :: e₁ :: es' → Odden e₂ ∨ Odden e₁

/-- The bumps of a thread, one access at a time. -/
theorem bumpsBy_cons {t : Nat} {e : CoreEntry n W PK Op} {es : List (CoreEntry n W PK Op)} :
    bumpsBy t (e :: es) = if e.call.tid = t ∧ e.act.bumps = true then e :: bumpsBy t es
    else bumpsBy t es := by
  unfold bumpsBy System.doneBy
  by_cases ht : e.call.tid = t
  · by_cases ha : e.act.bumps = true
    · simp [ht, ha]
    · simp [ht, ha]
  · simp [ht]

/-- Every two bumps of a thread, one after the other, are the two ends of an image write
or have one between them. -/
theorem trace_bumps (hT : T.Sound) (h : T.Trace w γ) : ∀ t, BumpsPair w.past γ t := by
  induction h with
  | init => exact fun t => ⟨by simp [Role.init], by simp [bumpsBy, System.doneBy]⟩
  | @start w γ t _ ih =>
      intro u
      refine ⟨fun hwrite => (ih u).writing ?_, (ih u).pair⟩
      by_cases hu : u = t
      · subst hu
        rw [Function.update_self] at hwrite
        exact hwrite
      · rw [Function.update_of_ne hu] at hwrite
        exact hwrite
  | @act w γ c a r s g before _ _ hstep ih =>
      intro t
      by_cases ha : c.tid = t ∧ a.bumps = true
      · obtain ⟨rfl, ha⟩ := ha
        obtain ⟨i, rfl⟩ : ∃ i, a = .addSeq i := by
          cases a with
          | addSeq i => exact ⟨i, rfl⟩
          | _ => cases ha
        have hcons : bumpsBy c.tid (w.push c (.addSeq i) s).past = ⟨c, .addSeq i, w.mem⟩ ::
            bumpsBy c.tid w.past := by
          rw [World.push_past, bumpsBy_cons, if_pos ⟨rfl, rfl⟩]
        obtain ⟨hslot, ⟨hrow, -⟩ | ⟨hwrite, hleft, -⟩⟩ := hstep.bumpSeq
        · have hheld := ((trace_locked hT.1.owner before).ok c.tid).rowed (by rw [hrow]; rfl)
          have heven :=
            even_of_held (trace_locked hT.1.owner before) (trace_images hT.1 hT.2 before)
              hheld (by simp [hrow])
          have hodden : Odden (⟨c, .addSeq i, w.mem⟩ : CoreEntry n W PK Op) :=
            ⟨i, rfl, hslot ▸ heven⟩
          refine ⟨fun _ => ⟨_, _, hcons, hodden⟩, fun es e₂ e₁ es' hes => ?_⟩
          rw [hcons] at hes
          cases es with
          | nil =>
              obtain ⟨rfl, -⟩ := List.cons.inj hes
              exact Or.inl hodden
          | cons e es => exact (ih c.tid).pair es e₂ e₁ es' (List.cons.inj hes).2
        · obtain ⟨e, es₀, hbumps, hodden⟩ := (ih c.tid).writing hwrite
          refine ⟨fun hphase => ?_, fun es e₂ e₁ es' hes => ?_⟩
          · rw [Function.update_self] at hphase
            exact absurd hphase hleft
          · rw [hcons] at hes
            cases es with
            | nil =>
                have holder := (List.cons.inj hes).2
                rw [hbumps] at holder
                obtain ⟨rfl, -⟩ := List.cons.inj holder
                exact Or.inr hodden
            | cons e' es => exact (ih c.tid).pair es e₂ e₁ es' (List.cons.inj hes).2
      · have hsame : bumpsBy t (w.push c a s).past = bumpsBy t w.past := by
          rw [World.push_past, bumpsBy_cons, if_neg ha]
        refine ⟨fun hwrite => ?_, by rw [hsame]; exact (ih t).pair⟩
        rw [hsame]
        apply (ih t).writing
        by_cases ht : t = c.tid
        · subst ht
          rw [Function.update_self] at hwrite
          exact hstep.wasWriting (fun i hi => ha ⟨rfl, by rw [hi]; rfl⟩) hwrite
        · rw [Function.update_of_ne ht] at hwrite
          exact hwrite
  | stop _ _ ih => exact fun t => ⟨(ih t).writing, (ih t).pair⟩

/-- Of two bumps of a thread among the last things it has done one is of an even number. -/
theorem BumpsPair.odden_of_two {t : Nat} {past mine older : List (CoreEntry n W PK Op)}
    (h : BumpsPair past γ t) (hdone : System.doneBy t past = mine ++ older)
    (htwo : (mine.filter fun e => e.act.bumps).length = 2) : ∃ e ∈ mine, Odden e := by
  obtain ⟨e₂, e₁, hpair⟩ := List.length_eq_two.mp htwo
  have hby : bumpsBy t past = [] ++ e₂ :: e₁ :: older.filter fun e => e.act.bumps := by
    unfold bumpsBy
    rw [hdone, List.filter_append, hpair]
    rfl
  have hin : ∀ e, e = e₂ ∨ e = e₁ → e ∈ mine := by
    intro e he
    apply List.mem_of_mem_filter (p := fun e => e.act.bumps)
    rw [hpair]
    simpa using he
  obtain h₂ | h₁ := h.pair _ _ _ _ hby
  · exact ⟨e₂, hin e₂ (Or.inl rfl), h₂⟩
  · exact ⟨e₁, hin e₁ (Or.inr rfl), h₁⟩

/-- The bumps among the accesses that `ev` keeps. -/
theorem bumps_of_filterMap {ev : Act n W → Option (Act n W)}
    (hbumps : ∀ a, a.bumps = true → ev a = some a) (hsame : ∀ a b, ev a = some b → a = b)
    (es : List (CoreEntry n W PK Op)) :
    ((es.map Entry.act).filterMap ev).filter Act.bumps =
    (es.filter fun e => e.act.bumps).map Entry.act := by
  induction es with
  | nil => rfl
  | cons e es ih =>
    rw [List.map_cons]
    by_cases ha : e.act.bumps = true
    · rw [List.filterMap_cons_some (hbumps _ ha), List.filter_cons_of_pos ha, ih,
        List.filter_cons_of_pos (by exact ha), List.map_cons]
    · rw [List.filter_cons_of_neg (by exact ha), ← ih]
      cases hother : ev e.act with
      | none => rw [List.filterMap_cons_none hother]
      | some a =>
        obtain rfl := hsame _ _ hother
        rw [List.filterMap_cons_some hother, List.filter_cons_of_neg ha]

end

end FastMem
