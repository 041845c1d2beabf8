import FastMem.AnyCalls
import FastMem.HandlerLocks
import FastMem.StandingRows
import FastMem.WriteChain

/-!
# The slots are a table of rows

A table of rows says which slots hold a row, with which generation and which image.  The calls
edit such a table: an insert puts a row into a slot that holds none, an update rewrites the row
it names, a delete takes it away, and a clear empties slots.  Each edit is made with one access:
the store that makes the slot ACTIVE, the bump that makes its sequence number odd, the store that
makes it DELETING, and the store that makes it FREE.

The slots show at every moment the table that the edits so far have left, and every edit was
allowed on the table the edits before it had left.  A read returns a row that the table had at
some moment of the call.
-/

namespace FastMem

open Conc

variable {n : Nat} {W PK : Type}

/-- The generation and the image of the row in each slot that holds one. -/
abbrev Rows (n : Nat) (W : Type) := Int → Option (Nat × Image n W)

/-- What one call does to a table of rows. -/
inductive Edit (n : Nat) (W : Type)
  | insert (i : Int) (u : Nat) (img : Image n W)
  | rewrite (i : Int) (u : Nat) (img : Image n W)
  | delete (i : Int) (u : Nat)
  | clear (i : Int)

namespace Edit

def slot : Edit n W → Int
  | insert i _ _ | rewrite i _ _ | delete i _ | clear i => i

/-- The row that an edit leaves in its slot. -/
def row : Edit n W → Option (Nat × Image n W)
  | insert _ u img | rewrite _ u img => some (u, img)
  | delete .. | clear _ => none

def apply (e : Edit n W) (V : Rows n W) : Rows n W := Function.update V e.slot e.row

/-- A row is put where none is, and a row is rewritten or deleted under its own generation. -/
def Allowed (V : Rows n W) : Edit n W → Prop
  | insert i _ _ => V i = none
  | rewrite i u _ | delete i u => ∃ img, V i = some (u, img)
  | clear _ => True

/-- An edit of a slot says what is in it afterwards. -/
theorem apply_self {e : Edit n W} {V : Rows n W} {i : Int} (h : e.slot = i) :
    e.apply V i = e.row := by
  rw [apply, h, Function.update_self]

/-- It leaves the other slots alone. -/
theorem apply_other {e : Edit n W} {V : Rows n W} {i : Int} (h : e.slot ≠ i) : e.apply V i = V i :=
  Function.update_of_ne (Ne.symm h) _ _

end Edit

/-- The edit a call makes of slot `i`, whose generation is `u`. -/
def CoreOp.edit (i : Int) (u : Nat) : CoreOp n W PK → Option (Edit n W)
  | .insertRow rec _ => some (.insert i u rec)
  | .updateRow idx v _ new _ | .updateRowLocked idx v _ new _ =>
    if idx = i ∧ v = u then some (.rewrite i u new) else none
  | .deleteRow idx v _ | .deleteRowLocked idx v _ =>
      if idx = i ∧ v = u then some (.delete i u) else none
  | .clear => some (.clear i)
  | .find .. | .findNext .. | .readRow .. | .scanNext .. | .lockRow _ | .reread .. | .unlockRow _ =>
      none

/-- The edit an access makes for its call. -/
def editOf (e : CoreEntry n W PK (CoreOp n W PK)) : Option (Edit n W) :=
  match e.act with
  | .storeState _ .deleted => none
  | .storeState i _ => e.call.op.edit i (e.mem.gen i)
  | .addSeq i => if e.mem.seq i % 2 = 0 then e.call.op.edit i (e.mem.gen i) else none
  | _ => none

/-- The table that the edits of a history leave. -/
def rowsAfter : List (CoreEntry n W PK (CoreOp n W PK)) → Rows n W
  | [] => fun _ => none
  | e :: es =>
    match editOf e with
    | some ed => ed.apply (rowsAfter es)
    | none => rowsAfter es

/-- Each edit of a history was allowed on the table that the edits before it left. -/
def EditsAllowed : List (CoreEntry n W PK (CoreOp n W PK)) → Prop
  | [] => True
  | e :: es => (∀ ed, editOf e = some ed → ed.Allowed (rowsAfter es)) ∧ EditsAllowed es

/-- What the slots show is the table `V`: an ACTIVE slot holds the row of its generation, and its
image too while nobody is writing it. -/
structure Share.Shows (s : Share n W) (V : Rows n W) : Prop where
  gone : ∀ i, s.state i ≠ .active → V i = none
  row : ∀ i, s.state i = .active → ∃ img, V i = some (s.gen i, img) ∧
    (s.seq i % 2 = 0 → s.data i = img)

section

variable {i : Int} {u : Nat} {o : CoreOp n W PK} {e : CoreEntry n W PK (CoreOp n W PK)}
  {ed : Edit n W} {es : List (CoreEntry n W PK (CoreOp n W PK))}

/-- A call edits the slot at which it takes effect. -/
theorem CoreOp.edit_slot (h : o.edit i u = some ed) : ed.slot = i := by
  cases o <;> simp only [CoreOp.edit] at h <;> grind [Edit.slot]

/-- An access edits the slot it is made to. -/
theorem editOf_slot (h : editOf e = some ed) :
    e.act = .addSeq ed.slot ∧ e.mem.seq ed.slot % 2 = 0 ∨ ∃ x, x ≠ .deleted ∧
    e.act = .storeState ed.slot x := by
  unfold editOf at h
  split at h
  · cases h
  · rename_i i x hne hact
    rw [CoreOp.edit_slot h]
    exact Or.inr ⟨x, hne, hact⟩
  · rename_i i hact
    split at h
    · rename_i heven
      rw [CoreOp.edit_slot h]
      exact Or.inl ⟨hact, heven⟩
    · cases h
  · cases h

/-- The first bump of an image write is the edit of its update. -/
theorem editOf_bump (hact : e.act = .addSeq i) (heven : e.mem.seq i % 2 = 0) :
    editOf e = e.call.op.edit i (e.mem.gen i) := by
  simp [editOf, hact, heven]

/-- The second one edits nothing. -/
theorem editOf_odd (hact : e.act = .addSeq i) (hodd : e.mem.seq i % 2 = 1) : editOf e = none := by
  simp [editOf, hact, hodd]

/-- A stored state is the edit of its insert or delete, but for DELETED, which comes
after the edit. -/
theorem editOf_restate {x : SlotState} (hact : e.act = .storeState i x) (hx : x ≠ .deleted) :
    editOf e = e.call.op.edit i (e.mem.gen i) := by
  cases x <;> simp [editOf, hact] at hx ⊢

/-- What an edit puts into its slot is what is in the table. -/
theorem rowsAfter_edit (h : editOf e = some ed) (hi : ed.slot = i) :
    rowsAfter (e :: es) i = ed.row := by
  rw [rowsAfter, h]
  exact Edit.apply_self hi

/-- An access that makes no edit of a slot leaves its row. -/
theorem rowsAfter_apart (h : ∀ ed, editOf e = some ed → ed.slot ≠ i) :
    rowsAfter (e :: es) i = rowsAfter es i := by
  rw [rowsAfter]
  cases hed : editOf e with
  | none => rfl
  | some ed => exact Edit.apply_other (h ed hed)

end

/-- Slot `i` shows the row that the table `V` has in it, with the image somebody is writing to it,
if anybody is. -/
structure Tells (V : Rows n W) (s : Share n W) (γ : Nat → Role n W) (i : Int) : Prop where
  gone : s.state i ≠ .active → V i = none
  there : s.state i = .active → ∃ img, V i = some (s.gen i, img) ∧ Becoming s γ i img

/-- What a setting must know of its commits: that each is the edit its call makes of the slot. -/
structure Setting.Edits (T : CoreSetting n W PK) : Prop where
  orders : T.Orders
  write : ∀ c w i old new, T.commits c w (.write i old new) →
    c.op.edit i (w.mem.gen i) = some (.rewrite i (w.mem.gen i) new)
  mark : ∀ c w i, T.commits c w (.mark i) →
    c.op.edit i (w.mem.gen i) = some (.delete i (w.mem.gen i))
  publish : ∀ c w i img, T.commits c w (.publish i img) → c.op.image = some img
  flip : ∀ c w i, T.commits c w (.flip i) → c.op = .clear

/-- Only inserts make slots ACTIVE. -/
def FillsByInserts (e : CoreEntry n W PK (CoreOp n W PK)) : Prop :=
  ∀ i, e.act = .storeState i .active → ∃ rec b, e.call.op = .insertRow rec b

section

variable {T : CoreSetting n W PK} {w : CoreWorld n W PK (CoreOp n W PK) (CoreOut n W)}
  {γ : Nat → Role n W} {c : Call (CoreOp n W PK)} {a : Act n W} {r : a.Res} {s' : Share n W}
  {g' : Role n W} {i : Int}

/-- After a step slot `i` shows what the table has in it, and the edit of the slot that the step
makes, if any, was allowed. -/
structure Retold (w : CoreWorld n W PK (CoreOp n W PK) (CoreOut n W))
    (c : Call (CoreOp n W PK)) (a : Act n W) (s' : Share n W) (γ' : Nat → Role n W)
    (i : Int) : Prop where
  tells : Tells (rowsAfter (w.push c a s').past) s' γ' i
  allowed : ∀ ed, editOf ⟨c, a, w.mem⟩ = some ed → ed.slot = i → ed.Allowed (rowsAfter w.past)

/-- A step that makes no edit of the slot, and leaves its state and its generation alone. -/
theorem Tells.keep {γ' : Nat → Role n W} (h : Tells (rowsAfter w.past) w.mem γ i)
    (hedit : ∀ ed, editOf ⟨c, a, w.mem⟩ = some ed → ed.slot ≠ i)
    (hstate : s'.state i = w.mem.state i) (hgen : w.mem.state i = .active → s'.gen i = w.mem.gen i)
    (hbecoming : ∀ x, w.mem.state i = .active → Becoming w.mem γ i x → Becoming s' γ' i x) :
    Retold w c a s' γ' i := by
  have hrow : rowsAfter (w.push c a s').past i = rowsAfter w.past i := rowsAfter_apart hedit
  constructor
  case tells =>
    constructor
    · rw [hrow, hstate]
      exact h.gone
    · rw [hrow, hstate]
      intro hactive
      obtain ⟨img, himg, hx⟩ := h.there hactive
      exact ⟨img, by rw [hgen hactive]; exact himg, hbecoming img hactive hx⟩
  case allowed => exact fun ed hed hi => absurd hi (hedit ed hed)

/-- A step that makes an edit of the slot. -/
theorem Retold.of_edit {γ' : Nat → Role n W} {ed : Edit n W}
    (hedit : editOf ⟨c, a, w.mem⟩ = some ed) (hslot : ed.slot = i)
    (hallowed : ed.Allowed (rowsAfter w.past)) (hgone : s'.state i ≠ .active → ed.row = none)
    (hthere : s'.state i = .active → ∃ img, ed.row = some (s'.gen i, img) ∧ Becoming s' γ' i img) :
    Retold w c a s' γ' i := by
  have hrow : rowsAfter (w.push c a s').past i = ed.row := rowsAfter_edit hedit hslot
  constructor
  case tells =>
    constructor
    · rw [hrow]
      exact hgone
    · rw [hrow]
      exact hthere
  case allowed =>
    intro ed' hed' _
    rw [hedit] at hed'
    cases hed'
    exact hallowed

variable (hT : T.Edits) (hV : Tidy T w γ) (hexec : exec T.cfg c.tid a w.mem = some (r, s'))
  (hstep : Step T.cfg T.kinds (T.commits c w) w.now w.mem (γ c.tid) a r g')

include hT hV hexec hstep in
/-- A bump of the sequence number keeps the table in step. -/
theorem Tells.addSeq (h : Tells (rowsAfter w.past) w.mem γ i) (ha : a = .addSeq i) :
    Retold w c a s' (Function.update γ c.tid g') i := by
  subst ha
  obtain ⟨hslots, hlocked, himages⟩ := hV
  obtain ⟨rfl, ⟨hrow, old, new, hcommit, hphase, hslot, htarget⟩ |
    ⟨hwrite, -, new, htarget, hwords⟩⟩ := hstep.bumpSeq
  · -- an update
    have hactive := (hslots.mine c.tid).active (by rw [hrow]; rfl)
    have hheld := (hlocked.ok c.tid).rowed (by rw [hrow]; rfl)
    have heven := even_of_held hlocked himages hheld (by simp [hrow])
    have hedit : editOf ⟨c, .addSeq (γ c.tid).slot, w.mem⟩ =
        some (.rewrite (γ c.tid).slot (w.mem.gen (γ c.tid).slot) new) :=
      (editOf_bump rfl heven).trans (hT.write c w _ old new hcommit)
    obtain ⟨img, himg, -⟩ := h.there hactive
    cases hexec
    apply Retold.of_edit (i := (γ c.tid).slot) hedit rfl ⟨img, himg⟩
    · exact fun hnot => absurd hactive hnot
    · refine fun _ => ⟨new, rfl, Or.inl ⟨c.tid, ?_⟩⟩
      rw [Function.update_self]
      exact ⟨hphase, hslot, htarget⟩
  · -- its image is complete
    have hodd := (himages.odd (γ c.tid).slot).mpr ⟨c.tid, hwrite, rfl⟩
    have himage := (himages.seen c.tid).image (by rw [hwrite]; rfl) hwords
    have hlock := (hlocked.ok c.tid).rowed (by rw [hwrite]; rfl)
    cases hexec
    apply h.keep
    · intro ed hed
      rw [editOf_odd rfl hodd] at hed
      cases hed
    · rfl
    · exact fun _ => rfl
    · intro x _ hx
      obtain ⟨t, hwrite', hslot, htarget'⟩ | ⟨heven, -⟩ := hx
      · have hlock' := (hlocked.ok t).rowed (by rw [hwrite']; rfl)
        rw [hslot] at hlock'
        obtain rfl := hlocked.eq hlock' hlock
        obtain rfl : new = x := Option.some.inj (htarget.symm.trans htarget')
        refine Or.inr ⟨?_, himage⟩
        simp only [Function.update_self]
        omega
      · omega

include hV hexec hstep in
theorem Tells.storeWord (h : Tells (rowsAfter w.past) w.mem γ i) {j : Fin n} {y : W}
    (ha : a = .storeWord i j y) : Retold w c a s' (Function.update γ c.tid g') i := by
  subst ha
  obtain ⟨hslot, hphase⟩ := hstep.storeWord
  cases hexec
  apply h.keep
  · exact nofun
  · rfl
  · exact fun _ => rfl
  · intro x hactive hx
    obtain ⟨hfill, -⟩ | hwrite := hphase
    · have howns : (γ c.tid).Owns i := Or.inl ⟨by rw [hfill]; rfl, hslot⟩
      exact absurd hactive ((hV.slots.mine c.tid).not_active howns)
    · have hodd := (hV.images.odd i).mpr ⟨c.tid, hwrite, hslot⟩
      obtain hwriting | ⟨heven, -⟩ := hx
      · exact Or.inl (hwriting.keep hstep (by simp))
      · omega

include hT hV hexec hstep in
theorem Tells.storeState (h : Tells (rowsAfter w.past) w.mem γ i)
    (hfills : FillsByInserts ⟨c, a, w.mem⟩) {x : SlotState}
    (ha : a = .storeState i x) : Retold w c a s' (Function.update γ c.tid g') i := by
  subst ha
  obtain ⟨hslots, hlocked, himages⟩ := hV
  obtain ⟨rfl, hfill, rfl⟩ | ⟨rfl, hrow, rfl, hcommit⟩ | ⟨rfl, hdel, rfl⟩ | ⟨rfl, hcommit⟩ :=
    hstep.restates
  · -- an insert
    have hnot :=
      (hslots.mine c.tid).not_active (i := (γ c.tid).slot) (Or.inl ⟨by rw [hfill]; rfl, rfl⟩)
    have heven : w.mem.seq (γ c.tid).slot % 2 = 0 := by
      by_contra hodd
      obtain ⟨t, hwrite, hslot⟩ := (himages.odd (γ c.tid).slot).mp (by omega)
      have hactive := (hslots.mine t).active (by rw [hwrite]; rfl)
      rw [hslot] at hactive
      exact hnot hactive
    obtain ⟨-, -, img, hwords, hcommit⟩ := hstep.publishes
    have himage := (himages.seen c.tid).image (by rw [hfill]; rfl) hwords
    obtain ⟨rec, b, hop⟩ := hfills _ rfl
    have himg : c.op.image = some img := hT.publish c w _ img hcommit
    rw [hop] at himg
    cases himg
    have hedit : editOf ⟨c, .storeState (γ c.tid).slot .active, w.mem⟩ =
        some (.insert (γ c.tid).slot (w.mem.gen (γ c.tid).slot) img) := by
      rw [editOf_restate rfl (by simp), hop]
      rfl
    cases hexec
    apply Retold.of_edit (i := (γ c.tid).slot) hedit rfl (h.gone hnot)
    · simp
    · exact fun _ => ⟨img, rfl, Or.inr ⟨heven, himage⟩⟩
  · -- a delete
    have hactive := (hslots.mine c.tid).active (by rw [hrow]; rfl)
    have hedit :=
      (editOf_restate (e := ⟨c, .storeState (γ c.tid).slot .deleting, w.mem⟩) rfl (by simp)).trans
      (hT.mark c w _ hcommit)
    obtain ⟨img, himg, -⟩ := h.there hactive
    cases hexec
    apply Retold.of_edit (i := (γ c.tid).slot) hedit rfl ⟨img, himg⟩
    · exact fun _ => rfl
    · simp
  · -- the end of a delete
    have hnot :=
      (hslots.mine c.tid).not_active (i := (γ c.tid).slot) (Or.inl ⟨by rw [hdel]; rfl, rfl⟩)
    have hnone : editOf ⟨c, .storeState (γ c.tid).slot .deleted, w.mem⟩ = none := rfl
    have hrow : rowsAfter (w.push c (.storeState (γ c.tid).slot .deleted) s').past
        (γ c.tid).slot = none :=
      (rowsAfter_apart fun ed hed => by cases hnone.symm.trans hed).trans (h.gone hnot)
    cases hexec
    constructor
    case tells => exact ⟨fun _ => hrow, by simp⟩
    case allowed => exact fun ed hed => by cases hnone.symm.trans hed
  · -- a clear
    have hedit : editOf ⟨c, .storeState i .free, w.mem⟩ = some (.clear i) := by
      rw [editOf_restate rfl (by simp), hT.flip c w i hcommit]
      rfl
    cases hexec
    apply Retold.of_edit (i := i) hedit rfl trivial
    · exact fun _ => rfl
    · simp

include hT hV hexec hstep in
/-- **Every step leads from what the table has in a slot to what it has in it then.** -/
theorem Tells.push (h : Tells (rowsAfter w.past) w.mem γ i)
    (hfills : FillsByInserts ⟨c, a, w.mem⟩) : Retold w c a s' (Function.update γ c.tid g') i := by
  have hnone : a ≠ .addSeq i → (∀ x, a ≠ .storeState i x) → ∀ ed, editOf ⟨c, a, w.mem⟩ = some ed →
      ed.slot ≠ i := by
    intro hne hstate ed hed hi
    obtain ⟨hact, -⟩ | ⟨x, -, hact⟩ := editOf_slot hed
    · exact hne (hi ▸ hact)
    · exact hstate x (hi ▸ hact)
  obtain ⟨ha, -⟩ | ⟨⟨j, y, ha⟩, -⟩ | ⟨k, rfl, hk⟩ | ⟨hne, hword, hseq, hdata⟩ := exec_image i hexec
  · exact h.addSeq hT hV hexec hstep ha
  · exact h.storeWord hV hexec hstep ha
  · -- a chunk is built: its slots are nobody's yet
    have hgrown := not_grown_of_initSlots hV.slots hstep hk
    have hnot : w.mem.state i ≠ .active := fun hactive => hgrown (hV.slots.grown_of_active hactive)
    apply h.keep
    · exact hnone nofun nofun
    · rw [hV.slots.ungrown i hgrown]
      cases hexec
      simp [hk]
    · exact fun hactive => absurd hactive hnot
    · exact fun _ hactive => absurd hactive hnot
  · by_cases hstate : ∃ x, a = .storeState i x
    · obtain ⟨x, ha⟩ := hstate
      exact h.storeState hT hV hexec hstep hfills ha
    · have hsame : s'.state i = w.mem.state i ∧
          (w.mem.state i = .active → s'.gen i = w.mem.gen i) := by
        obtain ⟨x, ha, -⟩ | ⟨rfl, hsame, -⟩ | ⟨⟨j, y, ha⟩, -⟩ | ⟨k, rfl, hk, -⟩ |
          ⟨-, hsame, hgen, -⟩ := exec_slot i hexec
        · exact absurd ⟨x, ha⟩ hstate
        · exact ⟨hsame, fun hactive => absurd hactive (not_active_of_addGen hV.slots hstep)⟩
        · exact absurd ha (hword j y)
        · have hgrown := not_grown_of_initSlots hV.slots hstep hk
          refine ⟨?_, fun hactive => absurd (hV.slots.grown_of_active hactive) hgrown⟩
          rw [hV.slots.ungrown i hgrown]
          cases hexec
          simp [hk]
        · exact ⟨hsame, fun _ => hgen⟩
      apply h.keep
      · exact hnone hne fun x ha => hstate ⟨x, ha⟩
      · exact hsame.1
      · exact hsame.2
      · exact fun x _ hx => hx.keep hstep hne hseq hdata

end

/-- **The slots of every trace show the table that its edits leave.** -/
theorem trace_tells {T : CoreSetting n W PK} {w : CoreWorld n W PK (CoreOp n W PK) (CoreOut n W)}
    {γ : Nat → Role n W} (hT : T.Edits) (h : T.Trace w γ) (hempty : ∀ i, T.share.state i ≠ .active)
    (hfills : ∀ e ∈ w.past, FillsByInserts e) :
    (∀ i, Tells (rowsAfter w.past) w.mem γ i) ∧ EditsAllowed w.past := by
  induction h with
  | init => exact ⟨fun i => ⟨fun _ => rfl, fun hactive => absurd hactive (hempty i)⟩, trivial⟩
  | @start w γ t _ ih =>
    obtain ⟨htells, hallowed⟩ := ih hfills
    refine ⟨fun i => ⟨(htells i).gone, fun hactive => ?_⟩, hallowed⟩
    obtain ⟨img, himg, ⟨u, hu⟩ | hsettled⟩ := (htells i).there hactive
    · refine ⟨img, himg, Or.inl ⟨u, ?_⟩⟩
      by_cases hut : u = t
      · subst hut
        rw [Function.update_self]
        exact hu
      · rw [Function.update_of_ne hut]
        exact hu
    · exact ⟨img, himg, Or.inr hsettled⟩
  | @act w γ c a r s g before _ hexec hstep ih =>
    obtain ⟨hlast, hpast⟩ := List.forall_mem_cons.mp hfills
    obtain ⟨htells, hallowed⟩ := ih hpast
    have hpush := fun i => (htells i).push hT (trace_tidy hT.orders before) hexec hstep hlast
    exact ⟨fun i => (hpush i).tells, fun ed hed => (hpush ed.slot).allowed ed hed rfl, hallowed⟩
  | stop _ _ ih =>
    obtain ⟨htells, hallowed⟩ := ih hfills
    exact ⟨fun i => ⟨(htells i).gone, (htells i).there⟩, hallowed⟩

/-- While nobody writes to a slot it holds the image that is becoming of it. -/
theorem Tells.shows {V : Rows n W} {s : Share n W} {γ : Nat → Role n W} (himages : Images s γ)
    (h : ∀ i, Tells V s γ i) : s.Shows V := by
  constructor
  · exact fun i => (h i).gone
  · intro i hactive
    obtain ⟨img, himg, ⟨t, hwrite, hslot, -⟩ | ⟨-, hdata⟩⟩ := (h i).there hactive
    · have hodd := (himages.odd i).mpr ⟨t, hwrite, hslot⟩
      exact ⟨img, himg, fun heven => by omega⟩
    · exact ⟨img, himg, fun _ => hdata⟩

/-- The slots show the table of edits throughout. -/
theorem trace_shows {T : CoreSetting n W PK} {w : CoreWorld n W PK (CoreOp n W PK) (CoreOut n W)}
    {γ : Nat → Role n W} (hT : T.Edits) (h : T.Trace w γ) (hempty : ∀ i, T.share.state i ≠ .active)
    (hfills : ∀ e ∈ w.past, FillsByInserts e) :
    w.mem.Shows (rowsAfter w.past) ∧ EditsAllowed w.past := by
  obtain ⟨htells, hallowed⟩ := trace_tells hT h hempty hfills
  exact ⟨Tells.shows (trace_tidy hT.orders h).images htells, hallowed⟩

/-- The accesses with which rows are put, rewritten and deleted. -/
def Act.writes : Act n W → Option (Act n W)
  | .addSeq i => some (.addSeq i)
  | .storeState i .active => some (.storeState i .active)
  | .storeState i .deleting => some (.storeState i .deleting)
  | _ => none

/-- The store that makes a slot ACTIVE. -/
def Act.fills : Act n W → Bool
  | .storeState _ .active => true
  | _ => false

/-- A program that puts, rewrites and deletes no row. -/
abbrev WritesNone {α : Type} (p : Core n W PK α) : Prop :=
  Machine.Only (S := coreSig n W PK) (fun a => Act.writes a = none) (fun _ => True) p

/-- A program that makes no slot ACTIVE. -/
abbrev FillsNone {α : Type} (p : Core n W PK α) : Prop :=
  Machine.Only (S := coreSig n W PK) (fun a => Act.fills a = false) (fun _ => True) p

section

variable {cfg : ShareCfg n W PK} {α : Type}

/-- What stores to no row edits nothing. -/
theorem Still.writesNone {p : Core n W PK α} (hp : Still true [] p) : WritesNone p := by
  refine Machine.Only.mono (fun a ha => ?_) (fun _ _ => trivial) hp
  cases a with
  | addSeq i => simp [Act.owns, Act.within] at ha
  | storeState i x => simp [Act.owns, Act.within] at ha
  | _ => rfl

theorem BesideSlots.writesNone {p : Core n W PK α} (hp : BesideSlots p) : WritesNone p := by
  refine Machine.Only.mono (fun a ha => ?_) (fun _ _ => trivial) hp
  cases a <;> first | rfl | cases ha

theorem Allocates.writesNone {p : Core n W PK α} (hp : Allocates p) : WritesNone p := by
  refine Machine.Only.mono (fun a ha => ?_) (fun _ _ => trivial) hp
  cases a <;> first | rfl | cases ha

/-- What edits nothing makes no row. -/
theorem WritesNone.fillsNone {p : Core n W PK α} (hp : WritesNone p) : FillsNone p := by
  refine Machine.Only.mono (fun a ha => ?_) (fun _ _ => trivial) hp
  unfold Act.fills
  split
  · cases ha
  · rfl

/-- What stores to no row makes none. -/
theorem Still.fillsNone {p : Core n W PK α} (hp : Still true [] p) : FillsNone p :=
  hp.writesNone.fillsNone

/-- Filling a slot edits nothing: it holds no row yet. -/
theorem writesNone_copyIn (idx : Int) (rec : Image n W) (js : List (Fin n)) :
    WritesNone (copyIn idx rec js : Core n W PK Unit) := by
  induction js with
  | nil => exact only_pure _
  | cons j js ih => exact only_bind (only_access rfl) fun _ => ih

/-- Rewriting an image makes no row. -/
theorem fillsNone_writeImage (idx : Int) (rec : Image n W) :
    FillsNone (writeImage idx rec : Core n W PK Unit) :=
  only_bind (only_access rfl) fun _ => only_bind (writesNone_copyIn ..).fillsNone
    fun _ => only_access rfl

theorem fillsNone_updateRow (idx : Int) (v : Nat) (old new scratch : Image n W) :
    FillsNone (updateRow cfg idx v old new scratch) := by
  refine .ite ?_ ?_
  · refine only_bind (only_access rfl) fun _ => only_bind (still_verifySlot idx v).fillsNone
      fun valid => .ite ?_ ?_
    · exact only_bind (fillsNone_writeImage ..) fun _ => only_bind (only_access rfl)
        fun _ => only_pure _
    · exact only_bind (only_access rfl) fun _ => only_pure _
  · refine only_bind (still_lockAll ..).fillsNone fun _ =>
      only_bind (loads_dupChecks ..).still.fillsNone fun dup => ?_
    cases dup with
    | some k => exact only_bind (still_unlockAll _).fillsNone fun _ => only_pure _
    | none =>
      refine only_bind (only_access rfl) fun _ => only_bind (still_verifySlot idx v).fillsNone
        fun valid => .ite ?_ ?_
      · refine only_bind (fillsNone_writeImage ..) fun _ =>
          only_bind (still_moveKeys ..).fillsNone fun _ => ?_
        exact only_bind (only_access rfl) fun _ => only_bind (still_unlockAll _).fillsNone
          fun _ => only_pure _
      · exact only_bind (only_access rfl) fun _ => only_bind (still_unlockAll _).fillsNone
          fun _ => only_pure _

theorem fillsNone_updateRowLocked (idx : Int) (v : Nat) (old new scratch : Image n W) :
    FillsNone (updateRowLocked cfg idx v old new scratch) := by
  refine only_bind (still_verifySlot idx v).fillsNone fun valid => .ite (.ite ?_ ?_) (only_pure _)
  · exact only_bind (fillsNone_writeImage ..) fun _ => only_pure _
  · refine only_bind (still_lockAll ..).fillsNone fun _ =>
      only_bind (loads_dupChecks ..).still.fillsNone fun dup => ?_
    cases dup with
    | some k => exact only_bind (still_unlockAll _).fillsNone fun _ => only_pure _
    | none =>
      refine only_bind (fillsNone_writeImage ..) fun _ =>
        only_bind (still_moveKeys ..).fillsNone fun _ => ?_
      exact only_bind (still_unlockAll _).fillsNone fun _ => only_pure _

theorem fillsNone_deleteTail (idx : Int) (scratch : Image n W) :
    FillsNone (deleteTail cfg idx scratch) := by
  refine only_bind (loads_copyOut ..).still.fillsNone fun img =>
    only_bind (still_unlinkKeys ..).fillsNone fun _ => ?_
  refine only_bind (only_access rfl) fun _ => only_bind (only_access rfl) fun _ =>
    only_bind (only_access rfl) fun _ => ?_
  refine only_bind (only_access rfl) fun _ =>
    only_bind (allocates_freeSlot idx).writesNone.fillsNone fun _ => ?_
  exact only_bind (only_access rfl) fun _ => only_pure _

/-- A clear edits nothing. -/
theorem writesNone_clear : WritesNone (clear cfg) := by
  have hslots : ∀ is, WritesNone (clearSlots is : Core n W PK Unit) := by
    intro is
    induction is with
    | nil => exact only_pure _
    | cons i is ih =>
      refine only_bind (only_access rfl) fun _ => only_bind (only_access rfl) fun _ => ?_
      exact only_bind (only_access rfl) fun _ => only_bind (only_access rfl) fun _ => ih
  have hfree : ∀ is, WritesNone (rebuildFree is : Core n W PK Unit) := by
    intro is
    induction is with
    | nil => exact only_pure _
    | cons i is ih => exact only_bind (allocates_freeSlot _).writesNone fun _ => ih
  refine only_bind (only_access rfl) fun _ => only_bind (beside_clearHeads _).writesNone fun _ => ?_
  refine only_bind (only_access rfl) fun cnt => only_bind (hslots _) fun _ =>
    only_bind (only_access rfl) fun _ => ?_
  exact only_bind (hfree _) fun _ => only_bind (only_access rfl) fun _ => only_access rfl

/-- Of all calls only inserts make slots ACTIVE. -/
theorem only_inserts_fill (o : CoreOp n W PK) (l : Session n W)
    (hinsert : ∀ rec b, o ≠ .insertRow rec b) : FillsNone (o.code cfg l) := by
  cases o with
  | insertRow rec b => exact absurd rfl (hinsert rec b)
  | updateRow => exact only_bind (fillsNone_updateRow ..) fun _ => only_pure _
  | deleteRow idx v b =>
    refine only_bind ?_ fun _ => only_pure _
    refine only_bind (only_access rfl) fun _ => only_bind (still_verifySlot idx v).fillsNone
      fun valid => .ite ?_ ?_
    · exact only_bind (only_access rfl) fun _ => only_bind (only_access rfl) fun _ =>
        fillsNone_deleteTail ..
    · exact only_bind (only_access rfl) fun _ => only_pure _
  | clear => exact only_bind writesNone_clear.fillsNone fun _ => only_pure _
  | find => exact only_bind (still_find ..).fillsNone fun _ => only_pure _
  | findNext => exact only_bind (still_findNext ..).fillsNone fun _ => only_pure _
  | readRow => exact only_bind (still_readRow ..).fillsNone fun _ => only_pure _
  | scanNext => exact only_bind (loads_scanNext ..).still.fillsNone fun _ => only_pure _
  | lockRow | unlockRow => exact only_bind (only_access rfl) fun _ => only_pure _
  | reread => exact only_bind (still_reread ..).fillsNone fun _ => only_pure _
  | updateRowLocked => exact only_bind (fillsNone_updateRowLocked ..) fun _ => only_pure _
  | deleteRowLocked idx v b =>
    refine only_bind ?_ fun _ => only_pure _
    refine only_bind (still_verifySlot idx v).fillsNone fun valid => .ite ?_ (only_pure _)
    exact only_bind (only_access rfl) fun _ => fillsNone_deleteTail ..

end

/-- In every run only inserts make slots ACTIVE. -/
theorem reach_fillsByInserts {cfg : ShareCfg n W PK} {may : CoreOp n W PK → Session n W → Bool}
    {A : Call (CoreOp n W PK) → Act n W → CoreWorld n W PK (CoreOp n W PK) (CoreOut n W) → Prop}
    {s : Share n W}
    {c : Config (coreSig n W PK) (Share n W) (CoreOp n W PK) (Session n W) (CoreOut n W)}
    (h : (coreSystem cfg may).Reach A (System.start s fun _ => Session.empty) c) :
    ∀ e ∈ c.world.past, FillsByInserts e := by
  let P : CoreOp n W PK → Act n W → Prop :=
    fun o a => a.fills = true → ∃ rec b, o = .insertRow rec b
  have hnone : ∀ {α : Type} {p : Core n W PK α} (o : CoreOp n W PK), FillsNone p →
      Machine.Only (S := coreSig n W PK) (P o) (fun _ => True) p := by
    intro α p o hp
    refine Machine.Only.mono (fun a ha hfills => ?_) (fun _ _ => trivial) hp
    rw [ha] at hfills
    cases hfills
  have hbody : ∀ o q, True →
      Machine.Only (S := coreSig n W PK) (P o) (fun _ => True) ((coreSystem cfg may).body q) :=
    fun o q _ => hnone o (beside_procBody q).writesNone.fillsNone
  have hcode : ∀ o l, may o l = true →
      Machine.Only (S := coreSig n W PK) (P o) (fun _ => True) (o.code cfg l) := by
    intro o l _
    by_cases hinsert : ∃ rec b, o = .insertRow rec b
    · exact Machine.only_of_all (fun _ _ => hinsert) (fun _ => trivial) _
    · exact hnone o (only_inserts_fill o l fun rec b ho => hinsert ⟨rec, b, ho⟩)
  intro e he i hact
  exact (h.within hbody hcode).2 e he (by rw [hact]; rfl)

/-- Any call, but a locked update comes after its thread has re-read the row, with the generation
it has read. -/
def CoreOp.editing : CoreOp n W PK → Session n W → Bool
  | .updateRowLocked idx v _ _ _, l =>
      decide (l.held = some idx) && decide (l.seen.map Prod.fst = some v)
  | o, l => o.anyCall l

/-- The setting of these calls in runs that meet `A`: what they commit to are their edits. -/
def editSetting (cfg : ShareCfg n W PK) (s₀ : Share n W)
    (A : Call (CoreOp n W PK) → Act n W → CoreWorld n W PK (CoreOp n W PK) (CoreOut n W) → Prop) :
    CoreSetting n W PK where
  cfg := cfg
  kinds := fun k => k ≠ .index
  commits := fun c w k =>
    match k with
    | .write i _ new => c.op.edit i (w.mem.gen i) = some (.rewrite i (w.mem.gen i) new)
    | .mark i => c.op.edit i (w.mem.gen i) = some (.delete i (w.mem.gen i))
    | .publish _ img => c.op.image = some img
    | .flip i => c.op = .clear ∧ Flippable w.mem i
    | .agree i => c.op.isRead = true ∧ A c (.loadSeq i) w
    | .check i => ∃ cg v b, c.op = .readRow i cg v b ∧ A c (.loadGen i) w ∧ w.mem.gen i = v
    | _ => True
  returns := Ended
  meets := A
  share := s₀

section

variable {cfg : ShareCfg n W PK} {data : Int → Image n W}
  {A : Call (CoreOp n W PK) → Act n W → CoreWorld n W PK (CoreOp n W PK) (CoreOut n W) → Prop}

/-- The runs of edits keep to the protocol. -/
theorem editSetting_sound (cfg : ShareCfg n W PK) (data : Int → Image n W)
    (A : Call (CoreOp n W PK) → Act n W → CoreWorld n W PK (CoreOp n W PK) (CoreOut n W) → Prop) :
    (editSetting cfg (Share.fresh data) A).Sound :=
  ⟨⟨data, rfl⟩, fun _ _ _ h => h.2⟩

/-- They are runs in which edits are told. -/
theorem edits_editSetting (cfg : ShareCfg n W PK) (data : Int → Image n W)
    (A : Call (CoreOp n W PK) → Act n W → CoreWorld n W PK (CoreOp n W PK) (CoreOut n W) → Prop) :
    (editSetting cfg (Share.fresh data) A).Edits where
  orders := ⟨(editSetting_sound cfg data A).1.started, (editSetting_sound cfg data A).2⟩
  write := fun _ _ _ _ _ h => h
  mark := fun _ _ _ h => h
  publish := fun _ _ _ _ h => h
  flip := fun _ _ _ h => h.1

/-- A thread at a row knows its generation. -/
theorem gen_known {w : CoreWorld n W PK (CoreOp n W PK) (CoreOut n W)} {γ : Nat → Role n W}
    {t v : Nat} {idx : Int} (h : (editSetting cfg (Share.fresh data) A).Trace w γ)
    (hphase : (γ t).phase = .row) (hslot : (γ t).slot = idx)
    (hgen : (γ t).gen = some v) : w.mem.gen idx = v := by
  have hseen := (trace_tidy (edits_editSetting cfg data A).orders h).images.seen t
  rw [← hslot]
  exact hseen.gen (by rw [hphase]; rfl) v hgen

/-- Their calls follow the protocol. -/
theorem serves_editing (cfg : ShareCfg n W PK) (data : Int → Image n W)
    (hflip : ∀ c w i, A c (.storeState i .free) w → Flippable w.mem i) :
    Serves (editSetting cfg (Share.fresh data) A) CoreOp.editing where
  indexed := fun h => absurd rfl h
  insertRow := by
    intro rec b l h
    refine ⟨by simpa [CoreOp.editing, CoreOp.anyCall] using h,
      editSetting_sound cfg data A, by simp [editSetting], ?_⟩
    exact fun _ _ _ _ => rfl
  updateRow := by
    intro idx v old new b l h
    refine ⟨by simpa [CoreOp.editing, CoreOp.anyCall] using h, by simp [editSetting],
      fun _ _ _ => rfl, ?_⟩
    intro t st w γ htrace hphase hslot hgen _
    exact if_pos ⟨rfl, (gen_known htrace hphase hslot hgen).symm⟩
  deleteRow := by
    intro idx v b l h
    refine ⟨by simpa [CoreOp.editing, CoreOp.anyCall] using h,
      editSetting_sound cfg data A, by simp [editSetting], ?_⟩
    intro t st w γ htrace hphase hslot hgen _
    exact if_pos ⟨rfl, (gen_known htrace hphase hslot hgen).symm⟩
  clear := by
    intro l h
    refine ⟨by simpa [CoreOp.editing, CoreOp.anyCall] using h,
      editSetting_sound cfg data A, by simp [editSetting], ?_⟩
    exact fun _ _ w i hmeets => ⟨rfl, hflip _ w i hmeets⟩
  readRow := fun _ _ _ _ _ _ _ _ => ⟨fun _ => trivial, fun _ hmeets => ⟨rfl, hmeets⟩,
    fun _ hmeets hgen => ⟨_, _, _, rfl, hmeets, hgen _ rfl⟩⟩
  lockRow := by
    intro idx l h
    simpa [CoreOp.editing, CoreOp.anyCall] using h
  reread := by
    intro idx b l h
    simpa [CoreOp.editing, CoreOp.anyCall] using h
  updateRowLocked := by
    intro idx v old new b l h
    simp only [CoreOp.editing, Bool.and_eq_true, decide_eq_true_eq] at h
    refine ⟨h.1, by simp [editSetting], fun _ _ _ => rfl, ?_⟩
    intro t st w γ htrace hphase hslot hseen _
    obtain ⟨⟨v', img⟩, hread, rfl⟩ := Option.map_eq_some_iff.mp h.2
    exact if_pos ⟨rfl, (gen_known htrace hphase hslot (hseen v' img hread).1).symm⟩
  deleteRowLocked := by
    intro idx v b l h
    simp only [CoreOp.editing, CoreOp.anyCall, Bool.and_eq_true, decide_eq_true_eq] at h
    refine ⟨h.1, editSetting_sound cfg data A, by simp [editSetting], fun v' img hseen => ?_, ?_⟩
    · have hall := h.2
      rw [hseen] at hall
      exact of_decide_eq_true hall
    · intro t st w γ htrace hphase hslot hgen _ _
      exact if_pos ⟨rfl, (gen_known htrace hphase hslot hgen).symm⟩
  unlockRow := by
    intro idx l h
    simpa [CoreOp.editing, CoreOp.anyCall] using h
  returns := fun _ _ _ h => h

end

variable {cfg : ShareCfg n W PK} {data : Int → Image n W}
  {c : Config (coreSig n W PK) (Share n W) (CoreOp n W PK) (Session n W) (CoreOut n W)}

/-- **The slots are a table of rows that the calls edit**, one access each.  In every state that
any calls of any threads reach, the slots show the table that the edits so far have left, and
each of them was allowed on the table that those before it had left. -/
theorem slots_show_edited_rows (h : (coreSystem cfg CoreOp.editing).Reach FlipsApart
      (System.start (Share.fresh data) fun _ => Session.empty) c) :
    c.world.mem.Shows (rowsAfter c.world.past) ∧ EditsAllowed c.world.past := by
  obtain ⟨γ, htrace, -⟩ := (serves_editing cfg data fun _ _ i hapart => hapart i rfl).trace h
  exact trace_shows (edits_editSetting cfg data FlipsApart) htrace
    (by simp [editSetting, Share.fresh]) (reach_fillsByInserts h)

/-- One row is being rewritten when another one is inserted and the first one deleted. -/
theorem slots_show_edited_rows_two_threads :
    ∃ c, (coreSystem (wordTable 0) CoreOp.editing).Reach FlipsApart
        (System.start (Share.fresh fun _ _ => 0) fun _ => Session.empty) c ∧
      c.world.mem.state 0 = .deleting ∧ rowsAfter c.world.past 0 = none ∧
      rowsAfter c.world.past 1 = some (0, fun _ => 3) ∧
      c.world.mem.Shows (rowsAfter c.world.past) ∧ EditsAllowed c.world.past := by
  let steps : List (Label (CoreOp 1 Nat Nat)) :=
    [Label.call 0 (.insertRow (fun _ => 7) fun _ => 0) 33,
      Label.call 1 (.updateRow 0 0 (fun _ => 7) (fun _ => 5) fun _ => 0) 4,
      Label.call 0 (.insertRow (fun _ => 3) fun _ => 0) 9, Label.steps 1 4,
      Label.call 0 (.deleteRow 0 0 fun _ => 0) 4].flatten
  have hrun : (System.rehearse (coreSystem (wordTable 0) CoreOp.editing) clearsNothing
      (System.start (Share.fresh fun _ _ => 0) fun _ => Session.empty) steps).any
        (fun c => decide (c.world.mem.state 0 = .deleting ∧ rowsAfter c.world.past 0 = none ∧
          rowsAfter c.world.past 1 = some (0, fun _ => 3))) = true := by
    decide +kernel
  obtain ⟨c, hc, hstate⟩ := (Option.any_eq_true _ _).mp hrun
  obtain ⟨hdeleting, hgone, hthere⟩ := of_decide_eq_true hstate
  have hreach := System.Reach.of_rehearse (fun _ _ _ h => flipsApart_of_clearsNothing h) _ steps hc
  exact ⟨c, hreach, hdeleting, hgone, hthere, slots_show_edited_rows hreach⟩

/-- The table that the edits up to time `m` have left. -/
def tableAt (w : CoreWorld n W PK (CoreOp n W PK) (CoreOut n W)) (m : Nat) : Rows n W :=
  rowsAfter (w.past.drop (w.now - m))

/-- The memory of each moment shows the table of that moment. -/
theorem shows_tableAt
    {A : Call (CoreOp n W PK) → Act n W → CoreWorld n W PK (CoreOp n W PK) (CoreOut n W) → Prop}
    (hflip : ∀ c w i, A c (.storeState i .free) w → Flippable w.mem i)
    (h : (coreSystem cfg CoreOp.editing).Reach A (System.start (Share.fresh data) fun _ =>
      Session.empty) c) {m : Nat}
    (hm : m ≤ c.world.now) : (c.world.memAt m).Shows (tableAt c.world m) := by
  obtain ⟨γ, htrace, -⟩ := (serves_editing cfg data hflip).trace h
  obtain ⟨w', γ', htrace', hmem, hpast⟩ := htrace.at hm
  have hfills : ∀ e ∈ w'.past, FillsByInserts e := by
    intro e he
    rw [hpast] at he
    exact reach_fillsByInserts h e (List.mem_of_mem_drop he)
  rw [← hmem, tableAt, ← hpast]
  exact (trace_shows (edits_editSetting cfg data A) htrace'
    (by simp [editSetting, Share.fresh]) hfills).1

/-- A slot that stays is not recycled in the middle of a read. -/
theorem unrecycled_editing (cfg : ShareCfg n W PK) (data : Int → Image n W) :
    (editSetting cfg (Share.fresh data) SlotStays).Unrecycled where
  sound := editSetting_sound cfg data SlotStays
  agree := fun _ _ i h => h.2.sample h.1 i rfl
  check := by
    rintro c w i ⟨cg, v, b, hop, hstays, hgen⟩
    exact hstays.gen hop rfl hgen

/-- **A read returns a row of the table** as it was at some moment of the call, in runs in which
no insert uses a slot again while a read is copying it. -/
theorem reads_return_rows_of_table (h : (coreSystem cfg CoreOp.editing).Reach SlotStays
      (System.start (Share.fresh data) fun _ => Session.empty) c) :
    ∀ ev ∈ c.world.log, ∀ idx cg v b buf, ev.call.op = .readRow idx cg v b → ev.out = .row .ok buf →
      ∃ m u, ev.call.start ≤ m ∧ m ≤ ev.stop ∧ tableAt c.world m idx = some
        (u, buf) ∧ (cg = true → u = v) := by
  obtain ⟨γ, htrace, -⟩ := (serves_editing cfg data fun _ _ i hstays => hstays.flip i rfl).trace h
  intro ev hev idx cg v b buf ho hout
  obtain ⟨hstop, hrow⟩ :=
    trace_read_rows (unrecycled_editing cfg data) (fun _ _ _ hended => hended) htrace ev hev
  obtain ⟨m, hstart, hm, hactive, hgen, heven, hdata⟩ := hrow idx cg v b buf ho hout
  -- the table at the moment at which the image was copied
  have hshows := shows_tableAt (fun _ _ i hstays => hstays.flip i rfl) h (hm.trans hstop)
  obtain ⟨img, himg, hsame⟩ := hshows.row idx hactive
  refine ⟨m, (c.world.memAt m).gen idx, hstart, hm, ?_, hgen⟩
  rw [himg, ← hdata, hsame heven]

/-- A row is rewritten while it is being copied, and copied again. -/
theorem reads_return_rows_of_table_rewritten :
    ∃ c, (coreSystem (wordTable 0) CoreOp.editing).Reach SlotStays
        (System.start (Share.fresh fun _ _ => 0) fun _ => Session.empty) c ∧
      ∃ ev ∈ c.world.log, ev.call.op = .readRow 0 true 0
        (fun _ => 0) ∧ ev.out = .row .ok (fun _ => 5) ∧
        ∃ m u, ev.call.start ≤ m ∧ m ≤ ev.stop ∧ tableAt c.world m 0 = some
          (u, fun _ => 5) ∧ (true = true → u = 0) := by
  let steps : List (Label (CoreOp 1 Nat Nat)) :=
    [Label.call 0 (.insertRow (fun _ => 7) fun _ => 0) 33,
      Label.call 1 (.readRow 0 true 0 fun _ => 0) 5,
      Label.call 0 (.updateRow 0 0 (fun _ => 7) (fun _ => 5) fun _ => 0) 8,
      Label.steps 1 8].flatten
  have hrun : (System.rehearse (coreSystem (wordTable 0) CoreOp.editing) staysPut
      (System.start (Share.fresh fun _ _ => 0) fun _ => Session.empty) steps).any
      (fun c => c.world.log.any fun ev =>
        decide (ev.call.op = .readRow 0 true 0 (fun _ => 0) ∧ ev.out.image = some fun _ => 5)) =
          true := by
    decide +kernel
  obtain ⟨c, hc, hlog⟩ := (Option.any_eq_true _ _).mp hrun
  obtain ⟨ev, hev, hread⟩ := List.any_eq_true.mp hlog
  obtain ⟨hop, himage⟩ := of_decide_eq_true hread
  have hout := CoreOut.eq_row himage
  have hreach := System.Reach.of_rehearse (fun _ _ _ h => slotStays_of_staysPut h) _ steps hc
  exact ⟨c, hreach, ev, hev, hop, hout,
    reads_return_rows_of_table hreach ev hev 0 true 0 _ _ hop hout⟩

end FastMem
