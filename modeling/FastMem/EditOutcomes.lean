import FastMem.RowTable

/-!
# A write that succeeds has made its edit, and one that fails none

Of the calls that write rows, those that return `FM_ERR_OK` have edited the table of rows, and
those that return another code have not.  So the edits are those of the calls that have
succeeded, in the order in which the slots show them, and of calls still in progress.

That a call does what its code says is read off the paths of its program: `Performs` are the
accesses on a path that make a slot ACTIVE or DELETING or bump a sequence number.  That these
are edits is known of every trace.
-/

namespace FastMem

open Conc

variable {n : Nat} {W PK : Type}

/-- What a call that writes a row does on its path when it succeeds. -/
def CoreOp.Wrote (es : List (Act n W)) : CoreOp n W PK → Prop
  | .insertRow .. => ∃ i, es = [.storeState i .active]
  | .updateRow idx .. | .updateRowLocked idx .. => es = [.addSeq idx, .addSeq idx]
  | .deleteRow idx .. | .deleteRowLocked idx .. => es = [.storeState idx .deleting]
  | _ => False

section

variable {cfg : ShareCfg n W PK} {α β : Type}

/-- On every path the accesses that write, and the result, are as `Q` says. -/
abbrev Performs (cfg : ShareCfg n W PK) (p : Core n W PK α)
    (Q : List (Act n W) → α → Prop) : Prop :=
  Prog.Emits (S := coreSig n W PK) (procBody cfg) Act.writes p Q

variable {Q : List (Act n W) → α → Prop} {R : List (Act n W) → β → Prop}

/-- What edits nothing performs nothing. -/
theorem WritesNone.performs {p : Core n W PK α} (hp : WritesNone p) :
    Performs cfg p fun es _ => es = [] :=
  Prog.emits_none (fun _ ha => ha) (fun q => (beside_procBody q).writesNone) hp

/-- What one program performs after another. -/
theorem Performs.bind {p : Core n W PK α} {f : α → Core n W PK β} (hp : Performs cfg p Q)
    (hf : ∀ es a, Q es a → Performs cfg (f a) fun es' b => R (es ++ es') b) :
    Performs cfg (p >>= f) R :=
  Prog.Emits.bind hp hf

/-- A part of a program that writes nothing leaves that to the rest. -/
theorem WritesNone.performs_bind {p : Core n W PK α} {f : α → Core n W PK β} (hp : WritesNone p)
    (hf : ∀ a, Performs cfg (f a) R) : Performs cfg (p >>= f) R := by
  refine hp.performs.bind fun es a hes => ?_
  subst hes
  exact hf a

/-- A result performs nothing. -/
theorem performs_pure {a : α} (h : Q [] a) : Performs cfg (pure a : Core n W PK α) Q :=
  Prog.emits_ret h

/-- A write of `es` goes through, or nothing is written. -/
def AllOrNone (es : List (Act n W)) (rc : Rc) (es' : List (Act n W)) : Prop :=
  if rc = .ok then es' = es else es' = []

/-- A call that fails has performed none. -/
theorem allOrNone_nil {es : List (Act n W)} {rc : Rc} (h : rc ≠ .ok) : AllOrNone es rc [] := by
  rw [AllOrNone, if_neg h]

/-- A call that succeeds has performed them all. -/
theorem allOrNone_ok {es : List (Act n W)} : AllOrNone es .ok es := by
  rw [AllOrNone, if_pos rfl]

/-- An image write bumps the sequence number twice. -/
theorem performs_writeImage (idx : Int) (rec : Image n W) :
    Performs cfg (writeImage idx rec) fun es _ => es = [.addSeq idx, .addSeq idx] := by
  have hbump : Performs cfg (access (.addSeq idx)) fun es _ => es = [.addSeq idx] :=
    Prog.emits_perform fun _ => rfl
  refine hbump.bind fun es _ hes => (writesNone_copyIn ..).performs_bind fun _ => ?_
  subst hes
  exact hbump.imp fun es _ hes => by rw [hes]; rfl

/-- An insert that succeeds has made one slot ACTIVE. -/
theorem performs_insertRow (rec scratch : Image n W) :
    Performs cfg (insertRow cfg rec scratch) fun es r => ∃ i, AllOrNone
      [.storeState i .active] r.rc es := by
  have hat : ∀ idx, Performs cfg (insertAt cfg rec scratch idx) fun es r =>
      ∃ i, AllOrNone [.storeState i .active] r.rc es := by
    intro idx
    refine (writesNone_copyIn ..).performs_bind fun _ =>
      (still_linkKeys ..).writesNone.performs_bind fun stop => ?_
    cases stop with
    | some k =>
      refine (still_rollback ..).writesNone.performs_bind fun _ => ?_
      refine (allocates_freeSlot idx).writesNone.performs_bind fun _ => ?_
      exact WritesNone.performs_bind (only_access rfl) fun _ => performs_pure ⟨0,
        allOrNone_nil (by simp)⟩
    | none =>
      have hpublish : Performs cfg (access (.storeState idx .active)) fun es _ => es =
          [.storeState idx .active] :=
        Prog.emits_perform fun _ => rfl
      refine hpublish.bind fun es _ hes => ?_
      subst hes
      refine WritesNone.performs_bind (only_access rfl) fun _ =>
        WritesNone.performs_bind (only_access rfl) fun _ => ?_
      exact performs_pure ⟨idx, allOrNone_ok⟩
  refine WritesNone.performs_bind (only_access rfl) fun _ => ?_
  refine (allocates_allocSlot cfg).writesNone.performs_bind fun idx => ?_
  refine Prog.Emits.ite (fun _ => ?_) fun _ => hat idx
  refine WritesNone.performs_bind (only_access rfl) fun _ =>
    WritesNone.performs_bind (only_access rfl) fun cnt => ?_
  exact performs_pure ⟨0, allOrNone_nil (by dsimp only; split <;> simp)⟩

/-- An update that succeeds has written its image. -/
theorem performs_updateRow (idx : Int) (v : Nat) (old new scratch : Image n W) :
    Performs cfg (updateRow cfg idx v old new scratch) fun es r => AllOrNone
      [.addSeq idx, .addSeq idx] r.rc es := by
  refine Prog.Emits.ite (fun _ => ?_) fun _ => ?_
  · refine WritesNone.performs_bind (only_access rfl) fun _ => ?_
    refine (still_verifySlot idx v).writesNone.performs_bind fun valid => ?_
    refine Prog.Emits.ite (fun _ => ?_) fun _ => ?_
    · refine (performs_writeImage idx new).bind fun es _ hes => ?_
      subst hes
      exact WritesNone.performs_bind (only_access rfl) fun _ => performs_pure allOrNone_ok
    · exact WritesNone.performs_bind (only_access rfl) fun _ =>
        performs_pure (allOrNone_nil (by simp))
  · refine (still_lockAll ..).writesNone.performs_bind fun _ => ?_
    refine (loads_dupChecks ..).still.writesNone.performs_bind fun dup => ?_
    cases dup with
    | some k => exact (still_unlockAll _).writesNone.performs_bind fun _ =>
        performs_pure (allOrNone_nil (by simp))
    | none =>
      refine WritesNone.performs_bind (only_access rfl) fun _ => ?_
      refine (still_verifySlot idx v).writesNone.performs_bind fun valid =>
        Prog.Emits.ite (fun _ => ?_) fun _ => ?_
      · refine (performs_writeImage idx new).bind fun es _ hes => ?_
        subst hes
        refine (still_moveKeys ..).writesNone.performs_bind fun _ => ?_
        refine WritesNone.performs_bind (only_access rfl) fun _ => ?_
        exact (still_unlockAll _).writesNone.performs_bind fun _ => performs_pure allOrNone_ok
      · refine WritesNone.performs_bind (only_access rfl) fun _ => ?_
        exact (still_unlockAll _).writesNone.performs_bind fun _ =>
          performs_pure (allOrNone_nil (by simp))

/-- An update of a locked row writes its image exactly if it succeeds. -/
theorem performs_updateRowLocked (idx : Int) (v : Nat) (old new scratch : Image n W) :
    Performs cfg (updateRowLocked cfg idx v old new scratch) fun es r =>
      AllOrNone [.addSeq idx, .addSeq idx] r.rc es := by
  refine (still_verifySlot idx v).writesNone.performs_bind fun valid =>
    Prog.Emits.ite (fun _ => ?_) fun _ => ?_
  · refine Prog.Emits.ite (fun _ => ?_) fun _ => ?_
    · refine (performs_writeImage idx new).bind fun es _ hes => ?_
      subst hes
      exact performs_pure allOrNone_ok
    · refine (still_lockAll ..).writesNone.performs_bind fun _ => ?_
      refine (loads_dupChecks ..).still.writesNone.performs_bind fun dup => ?_
      cases dup with
      | some k => exact (still_unlockAll _).writesNone.performs_bind fun _ =>
          performs_pure (allOrNone_nil (by simp))
      | none =>
        refine (performs_writeImage idx new).bind fun es _ hes => ?_
        subst hes
        refine (still_moveKeys ..).writesNone.performs_bind fun _ => ?_
        exact (still_unlockAll _).writesNone.performs_bind fun _ => performs_pure allOrNone_ok
  · exact performs_pure (allOrNone_nil (by simp))

/-- The rest of a delete performs nothing more. -/
theorem performs_deleteTail (idx : Int) (scratch : Image n W) :
    Performs cfg (deleteTail cfg idx scratch) fun es rc => es = [] ∧ rc = .ok := by
  refine (loads_copyOut ..).still.writesNone.performs_bind fun img => ?_
  refine (still_unlinkKeys ..).writesNone.performs_bind fun _ => ?_
  refine WritesNone.performs_bind (only_access rfl) fun _ =>
    WritesNone.performs_bind (only_access rfl) fun _ => ?_
  refine WritesNone.performs_bind (only_access rfl) fun _ =>
    WritesNone.performs_bind (only_access rfl) fun _ => ?_
  refine (allocates_freeSlot idx).writesNone.performs_bind fun _ => ?_
  refine WritesNone.performs_bind (only_access rfl) fun _ => ?_
  exact performs_pure ⟨rfl, rfl⟩

/-- A delete from the mark of its slot on. -/
theorem performs_marked {p : Core n W PK Rc} {idx : Int}
    (hp : Performs cfg p fun es rc => es = [] ∧ rc = .ok) :
    Performs cfg (access (.storeState idx .deleting) >>= fun _ => p) fun es rc =>
      AllOrNone [.storeState idx .deleting] rc es := by
  have hmark : Performs cfg (access (.storeState idx .deleting)) fun es _ => es =
      [.storeState idx .deleting] :=
    Prog.emits_perform fun _ => rfl
  refine hmark.bind fun es _ hes => hp.imp fun es' rc hrest => ?_
  obtain ⟨rfl, rfl⟩ := hrest
  rw [hes, List.append_nil]
  exact allOrNone_ok

/-- A delete that succeeds has marked its slot. -/
theorem performs_deleteRow (idx : Int) (v : Nat) (scratch : Image n W) :
    Performs cfg (deleteRow cfg idx v scratch) fun es rc => AllOrNone
      [.storeState idx .deleting] rc es := by
  refine WritesNone.performs_bind (only_access rfl) fun _ => ?_
  refine (still_verifySlot idx v).writesNone.performs_bind fun valid => ?_
  refine Prog.Emits.ite (fun _ => ?_) fun _ => ?_
  · exact performs_marked (WritesNone.performs_bind (only_access rfl) fun _ =>
      performs_deleteTail idx scratch)
  · exact WritesNone.performs_bind (only_access rfl) fun _ =>
      performs_pure (allOrNone_nil (by simp))

/-- A delete of a locked row marks it exactly if it succeeds. -/
theorem performs_deleteRowLocked (idx : Int) (v : Nat) (scratch : Image n W) :
    Performs cfg (deleteRowLocked cfg idx v scratch) fun es rc => AllOrNone
      [.storeState idx .deleting] rc es := by
  refine (still_verifySlot idx v).writesNone.performs_bind fun valid =>
    Prog.Emits.ite (fun _ => ?_) fun _ => ?_
  · exact performs_marked (performs_deleteTail idx scratch)
  · exact performs_pure (allOrNone_nil (by simp))

/-- **On its path a call writes its row if it succeeds, and writes nothing if it does not.** -/
theorem performs_code (o : CoreOp n W PK) (l : Session n W) :
    Performs cfg (o.code cfg l) fun es x => if x.1.succeeded = true then o.Wrote es
    else es = [] := by
  -- what a call returns that writes nothing is no success
  have hplain : ∀ {β : Type} {p : Core n W PK β} {f : β → CoreOut n W × Session n W}, WritesNone p →
      (∀ b, (f b).1.succeeded = false) →
      Performs cfg (p >>= fun b => pure (f b)) fun es x => if x.1.succeeded = true then o.Wrote es
      else es = [] := by
    intro β p f hp hf
    refine hp.performs_bind fun b => performs_pure ?_
    rw [if_neg]
    simp [hf b]
  have hwrite : ∀ {β : Type} {p : Core n W PK β} {f : β → CoreOut n W × Session n W}
      {Q : List (Act n W) → β → Prop},
      Performs cfg p Q →
      (∀ es b, Q es b → if (f b).1.succeeded = true then o.Wrote es else es = []) →
      Performs cfg (p >>= fun b => pure (f b)) fun es x => if x.1.succeeded = true then o.Wrote es
      else es = [] := by
    intro β p f Q hp hf
    refine hp.bind fun es b hes => performs_pure ?_
    rw [List.append_nil]
    exact hf es b hes
  cases o with
  | insertRow rec b =>
    refine hwrite (performs_insertRow rec b) fun es r hes => ?_
    obtain ⟨i, hdone⟩ := hes
    simp only [CoreOut.succeeded, decide_eq_true_eq, CoreOp.Wrote]
    unfold AllOrNone at hdone
    split
    · rename_i hok
      rw [if_pos hok] at hdone
      exact ⟨i, hdone⟩
    · rename_i hok
      rw [if_neg hok] at hdone
      exact hdone
  | updateRow idx v old new b =>
    refine hwrite (performs_updateRow idx v old new b) fun es r hes => ?_
    simpa only [CoreOut.succeeded, decide_eq_true_eq, CoreOp.Wrote, AllOrNone] using hes
  | deleteRow idx v b =>
    refine hwrite (performs_deleteRow idx v b) fun es r hes => ?_
    simpa only [CoreOut.succeeded, decide_eq_true_eq, CoreOp.Wrote, AllOrNone] using hes
  | clear => exact hplain writesNone_clear fun _ => rfl
  | find => exact hplain (still_find ..).writesNone fun _ => rfl
  | findNext => exact hplain (still_findNext ..).writesNone fun _ => rfl
  | readRow => exact hplain (still_readRow ..).writesNone fun _ => rfl
  | scanNext => exact hplain (loads_scanNext ..).still.writesNone fun _ => rfl
  | lockRow | unlockRow => exact hplain (only_access rfl) fun _ => rfl
  | reread => exact hplain (still_reread ..).writesNone fun _ => rfl
  | updateRowLocked idx v old new b =>
    refine hwrite (performs_updateRowLocked idx v old new b) fun es r hes => ?_
    simpa only [CoreOut.succeeded, decide_eq_true_eq, CoreOp.Wrote, AllOrNone] using hes
  | deleteRowLocked idx v b =>
    refine hwrite (performs_deleteRowLocked idx v b) fun es r hes => ?_
    simpa only [CoreOut.succeeded, decide_eq_true_eq, CoreOp.Wrote, AllOrNone] using hes

end

/-- A write is itself. -/
theorem writes_eq {a b : Act n W} (h : a.writes = some b) : a = b := by
  unfold Act.writes at h
  split at h <;> cases h <;> rfl

/-- A bump is a write. -/
theorem bumps_writes (a : Act n W) (h : a.bumps = true) : a.writes = some a := by
  cases a with
  | addSeq i => rfl
  | _ => cases h

/-- An access that puts, rewrites or deletes a row. -/
structure Makes (e : CoreEntry n W PK (CoreOp n W PK)) : Prop where
  made : (∃ i, e.act = .storeState i .active ∨ e.act = .storeState i .deleting) ∨ Odden e

section

variable {T : CoreSetting n W PK} {w : CoreWorld n W PK (CoreOp n W PK) (CoreOut n W)}
  {γ : Nat → Role n W}

section

variable {c : Call (CoreOp n W PK)} {a : Act n W} {r : a.Res} {g : Role n W} (hT : T.Edits)
  (hstep : Step T.cfg T.kinds (T.commits c w) w.now w.mem (γ c.tid) a r g)

include hT hstep in
/-- A step that puts, rewrites or deletes a row is an edit. -/
theorem edits_of_makes (himages : Images w.mem γ) (hfills : FillsByInserts ⟨c, a, w.mem⟩)
    (h : Makes ⟨c, a, w.mem⟩) : (editOf ⟨c, a, w.mem⟩).isSome = true := by
  obtain ⟨i, ha | ha⟩ | ⟨i, ha, heven⟩ := h.made
  · obtain ⟨rec, b, hop⟩ := hfills i ha
    rw [editOf_restate ha (by simp), hop]
    rfl
  · subst ha
    obtain ⟨hx, -⟩ | ⟨-, -, -, hcommit⟩ | ⟨hx, -⟩ | ⟨hx, -⟩ := hstep.restates
    · cases hx
    · rw [editOf_restate rfl (by simp), hT.mark c w i hcommit]
      rfl
    · cases hx
    · cases hx
  · subst ha
    obtain ⟨rfl, ⟨-, old, new, hcommit, -⟩ | ⟨hwrite, -⟩⟩ := hstep.bumpSeq
    · rw [editOf_bump rfl heven, hT.write c w _ old new hcommit]
      rfl
    · have hodd := (himages.odd (γ c.tid).slot).mpr ⟨c.tid, hwrite, rfl⟩
      have heven' : w.mem.seq (γ c.tid).slot % 2 = 0 := heven
      omega

include hT hstep in
/-- Only clears make slots FREE. -/
theorem clear_of_free {i : Int} (ha : a = .storeState i .free) : c.op = .clear := by
  subst ha
  obtain ⟨hx, -⟩ | ⟨hx, -⟩ | ⟨hx, -⟩ | ⟨-, hcommit⟩ := hstep.restates
  · cases hx
  · cases hx
  · cases hx
  · exact hT.flip c w i hcommit

end

/-- In every trace these accesses are edits, and only clears make slots FREE. -/
theorem trace_makes (hT : T.Edits) (h : T.Trace w γ) (hfills : ∀ e ∈ w.past, FillsByInserts e) :
    ∀ e ∈ w.past, (Makes e → (editOf e).isSome = true) ∧ ∀ i, e.act = .storeState i .free →
    e.call.op = .clear := by
  induction h with
  | init =>
    intro e he
    cases he
  | start _ _ ih => exact ih hfills
  | @act w γ c a r s g before _ _ hstep ih =>
    obtain ⟨hlast, hpast⟩ := List.forall_mem_cons.mp hfills
    intro e he
    obtain rfl | he := List.mem_cons.mp he
    · have himages := (trace_tidy hT.orders before).images
      exact ⟨edits_of_makes hT hstep himages hlast, fun i => clear_of_free hT hstep⟩
    · exact ih hpast e he
  | stop _ _ ih => exact ih hfills

end

section

variable {cfg : ShareCfg n W PK} {data : Int → Image n W}
  {c : Config (coreSig n W PK) (Share n W) (CoreOp n W PK) (Session n W) (CoreOut n W)}

/-- A call that has succeeded has made its edit. -/
theorem edited_of_succeeded (h : (coreSystem cfg CoreOp.editing).Reach FlipsApart
      (System.start (Share.fresh data) fun _ => Session.empty) c)
    {ev : Event (CoreOp n W PK) (CoreOut n W)} (hev : ev ∈ c.world.log)
    (hok : ev.out.succeeded = true) : ∃ e ∈ c.world.past, e.call = ev.call ∧
    (editOf e).isSome = true := by
  obtain ⟨γ, htrace, -⟩ := (serves_editing cfg data fun _ _ i hapart => hapart i rfl).trace h
  have hmakes := trace_makes (edits_editSetting cfg data FlipsApart) htrace (reach_fillsByInserts h)
  obtain ⟨hstop, l, l', acts, -, hpath, mine, older, hdone, hcall, hacts⟩ := h.paths.2 _ hev
  -- the world at the return of the call
  obtain ⟨w', γ', htrace', -, hpast⟩ := htrace.at hstop
  rw [← hpast] at hdone
  have hmem : ∀ e ∈ mine, e ∈ c.world.past := by
    intro e he
    have hdoneBy : e ∈ System.doneBy ev.call.tid w'.past := by
      rw [hdone]
      exact List.mem_append_left _ he
    have hpast' := List.mem_of_mem_filter hdoneBy
    rw [hpast] at hpast'
    exact List.mem_of_mem_drop hpast'
  have hwrote : if ev.out.succeeded = true then ev.call.op.Wrote (acts.filterMap Act.writes)
      else acts.filterMap Act.writes = [] := performs_code ev.call.op l acts _ hpath
  rw [if_pos hok] at hwrote
  -- what is on the path has been done
  have hfound : ∀ a, a ∈ acts.filterMap Act.writes → ∃ e ∈ mine, e.act = a := by
    intro a ha
    obtain ⟨b, hb, hwrites⟩ := List.mem_filterMap.mp ha
    rw [← hacts, List.mem_reverse] at hb
    obtain ⟨e, he, rfl⟩ := List.mem_map.mp hb
    exact ⟨e, he, writes_eq hwrites⟩
  obtain ⟨e, he, hmade⟩ : ∃ e ∈ mine, Makes e := by
    cases hop : ev.call.op with
    | insertRow rec b =>
      rw [hop] at hwrote
      obtain ⟨i, hes⟩ := hwrote
      obtain ⟨e, he, hact⟩ := hfound (.storeState i .active) (by rw [hes]; exact List.mem_cons_self)
      exact ⟨e, he, ⟨Or.inl ⟨i, Or.inl hact⟩⟩⟩
    | deleteRow idx v b | deleteRowLocked idx v b =>
      rw [hop] at hwrote
      obtain ⟨e, he, hact⟩ :=
        hfound (.storeState idx .deleting) (by rw [hwrote]; exact List.mem_cons_self)
      exact ⟨e, he, ⟨Or.inl ⟨idx, Or.inr hact⟩⟩⟩
    | updateRow idx v old new b | updateRowLocked idx v old new b =>
      rw [hop] at hwrote
      have hes : acts.filterMap Act.writes = [.addSeq idx, .addSeq idx] := hwrote
      have hbumps : (mine.filter fun e => Act.bumps e.act).length = 2 := by
        rw [← hacts, List.filterMap_reverse, List.reverse_eq_iff] at hes
        rw [← List.length_map Entry.act,
          ← bumps_of_filterMap bumps_writes fun _ _ => writes_eq, hes]
        rfl
      obtain ⟨e, he, hodden⟩ :=
        (trace_bumps (editSetting_sound cfg data FlipsApart) htrace' ev.call.tid).odden_of_two
          hdone hbumps
      exact ⟨e, he, ⟨Or.inr hodden⟩⟩
    | _ =>
      rw [hop] at hwrote
      exact hwrote.elim
  exact ⟨e, hmem e he, hcall e he, (hmakes e (hmem e he)).1 hmade⟩

/-- An edit is made by a call that is still in progress or has succeeded. -/
theorem succeeded_of_edited (h : (coreSystem cfg CoreOp.editing).Reach FlipsApart
      (System.start (Share.fresh data) fun _ => Session.empty) c)
    {e : CoreEntry n W PK (CoreOp n W PK)} (he : e ∈ c.world.past) (hclear : e.call.op ≠ .clear)
    (hedit : (editOf e).isSome = true) :
    (∃ p, c.thr e.call.tid = .busy e.call.op e.call.start p) ∨
      ∃ ev ∈ c.world.log, ev.call = e.call ∧ ev.out.succeeded = true := by
  obtain ⟨γ, htrace, -⟩ := (serves_editing cfg data fun _ _ i hapart => hapart i rfl).trace h
  have hfree :=
    (trace_makes (edits_editSetting cfg data FlipsApart) htrace (reach_fillsByInserts h) e he).2
  obtain ⟨l, acts, p, hbusy, -⟩ | ⟨ev, hev, hcall, l, l', acts, -, hpath, hact⟩ := h.belongs e he
  · exact Or.inl ⟨p, hbusy⟩
  · refine Or.inr ⟨ev, hev, hcall, ?_⟩
    have hwrote : if ev.out.succeeded = true then e.call.op.Wrote (acts.filterMap Act.writes)
        else acts.filterMap Act.writes = [] := performs_code e.call.op l acts _ hpath
    obtain ⟨ed, hed⟩ := Option.isSome_iff_exists.mp hedit
    have hwrites : e.act.writes = some e.act := by
      obtain ⟨hbump, -⟩ | ⟨x, hx, hstate⟩ := editOf_slot hed
      · rw [hbump]
        rfl
      · cases x with
        | free => exact absurd (hfree _ hstate) hclear
        | deleted => exact absurd rfl hx
        | active | deleting =>
          rw [hstate]
          rfl
    by_contra hfail
    rw [if_neg hfail] at hwrote
    have hin : e.act ∈ acts.filterMap Act.writes := List.mem_filterMap.mpr ⟨e.act, hact, hwrites⟩
    rw [hwrote] at hin
    cases hin

/-- **The calls that have edited the table are those that have succeeded.**  In every state that
any calls of any threads reach, each call that writes a row and has returned `FM_ERR_OK` has made
an edit, and each edit, but for those of clears, was made by a call that has returned `FM_ERR_OK`
or is still in progress. -/
theorem edits_are_successes (h : (coreSystem cfg CoreOp.editing).Reach FlipsApart
      (System.start (Share.fresh data) fun _ => Session.empty) c) :
    (∀ ev ∈ c.world.log, ev.out.succeeded = true →
      ∃ e ∈ c.world.past, e.call = ev.call ∧ (editOf e).isSome = true) ∧
    ∀ e ∈ c.world.past, e.call.op ≠ .clear → (editOf e).isSome = true →
      (∃ p, c.thr e.call.tid = .busy e.call.op e.call.start p) ∨
        ∃ ev ∈ c.world.log, ev.call = e.call ∧ ev.out.succeeded = true :=
  ⟨fun _ hev hok => edited_of_succeeded h hev hok,
    fun _ he hclear hedit => succeeded_of_edited h he hclear hedit⟩

end

/-- An update finds its row deleted and fails, and the delete succeeds. -/
theorem edits_are_successes_stale_update :
    ∃ c, (coreSystem (wordTable 0) CoreOp.editing).Reach FlipsApart
        (System.start (Share.fresh fun _ _ => 0) fun _ => Session.empty) c ∧
      c.world.log.map (fun ev => ev.out.succeeded) = [false, true, true] ∧
      ((∀ ev ∈ c.world.log, ev.out.succeeded = true →
        ∃ e ∈ c.world.past, e.call = ev.call ∧ (editOf e).isSome = true) ∧
      ∀ e ∈ c.world.past, e.call.op ≠ .clear → (editOf e).isSome = true →
        (∃ p, c.thr e.call.tid = .busy e.call.op e.call.start p) ∨
          ∃ ev ∈ c.world.log, ev.call = e.call ∧ ev.out.succeeded = true) := by
  let steps : List (Label (CoreOp 1 Nat Nat)) :=
    [Label.call 0 (.insertRow (fun _ => 7) fun _ => 0) 33,
      Label.call 1 (.deleteRow 0 0 fun _ => 0) 3,
      Label.call 0 (.updateRow 0 0 (fun _ => 7) (fun _ => 5) fun _ => 0) 0, Label.steps 1 12,
      Label.steps 0 4].flatten
  have hrun : (System.rehearse (coreSystem (wordTable 0) CoreOp.editing) clearsNothing
      (System.start (Share.fresh fun _ _ => 0) fun _ => Session.empty) steps).any
        (fun c => decide (c.world.log.map (fun ev => ev.out.succeeded) = [false, true, true])) =
        true := by
    decide +kernel
  obtain ⟨c, hc, hlog⟩ := (Option.any_eq_true _ _).mp hrun
  have hreach := System.Reach.of_rehearse (fun _ _ _ h => flipsApart_of_clearsNothing h) _ steps hc
  exact ⟨c, hreach, of_decide_eq_true hlog, edits_are_successes hreach⟩

end FastMem
