import FastMem.DeletedOnce
import FastMem.SlotBalance

/-!
# The slots under any calls

Clients may insert, update and delete rows with any images and any generations, look up, read
and scan rows, clear the table, and lock rows, update or delete them under the lock and unlock
them, with any number of threads and in any order of single accesses.  The hash index may then
be left in any state, but the slots are not: none is lost, none is free twice, no row is
deleted twice, and `records` is right as soon as nothing is under way.

All this needs one condition: no clear flips a slot that is in the middle of its deletion.
-/

namespace FastMem

open Conc

variable {n : Nat} {W PK : Type}

/-- The calls of threads that keep to the order of the locks: inserts, clears and the calls that
take a row lock by threads that hold none, the locked ones by threads that hold the lock of the
row, a locked delete with the generation that was re-read if the row was. -/
def CoreOp.anyCall : CoreOp n W PK → Session n W → Bool
  | .insertRow .., l | .updateRow .., l | .deleteRow .., l | .clear, l | .lockRow _, l =>
      l.held.isNone
  | .reread idx _, l | .unlockRow idx, l | .updateRowLocked idx .., l => l.held = some idx
  | .deleteRowLocked idx v _, l => decide (l.held = some idx) && l.seen.all fun x =>
      decide (x.1 = v)
  | .find .., _ | .findNext .., _ | .readRow .., _ | .scanNext .., _ => true

/-- Any call but a clear. -/
def CoreOp.rowCall : CoreOp n W PK → Session n W → Bool
  | .clear, _ => false
  | o, l => o.anyCall l

/-- No clear flips a slot that is in the middle of its deletion. -/
def FlipsApart (_ : Call (CoreOp n W PK)) (a : Act n W)
    (w : CoreWorld n W PK (CoreOp n W PK) (CoreOut n W)) : Prop :=
  ∀ i, a = .storeState i .free → Flippable w.mem i

/-- The setting of threads that make calls of the kinds `K` in runs that meet `A`. -/
def looseSetting (cfg : ShareCfg n W PK) (s₀ : Share n W) (K : Kind → Prop)
    (A : Call (CoreOp n W PK) → Act n W → CoreWorld n W PK (CoreOp n W PK) (CoreOut n W) → Prop) :
    CoreSetting n W PK where
  cfg := cfg
  kinds := K
  commits := fun _ w k =>
    match k with
    | .flip i => Flippable w.mem i
    | _ => True
  returns := Ended
  meets := A
  share := s₀

section

variable {cfg : ShareCfg n W PK} {K : Kind → Prop} {may : CoreOp n W PK → Session n W → Bool}
  {A : Call (CoreOp n W PK) → Act n W → CoreWorld n W PK (CoreOp n W PK) (CoreOut n W) → Prop}

/-- The runs of any calls keep to the protocol, but for the chains. -/
theorem looseSetting_sound (cfg : ShareCfg n W PK) (data : Int → Image n W) (K : Kind → Prop)
    (A : Call (CoreOp n W PK) → Act n W → CoreWorld n W PK (CoreOp n W PK) (CoreOut n W) → Prop) :
    (looseSetting cfg (Share.fresh data) K A).Sound :=
  ⟨⟨data, rfl⟩, fun _ _ _ h => h⟩

/-- Calls that are allowed follow the protocol. -/
theorem serves_loose (data : Int → Image n W) (hindex : ¬ K .index)
    (hkinds : K .insert ∧ K .update ∧ K .delete) (hmay : ∀ o l, may o l = true → o.anyCall l = true)
    (hclear : ∀ l, may .clear l = true → K .clear ∧ ∀ c w i, A c (.storeState i .free) w →
      Flippable w.mem i) :
    Serves (looseSetting cfg (Share.fresh data) K A) may where
  indexed := fun h => absurd h hindex
  insertRow := by
    intro rec b l h
    have hheld := hmay _ _ h
    exact ⟨by simpa [CoreOp.anyCall] using hheld, looseSetting_sound cfg data K A,
      hkinds.1, fun _ _ _ _ => trivial⟩
  updateRow := by
    intro idx v old new b l h
    have hheld := hmay _ _ h
    exact ⟨by simpa [CoreOp.anyCall] using hheld,
      hkinds.2.1, fun _ _ _ => trivial, fun _ _ _ _ _ _ _ _ _ => trivial⟩
  deleteRow := by
    intro idx v b l h
    have hheld := hmay _ _ h
    exact ⟨by simpa [CoreOp.anyCall] using hheld, looseSetting_sound cfg data K A, hkinds.2.2,
      fun _ _ _ _ _ _ _ _ _ => trivial⟩
  clear := by
    intro l h
    have hheld := hmay _ _ h
    obtain ⟨hkind, hflip⟩ := hclear l h
    exact ⟨by simpa [CoreOp.anyCall] using hheld, looseSetting_sound cfg data K A,
      hkind, fun _ _ w i => hflip _ w i⟩
  readRow := fun _ _ _ _ _ _ _ _ => ⟨fun _ => trivial, fun _ _ => trivial, fun _ _ _ => trivial⟩
  lockRow := by
    intro idx l h
    simpa [CoreOp.anyCall] using hmay _ _ h
  reread := by
    intro idx b l h
    simpa [CoreOp.anyCall] using hmay _ _ h
  updateRowLocked := by
    intro idx v old new b l h
    have hheld := hmay _ _ h
    exact ⟨by simpa [CoreOp.anyCall] using hheld,
      hkinds.2.1, fun _ _ _ => trivial, fun _ _ _ _ _ _ _ _ _ => trivial⟩
  deleteRowLocked := by
    intro idx v b l h
    have hheld := hmay _ _ h
    simp only [CoreOp.anyCall, Bool.and_eq_true, decide_eq_true_eq] at hheld
    refine ⟨hheld.1, looseSetting_sound cfg data K A, hkinds.2.2, fun v' img hseen => ?_,
      fun _ _ _ _ _ _ _ _ _ _ => trivial⟩
    have hall := hheld.2
    rw [hseen] at hall
    exact of_decide_eq_true hall
  unlockRow := by
    intro idx l h
    simpa [CoreOp.anyCall] using hmay _ _ h
  returns := fun _ _ _ h => h

theorem serves_anyCall (cfg : ShareCfg n W PK) (data : Int → Image n W) :
    Serves (looseSetting cfg (Share.fresh data) (fun k => k ≠ .index) FlipsApart) CoreOp.anyCall :=
  serves_loose data (fun h => h rfl) ⟨nofun, nofun, nofun⟩ (fun _ _ h => h) fun _ _ =>
    ⟨nofun, fun _ _ i hA => hA i rfl⟩

/-- A call on rows is one of any calls. -/
theorem CoreOp.any_of_row {o : CoreOp n W PK} {l : Session n W} (h : o.rowCall l = true) :
    o.anyCall l = true := by
  cases o <;> first | exact h | cases h

/-- The calls on rows follow the protocol. -/
theorem serves_rowCall (cfg : ShareCfg n W PK) (data : Int → Image n W) :
    Serves
      (looseSetting cfg (Share.fresh data) (fun k => k ≠ .index ∧ k ≠ .clear) fun _ _ _ => True)
      CoreOp.rowCall :=
  serves_loose data (fun h => h.1 rfl) ⟨⟨nofun, nofun⟩, ⟨nofun, nofun⟩, ⟨nofun, nofun⟩⟩
    (fun _ _ h => CoreOp.any_of_row h) (fun _ h => by cases h)

end

variable {cfg : ShareCfg n W PK} {data : Int → Image n W}
  {c : Config (coreSig n W PK) (Share n W) (CoreOp n W PK) (Session n W) (CoreOut n W)}

/-- **No row is deleted twice**, whatever calls are made: between the beginning of the first of
two deletes of one slot and generation that have both succeeded and the return of the second,
the slot has been recycled `2 ^ 32` times. -/
theorem row_deleted_once (h : (coreSystem cfg CoreOp.anyCall).Reach FlipsApart
      (System.start (Share.fresh data) fun _ => Session.empty) c) :
    c.world.log.Pairwise fun later earlier => ∀ idx v, DeletesRow idx v later →
    DeletesRow idx v earlier →
      recyclesAt c.world idx (min earlier.call.start later.call.start) + 2 ^ 32 ≤
      recyclesAt c.world idx later.stop :=
  deletes_apart (serves_anyCall cfg data) (looseSetting_sound cfg data _ _)
    (fun _ _ _ hended => hended) h

/-- The accesses of calls that clear nothing. -/
def clearsNothing (_ : Call (CoreOp n W PK)) (a : Act n W)
    (_ : CoreWorld n W PK (CoreOp n W PK) (CoreOut n W)) : Bool :=
  match a with
  | .storeState _ .free => false
  | _ => true

/-- Where nothing is cleared nothing is flipped. -/
theorem flipsApart_of_clearsNothing {k : Call (CoreOp n W PK)} {a : Act n W}
    {w : CoreWorld n W PK (CoreOp n W PK) (CoreOut n W)} (h : clearsNothing k a w = true) :
    FlipsApart k a w := by
  intro i ha
  subst ha
  cases h

/-- A test of `DeletesRow`. -/
def deletesRow (idx : Int) (v : Nat) (ev : Event (CoreOp n W PK) (CoreOut n W)) : Bool :=
  match ev.call.op, ev.out with
  | .deleteRow idx' v' _, .code .ok => decide (idx' = idx ∧ v' = v)
  | .deleteRowLocked idx' v' _, .code .ok => decide (idx' = idx ∧ v' = v)
  | _, _ => false

/-- The decidable test of a delete is enough. -/
theorem deletesRow_of_deletesRow {idx : Int} {v : Nat} {ev : Event (CoreOp n W PK) (CoreOut n W)}
    (h : deletesRow idx v ev = true) : DeletesRow idx v ev := by
  unfold deletesRow at h
  split at h
  · rename_i idx' v' b hop hout
    obtain ⟨rfl, rfl⟩ := of_decide_eq_true h
    exact ⟨⟨b, Or.inl hop⟩, hout⟩
  · rename_i idx' v' b hop hout
    obtain ⟨rfl, rfl⟩ := of_decide_eq_true h
    exact ⟨⟨b, Or.inr hop⟩, hout⟩
  · cases h

/-- A row is inserted and deleted, and then another one in the same slot. -/
theorem row_deleted_once_recycled_slot :
    ∃ c, (coreSystem (wordTable 0) CoreOp.anyCall).Reach FlipsApart
        (System.start (Share.fresh fun _ _ => 0) fun _ => Session.empty) c ∧
      (∃ ev ∈ c.world.log, DeletesRow 0 0 ev) ∧ (∃ ev ∈ c.world.log, DeletesRow 0 1 ev) ∧
      c.world.log.Pairwise fun later earlier => ∀ idx v, DeletesRow idx v later →
      DeletesRow idx v earlier →
        recyclesAt c.world idx (min earlier.call.start later.call.start) + 2 ^ 32 ≤
          recyclesAt c.world idx later.stop := by
  let steps : List (Label (CoreOp 1 Nat Nat)) :=
    [Label.call 0 (.insertRow (fun _ => 7) fun _ => 0) 33,
      Label.call 1 (.deleteRow 0 0 fun _ => 0) 15,
      Label.call 0 (.insertRow (fun _ => 7) fun _ => 0) 9,
      Label.call 1 (.deleteRow 0 1 fun _ => 0) 15].flatten
  have hrun : (System.rehearse (coreSystem (wordTable 0) CoreOp.anyCall) clearsNothing
      (System.start (Share.fresh fun _ _ => 0) fun _ => Session.empty) steps).any
        (fun c => c.world.log.any (deletesRow 0 0) && c.world.log.any (deletesRow 0 1)) = true := by
    decide +kernel
  obtain ⟨c, hc, hlog⟩ := (Option.any_eq_true _ _).mp hrun
  obtain ⟨hfirst, hsecond⟩ := Bool.and_eq_true_iff.mp hlog
  obtain ⟨ev, hev, hdel⟩ := List.any_eq_true.mp hfirst
  obtain ⟨ev', hev', hdel'⟩ := List.any_eq_true.mp hsecond
  have hreach := System.Reach.of_rehearse (fun _ _ _ h => flipsApart_of_clearsNothing h) _ steps hc
  exact ⟨c, hreach, ⟨ev, hev, deletesRow_of_deletesRow hdel⟩,
    ⟨ev', hev', deletesRow_of_deletesRow hdel'⟩, row_deleted_once hreach⟩

/-- Every slot below the row limit that has been allocated holds a row or is on the free list,
never both and never twice, and `records` is the number of rows. -/
structure SlotsAddUp (cfg : ShareCfg n W PK) (s : Share n W) : Prop where
  free : ∃ F, s.FreeList F ∧ F.Nodup ∧ (∀ i ∈ F, s.state i ≠ .active) ∧
    ∀ u, u < slotCount s.chunkCnt → u < cfg.maxRecords → s.state (i32 u) = .active ∨ i32 u ∈ F
  records : s.records = s.rows.ncard

section

variable {s : Share n W} {γ : Nat → Role n W} {l : Session n W} {g : Role n W}

/-- A thread between its calls has no slot. -/
theorem AtRest.not_has (h : AtRest l g) (i : Int) : ¬ g.Has i := by
  intro hhas
  obtain (⟨hp, -⟩ | hextra) | hflipped := hhas
  · obtain hidle | hrow := h.phase
    · rw [hidle] at hp
      cases hp
    · rw [hrow.1] at hp
      cases hp
  · have hnil : g.extra = [] := h.rest.extra
    rw [hnil] at hextra
    cases hextra
  · have hnil : g.flipped = [] := h.rest.flipped
    rw [hnil] at hflipped
    cases hflipped

/-- What is counted too much and too little belongs to threads in the middle of a call. -/
theorem busy_of_phase
    {c : Config (coreSig n W PK) (Share n W) (CoreOp n W PK) (Session n W) (CoreOut n W)}
    (hidle : ∀ t l, c.thr t = .idle l → AtRest l (γ t)) {t : Nat}
    (hphase : (γ t).phase ≠ .idle ∧ (γ t).phase ≠ .row) :
    t ∈ {t | ∃ o st p, c.thr t = .busy o st p} := by
  cases hthr : c.thr t with
  | idle l =>
    obtain h | h := (hidle t l hthr).phase
    · exact absurd h hphase.1
    · exact absurd h.1 hphase.2
  | busy o st p => exact ⟨o, st, p, hthr⟩

end

/-- **No slot is lost, whatever calls are made.**  Whenever no call is in progress, every slot
below the row limit holds a row or is on the free list, and `records` is the number of rows. -/
theorem slots_add_up_at_rest (h : (coreSystem cfg CoreOp.anyCall).Reach FlipsApart
      (System.start (Share.fresh data) fun _ => Session.empty) c)
    (hrest : ∀ t, ∃ l, c.thr t = .idle l) : SlotsAddUp cfg c.world.mem := by
  obtain ⟨γ, htrace, hidle⟩ := (serves_anyCall cfg data).trace h
  have hsound := looseSetting_sound cfg data (fun k => k ≠ .index) FlipsApart
  have hslots := trace_slots hsound.1 hsound.2 htrace
  have hnone : ∀ t i, ¬ (γ t).Has i := by
    intro t i
    obtain ⟨l, hl⟩ := hrest t
    exact (hidle t l hl).not_has i
  constructor
  case free =>
    obtain ⟨F, hF, -⟩ := hslots.free
    refine ⟨F, hF, IsChain.nodup hF, fun i hi => hslots.free_not_active hF hi,
      fun u hu hlimit => ?_⟩
    obtain hactive | ⟨F', hF', hmem⟩ | ⟨t, ht⟩ :=
      trace_noneLost hsound.1 hsound.2 htrace u hu hlimit
    · exact Or.inl hactive
    · rw [IsChain.unique hF' hF] at hmem
      exact Or.inr hmem
    · exact absurd ht (hnone t _)
  case records =>
    have hzero : (Share.fresh data : Share n W).records =
        ((Share.fresh data).rows.ncard : Int) := by
      simp [Share.fresh, Share.rows]
    apply (trace_rowsCounted hsound.1.started hsound.2 hzero htrace).at_rest
    intro t
    obtain ⟨l, hl⟩ := hrest t
    exact (hidle t l hl).phase_eq

/-- A row is inserted while another one is being deleted. -/
theorem slots_add_up_at_rest_two_threads :
    ∃ c, (coreSystem (wordTable 0) CoreOp.anyCall).Reach FlipsApart
        (System.start (Share.fresh fun _ _ => 0) fun _ => Session.empty) c ∧
      c.world.mem.state 0 = .deleted ∧ c.world.mem.records = 1 ∧ SlotsAddUp
        (wordTable 0) c.world.mem := by
  let steps : List (Label (CoreOp 1 Nat Nat)) :=
    [Label.call 0 (.insertRow (fun _ => 7) fun _ => 0) 33,
      Label.call 1 (.deleteRow 0 0 fun _ => 0) 9,
      Label.call 0 (.insertRow (fun _ => 3) fun _ => 0) 9, Label.steps 1 6].flatten
  have hrun : (System.rehearse (coreSystem (wordTable 0) CoreOp.anyCall) clearsNothing
      (System.start (Share.fresh fun _ _ => 0) fun _ => Session.empty) steps).any
        (fun c => decide (c.world.mem.state 0 = .deleted ∧ c.world.mem.records = 1) &&
          (isIdle c 0 && isIdle c 1)) = true := by
    decide +kernel
  obtain ⟨c, hc, hstate⟩ := (Option.any_eq_true _ _).mp hrun
  obtain ⟨hrow, hidle⟩ := Bool.and_eq_true_iff.mp hstate
  have hreach := System.Reach.of_rehearse (fun _ _ _ h => flipsApart_of_clearsNothing h) _ steps hc
  have hrest := idle_of_schedule (System.schedule_of_rehearse hc) (by decide +kernel)
    (Bool.and_eq_true_iff.mp hidle)
  exact ⟨c, hreach, (of_decide_eq_true hrow).1, (of_decide_eq_true hrow).2,
    slots_add_up_at_rest hreach hrest⟩

/-- A thread that does not clear goes on not clearing. -/
theorem Step.not_clearing {K : Kind → Prop} {G : Commit n W → Prop} {now : Nat} {s : Share n W}
    {g g' : Role n W} {a : Act n W} {r : a.Res} (hclear : ¬ K .clear)
    (h : Step cfg K G now s g a r g')
    (hg : g.phase.clearing = false) : g'.phase.clearing = false := by
  cases h with
  | slot hs => cases hs <;> grind
  | free hs => cases hs <;> grind
  | lock hs | view hs | grow hs | image hs | read hs | note hs => cases hs <;> grind
  | chain hs => cases hs <;> grind
  | dup hs => cases hs <;> grind

/-- Without clears no thread is in the middle of one. -/
theorem trace_not_clearing {Op Out : Type} {T : Setting n W PK Op Out} (hclear : ¬ T.kinds .clear)
    {w : CoreWorld n W PK Op Out} {γ : Nat → Role n W} (h : T.Trace w γ) :
    ∀ t, (γ t).phase.clearing = false := by
  induction h with
  | init => exact fun _ => rfl
  | @start w γ t _ ih =>
    rw [Function.forall_update_iff γ fun _ g => g.phase.clearing = false]
    exact ⟨ih t, fun u _ => ih u⟩
  | @act w γ c a r s g _ _ _ hstep ih =>
    rw [Function.forall_update_iff γ fun _ g => g.phase.clearing = false]
    exact ⟨Step.not_clearing hclear hstep (ih c.tid), fun u _ => ih u⟩
  | stop _ _ ih => exact ih

/-- **How far off the count of rows may be** while calls that do not clear the table are in
progress: at most one row too few, and at most one too many for each call in progress. -/
theorem records_near_rows (h : (coreSystem cfg CoreOp.rowCall).Reach (fun _ _ _ => True)
      (System.start (Share.fresh data) fun _ => Session.empty) c) :
    (c.world.mem.rows.ncard : Int) ≤ c.world.mem.records + 1 ∧
    c.world.mem.records ≤ c.world.mem.rows.ncard +
    {t | ∃ o st p, c.thr t = .busy o st p}.ncard := by
  obtain ⟨γ, htrace, hidle⟩ := (serves_rowCall cfg data).trace h
  have hsound := looseSetting_sound cfg data (fun k => k ≠ .index ∧ k ≠ .clear) fun _ _ _ => True
  have hzero : (Share.fresh data : Share n W).records = ((Share.fresh data).rows.ncard : Int) := by
    simp [Share.fresh, Share.rows]
  have hkind : ¬ (Kind.clear ≠ .index ∧ Kind.clear ≠ .clear) := fun h => h.2 rfl
  have hclearing := trace_not_clearing hkind htrace
  obtain ⟨t, ht⟩ | hcount := trace_rowsCounted hsound.1.started hsound.2 hzero htrace
  · rw [hclearing t] at ht
    cases ht
  have hlocked := trace_locked hsound.1.owner htrace
  -- of the threads that have published a row and not counted it there is at most one
  have hpublished : (published γ).ncard ≤ 1 := by
    by_cases hsome : ∃ t, (γ t).phase = .published
    · obtain ⟨t, ht⟩ := hsome
      rw [hlocked.published_eq ht, Set.ncard_singleton]
    · have hnone : published γ = ∅ := Set.eq_empty_of_forall_notMem fun t ht => hsome ⟨t, ht⟩
      rw [hnone, Set.ncard_empty]
      exact Nat.zero_le 1
  have hfinite := h.busy_finite
  have hdying : (dying γ).ncard ≤ {t | ∃ o st p, c.thr t = .busy o st p}.ncard := by
    have hsub : dying γ ⊆ (fun t => (γ t).slot) '' {t | ∃ o st p, c.thr t = .busy o st p} := by
      intro i hi
      obtain ⟨t, hp, hslot⟩ := hi
      exact ⟨t, busy_of_phase hidle (by grind), hslot⟩
    exact (Set.ncard_le_ncard hsub (hfinite.image _)).trans (Set.ncard_image_le hfinite)
  omega

/-- A row is deleted before the insert has counted it: for a moment the count is -1. -/
theorem records_near_rows_minus_one :
    ∃ c, (coreSystem (wordTable 0) CoreOp.rowCall).Reach (fun _ _ _ => True)
        (System.start (Share.fresh fun _ _ => 0) fun _ => Session.empty) c ∧
      c.world.mem.records = -1 ∧ (c.world.mem.rows.ncard : Int) ≤ c.world.mem.records + 1 ∧
      c.world.mem.records ≤ c.world.mem.rows.ncard +
      {t | ∃ o st p, c.thr t = .busy o st p}.ncard := by
  let steps : List (Label (CoreOp 1 Nat Nat)) :=
    [Label.call 0 (.insertRow (fun _ => 7) fun _ => 0) 30,
      Label.call 1 (.deleteRow 0 0 fun _ => 0) 9].flatten
  have hrun : (System.schedule (coreSystem (wordTable 0) CoreOp.rowCall)
      (System.start (Share.fresh fun _ _ => 0) fun _ => Session.empty) steps).any
        (fun c => decide (c.world.mem.records = -1)) = true := by
    decide +kernel
  obtain ⟨c, hc, hcount⟩ := (Option.any_eq_true _ _).mp hrun
  have hreach := System.Reach.of_schedule _ _ steps hc
  exact ⟨c, hreach, of_decide_eq_true hcount, records_near_rows hreach⟩

end FastMem
