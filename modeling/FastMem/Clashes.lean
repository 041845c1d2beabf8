import FastMem.Finds
import FastMem.IndexedCalls

/-!
# Writes that clash with no row that stands

An insert checks each unique key under the lock of the bucket of its record, an update each
unique key that it changes under the locks of all the buckets it involves.  Rows come and go
meanwhile, and a check may miss a row that is on its way in or out.  It misses no row that
stands: a write that succeeds leaves no two rows equal on a unique key of which the other one
has stood all the while.
-/

namespace FastMem

open Conc

variable {n : Nat} {W PK Op Out α : Type} {T : Setting n W PK Op Out} {w : CoreWorld n W PK Op Out}
  {γ : Nat → Role n W} {t k b m m₀ stop fuel : Nat} {i : Int}
    {img rec scratch : Image n W} {L : List Int}

/-- Under key `k` the record is equal to the image of no row that stands from `m` to `m'`. -/
def NoTwin (cfg : ShareCfg n W PK) (mem : Nat → Share n W) (k : Nat) (rec : Image n W)
    (m m' : Nat) : Prop :=
  ∀ x img, Stands mem x img m m' → (cfg.keydef k).ops.cmpRecRec img rec ≠ 0

/-- Records are checked under this key. -/
def ShareCfg.Checked (cfg : ShareCfg n W PK) (k : Nat) (rec : Image n W) : Prop :=
  (cfg.keydef k).unique = true ∧ (cfg.keydef k).ops.hasNullPart rec = false

variable {pre post : List Int}

/-- **The walk of a check passes over no twin that stands.** -/
theorem yields_dupWalk (hT : T.Indexes) (h : T.Trace w γ) (hstop : stop ≤ w.now) (hm : m₀ ≤ m)
    (scratch : Image n W) (hold : (w.memAt m).HoldsChain t k b (pre ++ post)) :
    (machine T.cfg).Yields (w.line stop) t fuel
    (loop (.dupWalk k rec scratch (post.headD nullSlot))) m fun r _ =>
      r = .ok → ∀ x ∈ post, ∀ img, Stands w.memAt x img m₀ stop →
      (T.cfg.keydef k).ops.cmpRecRec img rec ≠ 0 := by
  induction fuel using Nat.strong_induction_on generalizing m scratch pre post with
  | _ fuel ih =>
  apply Machine.yields_enter
  intro e he
  show (machine T.cfg).Yields (w.line stop) t e
    (dupBody T.cfg k rec scratch (post.headD nullSlot)) m _
  cases post with
  | nil => exact Machine.yields_ret fun _ => nofun
  | cons x post =>
    unfold dupBody
    rw [List.headD_cons, if_neg hold.ne_null]
    refine Machine.Yields.bind ((yields_readRow hT.orders h hstop hm 0 scratch).and
      (yields_holdsChain hT h hstop (only_loop rfl) hold)) fun r j hle hj hread => ?_
    obtain ⟨hread, hold'⟩ := hread
    apply Machine.Yields.ite
    · intro _
      exact Machine.yields_ret nofun
    · intro hmiss
      refine yields_load (fun s => s.next k x) (fun _ => rfl) fun j₁ hpause hle₁ hj₁ hmem => ?_
      have hold₁ := hold'.pause hT h hpause (hj₁.le.trans hstop)
      rw [hold₁.next]
      rw [← hmem, ← List.singleton_append (x := x), ← List.append_assoc] at hold₁
      refine (ih e he (by omega) r.2 hold₁).imp fun rc _ _ _ hrc hok y hy => ?_
      obtain rfl | hy := List.mem_cons.mp hy
      · intro img hstands hcmp
        rw [hread img hstands.toUnwritten] at hmiss
        exact hmiss ⟨rfl, hcmp⟩
      · exact hrc hok y hy

/-- A check that passes has found no twin that stands. -/
theorem yields_dupCheck (hT : T.Indexes) (h : T.Trace w γ) (hhash : HashRespects T.cfg)
    (hstop : stop ≤ w.now) (hm : m₀ ≤ m) (hk : k < T.cfg.keys)
    (hold : (w.memAt m).HoldsChain t k (T.cfg.keyBucket k rec) L) :
    (machine T.cfg).Yields (w.line stop) t fuel
    (dupCheck T.cfg k (T.cfg.keyBucket k rec) rec scratch) m fun r _ =>
      r = .ok → T.cfg.Checked k rec → NoTwin T.cfg w.memAt k rec m₀ stop := by
  unfold dupCheck
  apply Machine.Yields.ite
  · intro _
    refine yields_load (fun s => s.head k (T.cfg.keyBucket k rec)) (fun _ => rfl)
      fun j hpause hle hj hmem => ?_
    have hold₁ := hold.pause hT h hpause (hj.le.trans hstop)
    have hchain := hold₁.chain
    rw [hold₁.chain.head_eq]
    rw [← hmem, ← List.nil_append L] at hold₁
    have hm' : m₀ ≤ j + 1 := by omega
    refine (yields_dupWalk hT h hstop hm' scratch hold₁).imp
      fun rc _ _ _ hrc hok _ x img hstands hcmp => ?_
    -- a twin that stands is in the bucket of the record
    have hbucket : T.cfg.keyBucket k rec = T.cfg.keyBucket k img := by
      unfold ShareCfg.keyBucket
      rw [hhash k hk img rec hcmp]
    rw [hbucket] at hchain
    have hmemx := hstands.mem_chain hT h (hm.trans hle) hj.le hstop hk hchain
    exact hrc hok x hmemx img hstands hcmp
  · intro hfree
    refine Machine.yields_ret fun _ hchecked => absurd ?_ hfree
    simp [hchecked.1, hchecked.2]

/-- The keys an insert has linked its record under have been checked. -/
theorem yields_linkKeys (hT : T.Indexes) (h : T.Trace w γ) (hhash : HashRespects T.cfg)
    (hstop : stop ≤ w.now) (hm : m₀ ≤ m) (ks : List Nat) (hks : ∀ k ∈ ks, k < T.cfg.keys) :
    (machine T.cfg).Yields (w.line stop) t fuel (linkKeys T.cfg rec scratch i ks) m fun r _ =>
      r = none → ∀ k ∈ ks, T.cfg.Checked k rec → NoTwin T.cfg w.memAt k rec m₀ stop := by
  induction ks generalizing m with
  | nil => exact Machine.yields_ret fun _ => nofun
  | cons k ks ih =>
    obtain ⟨hk, hks⟩ := List.forall_mem_cons.mp hks
    refine yields_lockBucket hT h hstop fun L j hle hj hold => ?_
    refine (yields_dupCheck hT h hhash hstop (hm.trans hle) hk hold).bind fun r j₁ hle₁ _ hr => ?_
    apply Machine.Yields.ite
    · intro hok
      refine Machine.yields_after fun _ j₂ hle₂ => ?_
      refine yields_access fun j₃ _ _ hle₃ _ _ => ?_
      refine (ih (m := j₃ + 1) (by omega) hks).imp fun r' _ _ _ hr' hnone => ?_
      exact List.forall_mem_cons.mpr ⟨hr hok, hr' hnone⟩
    · intro _
      exact yields_access fun _ _ _ _ _ _ => Machine.yields_ret nofun

/-- An insert that succeeds has met no twin that stands. -/
theorem yields_insertRow (hT : T.Indexes) (h : T.Trace w γ) (hhash : HashRespects T.cfg)
    (hstop : stop ≤ w.now) :
    (machine T.cfg).Yields (w.line stop) t fuel (insertRow T.cfg rec scratch) m fun r _ =>
      r.rc = .ok → ∀ k < T.cfg.keys, T.cfg.Checked k rec → NoTwin T.cfg w.memAt k rec m stop := by
  refine yields_access fun j _ _ hle _ _ => ?_
  refine Machine.yields_after fun idx j₁ hle₁ => ?_
  apply Machine.Yields.ite
  · intro _
    refine yields_access fun _ _ _ _ _ _ => yields_access fun _ cnt _ _ _ _ =>
      Machine.yields_ret fun hok => ?_
    split at hok <;> cases hok
  · intro _
    refine Machine.yields_after fun _ j₂ hle₂ => ?_
    have hm : m ≤ j₂ := by omega
    refine (yields_linkKeys hT h hhash hstop hm (List.range T.cfg.keys) fun k =>
      List.mem_range.mp).bind fun r j₃ _ _ hr => ?_
    cases r with
    | none => exact Machine.yields_any fun _ _ _ k hk => hr rfl k (List.mem_range.mpr hk)
    | some k =>
      refine Machine.yields_after fun _ _ _ => ?_
      refine Machine.yields_after fun _ _ _ => ?_
      exact yields_access fun _ _ _ _ _ _ => Machine.yields_ret nofun

/-- A thread that takes a lock keeps those it has. -/
theorem yields_lock (hT : T.Orders) (h : T.Trace w γ) (hstop : stop ≤ w.now) (l : Lock) :
    (machine T.cfg).Yields (w.line stop) t fuel (access (.lock l)) m fun _ j =>
      ∀ l', (w.memAt m).owner l' = some t ∨ l' = l → (w.memAt j).owner l' = some t := by
  refine yields_access (f := pure) fun j r hpause _ hj hexec => Machine.yields_ret fun l' hl' => ?_
  have hexec' : (if (w.memAt j).owner l = none then some ((), (w.memAt j).setOwner (some t) l)
      else none) = some (r, w.memAt (j + 1)) := hexec
  split at hexec'
  · rw [Option.some.injEq, Prod.mk.injEq] at hexec'
    rw [← hexec'.2, owner_setOwner]
    by_cases hl : l' = l
    · rw [if_pos hl]
    · rw [if_neg hl]
      exact hpause.keeps (P := fun y => (w.memAt y).owner l' = some t) (hl'.resolve_right hl)
        fun y _ hlt hother hy =>
        trace_keeps_owner hT h (by omega) hother hy
  · cases hexec'

/-- After the acquire loop of an update the thread has all the locks of the set. -/
theorem yields_lockAll (hT : T.Orders) (h : T.Trace w γ) (hstop : stop ≤ w.now)
    (vs : List (Nat × Nat)) (prev : Option (Nat × Nat))
    (hprev : ∀ v ∈ prev, (w.memAt m).owner (.bucket v.1 v.2) = some t) :
    (machine T.cfg).Yields (w.line stop) t fuel (lockAll prev vs) m fun _ j =>
      ∀ l, (w.memAt m).owner l = some t ∨ (∃ v ∈ vs, l = .bucket v.1 v.2) →
      (w.memAt j).owner l = some t := by
  induction vs generalizing m prev with
  | nil =>
    refine Machine.yields_ret fun l hl => hl.resolve_right ?_
    rintro ⟨v, hv, -⟩
    cases hv
  | cons v vs ih =>
    have hfirst : (machine T.cfg).Yields (w.line stop) t fuel
        (unlessSame prev v (access (.lock (.bucket v.1 v.2)))) m
        fun _ j => ∀ l, (w.memAt m).owner l = some t ∨ l = .bucket v.1 v.2 →
        (w.memAt j).owner l = some t := by
      apply Machine.Yields.ite
      · intro hsame
        refine Machine.yields_ret fun l hl => hl.elim id fun hl => ?_
        rw [hl]
        exact hprev v hsame
      · intro _
        exact yields_lock hT h hstop _
    refine hfirst.bind fun _ j hle hj hown => ?_
    refine (ih (some v) ?_).imp fun _ j' _ _ hown' l hl => hown' l ?_
    · intro v' hv'
      cases hv'
      exact hown _ (Or.inr rfl)
    · obtain hheld | ⟨v', hv', rfl⟩ := hl
      · exact Or.inl (hown l (Or.inl hheld))
      · obtain rfl | hv' := List.mem_cons.mp hv'
        · exact Or.inl (hown _ (Or.inr rfl))
        · exact Or.inr ⟨v', hv', rfl⟩

/-- The keys that an update has checked under the locks of their buckets. -/
theorem yields_dupChecks (hT : T.Indexes) (h : T.Trace w γ) (hhash : HashRespects T.cfg)
    (hstop : stop ≤ w.now) (hm : m₀ ≤ m) (ks : List Nat) (hks : ∀ k ∈ ks, k < T.cfg.keys)
    (hold : ∀ k ∈ ks, ∃ L, (w.memAt m).HoldsChain t k (T.cfg.keyBucket k rec) L) :
    (machine T.cfg).Yields (w.line stop) t fuel (dupChecks T.cfg rec scratch ks) m fun r _ =>
      r = none → ∀ k ∈ ks, T.cfg.Checked k rec → NoTwin T.cfg w.memAt k rec m₀ stop := by
  induction ks generalizing m with
  | nil => exact Machine.yields_ret fun _ => nofun
  | cons k ks ih =>
    obtain ⟨hk, hks⟩ := List.forall_mem_cons.mp hks
    obtain ⟨⟨L, hL⟩, hrest⟩ := List.forall_mem_cons.mp hold
    have hkept : (machine T.cfg).Yields (w.line stop) t fuel
        (dupCheck T.cfg k (T.cfg.keyBucket k rec) rec scratch) m
        fun _ j => ∀ k' ∈ ks, ∃ L, (w.memAt j).HoldsChain t k' (T.cfg.keyBucket k' rec) L := by
      intro e r j he hj hway k' hk'
      obtain ⟨L', hL'⟩ := hrest k' hk'
      exact ⟨L', yields_holdsChain hT h hstop (loads_dupCheck _ _ _ _) hL' e r j he hj hway⟩
    refine ((yields_dupCheck hT h hhash hstop hm hk hL).and hkept).bind fun r j hle _ hr => ?_
    apply Machine.Yields.ite
    · intro hok
      refine (ih (hm.trans hle) hks hr.2).imp fun r' _ _ _ hr' hnone => ?_
      exact List.forall_mem_cons.mpr ⟨hr.1 hok, hr' hnone⟩
    · intro _
      exact Machine.yields_ret nofun

/-- The chain of a bucket whose lock a thread has. -/
theorem holdsChain_of_owner (hT : T.Indexes) (h : T.Trace w γ) (hm : m ≤ w.now)
    (hown : (w.memAt m).owner (.bucket k b) = some t) : ∃ L, (w.memAt m).HoldsChain t k b L := by
  obtain ⟨w', γ', htrace, hnow, hmem⟩ := h.upto hm
  obtain ⟨C, hC⟩ := trace_orderly hT htrace
  have hindex := hC.place.index k b
  rw [← World.memAt_now w', hnow, hmem m (Nat.le_refl m)] at hindex
  exact ⟨C k b, hown, hindex⟩

variable {old new : Image n W}

/-- What both variants of an update do with the keys they change. -/
theorem yields_lockAndCheck (hT : T.Indexes) (h : T.Trace w γ) (hhash : HashRespects T.cfg)
    (hkeys : T.cfg.keys ≤ 64) (hstop : stop ≤ w.now) (hm : m₀ ≤ m)
    {f : Option Nat → Core n W PK WriteResult}
    (hf : ∀ k j, (machine T.cfg).Yields (w.line stop) t fuel (f (some k)) j fun r _ => r.rc ≠ .ok) :
    (machine T.cfg).Yields (w.line stop) t fuel (do
      lockAll none (lockset T.cfg old new)
      let dup ← dupChecks T.cfg new scratch (changedKeys T.cfg old new)
      f dup) m fun r _ =>
        r.rc = .ok → ∀ k ∈ changedKeys T.cfg old new, T.cfg.Checked k new →
        NoTwin T.cfg w.memAt k new m₀ stop := by
  refine (yields_lockAll hT.orders h hstop _ none nofun).bind fun _ j hle hj hown => ?_
  have hold : ∀ k ∈ changedKeys T.cfg old new, ∃ L,
      (w.memAt j).HoldsChain t k (T.cfg.keyBucket k new) L := by
    intro k hk
    apply holdsChain_of_owner hT h (hj.trans hstop)
    exact hown _
      (Or.inr ⟨(k, T.cfg.keyBucket k new), (mem_lockset _ _ _).mpr ⟨k, hk, Or.inl rfl⟩, rfl⟩)
  refine (yields_dupChecks hT h hhash hstop (hm.trans hle) _
    (fun k hk => ((mem_changedKeys hkeys).mp hk).1) hold).bind fun dup j' _ _ hdup => ?_
  cases dup with
  | none => exact Machine.yields_any fun _ _ _ => hdup rfl
  | some k => exact (hf k j').imp fun r _ _ _ hne hok => absurd hok hne

/-- An update that succeeds has met no twin that stands. -/
theorem yields_updateRow (hT : T.Indexes) (h : T.Trace w γ) (hhash : HashRespects T.cfg)
    (hkeys : T.cfg.keys ≤ 64) (hstop : stop ≤ w.now) (v : Nat) :
    (machine T.cfg).Yields (w.line stop) t fuel (updateRow T.cfg i v old new scratch) m fun r _ =>
      r.rc = .ok → ∀ k ∈ changedKeys T.cfg old new, T.cfg.Checked k new →
      NoTwin T.cfg w.memAt k new m stop := by
  apply Machine.Yields.ite
  · intro hnone
    rw [hnone]
    exact Machine.yields_any fun _ _ _ => nofun
  · intro _
    apply yields_lockAndCheck hT h hhash hkeys hstop (Nat.le_refl m)
    intro k j
    refine Machine.yields_after fun _ _ _ => ?_
    exact Machine.yields_ret nofun

theorem yields_updateRowLocked (hT : T.Indexes) (h : T.Trace w γ) (hhash : HashRespects T.cfg)
    (hkeys : T.cfg.keys ≤ 64) (hstop : stop ≤ w.now) (v : Nat) :
    (machine T.cfg).Yields (w.line stop) t fuel
    (updateRowLocked T.cfg i v old new scratch) m fun r _ =>
      r.rc = .ok → ∀ k ∈ changedKeys T.cfg old new, T.cfg.Checked k new →
      NoTwin T.cfg w.memAt k new m stop := by
  refine Machine.yields_after fun valid j hle => ?_
  apply Machine.Yields.ite
  · intro _
    apply Machine.Yields.ite
    · intro hnone
      rw [hnone]
      exact Machine.yields_any fun _ _ _ => nofun
    · intro _
      apply yields_lockAndCheck hT h hhash hkeys hstop hle
      intro k j
      refine Machine.yields_after fun _ _ _ => ?_
      exact Machine.yields_ret nofun
  · intro _
    exact Machine.yields_ret nofun

/-- The call writes `rec` and checks key `k`: an insert checks every key, an update those it
changes. -/
def Writes (cfg : ShareCfg n W PK) (o : CoreOp n W PK) (rec : Image n W) (k : Nat) : Prop :=
  k < cfg.keys ∧ ((∃ b, o = .insertRow rec b) ∨ ∃ idx v old b,
    (o = .updateRow idx v old rec b ∨ o = .updateRowLocked idx v old rec b) ∧
    (cfg.keydef k).ops.cmpRecRec old rec ≠ 0)

variable {cfg : ShareCfg n W PK} {data : Int → Image n W}
  {c : Config (coreSig n W PK) (Share n W) (CoreOp n W PK) (Session n W) (CoreOut n W)}

/-- What the programs of all writes return. -/
theorem yields_write (hT : T.Indexes) (h : T.Trace w γ) (hhash : HashRespects T.cfg)
    (hkeys : T.cfg.keys ≤ 64) (hstop : stop ≤ w.now) {o : CoreOp n W PK}
    (hwrites : Writes T.cfg o rec k) (hchecked : T.cfg.Checked k rec)
    (l : Session n W) :
    (machine T.cfg).Yields (w.line stop) t fuel (o.code T.cfg l) m fun x _ =>
      ∀ r, x.1 = .write r → r.rc = .ok → NoTwin T.cfg w.memAt k rec m stop := by
  obtain ⟨hk, ⟨b, rfl⟩ | ⟨idx, v, old, b, rfl | rfl, hchanged⟩⟩ := hwrites
  · refine (yields_insertRow hT h hhash hstop).bind fun r j _ _ hr => Machine.yields_ret
      fun r' hr' hok => ?_
    cases hr'
    exact hr hok k hk hchecked
  · refine (yields_updateRow hT h hhash hkeys hstop v).bind fun r j _ _ hr => Machine.yields_ret
      fun r' hr' hok => ?_
    cases hr'
    exact hr hok k ((mem_changedKeys hkeys).mpr ⟨hk, hchanged⟩) hchecked
  · refine (yields_updateRowLocked hT h hhash hkeys hstop v).bind fun r j _ _ hr =>
      Machine.yields_ret fun r' hr' hok => ?_
    cases hr'
    exact hr hok k ((mem_changedKeys hkeys).mpr ⟨hk, hchanged⟩) hchecked

/-- **A write that succeeds clashes with no row that stands.**  Whatever other threads do
meanwhile, a row that stands while the write is in progress is not equal to the record written,
under no unique key that the write has to check. -/
theorem write_clashes_with_no_standing_row (hhash : HashRespects cfg) (hkeys : cfg.keys ≤ 64)
    (h : (coreSystem cfg CoreOp.rowCall).Reach (OldBuckets cfg)
      (System.start (Share.fresh data) fun _ => Session.empty) c)
    {ev : Event (CoreOp n W PK) (CoreOut n W)} (hev : ev ∈ c.world.log)
    (hwrites : Writes cfg ev.call.op rec k) {r : WriteResult} (hout : ev.out = .write r)
    (hok : r.rc = .ok) (hchecked : cfg.Checked k rec) {x : Int}
    (hstands : Stands c.world.memAt x img ev.call.start ev.stop) :
    (cfg.keydef k).ops.cmpRecRec img rec ≠ 0 := by
  obtain ⟨γ, htrace, -⟩ := indexed_trace hhash hkeys h
  have hnone := h.returned hev (Q := fun out => ∀ r, out = .write r → r.rc = .ok →
    NoTwin cfg c.world.memAt k rec ev.call.start ev.stop) fun l e _ hstop =>
      yields_write (indexes_indexed cfg data) htrace hhash hkeys hstop hwrites hchecked l
  exact hnone r hout hok x img hstands

/-- The latest call has inserted `rec` while the row `img` stood in slot 0. -/
def insertsBeside [DecidableEq (Image n W)] (rec img : Image n W)
    (w : CoreWorld n W PK (CoreOp n W PK) (CoreOut n W)) : Bool :=
  match w.log with
  | ⟨⟨_, .insertRow rec' _, s⟩, .write ⟨.ok, _, _⟩, p⟩ :: _ =>
      decide (rec' = rec ∧ Stands w.memAt 0 img s p)
  | _ => false

/-- The decidable test of the insert is enough. -/
theorem inserted_of_insertsBeside [DecidableEq (Image n W)]
    {w : CoreWorld n W PK (CoreOp n W PK) (CoreOut n W)}
    (h : insertsBeside rec img w = true) : ∃ ev ∈ w.log, ∃ b r, ev.call.op = .insertRow rec b ∧
    ev.out = .write r ∧
      r.rc = .ok ∧ Stands w.memAt 0 img ev.call.start ev.stop := by
  unfold insertsBeside at h
  split at h
  · rename_i hlog
    obtain ⟨rfl, hstands⟩ := of_decide_eq_true h
    exact ⟨_, hlog ▸ List.mem_cons_self, _, _, rfl, rfl, rfl, hstands⟩
  · cases h

/-- A row is inserted in the bucket of another one, while this one is being read. -/
theorem write_clashes_with_no_standing_row_one_bucket :
    ∃ c ev r, (coreSystem (wordTable 1) CoreOp.rowCall).Reach (OldBuckets (wordTable 1))
        (System.start (Share.fresh fun _ _ => 0) fun _ => Session.empty) c ∧ ev ∈ c.world.log ∧
      Writes (wordTable 1) ev.call.op (fun _ => 3) 0 ∧ ev.out = .write r ∧ r.rc = .ok ∧
      Stands c.world.memAt 0 (fun _ => 7) ev.call.start ev.stop ∧
      ((wordTable 1).keydef 0).ops.cmpRecRec (fun _ => 7) (fun _ => 3) ≠ 0 := by
  let steps : List (Label (CoreOp 1 Nat Nat)) :=
    [Label.call 0 (.insertRow (fun _ => 7) fun _ => 0) 43,
      Label.call 1 (.insertRow (fun _ => 3) fun _ => 0) 6,
      Label.call 0 (.readRow 0 false 0 fun _ => 0) 6, Label.steps 1 17].flatten
  have hrun : (System.rehearse (coreSystem (wordTable 1) CoreOp.rowCall) updatesNothing
      (System.start (Share.fresh fun _ _ => 0) fun _ => Session.empty) steps).any
        (fun c => insertsBeside (fun _ => 3) (fun _ => 7) c.world) = true := by
    decide +kernel
  obtain ⟨c, hc, hinserted⟩ := (Option.any_eq_true _ _).mp hrun
  have hreach :=
    System.Reach.of_rehearse (fun _ _ _ h => oldBuckets_of_updatesNothing (wordTable 1) h)
      _ steps hc
  obtain ⟨ev, hev, b, r, hop, hout, hok, hstands⟩ := inserted_of_insertsBeside hinserted
  have hwrites : Writes (wordTable 1) ev.call.op (fun _ => 3) 0 := ⟨by decide, Or.inl ⟨b, hop⟩⟩
  exact ⟨c, ev, r, hreach, hev, hwrites, hout, hok, hstands,
    write_clashes_with_no_standing_row (hashRespects_wordTable 1) (by decide) hreach
    hev hwrites hout hok
      ⟨rfl, rfl⟩ hstands⟩

end FastMem
