import FastMem.Finds
import FastMem.IndexedCalls

/-!
# Index scans while other threads write

A client looks up a key and goes on from each row it is given to the next one.  Any number of
other threads insert, update and delete rows meanwhile, and look up, read and scan rows.  A row
of this key that stands while the scan lasts is not missed, as long as no row is changed or
deleted while the scan stands on it.
-/

namespace FastMem

open Conc

variable {n : Nat} {W PK : Type} {cfg : ShareCfg n W PK} {data : Int → Image n W}
  {c : Config (coreSig n W PK) (Share n W) (CoreOp n W PK) (Session n W) (CoreOut n W)}

/-- What comes after a slot in a list that repeats none is behind it. -/
theorem mem_behind_of_sublist {L : List Int} (hL : L.Nodup) {x i : Int} (h : [x, i].Sublist L) :
    i ∈ behind x L := by
  induction L with
  | nil => cases h
  | cons y L ih =>
    obtain ⟨hy, hL⟩ := List.nodup_cons.mp hL
    cases h with
    | cons _ h =>
      have hne : y ≠ x := by
        rintro rfl
        exact hy (h.subset List.mem_cons_self)
      rw [behind_cons hne]
      exact ih hL h
    | cons_cons _ h =>
      rw [behind_self]
      exact List.singleton_sublist.mp h

/-- What is behind a cursor is part of the chain. -/
theorem behind_sublist (x : Int) (L : List Int) : (behind x L).Sublist L :=
  (behind_suffix x L).sublist

section

variable (hhash : HashRespects cfg) (hkeys : cfg.keys ≤ 64)
  (h : (coreSystem cfg CoreOp.rowCall).Reach (OldBuckets cfg)
      (System.start (Share.fresh data) fun _ => Session.empty) c)
  {ev : Event (CoreOp n W PK) (CoreOut n W)} (hev : ev ∈ c.world.log) {key m₀ : Nat}
    {pk : PK} {b : Image n W}
  (hm : m₀ ≤ ev.call.start)

include hhash hkeys h hev hm in
/-- What a lookup that has returned has come to. -/
theorem found_of_find (hop : ev.call.op = .find key pk b) :
    ∃ r, ev.out = .found r.1 r.2.1 r.2.2 ∧
    LooksUp cfg c.world.memAt key pk m₀ ev.call.start ev.stop id r := by
  obtain ⟨γ, htrace, -⟩ := indexed_trace hhash hkeys h
  refine h.returned hev (Q := fun out => ∃ r, out = .found r.1 r.2.1 r.2.2 ∧
    LooksUp cfg c.world.memAt key pk m₀ ev.call.start ev.stop id r) fun l e _ hstop => ?_
  rw [hop]
  refine (yields_find (indexes_indexed cfg data) htrace hstop hm b).bind fun r j _ _ hr => ?_
  exact Machine.yields_ret ⟨r, rfl, hr⟩

include hhash hkeys h hev hm in
/-- What a call that goes on has looked at. -/
theorem found_of_findNext {cur : Int} (hop : ev.call.op = .findNext key pk cur b) :
    ∃ r, ev.out = .found r.1 r.2.1 r.2.2 ∧ LooksUp cfg c.world.memAt key pk m₀ ev.call.start ev.stop
      (behind cur) r := by
  obtain ⟨γ, htrace, -⟩ := indexed_trace hhash hkeys h
  refine h.returned hev (Q := fun out => ∃ r, out = .found r.1 r.2.1 r.2.2 ∧
    LooksUp cfg c.world.memAt key pk m₀ ev.call.start ev.stop (behind cur) r) fun l e _ hstop => ?_
  rw [hop]
  refine (yields_findNext (indexes_indexed cfg data) htrace hstop hm cur b).bind
    fun r j _ _ hr => ?_
  exact Machine.yields_ret ⟨r, rfl, hr⟩

end

/-- An index scan that began at time `m₀`, up to the call `ev`: the rows it has gone on from,
the latest first.  Each of these stands from the beginning of the call that returned it to the
end of the next. -/
inductive LookupScan (w : CoreWorld n W PK (CoreOp n W PK) (CoreOut n W)) (key : Nat)
    (pk : PK) (m₀ : Nat) : List Int → Event (CoreOp n W PK) (CoreOut n W) → Prop
  | find {ev : Event (CoreOp n W PK) (CoreOut n W)} {b : Image n W} (mem : ev ∈ w.log)
      (op : ev.call.op = .find key pk b) (start : ev.call.start = m₀) : LookupScan w key pk m₀ [] ev
  | next {is : List Int} {ev ev' : Event (CoreOp n W PK) (CoreOut n W)} {i : Int}
    {img b img' : Image n W}
      (before : LookupScan w key pk m₀ is ev) (out : ev.out = .found .ok img i) (mem : ev' ∈ w.log)
      (op : ev'.call.op = .findNext key pk i b) (later : ev.stop ≤ ev'.call.start)
      (stands : Stands w.memAt i img' ev.call.start ev'.stop) : LookupScan w key pk m₀ (i :: is) ev'

/-- A match that stands for some time does so for part of it. -/
theorem StandingMatch.until {mem : Nat → Share n W} {key m m' j : Nat} {pk : PK} {i : Int}
    (h : StandingMatch cfg mem key pk m m' i) (hj : j ≤ m') :
    StandingMatch cfg mem key pk m j i := by
  obtain ⟨img, hstands, hcmp⟩ := h
  exact ⟨img, hstands.until hj, hcmp⟩

/-- A row that matches and stands is in the chain of the key's bucket. -/
theorem StandingMatch.mem_chain {γ : Nat → Role n W}
    {w : CoreWorld n W PK (CoreOp n W PK) (CoreOut n W)} (hagree : KeyRespects cfg)
    (htrace : (indexedSetting cfg (Share.fresh data)).Trace w γ) {key m m' j : Nat} {pk : PK}
    {i : Int} (hkey : key < cfg.keys) (h : StandingMatch cfg w.memAt key pk m m' i) (hj : m ≤ j)
    (hj' : j ≤ m') (hm' : m' ≤ w.now) {L : List Int}
    (hL : IsChain nullSlot ((w.memAt j).next key) ((w.memAt j).head key (cfg.packedBucket key pk))
      L) : i ∈ L := by
  obtain ⟨img, hstands, hcmp⟩ := h
  have hbucket : cfg.packedBucket key pk = cfg.keyBucket key img := by
    unfold ShareCfg.packedBucket ShareCfg.keyBucket
    rw [hagree key hkey img pk hcmp]
  rw [hbucket] at hL
  exact hstands.mem_chain (indexes_indexed cfg data) htrace hj hj' hm' hkey hL

/-- What a lookup says of a row that matches and stands: it has come to the row, or to one the
row is behind of, if the row was in the part of the chain it has looked at. -/
theorem LooksUp.spec {mem : Nat → Share n W} {key m₀ m m' : Nat} {pk : PK}
    {part : List Int → List Int} {r : Rc × Image n W × Int}
    (h : LooksUp cfg mem key pk m₀ m m' part r) (hpart : ∀ L, (part L).Sublist L) {x : Int}
    (hx : StandingMatch cfg mem key pk m₀ m' x)
    (hmem : ∀ L j, m ≤ j → j ≤ m' →
      IsChain nullSlot ((mem j).next key) ((mem j).head key (cfg.packedBucket key pk)) L →
      x ∈ part L) :
    r.1 = .ok ∧
    (x = r.2.2 ∨ ∃ j, m ≤ j ∧ j ≤ m' ∧ (mem j).Behind key (cfg.packedBucket key pk) r.2.2 x) := by
  obtain ⟨L, j, hj, hj', hL, hpasses⟩ := h
  have hxL := hmem L j hj hj' hL
  by_cases hrc : r.1 = .ok
  · refine ⟨hrc, ((hpasses.found hrc).2 x hxL hx).imp_right fun hpair => ?_⟩
    exact ⟨j, hj, hj', L, hL, hpair.trans (hpart L)⟩
  · exact absurd hx (hpasses.missed hrc x hxL)

/-- **A row that matches and stands has been returned or is behind the row the scan is at.** -/
theorem LookupScan.returned_or_behind (hhash : HashRespects cfg) (hagree : KeyRespects cfg)
    (hkeys : cfg.keys ≤ 64)
    (h : (coreSystem cfg CoreOp.rowCall).Reach (OldBuckets cfg)
      (System.start (Share.fresh data) fun _ => Session.empty) c)
    {key m₀ : Nat} {pk : PK} (hkey : key < cfg.keys) {is : List Int}
    {ev : Event (CoreOp n W PK) (CoreOut n W)} (hscan : LookupScan c.world key pk m₀ is ev) :
    m₀ ≤ ev.call.start ∧ ev.call.start ≤ ev.stop ∧ ev.stop ≤ c.world.now ∧
      ∀ x, StandingMatch cfg c.world.memAt key pk m₀ ev.stop x → x ∈ is ∨
        ∃ img i, ev.out = .found .ok img i ∧ (x = i ∨ ∃ j, ev.call.start ≤ j ∧ j ≤ ev.stop ∧
          (c.world.memAt j).Behind key (cfg.packedBucket key pk) i x) := by
  obtain ⟨γ, htrace, -⟩ := indexed_trace hhash hkeys h
  induction hscan with
  | @find ev b mem op start =>
    obtain ⟨hspan, hstop⟩ := h.span mem
    refine ⟨start.ge, hspan, hstop, fun x hx => Or.inr ?_⟩
    obtain ⟨r, hout, hr⟩ := found_of_find hhash hkeys h mem start.ge op
    obtain ⟨hrc, hplace⟩ := hr.spec (fun L => List.Sublist.refl L) hx fun L j hj hj' hL =>
      hx.mem_chain hagree htrace hkey (start ▸ hj) hj' hstop hL
    exact ⟨r.2.1, r.2.2, by rw [hout, hrc], hplace⟩
  | @next is ev ev' i img b img' before out mem op later stands ih =>
    obtain ⟨hstart, hspan, -, hrows⟩ := ih
    obtain ⟨hspan', hstop⟩ := h.span mem
    have hm : m₀ ≤ ev'.call.start := by omega
    refine ⟨hm, hspan', hstop, fun x hx => ?_⟩
    obtain hold | ⟨img₁, i₁, hout, hplace⟩ := hrows x (hx.until (by omega))
    · exact Or.inl (List.mem_cons_of_mem i hold)
    · rw [out] at hout
      cases hout
      obtain rfl | ⟨j, hj, hj', hbehind⟩ := hplace
      · exact Or.inl List.mem_cons_self
      · obtain ⟨r, hout, hr⟩ := found_of_findNext hhash hkeys h mem hm op
        obtain ⟨hrc, hplace'⟩ := hr.spec (behind_sublist i) hx fun L j' hle hle' hL => by
          obtain ⟨imgx, hstands, -⟩ := hx
          obtain ⟨L', hL', hpair⟩ :=
            hstands.behind (indexes_indexed cfg data) htrace stands (hstart.trans hj) hj
            (by omega) hle' hle' hstop hbehind
          rw [IsChain.unique hL hL']
          exact mem_behind_of_sublist hL'.nodup hpair
        exact Or.inr ⟨r.2.1, r.2.2, by rw [hout, hrc], hplace'⟩

/-- **An index scan misses no row that stands.**  When a scan among other threads' writes has
come to its end, it has returned every row that matches the key and has stood since the scan
began. -/
theorem index_scan_misses_no_standing_row (hhash : HashRespects cfg) (hagree : KeyRespects cfg)
    (hkeys : cfg.keys ≤ 64)
    (h : (coreSystem cfg CoreOp.rowCall).Reach (OldBuckets cfg)
      (System.start (Share.fresh data) fun _ => Session.empty) c)
    {key m₀ : Nat} {pk : PK} (hkey : key < cfg.keys) {is : List Int}
    {ev : Event (CoreOp n W PK) (CoreOut n W)} (hscan : LookupScan c.world key pk m₀ is ev)
    (hend : ∀ img i, ev.out ≠ .found .ok img i) {x : Int} {img : Image n W}
    (hstands : Stands c.world.memAt x img m₀ ev.stop)
    (hmatch : (cfg.keydef key).ops.cmpRecKey img pk = 0) : x ∈ is := by
  obtain ⟨-, -, -, hrows⟩ := hscan.returned_or_behind hhash hagree hkeys h hkey
  obtain hold | ⟨img', i, hout, -⟩ := hrows x ⟨img, hstands, hmatch⟩
  · exact hold
  · exact absurd hout (hend img' i)

/-- The latest calls are a scan for the key 7 that has gone on from slot 1 to slot 0, and both rows
have stood meanwhile. -/
def looksUpTwo (m₀ : Nat) (w : CoreWorld 1 Nat Nat (CoreOp 1 Nat Nat) (CoreOut 1 Nat)) : Bool :=
  match w.log with
  | ⟨⟨_, .findNext 0 7 0 _, s₃⟩, .found .notFound _ _, p₃⟩ :: ⟨⟨_, .findNext 0 7 1 _, s₂⟩,
    .found .ok _ 0, p₂⟩ ::
      ⟨⟨_, .find 0 7 _, s₁⟩, .found .ok _ 1, p₁⟩ :: _ =>
    decide (s₁ = m₀ ∧ p₁ ≤ s₂ ∧ p₂ ≤ s₃ ∧ Stands w.memAt 1 (fun _ => 7) s₁ p₂ ∧
      Stands w.memAt 0 (fun _ => 7) s₂ p₃ ∧ Stands w.memAt 0 (fun _ => 7) m₀ p₃)
  | _ => false

/-- The decidable test of the lookup is enough. -/
theorem lookupScan_of_looksUpTwo {m₀ : Nat}
    {w : CoreWorld 1 Nat Nat (CoreOp 1 Nat Nat) (CoreOut 1 Nat)}
    (h : looksUpTwo m₀ w = true) : ∃ ev, LookupScan w 0 7 m₀
    [0, 1] ev ∧ (∀ img i, ev.out ≠ .found .ok img i) ∧
      Stands w.memAt 0 (fun _ => 7) m₀ ev.stop := by
  unfold looksUpTwo at h
  split at h
  · rename_i hlog
    obtain ⟨hfirst, hlater, hlater', hrow, hrow', hstands⟩ := of_decide_eq_true h
    have hsub := List.Subset.refl w.log
    nth_rewrite 1 [hlog] at hsub
    simp only [List.cons_subset] at hsub
    obtain ⟨h₃, h₂, h₁, -⟩ := hsub
    have hscan :=
      ((LookupScan.find h₁ rfl hfirst).next rfl h₂ rfl hlater hrow).next rfl h₃ rfl hlater' hrow'
    exact ⟨_, hscan, nofun, hstands⟩
  · cases h

/-- The thread is in the middle of a call. -/
def inCall : Thread (coreSig 1 Nat Nat) (CoreOp 1 Nat Nat) (Session 1 Nat) (CoreOut 1 Nat) → Bool
  | .busy .. => true
  | .idle _ => false

/-- While a row is being inserted two rows of the same key are looked up. -/
theorem index_scan_misses_no_standing_row_two_rows :
    ∃ c ev, (coreSystem (bagTable 1) CoreOp.rowCall).Reach (OldBuckets (bagTable 1))
        (System.start (Share.fresh fun _ _ => 0) fun _ => Session.empty) c ∧
      LookupScan c.world 0 7 53 [0, 1] ev ∧ (∀ img i, ev.out ≠ .found .ok img i) ∧
      Stands c.world.memAt 0 (fun _ => 7) 53 ev.stop ∧ (∃ op st p, c.thr 0 = .busy op st p) ∧
      (0 : Int) ∈ [0, 1] := by
  let steps : List (Label (CoreOp 1 Nat Nat)) :=
    [Label.call 0 (.insertRow (fun _ => 7) fun _ => 0) 41,
      Label.call 0 (.insertRow (fun _ => 7) fun _ => 0) 14,
      Label.call 1 (.find 0 7 fun _ => 0) 3, Label.call 0 (.insertRow (fun _ => 7) fun _ => 0) 5,
      Label.steps 1 7, Label.call 1 (.findNext 0 7 1 fun _ => 0) 12,
      Label.call 1 (.findNext 0 7 0 fun _ => 0) 9].flatten
  have hrun : (System.rehearse (coreSystem (bagTable 1) CoreOp.rowCall) updatesNothing
      (System.start (Share.fresh fun _ _ => 0) fun _ => Session.empty) steps).any
        (fun c => looksUpTwo 53 c.world && inCall (c.thr 0)) = true := by
    decide +kernel
  obtain ⟨c, hc, hstate⟩ := (Option.any_eq_true _ _).mp hrun
  obtain ⟨hlooks, hbusy⟩ := Bool.and_eq_true_iff.mp hstate
  have hreach :=
    System.Reach.of_rehearse (fun _ _ _ h => oldBuckets_of_updatesNothing (bagTable 1) h) _ steps hc
  obtain ⟨ev, hscan, hend, hstands⟩ := lookupScan_of_looksUpTwo hlooks
  have hinsert : ∃ op st p, c.thr 0 = .busy op st p := by
    cases hthr : c.thr 0 with
    | busy op st p => exact ⟨op, st, p, rfl⟩
    | idle l =>
        rw [hthr] at hbusy
        cases hbusy
  exact ⟨c, ev, hreach, hscan, hend, hstands, hinsert,
    index_scan_misses_no_standing_row (hashRespects_bagTable 1) (keyRespects_bagTable 1)
    (by decide) hreach
      (by decide) hscan hend hstands rfl⟩

end FastMem
