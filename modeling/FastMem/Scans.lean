import FastMem.Lookup
import FastMem.StaleRefs
import FastMem.Sweep

/-!
# Scans of a table that changes

A loose scan calls `fm_core_scan_next` from position 0 until `FM_ERR_EOF`, and between
its calls other calls insert, update, delete and clear.  The scan is a sweep over the
slot numbers: the bound is read again in every call, and an ACTIVE slot has a number
below it, so a scan that has come to the end has passed all of them.
-/

namespace FastMem

open Conc Sweep

variable {n : Nat} {W PK : Type} {cfg : ShareCfg n W PK} {t pos : Nat} {s s' s₀ : Share n W}
  {ss : List (Share n W)} {F : List Int}

/-- A row that a scan has returned: the share at that moment, where the scan stood
behind it, and the image. -/
structure Delivery (n : Nat) (W : Type) where
  share : Share n W
  pos : Nat
  img : Image n W

variable {ds : List (Delivery n W)} {d : Delivery n W}

/-- The slot of the row: `pos - 1`, as the callers of `fm_core_scan_next` take it. -/
def Delivery.slot (d : Delivery n W) : Int := i32 (d.pos + 2 ^ 32 - 1)

/-- The row itself: its slot, and the generation of the slot. -/
def Delivery.incarnation (d : Delivery n W) : Int × Nat := (d.slot, d.share.gen d.slot)

/-- A scan that began on the share `s₀`, with any completed calls of any threads between
its own: every share between two calls, the rows the scan has returned, the latest
first, and its position. -/
inductive Scan (cfg : ShareCfg n W PK) (s₀ : Share n W) : List (Share n W) → List
    (Delivery n W) → Nat → Prop
  | init : Scan cfg s₀ [s₀] [] 0
  | call {s s' : Share n W} {ss : List (Share n W)} {ds : List (Delivery n W)} {pos t : Nat}
      {op : CoreOp n W PK} {l l' : Session n W} {x : CoreOut n W}
        (before : Scan cfg s₀ (s :: ss) ds pos)
      (runs : (machine cfg).Runs t (op.code cfg l) s (x, l') s') : Scan cfg s₀
        (s' :: s :: ss) ds pos
  | next {s s' : Share n W} {ss : List (Share n W)} {ds : List (Delivery n W)} {pos pos' t : Nat}
      {buf img : Image n W} (before : Scan cfg s₀ (s :: ss) ds pos)
      (runs : (machine cfg).Runs t (scanNext pos buf) s (.ok, pos', img) s') :
      Scan cfg s₀ (s' :: s :: ss) (⟨s', pos', img⟩ :: ds) pos'

/-- The calls of a scan are calls like the others. -/
theorem Scan.calls (h : Scan cfg s₀ (s :: ss) ds pos) : ∃ calls, Calls cfg s₀ calls s := by
  generalize hlist : s :: ss = all at h
  induction h generalizing s ss with
  | init =>
      cases hlist
      exact ⟨[], .refl⟩
  | call before runs ih =>
      cases hlist
      obtain ⟨calls, hcalls⟩ := ih rfl
      exact ⟨_, .call hcalls runs⟩
  | @next s₁ s₂ ss₁ ds₁ pos₁ pos₂ u buf img before runs ih =>
      cases hlist
      obtain ⟨calls, hcalls⟩ := ih rfl
      have hcall : (machine cfg).Runs u (CoreOp.code cfg (.scanNext pos₁ buf) Session.empty) s₁
          (.scanned .ok pos₂ img, Session.empty) s₂ :=
        runs_then runs runs_pure
      exact ⟨_, .call hcalls hcall⟩

/-- A call of the scan that returns a row returns the next ACTIVE slot, and changes
nothing. -/
theorem scanNext_ok (hled : Ledger cfg (2 ^ 32) s F ∅) {pos' : Nat} {buf img : Image n W}
    (hruns : (machine cfg).Runs t (scanNext pos buf) s (.ok, pos', img) s') :
    s' = s ∧ ∃ u, pos' = u + 1 ∧ pos ≤ u ∧ u < 2 ^ 32 ∧ s.state
      (i32 u) = .active ∧ img = s.data (i32 u) ∧
      ∀ v, pos ≤ v → v < u → s.state (i32 v) ≠ .active := by
  have hcnt : slotCount s.chunkCnt < 2 ^ 32 := Nat.mod_lt _ (by decide)
  obtain ⟨buf', hscan⟩ := runs_scanNext cfg t hled.seq_even pos buf
  cases hfind : (List.range' pos (slotCount s.chunkCnt - pos)).find?
    (fun u => s.state (i32 u) = .active) with
  | none =>
      rw [hfind] at hscan
      obtain ⟨hres, -⟩ := hruns.det hscan
      cases hres
  | some u =>
      rw [hfind] at hscan
      obtain ⟨hres, rfl⟩ := hruns.det hscan
      cases hres
      rw [List.find?_range'_eq_some] at hfind
      obtain ⟨hactive, hmem, hfirst⟩ := hfind
      rw [List.mem_range'_1] at hmem
      refine ⟨rfl, u, rfl, hmem.1, by omega, by simpa using hactive, rfl, fun v hpos hv => ?_⟩
      simpa using hfirst v hpos hv

/-- A call of the scan that reports the end has passed every ACTIVE slot, and changes
nothing. -/
theorem scanNext_eof (hled : Ledger cfg (2 ^ 32) s F ∅) {pos' : Nat} {buf img : Image n W}
    (hruns : (machine cfg).Runs t (scanNext pos buf) s (.eof, pos', img) s') :
    s' = s ∧ ∀ i, s.state i = .active → ∃ u, u < pos ∧ i = i32 u := by
  obtain ⟨buf', hscan⟩ := runs_scanNext cfg t hled.seq_even pos buf
  cases hfind : (List.range' pos (slotCount s.chunkCnt - pos)).find?
    (fun u => s.state (i32 u) = .active) with
  | some u =>
      rw [hfind] at hscan
      obtain ⟨hres, -⟩ := hruns.det hscan
      cases hres
  | none =>
      rw [hfind] at hscan
      obtain ⟨-, rfl⟩ := hruns.det hscan
      refine ⟨rfl, fun i hactive => ?_⟩
      obtain ⟨u, hlt, -, rfl⟩ := hled.used i (Or.inr (Or.inr hactive))
      refine ⟨u, ?_, rfl⟩
      by_contra hahead
      have hnone := List.find?_eq_none.mp hfind u (List.mem_range'_1.mpr ⟨by omega, by omega⟩)
      simp [hactive] at hnone

/-- The number of the slot of the row. -/
def Delivery.number (d : Delivery n W) : Nat := d.pos - 1

/-- The slot of a position is its number. -/
theorem slot_number (h : 0 < d.pos) : d.slot = i32 d.number := by
  unfold Delivery.slot Delivery.number i32
  rw [show (d.pos + 2 ^ 32 - 1) % 2 ^ 32 = (d.pos - 1) % 2 ^ 32 by omega]

/-- A row that is returned is there, with the image that is returned. -/
structure Delivery.Current (d : Delivery n W) : Prop where
  active : d.share.state d.slot = .active
  image : d.img = d.share.data d.slot

/-- A scan is a sweep over the slot numbers. -/
theorem Scan.swept (hled : Ledger cfg (2 ^ 32) s₀ F ∅) (h : Scan cfg s₀ ss ds pos) :
    Swept (fun (s : Share n W) u => s.state (i32 u) = .active) ss
        (ds.map fun d => (d.share, d.number)) pos ∧
      ∀ d ∈ ds, d.slot = i32 d.number ∧ d.number < 2 ^ 32 ∧ d.Current := by
  induction h with
  | init => exact ⟨.start s₀, fun d hd => by cases hd⟩
  | call _ _ ih => exact ⟨.change _ ih.1, ih.2⟩
  | @next s₁ s₂ ss₁ ds₁ pos₁ pos₂ u buf img before runs ih =>
      obtain ⟨calls, hcalls⟩ := before.calls
      obtain ⟨⟨F', hled'⟩, -⟩ := hcalls.run hled
      obtain ⟨rfl, v, rfl, hahead, hlt, hactive, rfl, hfirst⟩ := scanNext_ok hled' runs
      constructor
      · exact .change _ (.next ih.1 hahead hactive hfirst)
      · intro d hd
        rcases List.mem_cons.mp hd with rfl | hd
        · have hslot :=
            slot_number (d := (⟨s₂, v + 1, s₂.data (i32 v)⟩ : Delivery n W)) (Nat.succ_pos v)
          have hnumber : (⟨s₂, v + 1, s₂.data (i32 v)⟩ : Delivery n W).number = v := rfl
          refine ⟨hslot, hlt, ?_, ?_⟩
          · rw [hslot, hnumber]
            exact hactive
          · rw [hslot, hnumber]
        · exact ih.2 d hd

/-- **A loose scan returns each row once.**  Begin a scan in any share that calls have
made of a fresh one, let any calls of any threads come between its own, and let it
reach the end.  A row that was there from the beginning to the end has been returned
exactly once; no row has been returned twice; and each row that has been returned was
there at that moment, with the image that was returned. -/
theorem loose_scan_returns_each_row_once (cfg : ShareCfg n W PK) (data : Int → Image n W)
    (h₀ : List (CoreOp n W PK × CoreOut n W)) (s₀ : Share n W)
    (hbefore : Calls cfg (Share.fresh data) h₀ s₀) (s : Share n W) (ss : List (Share n W))
    (ds : List (Delivery n W)) (pos : Nat) (hscan : Scan cfg s₀ (s :: ss) ds pos) (t : Nat)
    (buf img : Image n W) (pos' : Nat) (s' : Share n W)
    (hend : (machine cfg).Runs t (scanNext pos buf) s (.eof, pos', img) s') :
    (∀ i g, (∀ s₁ ∈ s' :: s :: ss, s₁.state i = .active ∧ s₁.gen i = g) →
        (ds.map Delivery.incarnation).count (i, g) = 1) ∧
      (ds.map Delivery.incarnation).Nodup ∧ ∀ d ∈ ds, d.Current := by
  obtain ⟨⟨F₀, hled₀⟩, -⟩ := hbefore.run (ledger_fresh cfg (2 ^ 32) data)
  obtain ⟨hswept, hds⟩ := hscan.swept hled₀
  obtain ⟨calls, hcalls⟩ := hscan.calls
  obtain ⟨⟨F, hled⟩, -⟩ := hcalls.run hled₀
  have hnodup : (ds.map Delivery.incarnation).Nodup := by
    have hnumbers : (ds.map Delivery.number).Nodup := by
      have := hswept.nodup
      rwa [List.map_map] at this
    refine (List.nodup_map_iff_inj_on hnumbers.of_map).mpr fun d hd d' hd' heq => ?_
    have hslot := (Prod.mk.inj heq).1
    rw [(hds d hd).1, (hds d' hd').1] at hslot
    have hnumber := i32_inj (hds d hd).2.1 (hds d' hd').2.1 hslot
    exact List.inj_on_of_nodup_map hnumbers hd hd' hnumber
  refine ⟨fun i g hthroughout => ?_, hnodup, fun d hd => (hds d hd).2.2⟩
  apply List.count_eq_one_of_mem hnodup
  -- the slot lies behind the scan at the end, so it has been returned
  obtain ⟨u, hlt, rfl⟩ := (scanNext_eof hled hend).2 i (hthroughout s (by simp)).1
  obtain ⟨w, hw⟩ :=
    hswept.complete hlt fun s₁ hs₁ => (hthroughout s₁ (List.mem_cons_of_mem s' hs₁)).1
  obtain ⟨d, hd, heq⟩ := List.mem_map.mp hw
  have hmem := (hswept.delivered hw).2.1
  obtain ⟨rfl, rfl⟩ := Prod.mk.inj heq
  refine List.mem_map.mpr ⟨d, hd, ?_⟩
  unfold Delivery.incarnation
  rw [(hds d hd).1, (hthroughout d.share (List.mem_cons_of_mem s' hmem)).2]

/-- The row of slot `i`, of generation 0, is there. -/
def present (i : Int) (s : Share 1 Nat) : Bool := s.state i = .active && s.gen i = 0

/-- A scan of two rows deletes the first when it has returned it, and another row gets
its slot: the second is returned once. -/
theorem loose_scan_returns_each_row_once_recycled_slot :
    ∃ (s₀ s : Share 1 Nat) (ss : List (Share 1 Nat)) (ds : List (Delivery 1 Nat)) (pos : Nat),
      Scan (wordTable 1) s₀ (s :: ss) ds pos ∧ (∃ s₁ ∈ ss, s₁.state 0 ≠ .active) ∧
      s.state 0 = .active ∧
        (ds.map Delivery.incarnation).count (1, 0) = 1 := by
  let zero : Image 1 Nat := fun _ => 0
  have heval : (callAll (wordTable 1) 200 [.insertRow (fun _ => 9) zero,
      .insertRow (fun _ => 7) zero] (Share.fresh fun _ => zero)).any (fun x₀ => present 1 x₀.2 &&
        ((machine (wordTable 1)).eval 1 200 (scanNext 0 zero) x₀.2).any fun x₁ => x₁.1.1 =
        .ok && present 1 x₁.2 &&
          ((machine (wordTable 1)).eval 1 200
            (CoreOp.code (wordTable 1) (.deleteRow 0 0 zero) Session.empty) x₁.2).any
            fun x₂ => x₂.2.state 0 ≠ .active && present 1 x₂.2 &&
          ((machine (wordTable 1)).eval 0 200
            (CoreOp.code (wordTable 1) (.insertRow (fun _ => 5) zero) Session.empty) x₂.2).any
            fun x₃ => present 1 x₃.2 &&
          ((machine (wordTable 1)).eval 1 200 (scanNext x₁.1.2.1 zero) x₃.2).any fun x₄ =>
            x₄.1.1 = .ok && x₄.2.state 0 = .active && present 1 x₄.2 &&
          (List.range' x₄.1.2.1 (slotCount x₄.2.chunkCnt - x₄.1.2.1)).find?
            (fun u => x₄.2.state (i32 u) = .active) = none) = true := by
    decide +kernel
  obtain ⟨⟨h₀, s₀⟩, hrun₀, hcond⟩ := (Option.any_eq_true _ _).mp heval
  simp only [Bool.and_eq_true] at hcond
  obtain ⟨hp₀, hcond⟩ := hcond
  obtain ⟨⟨⟨rc₁, pos₁, img₁⟩, s₁⟩, hrun₁, hcond⟩ := (Option.any_eq_true _ _).mp hcond
  simp only [Bool.and_eq_true, decide_eq_true_eq] at hcond
  obtain ⟨⟨rfl, hp₁⟩, hcond⟩ := hcond
  obtain ⟨⟨x₂, s₂⟩, hrun₂, hcond⟩ := (Option.any_eq_true _ _).mp hcond
  simp only [Bool.and_eq_true, decide_eq_true_eq] at hcond
  obtain ⟨⟨hgone, hp₂⟩, hcond⟩ := hcond
  obtain ⟨⟨x₃, s₃⟩, hrun₃, hcond⟩ := (Option.any_eq_true _ _).mp hcond
  simp only [Bool.and_eq_true] at hcond
  obtain ⟨hp₃, hcond⟩ := hcond
  obtain ⟨⟨⟨rc₄, pos₄, img₄⟩, s₄⟩, hrun₄, hcond⟩ := (Option.any_eq_true _ _).mp hcond
  simp only [Bool.and_eq_true, decide_eq_true_eq] at hcond
  obtain ⟨⟨⟨rfl, hagain⟩, hp₄⟩, hend⟩ := hcond
  have hscan : Scan (wordTable 1) s₀ [s₄, s₃, s₂, s₁, s₀] [⟨s₄, pos₄, img₄⟩,
      ⟨s₁, pos₁, img₁⟩] pos₄ := by
    have h₁ : Scan (wordTable 1) s₀ [s₁, s₀] [⟨s₁, pos₁, img₁⟩] pos₁ := .next .init (.of_eval hrun₁)
    exact .next (.call (.call h₁ (.of_eval hrun₂)) (.of_eval hrun₃)) (.of_eval hrun₄)
  have hcalls₀ : Calls (wordTable 1) (Share.fresh fun _ => zero) h₀ s₀ := .of_callAll hrun₀
  -- no slot behind the second row is ACTIVE, so the next call reports the end
  obtain ⟨⟨F₀, hled₀⟩, -⟩ := hcalls₀.run (ledger_fresh _ _ _)
  obtain ⟨calls, hcalls⟩ := hscan.calls
  obtain ⟨⟨F, hled⟩, -⟩ := hcalls.run hled₀
  obtain ⟨img₅, hrun₅⟩ := runs_scanNext (wordTable 1) 1 hled.seq_even pos₄ zero
  rw [hend] at hrun₅
  refine ⟨s₀, s₄, _, _, pos₄, hscan, ⟨s₂, by simp, hgone⟩, hagain, ?_⟩
  apply (loose_scan_returns_each_row_once (wordTable 1) (fun _ => zero) h₀ s₀ hcalls₀ s₄ _ _ pos₄
    hscan 1 zero img₅ _ s₄ hrun₅).1
  have hpresent : ∀ {s : Share 1 Nat}, present 1 s = true → s.state 1 = .active ∧ s.gen 1 = 0 := by
    intro s hs
    simpa [present] using hs
  intro s hs
  apply hpresent
  simp only [List.mem_cons, List.not_mem_nil, or_false] at hs
  rcases hs with rfl | rfl | rfl | rfl | rfl | rfl <;> assumption

end FastMem
