import FastMem.AnyCalls
import FastMem.Finds

/-!
# Table scans while other threads write

A client scans the table from position 0 on, going on from the position each call returns.
Other threads make any calls meanwhile.  A scan never comes to a slot twice, and it returns
every row that stays and is not written while it lasts, with its image.
-/

namespace FastMem

open Conc

variable {n : Nat} {W PK Op Out : Type} {T : Setting n W PK Op Out} {w : CoreWorld n W PK Op Out}
  {γ : Nat → Role n W} {t m m₀ m' stop fuel : Nat} {i : Int} {img : Image n W}

/-- What a scan from `pos` up to `bound` returns that is to find the rows that `Row` says are
there: the first of them or one before it, or nothing if there is none. -/
structure ScansPast (Row : Nat → Image n W → Prop) (pos bound : Nat) (r : Rc × Nat × Image n W) :
    Prop where
  found : r.1 = .ok → pos < r.2.1 ∧ r.2.1 ≤ bound ∧ ∀ u img, pos ≤ u → u < r.2.1 → Row u img →
    u + 1 = r.2.1 ∧ r.2.2 = img
  missed : r.1 ≠ .ok → ∀ u img, pos ≤ u → u < bound → ¬ Row u img

variable {Row : Nat → Image n W → Prop} {pos bound : Nat}

/-- At its bound a scan has passed everything. -/
theorem scansPast_end (Row : Nat → Image n W → Prop) (pos : Nat) (img : Image n W) :
    ScansPast Row pos pos (.eof, pos, img) := by
  refine ⟨nofun, fun _ u img hu hlt => ?_⟩
  omega

/-- It returns the slot it stands at, if a row is there. -/
theorem scansPast_here (hbound : pos < bound) (hrow : ∀ img', Row pos img' → img = img') :
    ScansPast Row pos bound (.ok, pos + 1, img) := by
  refine ⟨fun _ => ⟨Nat.lt_succ_self pos, hbound, fun u img' hu hlt hRow => ?_⟩,
    fun hne => absurd rfl hne⟩
  obtain rfl : u = pos := Nat.le_antisymm (Nat.le_of_lt_succ hlt) hu
  exact ⟨rfl, hrow img' hRow⟩

/-- It passes a slot without a row. -/
theorem ScansPast.later {r : Rc × Nat × Image n W} (h : ScansPast Row (pos + 1) bound r)
    (hnone : ∀ img, ¬ Row pos img) : ScansPast Row pos bound r := by
  have hpast : ∀ {u img}, pos ≤ u → Row u img → pos + 1 ≤ u := by
    intro u img hu hRow
    by_contra hlt
    obtain rfl : u = pos := by omega
    exact hnone img hRow
  constructor
  case found =>
    intro hrc
    obtain ⟨hlt, hle, hrest⟩ := h.found hrc
    exact ⟨by omega, hle, fun u img hu hlt hRow => hrest u img (hpast hu hRow) hlt hRow⟩
  case missed => exact fun hrc u img hu hlt hRow => h.missed hrc u img (hpast hu hRow) hlt hRow

/-- The rows that are not written, by the numbers of their slots. -/
def UnwrittenRow (mem : Nat → Share n W) (m m' u : Nat) (img : Image n W) : Prop :=
  Unwritten mem (i32 u) img m m'

/-- A scan passes no row that is not written. -/
theorem yields_scanFrom (hT : T.Orders) (h : T.Trace w γ) (hstop : stop ≤ w.now) (hm : m₀ ≤ m)
    (left : Nat) (buf : Image n W) :
    (machine T.cfg).Yields (w.line stop) t fuel (scanFrom pos left buf) m fun r _ =>
      ScansPast (UnwrittenRow w.memAt m₀ stop) pos (pos + left) r := by
  induction left generalizing m pos buf with
  | zero => exact Machine.yields_ret (scansPast_end _ _ _)
  | succ left ih =>
    refine (yields_readRow hT h hstop hm 0 buf).bind fun r j hle _ hread => ?_
    apply Machine.Yields.ite
    · intro _
      refine Machine.yields_ret (scansPast_here (by omega) fun img hunwritten => ?_)
      rw [hread img hunwritten]
    · intro hmiss
      rw [Nat.add_comm left 1, ← Nat.add_assoc]
      refine (ih (hm.trans hle) r.2).imp fun r' _ _ _ hr' =>
        hr'.later fun img hunwritten => hmiss ?_
      rw [hread img hunwritten]

/-- A scan looks at every slot there is a row in. -/
theorem yields_scanNext (hT : T.Orders) (h : T.Trace w γ) (hstop : stop ≤ w.now) (hm : m₀ ≤ m)
    (buf : Image n W) : (machine T.cfg).Yields (w.line stop) t fuel (scanNext pos buf) m fun r _ =>
      ∃ bound, (bound ≤ pos ∨ bound < 2 ^ 32) ∧ ScansPast
        (UnwrittenRow w.memAt m₀ stop) pos bound r ∧
        ∀ u img, u < 2 ^ 32 → UnwrittenRow w.memAt m₀ stop u img → u < bound := by
  refine yields_load (fun s => s.chunkCnt) (fun _ => rfl) fun j _ hle hj _ => ?_
  have hlt : slotCount (w.memAt j).chunkCnt < 2 ^ 32 := Nat.mod_lt _ (by omega)
  have hm' : m₀ ≤ j + 1 := by omega
  refine (yields_scanFrom hT h hstop hm' _ buf).imp fun r _ _ _ hr =>
    ⟨_, by omega, hr, fun u img hu hunwritten => ?_⟩
  obtain ⟨w', γ', htrace, hnow, hmem⟩ := h.upto (hj.le.trans hstop)
  have hactive := hunwritten.active j (hm.trans hle) hj.le
  rw [← hmem j (Nat.le_refl j), ← hnow, World.memAt_now] at hactive
  obtain ⟨u', hu', heq⟩ := (trace_tidy hT htrace).slots.grown_of_active hactive
  have hcnt : w'.mem.chunkCnt = (w.memAt j).chunkCnt := by
    rw [← hmem j (Nat.le_refl j), ← hnow, World.memAt_now]
  rw [hcnt] at hu'
  obtain rfl := i32_inj hu (hu'.trans hlt) heq
  omega

variable {cfg : ShareCfg n W PK} {data : Int → Image n W}
  {c : Config (coreSig n W PK) (Share n W) (CoreOp n W PK) (Session n W) (CoreOut n W)}

/-- A table scan that began at time `m₀`, up to time `m`: the number of the slot it has come to,
and the numbers of the slots it has returned with their images, the latest first.  A call that
returns no row has come to the end of the table. -/
inductive TableScan (w : CoreWorld n W PK (CoreOp n W PK) (CoreOut n W)) (m₀ : Nat) :
    Nat → Nat → List (Nat × Image n W) → Prop
  | start : TableScan w m₀ m₀ 0 []
  | next {m pos pos' : Nat} {ds : List (Nat × Image n W)} {ev : Event (CoreOp n W PK) (CoreOut n W)}
    {b img : Image n W}
      (before : TableScan w m₀ m pos ds) (mem : ev ∈ w.log) (op : ev.call.op = .scanNext pos b)
      (later : m ≤ ev.call.start) (out : ev.out = .scanned .ok pos' img) :
      TableScan w m₀ ev.stop pos' ((pos' - 1, img) :: ds)
  | last {m pos : Nat} {ds : List (Nat × Image n W)} {ev : Event (CoreOp n W PK) (CoreOut n W)}
    {b : Image n W}
      (before : TableScan w m₀ m pos ds) (mem : ev ∈ w.log) (op : ev.call.op = .scanNext pos b)
      (later : m ≤ ev.call.start) (out : ∀ pos' img, ev.out ≠ .scanned .ok pos' img) :
      TableScan w m₀ ev.stop (2 ^ 32) ds

/-- What one call of a scan returns. -/
theorem scanned_of_scanNext (h : (coreSystem cfg CoreOp.anyCall).Reach FlipsApart
      (System.start (Share.fresh data) fun _ => Session.empty) c)
    {ev : Event (CoreOp n W PK) (CoreOut n W)} (hev : ev ∈ c.world.log) {b : Image n W}
    (hop : ev.call.op = .scanNext pos b) (hm : m₀ ≤ ev.call.start) :
    ∃ r, ev.out = .scanned r.1 r.2.1 r.2.2 ∧ ∃ bound, (bound ≤ pos ∨ bound < 2 ^ 32) ∧
      ScansPast (UnwrittenRow c.world.memAt m₀ ev.stop) pos bound r ∧
      ∀ u img, u < 2 ^ 32 → UnwrittenRow c.world.memAt m₀ ev.stop u img → u < bound := by
  obtain ⟨γ, htrace, -⟩ := (serves_anyCall cfg data).trace h
  have hsound := looseSetting_sound cfg data (fun k => k ≠ .index) FlipsApart
  refine h.returned hev (Q := fun out => ∃ r, out = .scanned r.1 r.2.1 r.2.2 ∧ ∃ bound,
    (bound ≤ pos ∨ bound < 2 ^ 32) ∧ ScansPast (UnwrittenRow c.world.memAt m₀ ev.stop) pos bound r ∧
      ∀ u img, u < 2 ^ 32 → UnwrittenRow c.world.memAt m₀ ev.stop u img → u < bound)
      fun l e _ hstop => ?_
  rw [hop]
  exact (yields_scanNext ⟨hsound.1.started, hsound.2⟩ htrace hstop hm b).bind fun r j _ _ hr =>
    Machine.yields_ret ⟨r, rfl, hr⟩

/-- **Where a scan has been**: it has returned slots below the one it has come to, each once,
and among them every row that stands. -/
theorem TableScan.returned (h : (coreSystem cfg CoreOp.anyCall).Reach FlipsApart
      (System.start (Share.fresh data) fun _ => Session.empty) c)
    {ds : List (Nat × Image n W)} (hscan : TableScan c.world m₀ m pos ds) (hm' : m ≤ m') :
    m₀ ≤ m ∧ pos ≤ 2 ^ 32 ∧ (∀ d ∈ ds, d.1 < pos) ∧ (ds.map Prod.fst).Nodup ∧
      ∀ u img, u < pos → UnwrittenRow c.world.memAt m₀ m' u img → (u, img) ∈ ds := by
  induction hscan generalizing m' with
  | start => exact ⟨Nat.le_refl m₀, Nat.zero_le _, nofun, List.nodup_nil, fun u img hu => by omega⟩
  | @next m pos pos' ds ev b img before mem op later out ih =>
    obtain ⟨hspan, -⟩ := h.span mem
    have hm : m ≤ m' := by omega
    obtain ⟨hstart, hle, hbelow, hnodup, hrows⟩ := ih hm
    obtain ⟨⟨rc, p, img'⟩, hout, bound, hbound, hscans, -⟩ :=
      scanned_of_scanNext h mem op (hstart.trans later)
    rw [out] at hout
    cases hout
    obtain ⟨hpos, hp, hpassed⟩ := hscans.found rfl
    simp only at hpos hp hpassed
    have hlast : p - 1 < p := by omega
    have hle' : p ≤ 2 ^ 32 := by omega
    refine ⟨by omega, hle', ?_, ?_, fun u img' hu hunwritten => ?_⟩
    · exact List.forall_mem_cons.mpr ⟨hlast, fun d hd => (hbelow d hd).trans hpos⟩
    · refine List.nodup_cons.mpr ⟨fun hmem => ?_, hnodup⟩
      obtain ⟨d, hd, heq⟩ := List.mem_map.mp hmem
      have hlt := hbelow d hd
      have heq' : d.1 = p - 1 := heq
      omega
    · by_cases hold : u < pos
      · exact List.mem_cons_of_mem _ (hrows u img' hold hunwritten)
      · obtain ⟨hlast, rfl⟩ := hpassed u img' (by omega) hu (hunwritten.until hm')
        rw [← hlast]
        exact List.mem_cons_self
  | @last m pos ds ev b before mem op later out ih =>
    obtain ⟨hspan, -⟩ := h.span mem
    have hm : m ≤ m' := by omega
    obtain ⟨hstart, hle, hbelow, hnodup, hrows⟩ := ih hm
    obtain ⟨⟨rc, p, img'⟩, hout, bound, -, hscans, hbound⟩ :=
      scanned_of_scanNext h mem op (hstart.trans later)
    have hmissed : rc ≠ .ok := by
      rintro rfl
      exact out p img' hout
    refine ⟨by omega, Nat.le_refl _, fun d hd => (hbelow d hd).trans_le hle,
      hnodup, fun u img hu hunwritten => ?_⟩
    by_cases hold : u < pos
    · exact hrows u img hold hunwritten
    · have hunwritten' := hunwritten.until hm'
      exact absurd hunwritten'
        (hscans.missed hmissed u img (by omega) (hbound u img hu hunwritten'))

/-- **A table scan returns every row that is not written, and no slot twice**, whatever calls
other threads make meanwhile. -/
theorem table_scan_returns_standing_rows_once (h : (coreSystem cfg CoreOp.anyCall).Reach FlipsApart
      (System.start (Share.fresh data) fun _ => Session.empty) c)
    {ds : List (Nat × Image n W)} (hscan : TableScan c.world m₀ m pos ds) :
    (ds.map Prod.fst).Nodup ∧ ∀ u img, u < pos → Unwritten c.world.memAt (i32 u) img m₀ m →
    (u, img) ∈ ds := by
  obtain ⟨-, -, -, hnodup, hrows⟩ := hscan.returned h (Nat.le_refl m)
  exact ⟨hnodup, hrows⟩

/-- The last two calls have scanned the rows 7 and 3 since time `m₀`. -/
def scansTwo (m₀ : Nat) (w : CoreWorld 1 Nat Nat (CoreOp 1 Nat Nat) (CoreOut 1 Nat)) : Bool :=
  match w.log with
  | ⟨⟨_, .scanNext u₂ _, s₂⟩, .scanned rc₂ q₂ img₂, _⟩ :: ⟨⟨_, .scanNext u₁ _, s₁⟩,
    .scanned rc₁ q₁ img₁, p₁⟩ :: _ =>
    decide (rc₁ = .ok ∧ u₁ = 0 ∧ q₁ = u₂ ∧ img₁ = fun _ => 7) &&
      decide (rc₂ = .ok ∧ u₂ = 1 ∧ q₂ = 2 ∧ img₂ = fun _ => 3) && decide (m₀ ≤ s₁ ∧ p₁ ≤ s₂)
  | _ => false

/-- The decidable test of the scan is enough. -/
theorem tableScan_of_scansTwo {m₀ : Nat}
    {w : CoreWorld 1 Nat Nat (CoreOp 1 Nat Nat) (CoreOut 1 Nat)} (h : scansTwo m₀ w = true) :
    ∃ ev ∈ w.log.head?, TableScan w m₀ ev.stop 2 [(1, fun _ => 3), (0, fun _ => 7)] := by
  unfold scansTwo at h
  split at h
  · rename_i hlog
    obtain ⟨hrows, htimes⟩ := Bool.and_eq_true_iff.mp h
    obtain ⟨hrow₁, hrow₂⟩ := Bool.and_eq_true_iff.mp hrows
    obtain ⟨rfl, rfl, rfl, rfl⟩ := of_decide_eq_true hrow₁
    obtain ⟨rfl, rfl, rfl, rfl⟩ := of_decide_eq_true hrow₂
    obtain ⟨hfirst, hlater⟩ := of_decide_eq_true htimes
    have hsub := List.Subset.refl w.log
    nth_rewrite 1 [hlog] at hsub
    simp only [List.cons_subset] at hsub
    obtain ⟨hnext, hfind, -⟩ := hsub
    exact ⟨_, by rw [hlog]; rfl,
      (TableScan.start.next hfind rfl hfirst rfl).next hnext rfl hlater rfl⟩
  · cases h

/-- One row is deleted while the scan goes from it to the next one, which another thread has
locked all the time. -/
theorem table_scan_returns_standing_rows_once_two_rows :
    ∃ c m, (coreSystem (wordTable 0) CoreOp.anyCall).Reach FlipsApart
        (System.start (Share.fresh fun _ _ => 0) fun _ => Session.empty) c ∧
      TableScan c.world 41 m 2 [(1, fun _ => 3), (0, fun _ => 7)] ∧ Unwritten c.world.memAt 1
        (fun _ => 3) 41 m ∧
      (c.world.memAt 41).owner (.row 1) = some 2 ∧ c.world.mem.state 0 = .deleting ∧
      (1, fun _ => 3) ∈ [(1, fun _ => 3), (0, fun _ : Fin 1 => 7)] := by
  let steps : List (Label (CoreOp 1 Nat Nat)) :=
    [Label.call 0 (.insertRow (fun _ => 7) fun _ => 0) 33,
      Label.call 0 (.insertRow (fun _ => 3) fun _ => 0) 9, Label.call 2 (.lockRow 1) 2,
      Label.call 1 (.scanNext 0 fun _ => 0) 7, Label.call 0 (.deleteRow 0 0 fun _ => 0) 5,
      Label.call 1 (.scanNext 1 fun _ => 0) 7].flatten
  have hrun : (System.rehearse (coreSystem (wordTable 0) CoreOp.anyCall) clearsNothing
      (System.start (Share.fresh fun _ _ => 0) fun _ => Session.empty) steps).any
        (fun c => scansTwo 41 c.world && decide ((c.world.memAt 41).owner (.row 1) = some 2 ∧
          c.world.mem.state 0 = .deleting) && c.world.log.head?.all fun ev =>
            decide (Unwritten c.world.memAt 1 (fun _ => 3) 41 ev.stop)) = true := by
    decide +kernel
  obtain ⟨c, hc, htest⟩ := (Option.any_eq_true _ _).mp hrun
  obtain ⟨htest, hrow⟩ := Bool.and_eq_true_iff.mp htest
  obtain ⟨hscans, hmem⟩ := Bool.and_eq_true_iff.mp htest
  obtain ⟨howner, hdeleting⟩ := of_decide_eq_true hmem
  obtain ⟨ev, hev, hscan⟩ := tableScan_of_scansTwo hscans
  have hunwritten := of_decide_eq_true ((Option.all_eq_true _ _).mp hrow ev hev)
  have hreach := System.Reach.of_rehearse (fun _ _ _ h => flipsApart_of_clearsNothing h) _ steps hc
  refine ⟨c, _, hreach, hscan, hunwritten, howner, hdeleting, ?_⟩
  exact (table_scan_returns_standing_rows_once hreach hscan).2 1 _ (by decide) hunwritten

end FastMem
