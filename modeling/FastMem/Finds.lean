import FastMem.Lookup
import FastMem.SeqEffects
import FastMem.StandingRows

/-!
# Lookups while other threads write

A lookup walks along a chain under the lock of its bucket, and reads the rows it comes to with
the seqlock protocol.  Writers of these rows may be at work all the time, and the lookup may
see a row before or after they have changed it, or not at all.  What it cannot do is miss a
row that stands: `find` returns a match if a row that matches stands, and going on with
`find_next` from the rows that are returned, if they stand as well, comes to every row that
matches and stands, in the order of the chain.
-/

namespace FastMem

open Conc

variable {n : Nat} {W PK Op Out α : Type} {T : Setting n W PK Op Out} {w : CoreWorld n W PK Op Out}
  {γ : Nat → Role n W} {t k b m m₀ stop fuel : Nat} {i : Int} {img : Image n W} {L : List Int}

/-- A load changes nothing. -/
theorem exec_loads {cfg : ShareCfg n W PK} {s s' : Share n W} {a : Act n W} {r : a.Res}
    (ha : a.loads = true) (hexec : exec cfg t a s = some (r, s')) : s' = s := by
  cases a <;> cases ha <;> cases hexec <;> rfl

/-- An access finds the memory of a moment at which the thread goes on. -/
theorem yields_access {a : Act n W} {f : a.Res → Core n W PK α} {Q : α → Nat → Prop}
    (h : ∀ j r, Pauses (w.line stop) t m j → m ≤ j → j < stop →
      exec T.cfg t a (w.memAt j) = some (r, w.memAt (j + 1)) →
      (machine T.cfg).Yields (w.line stop) t fuel (f r) (j + 1) Q) :
    (machine T.cfg).Yields (w.line stop) t fuel (access a >>= f) m Q :=
  Machine.yields_act fun j r hpause hj _ hexec => h j r hpause hpause.le hj hexec

/-- A load finds the memory of a moment at which the thread goes on. -/
theorem yields_load {a : Act n W} {f : a.Res → Core n W PK α} {Q : α → Nat → Prop}
    (v : Share n W → a.Res) (hv : ∀ s, exec T.cfg t a s = some (v s, s))
    (h : ∀ j, Pauses (w.line stop) t m j → m ≤ j → j < stop → w.memAt (j + 1) = w.memAt j →
      (machine T.cfg).Yields (w.line stop) t fuel (f (v (w.memAt j))) (j + 1) Q) :
    (machine T.cfg).Yields (w.line stop) t fuel (access a >>= f) m Q := by
  apply yields_access
  intro j r hpause hle hj hexec
  rw [hv, Option.some.injEq, Prod.mk.injEq] at hexec
  obtain ⟨rfl, hmem⟩ := hexec
  exact h j hpause hle hj hmem.symm

/-- A thread that only loads finds the chain it holds as it left it. -/
theorem yields_holdsChain (hT : T.Indexes) (h : T.Trace w γ) (hstop : stop ≤ w.now)
    {p : Core n W PK α} (hp : Loads p) (hold : (w.memAt m).HoldsChain t k b L) :
    (machine T.cfg).Yields (w.line stop) t fuel p m fun _ j => (w.memAt j).HoldsChain t k b L := by
  apply Machine.yields_keeps (P := fun j => (w.memAt j).HoldsChain t k b L) _ _
    (fun q hq => loads_procBody hq) hp hold
  · intro j j' hpause hj' hj
    exact hj.pause hT h hpause (hj'.trans hstop)
  · intro a j r ha _ hexec hj
    have hexec' : exec T.cfg t a (w.memAt j) = some (r, w.memAt (j + 1)) := hexec
    rw [exec_loads ha hexec']
    exact hj

/-- Copying out of a slot whose image stays. -/
theorem yields_copyOut (hdata : ∀ j, m ≤ j → j ≤ stop → (w.memAt j).data i = img)
    (js : List (Fin n)) (buf : Image n W) : (machine T.cfg).Yields (w.line stop) t fuel
    (copyOut i js buf) m fun r _ => r = overwrite js img buf := by
  induction js generalizing m buf with
  | nil =>
    refine Machine.yields_ret ?_
    funext j
    simp [overwrite]
  | cons x js ih =>
    refine yields_load (fun s => s.data i x) (fun _ => rfl) fun j _ hle hj _ => ?_
    rw [hdata j hle hj.le, ← overwrite_cons]
    exact ih (fun y hy => hdata y (by omega)) _

/-- Reading a row that is not written returns its image, if the read comes to an end. -/
theorem yields_readRow_unwritten (hT : T.Orders) (h : T.Trace w γ) (hstop : stop ≤ w.now)
    (hrow : Unwritten w.memAt i img m₀ stop) (hm : m₀ ≤ m) (v : Nat) (buf : Image n W) :
    (machine T.cfg).Yields (w.line stop) t fuel
    (readRow i false v buf) m fun r _ => r = (.ok, img) := by
  induction fuel using Nat.strong_induction_on generalizing m buf with
  | _ fuel ih =>
  apply Machine.yields_enter
  intro e he
  refine yields_load (fun s => s.state i) (fun _ => rfl) fun j _ hle hj _ => ?_
  rw [hrow.active j (by omega) hj.le]
  refine yields_load (fun s => s.seq i) (fun _ => rfl) fun j₁ _ hle₁ hj₁ _ => ?_
  apply Machine.Yields.ite
  · exact fun _ => ih e he (by omega) buf
  · intro hodd
    have heven : (w.memAt m₀).seq i % 2 = 0 := by
      rw [← hrow.seq j₁ (by omega) hj₁.le]
      simpa using hodd
    have hdata : ∀ y, m ≤ y → y ≤ stop → (w.memAt y).data i = img := fun y hy hy' =>
      hrow.data hT h heven (hm.trans hy) hy' hstop
    refine (yields_copyOut (fun y hy => hdata y (by omega)) _ buf).bind
      fun img' j₂ hle₂ _ himg => ?_
    rw [overwrite_finRange] at himg
    subst himg
    refine yields_load (fun s => s.seq i) (fun _ => rfl) fun j₃ _ hle₃ _ _ => ?_
    apply Machine.Yields.ite
    · exact fun _ => ih e he (by omega) _
    · exact fun _ => Machine.yields_ret rfl

/-- A read of an unwritten row returns it. -/
theorem yields_readRow (hT : T.Orders) (h : T.Trace w γ) (hstop : stop ≤ w.now) (hm : m₀ ≤ m)
    (v : Nat) (buf : Image n W) :
    (machine T.cfg).Yields (w.line stop) t fuel (readRow i false v buf) m fun r _ =>
      ∀ img, Unwritten w.memAt i img m₀ stop → r = (.ok, img) :=
  fun e r m' he hm' hway _ hrow => yields_readRow_unwritten hT h hstop hrow hm v buf
    e r m' he hm' hway

/-- The row in slot `i` matches the key and stands from `m` to `m'`. -/
def StandingMatch (cfg : ShareCfg n W PK) (mem : Nat → Share n W) (key : Nat) (pk : PK) (m m' : Nat)
    (i : Int) : Prop :=
  ∃ img, Stands mem i img m m' ∧ (cfg.keydef key).ops.cmpRecKey img pk = 0

/-- What a walk along the slots `L` returns: a slot of `L` before which none is as `P` says,
or nothing if none is. -/
structure Passes (P : Int → Prop) (L : List Int) (rc : Rc) (i : Int) : Prop where
  found : rc = .ok → i ∈ L ∧ ∀ x ∈ L, P x → x = i ∨ [i, x].Sublist L
  missed : rc ≠ .ok → ∀ x ∈ L, ¬ P x

variable {P : Int → Prop} {rc : Rc} {x : Int}

/-- An empty chain has no match. -/
theorem passes_nil (P : Int → Prop) (i : Int) : Passes P [] .notFound i := ⟨nofun, fun _ => nofun⟩

/-- The first slot is returned if it matches. -/
theorem passes_here (P : Int → Prop) (i : Int) (L : List Int) : Passes P (i :: L) .ok i := by
  refine ⟨fun _ => ⟨List.mem_cons_self, fun x hx _ => ?_⟩, fun hne => absurd rfl hne⟩
  obtain rfl | hx := List.mem_cons.mp hx
  · exact Or.inl rfl
  · exact Or.inr (List.Sublist.cons_cons i (List.singleton_sublist.mpr hx))

/-- A slot that does not match is passed. -/
theorem Passes.later (h : Passes P L rc i) (hx : ¬ P x) : Passes P (x :: L) rc i := by
  constructor
  case found =>
    intro hrc
    obtain ⟨hmem, hrest⟩ := h.found hrc
    refine ⟨List.mem_cons_of_mem x hmem, fun y hy hPy => ?_⟩
    obtain rfl | hy := List.mem_cons.mp hy
    · exact absurd hPy hx
    · exact (hrest y hy hPy).imp_right fun hpair => hpair.cons x
  case missed =>
    intro hrc y hy
    obtain rfl | hy := List.mem_cons.mp hy
    · exact hx
    · exact h.missed hrc y hy

variable {key : Nat} {pk : PK} {pre post : List Int}

/-- The cell after a slot of the chain a thread holds. -/
theorem Share.HoldsChain.next {s : Share n W} (h : s.HoldsChain t k b (pre ++ x :: post)) :
    s.next k x = post.headD nullSlot :=
  h.chain.after.head_eq

/-- No slot of a chain is -1. -/
theorem Share.HoldsChain.ne_null {s : Share n W} (h : s.HoldsChain t k b (pre ++ x :: post)) :
    x ≠ nullSlot :=
  h.chain.ne_nil (List.mem_append_right _ List.mem_cons_self)

/-- **A walk passes over no row that matches and stands.** -/
theorem yields_findWalk (hT : T.Indexes) (h : T.Trace w γ) (hstop : stop ≤ w.now) (hm : m₀ ≤ m)
    (buf : Image n W) (hold : (w.memAt m).HoldsChain t key b (pre ++ post)) :
    (machine T.cfg).Yields (w.line stop) t fuel
    (loop (.findWalk key pk buf (post.headD nullSlot))) m fun r _ =>
      Passes (StandingMatch T.cfg w.memAt key pk m₀ stop) post r.1 r.2.2 := by
  induction fuel using Nat.strong_induction_on generalizing m buf pre post with
  | _ fuel ih =>
  apply Machine.yields_enter
  intro e he
  show (machine T.cfg).Yields (w.line stop) t e
    (findBody T.cfg key pk buf (post.headD nullSlot)) m _
  cases post with
  | nil => exact Machine.yields_ret (passes_nil _ _)
  | cons x post =>
    unfold findBody
    rw [List.headD_cons, if_neg hold.ne_null]
    refine Machine.Yields.bind ((yields_readRow hT.orders h hstop hm 0 buf).and
      (yields_holdsChain hT h hstop (only_loop rfl) hold)) fun r j hle hj hread => ?_
    obtain ⟨hread, hold'⟩ := hread
    apply Machine.Yields.ite
    · intro _
      exact Machine.yields_ret (passes_here _ _ _)
    · intro hmiss
      refine yields_load (fun s => s.next key x) (fun _ => rfl) fun j₁ hpause hle₁ hj₁ hmem => ?_
      have hold₁ := hold'.pause hT h hpause (hj₁.le.trans hstop)
      rw [hold₁.next]
      rw [← hmem, ← List.singleton_append (x := x), ← List.append_assoc] at hold₁
      refine (ih e he (by omega) r.2 hold₁).imp fun r' _ _ _ hr' => hr'.later ?_
      intro hmatch
      obtain ⟨img, hstands, hcmp⟩ := hmatch
      rw [hread img hstands.toUnwritten] at hmiss
      exact hmiss ⟨rfl, hcmp⟩

/-- A walk behind a cursor passes over no row behind it that matches and stands. -/
theorem yields_findNextWalk (hT : T.Indexes) (h : T.Trace w γ) (hstop : stop ≤ w.now)
    (hm : m₀ ≤ m) (cur : Int) (buf : Image n W)
    (hold : (w.memAt m).HoldsChain t key b (pre ++ post)) (after : Bool)
    (hcur : after = true → cur ∉ post) :
    (machine T.cfg).Yields (w.line stop) t fuel
    (loop (.findNextWalk key pk cur after buf (post.headD nullSlot))) m
      fun r _ => Passes (StandingMatch T.cfg w.memAt key pk m₀ stop)
        (if after then post else behind cur post) r.1 r.2.2 := by
  induction fuel using Nat.strong_induction_on generalizing m buf pre post after with
  | _ fuel ih =>
  apply Machine.yields_enter
  intro e he
  show (machine T.cfg).Yields (w.line stop) t e
    (findNextBody T.cfg key pk cur after buf (post.headD nullSlot)) m _
  cases post with
  | nil => cases after <;> exact Machine.yields_ret (passes_nil _ _)
  | cons x post =>
    unfold findNextBody
    rw [List.headD_cons, if_neg hold.ne_null]
    -- the walk goes on behind `x`
    have hgo : ∀ {j : Nat} (after : Bool) (buf : Image n W), m ≤ j → (after = true → cur ∉ post) →
        (w.memAt j).HoldsChain t key b (pre ++ x :: post) →
        (machine T.cfg).Yields (w.line stop) t e (do
          let nx ← access (.loadNext key x)
          loop (.findNextWalk key pk cur after buf nx)) j
          fun r _ => Passes (StandingMatch T.cfg w.memAt key pk m₀ stop)
          (if after then post else behind cur post) r.1 r.2.2 := by
      intro j after buf hle hcur hold'
      refine yields_load (fun s => s.next key x) (fun _ => rfl) fun j₁ hpause hle₁ hj₁ hmem => ?_
      have hold₁ := hold'.pause hT h hpause (hj₁.le.trans hstop)
      rw [hold₁.next]
      rw [← hmem, ← List.singleton_append (x := x), ← List.append_assoc] at hold₁
      exact ih e he (by omega) buf hold₁ after hcur
    have hnodup := hold.chain.nodup
    have hnot : x ∉ post := (List.nodup_cons.mp (List.nodup_append.mp hnodup).2.1).1
    by_cases hx : x = cur
    · subst hx
      rw [if_pos rfl]
      have hbefore : after = false := by
        cases after with
        | false => rfl
        | true => exact absurd List.mem_cons_self (hcur rfl)
      rw [hbefore, if_neg (by simp), behind_self]
      exact hgo true buf (Nat.le_refl m) (fun _ => hnot) hold
    · rw [if_neg hx]
      cases after with
      | false =>
        rw [if_neg (by simp), if_neg (by simp), behind_cons hx]
        exact hgo false buf (Nat.le_refl m) nofun hold
      | true =>
        rw [if_pos rfl, if_pos rfl]
        have hcur' : cur ∉ post := fun hmem => hcur rfl (List.mem_cons_of_mem x hmem)
        refine Machine.Yields.bind ((yields_readRow hT.orders h hstop hm 0 buf).and
          (yields_holdsChain hT h hstop (only_loop rfl) hold)) fun r j hle hj hread => ?_
        obtain ⟨hread, hold'⟩ := hread
        apply Machine.Yields.ite
        · intro _
          exact Machine.yields_ret (passes_here _ _ _)
        · intro hmiss
          refine (hgo true r.2 hle (fun _ => hcur') hold').imp fun r' _ _ _ hr' => hr'.later ?_
          intro hmatch
          obtain ⟨img, hstands, hcmp⟩ := hmatch
          rw [hread img hstands.toUnwritten] at hmiss
          exact hmiss ⟨rfl, hcmp⟩

/-- The chain a thread finds when it has taken the lock of a bucket. -/
theorem yields_lockBucket (hT : T.Indexes) (h : T.Trace w γ) (hstop : stop ≤ w.now)
    {f : Unit → Core n W PK α}
    {Q : α → Nat → Prop} (hrest : ∀ L j, m ≤ j → j ≤ stop → (w.memAt j).HoldsChain t k b L →
      (machine T.cfg).Yields (w.line stop) t fuel (f ()) j Q) :
    (machine T.cfg).Yields (w.line stop) t fuel (access (.lock (.bucket k b)) >>= f) m Q := by
  apply yields_access
  intro j r hpause hle hj hexec
  have hexec' : (if (w.memAt j).owner (.bucket k b) = none then
      some ((), (w.memAt j).setOwner (some t) (.bucket k b)) else none) =
      some (r, w.memAt (j + 1)) := hexec
  split at hexec'
  · rw [Option.some.injEq, Prod.mk.injEq] at hexec'
    obtain ⟨w', γ', htrace, hnow, hmem⟩ :=
      h.upto (m := j + 1) (Nat.succ_le_of_lt (hj.trans_le hstop))
    obtain ⟨C, hC⟩ := trace_orderly hT htrace
    have hindex := hC.place.index k b
    rw [← World.memAt_now w', hnow, hmem _ (Nat.le_refl _)] at hindex
    refine hrest (C k b) (j + 1) (by omega) hj ⟨?_, hindex⟩
    rw [← hexec'.2, owner_setOwner, if_pos rfl]
  · cases hexec'

/-- Walking along a chain under the lock of its bucket. -/
theorem yields_bucketWalk (hT : T.Indexes) (h : T.Trace w γ) (hstop : stop ≤ w.now)
    {p : Int → Core n W PK α}
    {Q : α → Prop} (hp : ∀ L j, m ≤ j → j ≤ stop → (w.memAt j).HoldsChain t k b L →
      (machine T.cfg).Yields (w.line stop) t fuel (p (L.headD nullSlot)) j fun r _ => Q r) :
    (machine T.cfg).Yields (w.line stop) t fuel (do
      access (.lock (.bucket k b))
      let x ← access (.loadHead k b)
      let r ← p x
      access (.unlock (.bucket k b))
      pure r) m fun r _ => Q r := by
  refine yields_lockBucket hT h hstop fun L j hle hj hold => ?_
  refine yields_load (fun s => s.head k b) (fun _ => rfl) fun j₁ hpause hle₁ hj₁ hmem => ?_
  have hold₁ := hold.pause hT h hpause (hj₁.le.trans hstop)
  rw [hold₁.chain.head_eq]
  rw [← hmem] at hold₁
  refine (hp L (j₁ + 1) (by omega) hj₁ hold₁).bind fun r j₂ _ _ hr => ?_
  exact Machine.yields_act fun _ _ _ _ _ _ => Machine.yields_ret hr

/-- What a lookup under key `key` returns that has looked, at some moment from `m` to `m'`, at
the part `part L` of the chain `L` of its bucket, if it is to find rows that stand from `m₀` on. -/
def LooksUp (cfg : ShareCfg n W PK) (mem : Nat → Share n W) (key : Nat) (pk : PK) (m₀ m m' : Nat)
    (part : List Int → List Int) (r : Rc × Image n W × Int) : Prop :=
  ∃ L j, m ≤ j ∧ j ≤ m' ∧
    IsChain nullSlot ((mem j).next key) ((mem j).head key (cfg.packedBucket key pk)) L ∧
    Passes (StandingMatch cfg mem key pk m₀ m') (part L) r.1 r.2.2

/-- A lookup returns the first match that stands. -/
theorem yields_find (hT : T.Indexes) (h : T.Trace w γ) (hstop : stop ≤ w.now) (hm : m₀ ≤ m)
    (buf : Image n W) :
    (machine T.cfg).Yields (w.line stop) t fuel (find T.cfg key pk buf) m fun r _ =>
      LooksUp T.cfg w.memAt key pk m₀ m stop id r := by
  refine yields_bucketWalk hT h hstop fun L j hle hj hold => ?_
  have hold' : (w.memAt j).HoldsChain t key (T.cfg.packedBucket key pk) ([] ++ L) := hold
  exact (yields_findWalk hT h hstop (hm.trans hle) buf hold').imp fun r _ _ _ hr =>
    ⟨L, j, hle, hj, hold.chain, hr⟩

/-- Going on with it returns the next one. -/
theorem yields_findNext (hT : T.Indexes) (h : T.Trace w γ) (hstop : stop ≤ w.now)
    (hm : m₀ ≤ m) (cur : Int) (buf : Image n W) :
    (machine T.cfg).Yields (w.line stop) t fuel (findNext T.cfg key pk cur buf) m fun r _ =>
      LooksUp T.cfg w.memAt key pk m₀ m stop (behind cur) r := by
  refine yields_bucketWalk hT h hstop fun L j hle hj hold => ?_
  have hold' : (w.memAt j).HoldsChain t key (T.cfg.packedBucket key pk) ([] ++ L) := hold
  exact (yields_findNextWalk hT h hstop (hm.trans hle) cur buf hold' false nofun).imp
    fun r _ _ _ hr =>
    ⟨L, j, hle, hj, hold.chain, hr⟩

end FastMem
