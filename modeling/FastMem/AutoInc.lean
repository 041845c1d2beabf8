import Mathlib.Order.CompletePartialOrder
import Mathlib.Data.Set.Lattice
import FastMem.CoreSystem

/-!
# Auto-increment values

Any number of threads reserve values from the counter of a share, and raise it above
values they have seen, in any interleaving of their loads and compare-exchanges.  A
reservation moves the counter from `cur` to its last value in one step, and its first
value is above `cur`; so the intervals of all reservations lie side by side below the
counter, and the counter only ever goes up.

The arithmetic of the source is 64-bit and wraps.  Every wrap is caught before the
compare-exchange: what gets through is the value the unbounded arithmetic gives.
-/

namespace FastMem

open Conc

variable {n : Nat} {W PK : Type}

/-- The next value of the form `offset + i * inc` at or above `v`, as the source computes
it, is at least `v` only if no part of the sum has wrapped. -/
theorem align_no_wrap {v offset inc : Nat} (hoffset : offset < 2 ^ 64)
    (hinc : inc ≤ 2 ^ 64)
    (hpos : 0 < inc)
    (h : v ≤ (offset + ((if offset < v then v - offset else 0) + inc - 1) % 2 ^ 64 / inc * inc) %
      2 ^ 64) :
    offset + ((if offset < v then v - offset else 0) + inc - 1) % 2 ^ 64 / inc * inc < 2 ^ 64 := by
  by_cases hv : offset < v
  · rw [if_pos hv] at h ⊢
    have hsteps : (v - offset + inc - 1) % 2 ^ 64 / inc * inc ≤ (v - offset + inc - 1) % 2 ^ 64 :=
      Nat.div_mul_le_self _ _
    have hmod : (v - offset + inc - 1) % 2 ^ 64 ≤ v - offset + inc - 1 := Nat.mod_le _ _
    have hlt : (v - offset + inc - 1) % 2 ^ 64 < 2 ^ 64 := Nat.mod_lt _ (by decide)
    generalize (v - offset + inc - 1) % 2 ^ 64 / inc * inc = q at h hsteps ⊢
    generalize (v - offset + inc - 1) % 2 ^ 64 = m at hsteps hmod hlt
    omega
  · have hzero : (0 + inc - 1) % 2 ^ 64 / inc = 0 := by
      rw [Nat.mod_eq_of_lt (by omega)]
      exact Nat.div_eq_of_lt (by omega)
    rw [if_neg hv, hzero]
    omega

/-- The first value of a reservation is above the counter, fits in 64 bits, and is
congruent to the offset. -/
theorem autoIncFirst_spec {cur offset inc v : Nat} (hcur : cur < 2 ^ 64) (hoffset : offset < 2 ^ 64)
    (hinc : inc < 2 ^ 64) (hpos : 0 < inc) (h : autoIncFirst cur offset inc = some v) :
    cur < v ∧ v < 2 ^ 64 ∧ v % inc = offset % inc := by
  unfold autoIncFirst at h
  by_cases hzero : (cur + 1) % 2 ^ 64 = 0
  · simp only at h
    rw [if_pos hzero] at h
    cases h
  have hnext : (cur + 1) % 2 ^ 64 = cur + 1 := by omega
  simp only [hnext, Nat.add_one_ne_zero, if_false] at h
  by_cases hone : inc ≤ 1
  · rw [if_pos hone] at h
    cases h
    have : inc = 1 := by omega
    subst this
    omega
  rw [if_neg hone] at h
  have hspec := align_no_wrap hoffset hinc.le hpos (v := cur + 1)
  generalize hsum : offset + ((if offset < cur + 1 then cur + 1 - offset else 0) + inc - 1) %
    2 ^ 64 / inc * inc = sum at h hspec
  by_cases hwrap : sum % 2 ^ 64 < cur + 1
  · rw [if_pos hwrap] at h
    cases h
  -- the second try of the source is never needed
  rw [if_neg hwrap, if_neg (by omega)] at h
  cases h
  have hlt := hspec (by omega)
  refine ⟨by omega, Nat.mod_lt _ (by decide), ?_⟩
  rw [Nat.mod_eq_of_lt hlt, ← hsum, Nat.add_mul_mod_self_right]

/-- `fm_set_auto_increment`: `value` is the next value to use. -/
def fmSetAutoIncrement (value : Nat) : Core n W PK Unit := do
  let next := if value = 0 then 0 else value - 1
  let cur ← access .loadAutoInc
  loop (.observeLoop next cur)

/-- The calls that touch the counter. -/
inductive AutoOp
  | reserve (offset inc nb : UInt64)
  | observe (value : UInt64)
  | setAutoIncrement (value : UInt64)

/-- What they return: the first value and the number of values reserved, 0 for the first
value on overflow. -/
inductive AutoOut
  | reserved (first nb : Nat)
  | done
  deriving DecidableEq

/-- Zero is read as 1. -/
def orOne (x : UInt64) : Nat := if x.toNat = 0 then 1 else x.toNat

/-- Zero is taken for one. -/
theorem orOne_pos (x : UInt64) : 0 < orOne x := by
  unfold orOne
  split <;> omega

/-- The result still fits into 64 bits. -/
theorem orOne_lt (x : UInt64) : orOne x < 2 ^ 64 := by
  have := x.toNat_lt
  unfold orOne
  split <;> omega

/-- What the caller promises: the span of a reservation fits in 64 bits. -/
def AutoOp.promised : AutoOp → Bool
  | .reserve _ inc nb => (orOne nb - 1) * orOne inc < 2 ^ 64
  | .observe _ | .setAutoIncrement _ => true

/-- The program of each call. -/
def AutoOp.code : AutoOp → Core n W PK AutoOut
  | .reserve offset inc nb => do
      let (first, nb) ← autoIncReserve offset.toNat inc.toNat nb.toNat
      pure (.reserved first nb)
  | .observe value => do
      autoIncObserve value.toNat
      pure .done
  | .setAutoIncrement value => do
      fmSetAutoIncrement value.toNat
      pure .done

/-- Any number of threads that make such calls. -/
@[reducible] def autoSystem (cfg : ShareCfg n W PK) : System (coreSig n W PK)
    (Share n W) AutoOp Unit AutoOut where
  toMachine := machine cfg
  may := fun op _ => op.promised
  code := fun op _ => do
    let out ← op.code
    pure (out, ())

/-- A world of such threads. -/
abbrev AutoWorld (n : Nat) (W PK : Type) := World (coreSig n W PK) (Share n W) AutoOp AutoOut

/-- The first and the last value of a successful reservation. -/
def span : AutoOp → AutoOut → Option (Nat × Nat)
  | .reserve _ inc nb, .reserved first _ =>
      if first = 0 then none else some (first, first + (orOne nb - 1) * orOne inc)
  | _, _ => none

/-- What the counter has reached when the call returns. -/
def reached : AutoOp → AutoOut → Nat
  | .reserve offset inc nb, out => ((span (.reserve offset inc nb) out).map Prod.snd).getD 0
  | .observe value, _ => value.toNat
  | .setAutoIncrement value, _ => if value.toNat = 0 then 0 else value.toNat - 1

/-- A reservation reaches the end of its span. -/
theorem reached_of_span {op : AutoOp} {out : AutoOut} {I : Nat × Nat} (h : span op out = some I) :
    reached op out = I.2 := by
  cases op with
  | reserve offset inc nb => simp only [reached, h, Option.map_some, Option.getD_some]
  | observe value => cases h
  | setAutoIncrement value => cases h

/-- What a reservation promises of its first value and of the number of values. -/
def Aligned : AutoOp → AutoOut → Prop
  | .reserve offset inc nb, .reserved first count =>
      first ≠ 0 → count = orOne nb ∧ first % orOne inc = orOne offset % orOne inc
  | _, _ => True

/-- One of two intervals lies below the other. -/
def Apart (I J : Nat × Nat) : Prop := I.2 < J.1 ∨ J.2 < I.1

/-- What is known of a call that has returned. -/
structure Returned (w : AutoWorld n W PK) (e : Event AutoOp AutoOut) : Prop where
  start_le : e.call.start ≤ e.stop
  stop_le : e.stop ≤ w.now
  above : ∀ I, span e.call.op e.out = some I → (w.memAt e.call.start).autoInc < I.1
  reached : reached e.call.op e.out ≤ (w.memAt e.stop).autoInc
  aligned : Aligned e.call.op e.out

/-- What a thread knows: when its call started, a value the counter has reached, and the
reservation it has made but not returned yet. -/
structure AutoGhost where
  since : Nat
  floor : Nat
  pending : Option (Nat × Nat)

/-- The counter has only gone up, and all reservations, returned or not, lie apart from
each other, below the counter. -/
structure AutoInv (w : AutoWorld n W PK) (γ : Nat → AutoGhost) : Prop where
  bounded : w.mem.autoInc < 2 ^ 64
  mono : ∀ m m', m ≤ m' → m' ≤ w.now → (w.memAt m).autoInc ≤ (w.memAt m').autoInc
  since : ∀ t, (γ t).since ≤ w.now
  floor : ∀ t, (γ t).floor ≤ w.mem.autoInc
  pending : ∀ t I, (γ t).pending = some I →
    (w.memAt (γ t).since).autoInc < I.1 ∧ I.2 ≤ w.mem.autoInc
  pending_apart : ∀ t u I J, t ≠ u → (γ t).pending = some I → (γ u).pending = some J → Apart I J
  returned : ∀ e ∈ w.log, Returned w e
  returned_apart : ∀ t I, (γ t).pending = some I → ∀ e ∈ w.log, ∀ J,
    span e.call.op e.out = some J → Apart I J
  log_apart : w.log.Pairwise fun e e' => ∀ I J, span e.call.op e.out = some I →
    span e'.call.op e'.out = some J → Apart I J

/-- Two spans are apart in either order. -/
theorem Apart.symm {I J : Nat × Nat} (h : Apart I J) : Apart J I := Or.symm h

section

variable {w : AutoWorld n W PK} {γ : Nat → AutoGhost} {c : Call AutoOp}
  {a : Act n W} {s : Share n W} {g : AutoGhost}

/-- What a call has returned it has returned later on. -/
theorem Returned.push {e : Event AutoOp AutoOut} (h : Returned w e) :
    Returned (w.push c a s) e := by
  have hstart : e.call.start ≤ w.now := h.start_le.trans h.stop_le
  refine ⟨h.start_le, h.stop_le.trans (Nat.le_succ _), ?_, ?_, h.aligned⟩
  · rw [World.memAt_push hstart]
    exact h.above
  · rw [World.memAt_push h.stop_le]
    exact h.reached

theorem Returned.finish {e : Event AutoOp AutoOut} (h : Returned w e) {out : AutoOut} :
    Returned (w.finish c out) e :=
  ⟨h.start_le, h.stop_le, h.above, h.reached, h.aligned⟩

/-- A finished reservation is below the counter. -/
theorem AutoInv.returned_le (h : AutoInv w γ) {e : Event AutoOp AutoOut}
    (he : e ∈ w.log) {J : Nat × Nat}
    (hJ : span e.call.op e.out = some J) : J.2 ≤ w.mem.autoInc := by
  have hret := h.returned e he
  calc J.2 = reached e.call.op e.out := (reached_of_span hJ).symm
    _ ≤ (w.memAt e.stop).autoInc := hret.reached
    _ ≤ (w.memAt w.now).autoInc := h.mono _ _ hret.stop_le le_rfl
    _ = w.mem.autoInc := by rw [World.memAt_now]

/-- The counter has not been higher than it is. -/
theorem AutoInv.le_now (h : AutoInv w γ) {m : Nat} (hm : m ≤ w.now) :
    (w.memAt m).autoInc ≤ w.mem.autoInc := by
  have := h.mono m w.now hm le_rfl
  rwa [World.memAt_now] at this

/-- The counter does not go back in an access that does not set it back. -/
theorem AutoInv.mono_push (h : AutoInv w γ) (hup : w.mem.autoInc ≤ s.autoInc) {m m' : Nat}
    (hm : m ≤ m') (hm' : m' ≤ w.now + 1) :
    ((w.push c a s).memAt m).autoInc ≤ ((w.push c a s).memAt m').autoInc := by
  rcases Nat.lt_or_ge m' (w.now + 1) with hpast | hnow
  · rw [World.memAt_push (by omega), World.memAt_push (by omega)]
    exact h.mono m m' hm (by omega)
  · obtain rfl : m' = w.now + 1 := by omega
    rw [World.memAt_push_succ]
    rcases Nat.lt_or_ge m (w.now + 1) with hpast | hnow'
    · rw [World.memAt_push (by omega)]
      exact (h.le_now (by omega)).trans hup
    · obtain rfl : m = w.now + 1 := by omega
      rw [World.memAt_push_succ]

/-- What a thread has reserved is apart from what the others have, if it is above the
old counter. -/
theorem AutoInv.pending_push (h : AutoInv w γ) {t₀ : Nat}
    (hpending : ∀ I, g.pending = some I → (γ t₀).pending = some I ∨ w.mem.autoInc < I.1)
    {t u : Nat} {I J : Nat × Nat} (htu : t ≠ u)
    (hI : (Function.update γ t₀ g t).pending = some I)
    (hJ : (Function.update γ t₀ g u).pending = some J) : Apart I J := by
  have hother : ∀ u J, u ≠ t₀ → (γ u).pending = some J → ∀ I, g.pending = some I →
      Apart I J := by
    intro u J hu hJ I hI
    rcases hpending I hI with hold | hnew
    · exact h.pending_apart t₀ u I J hu.symm hold hJ
    · have := (h.pending u J hJ).2
      exact Or.inr (by omega)
  by_cases ht : t = t₀
  · subst ht
    rw [Function.update_self] at hI
    rw [Function.update_of_ne htu.symm] at hJ
    exact hother u J htu.symm hJ I hI
  · rw [Function.update_of_ne ht] at hI
    by_cases hu : u = t₀
    · subst hu
      rw [Function.update_self] at hJ
      exact (hother t I ht hI J hJ).symm
    · rw [Function.update_of_ne hu] at hJ
      exact h.pending_apart t u I J htu hI hJ

/-- An action that does not lower the counter.  What the thread has pending it had
pending before, or it is all of it above the old counter. -/
theorem AutoInv.push (h : AutoInv w γ) (hup : w.mem.autoInc ≤ s.autoInc) (hlt : s.autoInc < 2 ^ 64)
    (hsince : g.since = (γ c.tid).since) (hfloor : g.floor ≤ s.autoInc)
    (hpending : ∀ I, g.pending = some I → (γ c.tid).pending = some I ∨ w.mem.autoInc < I.1 ∧
      I.2 ≤ s.autoInc) :
    AutoInv (w.push c a s) (Function.update γ c.tid g) := by
  have hsince' : g.since ≤ w.now := by
    rw [hsince]
    exact h.since c.tid
  constructor
  case bounded => exact hlt
  case mono => exact fun m m' hm hm' => h.mono_push hup hm hm'
  case since =>
    rw [Function.forall_update_iff γ fun _ g => g.since ≤ (w.push c a s).now]
    exact ⟨hsince'.trans (Nat.le_succ _), fun t _ => (h.since t).trans (Nat.le_succ _)⟩
  case floor =>
    rw [Function.forall_update_iff γ fun _ g => g.floor ≤ (w.push c a s).mem.autoInc]
    exact ⟨hfloor, fun t _ => (h.floor t).trans hup⟩
  case pending =>
    intro t I hI
    by_cases ht : t = c.tid
    · subst ht
      rw [Function.update_self] at hI ⊢
      rw [World.memAt_push hsince', World.push_mem]
      rcases hpending I hI with hold | ⟨hnew, hI2⟩
      · rw [hsince]
        exact ⟨(h.pending _ I hold).1, (h.pending _ I hold).2.trans hup⟩
      · exact ⟨lt_of_le_of_lt (h.le_now hsince') hnew, hI2⟩
    · rw [Function.update_of_ne ht] at hI ⊢
      rw [World.memAt_push (h.since t), World.push_mem]
      exact ⟨(h.pending t I hI).1, (h.pending t I hI).2.trans hup⟩
  case pending_apart =>
    exact fun t u I J => h.pending_push fun I hI => (hpending I hI).imp_right And.left
  case returned =>
    intro e he
    exact (h.returned e he).push
  case returned_apart =>
    intro t I hI e he J hJ
    by_cases ht : t = c.tid
    · subst ht
      rw [Function.update_self] at hI
      rcases hpending I hI with hold | ⟨hnew, -⟩
      · exact h.returned_apart _ I hold e he J hJ
      · have := h.returned_le he hJ
        exact Or.inr (by omega)
    · rw [Function.update_of_ne ht] at hI
      exact h.returned_apart t I hI e he J hJ
  case log_apart => exact h.log_apart

/-- A call starts. -/
theorem AutoInv.start (h : AutoInv w γ) (t : Nat) :
    AutoInv w (Function.update γ t ⟨w.now, 0, none⟩) := by
  have hpending : ∀ u I, (Function.update γ t ⟨w.now, 0, none⟩ u).pending = some I →
      Function.update γ t ⟨w.now, 0, none⟩ u = γ u := by
    intro u I hI
    by_cases hu : u = t
    · subst hu
      rw [Function.update_self] at hI
      cases hI
    · rw [Function.update_of_ne hu]
  refine { h
    with since := ?_, floor := ?_, pending := ?_, pending_apart := ?_, returned_apart := ?_ }
  · intro u
    by_cases hu : u = t
    · subst hu
      rw [Function.update_self]
    · rw [Function.update_of_ne hu]
      exact h.since u
  · intro u
    by_cases hu : u = t
    · subst hu
      rw [Function.update_self]
      exact Nat.zero_le _
    · rw [Function.update_of_ne hu]
      exact h.floor u
  · intro u I hI
    have heq := hpending u I hI
    rw [heq] at hI ⊢
    exact h.pending u I hI
  · intro u v I J huv hI hJ
    rw [hpending u I hI] at hI
    rw [hpending v J hJ] at hJ
    exact h.pending_apart u v I J huv hI hJ
  · intro u I hI
    rw [hpending u I hI] at hI
    exact h.returned_apart u I hI

/-- A call returns, and its reservation, if it has made one, is no longer pending. -/
theorem AutoInv.finish (h : AutoInv w γ) {out : AutoOut} (hsince : (γ c.tid).since = c.start)
    (hpending : (γ c.tid).pending = span c.op out) (hreached : reached c.op out ≤ w.mem.autoInc)
    (haligned : Aligned c.op out) :
    AutoInv (w.finish c out) (Function.update γ c.tid ⟨c.start, 0, none⟩) := by
  have hstart : c.start ≤ w.now := by
    rw [← hsince]
    exact h.since c.tid
  have hother : ∀ u I, (Function.update γ c.tid ⟨c.start, 0, none⟩ u).pending = some I →
      u ≠ c.tid ∧ (γ u).pending = some I := by
    intro u I hI
    by_cases hu : u = c.tid
    · subst hu
      rw [Function.update_self] at hI
      cases hI
    · rw [Function.update_of_ne hu] at hI
      exact ⟨hu, hI⟩
  constructor
  case bounded => exact h.bounded
  case mono => exact h.mono
  case since =>
    rw [Function.forall_update_iff γ fun _ g => g.since ≤ (w.finish c out).now]
    exact ⟨hstart, fun u _ => h.since u⟩
  case floor =>
    rw [Function.forall_update_iff γ fun _ g => g.floor ≤ (w.finish c out).mem.autoInc]
    exact ⟨Nat.zero_le _, fun u _ => h.floor u⟩
  case pending =>
    intro u I hI
    obtain ⟨hu, hI⟩ := hother u I hI
    rw [Function.update_of_ne hu]
    exact h.pending u I hI
  case pending_apart =>
    intro u v I J huv hI hJ
    exact h.pending_apart u v I J huv (hother u I hI).2 (hother v J hJ).2
  case returned =>
    intro e he
    rcases List.mem_cons.mp he with rfl | he
    · refine ⟨hstart, le_rfl, ?_, ?_, haligned⟩
      · intro I hI
        rw [← hpending] at hI
        have := (h.pending c.tid I hI).1
        rwa [hsince] at this
      · show reached c.op out ≤ (w.memAt w.now).autoInc
        rw [World.memAt_now]
        exact hreached
    · exact (h.returned e he).finish
  case returned_apart =>
    intro u I hI e he J hJ
    obtain ⟨hu, hI⟩ := hother u I hI
    rcases List.mem_cons.mp he with rfl | he
    · rw [← hpending] at hJ
      exact h.pending_apart u c.tid I J hu hI hJ
    · exact h.returned_apart u I hI e he J hJ
  case log_apart =>
    refine List.pairwise_cons.mpr ⟨fun e he I J hI hJ => ?_, h.log_apart⟩
    rw [← hpending] at hI
    exact h.returned_apart c.tid I hI e he J hJ

end

/-- The logic of the counter. -/
def autoLogic (n : Nat) (W PK : Type) : Logic (coreSig n W PK)
    (Share n W) AutoOp Unit AutoOut AutoGhost where
  Inv := AutoInv
  Idle := fun _ g => g.pending = none
  Assume := fun _ _ _ => True
  Next := fun _ _ _ _ => True

section

variable {cfg : ShareCfg n W PK} {c : Call AutoOp} {m : Nat} {g : AutoGhost}

/-- A load of the counter: the thread knows a value it has reached. -/
theorem safe_loadAutoInc {α : Type} {k : Nat → Core n W PK α} {Q : α → AutoGhost → Prop}
    (hk : ∀ cur, cur < 2 ^ 64 →
      (autoLogic n W PK).Safe (machine cfg) c m (k cur) Q { g with floor := cur }) :
    (autoLogic n W PK).Safe (machine cfg) c (m + 1) (access .loadAutoInc >>= k) Q g := by
  apply Logic.Safe.act
  intro w γ hinv hg
  refine ⟨trivial, fun _ r s hexec => ?_⟩
  cases hexec
  refine ⟨_, AutoInv.push hinv le_rfl hinv.bounded ?_ le_rfl ?_, hk _ hinv.bounded⟩
  · rw [hg]
  · intro I hI
    rw [hg]
    exact Or.inl hI

/-- A compare-exchange that would raise the counter: either it does, or nothing has
changed and the thread knows a value the counter has reached. -/
theorem safe_casAutoInc {α : Type} {cur new : Nat} {k : Bool × Nat → Core n W PK α}
    {Q : α → AutoGhost → Prop} (pending : Option (Nat × Nat)) (hup : cur ≤ new) (hlt : new < 2 ^ 64)
    (hpending : ∀ I, pending = some I → g.pending = some I ∨ cur < I.1 ∧ I.2 ≤ new)
    (hok : (autoLogic n W PK).Safe (machine cfg) c m (k (true, cur)) Q
      { g with floor := new, pending := pending })
    (hfail : ∀ seen, (autoLogic n W PK).Safe (machine cfg) c m (k (false, seen)) Q
      { g with floor := seen }) :
    (autoLogic n W PK).Safe (machine cfg) c (m + 1) (access (.casAutoInc cur new) >>= k) Q g := by
  apply Logic.Safe.act
  intro w γ hinv hg
  refine ⟨trivial, fun _ r s hexec => ?_⟩
  by_cases hcas : w.mem.autoInc = cur ∧ cfg.spurious w.mem.cas = false
  · simp only [exec, if_pos hcas] at hexec
    cases hexec
    rw [hcas.1]
    refine ⟨_, AutoInv.push hinv ?_ hlt ?_ le_rfl ?_, hok⟩
    · rw [hcas.1]
      exact hup
    · rw [hg]
    · rw [hg, hcas.1]
      exact hpending
  · simp only [exec, if_neg hcas] at hexec
    cases hexec
    refine ⟨_, AutoInv.push hinv le_rfl hinv.bounded ?_ le_rfl ?_, hfail _⟩
    · rw [hg]
    · intro I hI
      rw [hg]
      exact Or.inl hI

/-- What a reservation has done when it returns. -/
def ReserveDone (start offset inc nb : Nat) (x : Nat × Nat) (g : AutoGhost) : Prop :=
  g.since = start ∧
    (x.1 = 0 ∧ g.pending = none ∨
      x.1 ≠ 0 ∧ x.2 = nb ∧ x.1 % inc = offset % inc ∧ x.1 + (nb - 1) * inc ≤ g.floor ∧
        g.pending = some (x.1, x.1 + (nb - 1) * inc))

/-- The loop of a reservation keeps the spans apart. -/
theorem safe_reserveLoop {offset inc nb : Nat} (hoffset : offset < 2 ^ 64) (hinc : inc < 2 ^ 64)
    (hpos : 0 < inc) (hspan : (nb - 1) * inc < 2 ^ 64) (hsince : g.since = c.start)
    (hnone : g.pending = none) :
    (autoLogic n W PK).Safe (machine cfg) c m (loop (.reserveLoop offset inc nb))
      (ReserveDone c.start offset inc nb) g := by
  -- induction on the number of steps: a failed compare-exchange starts over
  induction m using Nat.strong_induction_on generalizing g with
  | _ m ih =>
      apply Logic.Safe.enter
      intro m' hm'
      cases m' with
      | zero => trivial
      | succ m' =>
          apply safe_loadAutoInc
          intro cur hcur
          cases hfirst : autoIncFirst cur offset inc with
          | none => exact Logic.Safe.ret ⟨hsince, Or.inl ⟨rfl, hnone⟩⟩
          | some v =>
              obtain ⟨hlt, hv, hmod⟩ := autoIncFirst_spec hcur hoffset hinc hpos hfirst
              dsimp only
              by_cases hover : (v + (nb - 1) * inc) % 2 ^ 64 < v
              · rw [if_pos hover]
                exact Logic.Safe.ret ⟨hsince, Or.inl ⟨rfl, hnone⟩⟩
              · rw [if_neg hover]
                have hlast : (v + (nb - 1) * inc) % 2 ^ 64 = v + (nb - 1) * inc := by omega
                rw [hlast]
                cases m' with
                | zero => trivial
                | succ m' =>
                    apply safe_casAutoInc (some (v, v + (nb - 1) * inc)) (by omega) (by omega)
                    · intro I hI
                      cases hI
                      exact Or.inr ⟨hlt, le_rfl⟩
                    · exact Logic.Safe.ret ⟨hsince, Or.inr ⟨by omega, rfl, hmod, le_rfl, rfl⟩⟩
                    · intro seen
                      exact ih m' (by omega) hsince hnone

/-- The loop that raises the counter does so too. -/
theorem safe_observeLoop {value cur : Nat} (hvalue : value < 2 ^ 64) (hsince : g.since = c.start)
    (hnone : g.pending = none) (hcur : cur ≤ g.floor) :
    (autoLogic n W PK).Safe (machine cfg) c m (loop (.observeLoop value cur))
      (fun _ g' => g'.since = c.start ∧ g'.pending = none ∧ value ≤ g'.floor) g := by
  induction m using Nat.strong_induction_on generalizing g cur with
  | _ m ih =>
      apply Logic.Safe.enter
      intro m' hm'
      show (autoLogic n W PK).Safe (machine cfg) c m' (observeBody value cur) _ g
      unfold observeBody
      by_cases hlt : cur < value
      · rw [if_pos hlt]
        cases m' with
        | zero => trivial
        | succ m' =>
            apply safe_casAutoInc none hlt.le hvalue
            · intro I hI
              cases hI
            · exact Logic.Safe.ret ⟨hsince, rfl, le_rfl⟩
            · intro seen
              exact ih m' (by omega) hsince hnone le_rfl
      · rw [if_neg hlt]
        exact Logic.Safe.ret ⟨hsince, hnone, by omega⟩

/-- What a call has done when it is about to return. -/
structure Made (op : AutoOp) (start : Nat) (out : AutoOut) (g : AutoGhost) : Prop where
  since : g.since = start
  pending : g.pending = span op out
  reached : reached op out ≤ g.floor
  aligned : Aligned op out

/-- Every call on the counter keeps the spans apart. -/
theorem safe_code (hpromised : c.op.promised = true) (hsince : g.since = c.start)
    (hnone : g.pending = none) :
    (autoLogic n W PK).Safe (machine cfg) c m c.op.code (Made c.op c.start) g := by
  obtain ⟨t, op, start⟩ := c
  cases op with
  | reserve offset inc nb =>
      have hspan : (orOne nb - 1) * orOne inc < 2 ^ 64 := by simpa [AutoOp.promised] using hpromised
      refine Logic.Safe.bind
        (safe_reserveLoop (orOne_lt offset) (orOne_lt inc) (orOne_pos inc) hspan hsince hnone) ?_
      intro x g' hdone
      apply Logic.Safe.ret
      obtain ⟨hsince', ⟨hzero, hpending⟩ | ⟨hne, hcount, hmod, hfloor, hpending⟩⟩ := hdone
      · have hspan' : span (.reserve offset inc nb) (.reserved x.1 x.2) = none := if_pos hzero
        refine ⟨hsince', hpending.trans hspan'.symm, ?_, fun h => absurd hzero h⟩
        simp [FastMem.reached, hspan']
      · have hspan' : span (.reserve offset inc nb) (.reserved x.1 x.2) =
            some (x.1, x.1 + (orOne nb - 1) * orOne inc) := if_neg hne
        refine ⟨hsince', hpending.trans hspan'.symm, ?_, fun _ => ⟨hcount, hmod⟩⟩
        rw [reached_of_span hspan']
        exact hfloor
  | observe value =>
      refine Logic.Safe.bind (Q := fun _ g' => g'.since = start ∧ g'.pending = none ∧
        value.toNat ≤ g'.floor)
        ?_ fun _ g' hdone => Logic.Safe.ret ⟨hdone.1, hdone.2.1, hdone.2.2, trivial⟩
      cases m with
      | zero => trivial
      | succ m =>
          apply safe_loadAutoInc
          intro cur hcur
          exact safe_observeLoop value.toNat_lt hsince hnone le_rfl
  | setAutoIncrement value =>
      have hlt := value.toNat_lt
      refine Logic.Safe.bind (Q := fun _ g' => g'.since = start ∧ g'.pending = none ∧
        (if value.toNat = 0 then 0 else value.toNat - 1) ≤ g'.floor)
        ?_ fun _ g' hdone => Logic.Safe.ret ⟨hdone.1, hdone.2.1, hdone.2.2, trivial⟩
      cases m with
      | zero => trivial
      | succ m =>
          apply safe_loadAutoInc
          intro cur hcur
          exact safe_observeLoop (by split <;> omega) hsince hnone le_rfl

/-- A call that has done what it should may return. -/
theorem Made.done {out : AutoOut} (h : Made c.op c.start out g) : (autoLogic n W PK).Done c
    (out, ()) g := by
  intro w γ hinv hg
  refine ⟨_, AutoInv.finish hinv ?_ ?_ ?_ h.aligned, rfl⟩
  · rw [hg]
    exact h.since
  · rw [hg]
    exact h.pending
  · have := hinv.floor c.tid
    rw [hg] at this
    exact h.reached.trans this

/-- The calls of all threads keep the spans apart. -/
theorem callsSafe_auto (cfg : ShareCfg n W PK) : (autoSystem cfg).CallsSafe (autoLogic n W PK) := by
  intro t op l w γ hinv hidle hmay
  refine ⟨⟨w.now, 0, none⟩, AutoInv.start hinv t, fun m => ?_⟩
  refine Logic.Safe.bind (safe_code hmay rfl rfl) ?_
  intro out g hmade
  exact Logic.Safe.ret hmade.done

end

/-- The values a call has handed out. -/
def values (e : Event AutoOp AutoOut) : Set Nat :=
  match e.call.op, e.out with
  | .reserve _ inc nb, .reserved first _ =>
      {x | first ≠ 0 ∧ ∃ j, j < orOne nb ∧ x = first + j * orOne inc}
  | _, _ => ∅

/-- The values of a reservation lie in its interval, and are congruent to its first. -/
theorem mem_values {e : Event AutoOp AutoOut} {x : Nat} (hx : x ∈ values e) :
    ∃ I, span e.call.op e.out = some I ∧ I.1 ≤ x ∧ x ≤ I.2 := by
  obtain ⟨⟨t, op, start⟩, out, stop⟩ := e
  cases op with
  | reserve offset inc nb =>
      cases out with
      | reserved first count =>
          obtain ⟨hne, j, hj, rfl⟩ := hx
          refine ⟨_, if_neg hne, Nat.le_add_right _ _, ?_⟩
          exact Nat.add_le_add_left (Nat.mul_le_mul_right _ (by omega)) _
      | done => cases hx
  | observe value => cases hx
  | setAutoIncrement value => cases hx

/-- The values of a reservation are congruent to its offset. -/
theorem Returned.congruent {w : AutoWorld n W PK} {e : Event AutoOp AutoOut}
    (h : Returned w e) {x : Nat} (hx : x ∈ values e) {offset inc nb : UInt64}
    (hop : e.call.op = .reserve offset inc nb) :
    x % orOne inc = orOne offset % orOne inc := by
  obtain ⟨⟨t, op, start⟩, out, stop⟩ := e
  cases hop
  cases out with
  | reserved first count =>
      obtain ⟨hne, j, hj, rfl⟩ := hx
      rw [Nat.add_mul_mod_self_right]
      exact (h.aligned hne).2
  | done => cases hx

/-- **No value is handed out twice.**  In every run of any number of threads that
reserve, observe and set auto-increment values: the counter never goes down; the values
of different reservations are disjoint; and every value reserved is congruent to the
offset modulo the increment, and greater than every value that was reserved or observed
by a call that had returned when the reservation started. -/
theorem auto_increment_never_twice (cfg : ShareCfg n W PK) (s : Share n W) (hs : s.autoInc < 2 ^ 64)
    (c : Config (coreSig n W PK) (Share n W) AutoOp Unit AutoOut)
    (h : (autoSystem cfg).Reach (fun _ _ _ => True) (System.start s fun _ => ()) c) :
    (∀ m m', m ≤ m' → m' ≤ c.world.now → (c.world.memAt m).autoInc ≤ (c.world.memAt m').autoInc) ∧
    c.world.log.Pairwise (fun e e' => Disjoint (values e) (values e')) ∧
    ∀ e ∈ c.world.log, ∀ x ∈ values e,
      (∀ offset inc nb, e.call.op = .reserve offset inc nb →
        x % orOne inc = orOne offset % orOne inc) ∧
      ∀ e' ∈ c.world.log, e'.stop ≤ e.call.start →
        (∀ y ∈ values e', y < x) ∧
        (∀ value, e'.call.op = .observe value → value.toNat < x) ∧
        ∀ value, e'.call.op = .setAutoIncrement value → value.toNat ≤ x := by
  have hinit : AutoInv (⟨s, [], []⟩ : AutoWorld n W PK) fun _ => ⟨0, 0, none⟩ := by
    refine ⟨hs, ?_, fun _ => le_rfl, fun _ => Nat.zero_le _, nofun, nofun, nofun, nofun,
      List.Pairwise.nil⟩
    intro m m' hm hm'
    have h0 : m' = 0 := Nat.le_zero.mp hm'
    subst h0
    rw [Nat.le_zero.mp hm]
  obtain ⟨γ, hinv, -⟩ := System.Reach.sound (callsSafe_auto cfg)
    (System.holds_start (fun _ => ⟨0, 0, none⟩) hinit fun _ => rfl) h 0
  have hinv : AutoInv c.world γ := hinv
  refine ⟨hinv.mono, ?_, ?_⟩
  · refine hinv.log_apart.imp fun {e e'} hapart => ?_
    rw [Set.disjoint_left]
    intro x hx hx'
    obtain ⟨I, hI, hx1, hx2⟩ := mem_values hx
    obtain ⟨J, hJ, hx1', hx2'⟩ := mem_values hx'
    rcases hapart I J hI hJ with hlt | hlt <;> omega
  · intro e he x hx
    have hret := hinv.returned e he
    obtain ⟨I, hI, hx1, -⟩ := mem_values hx
    have habove := hret.above I hI
    refine ⟨fun offset inc nb hop => hret.congruent hx hop, fun e' he' hbefore => ?_⟩
    have hret' := hinv.returned e' he'
    -- what the earlier call had reached is below the counter this reservation found
    have hreached : reached e'.call.op e'.out < x := by
      have hmono := hinv.mono e'.stop e.call.start hbefore (hret.start_le.trans hret.stop_le)
      have := hret'.reached
      omega
    refine ⟨fun y hy => ?_, fun value hop => ?_, fun value hop => ?_⟩
    · obtain ⟨J, hJ, -, hy2⟩ := mem_values hy
      rw [reached_of_span hJ] at hreached
      omega
    · rw [hop] at hreached
      exact hreached
    · rw [hop] at hreached
      simp only [reached] at hreached
      split at hreached <;> omega

/-- Two threads race for values, one for three odd ones and one for a single value; the
compare-exchange of the second fails once. -/
theorem auto_increment_never_twice_two_reservations :
    ∃ c, (autoSystem (wordTable 0)).Reach (fun _ _ _ => True)
        (System.start (Share.fresh fun _ _ => 0) fun _ => ()) c ∧
      c.world.log.map (·.out) = [.reserved 6 1, .reserved 1 3] ∧
      c.world.log.Pairwise fun e e' => Disjoint (values e) (values e') := by
  have heval : ((autoSystem (wordTable 0)).schedule
      (System.start (Share.fresh fun _ _ => 0) fun _ => ())
      [.invoke 0 (.reserve 1 2 3), .invoke 1 (.reserve 0 0 0), .run 0, .run 0,
        .run 1, .run 1, .run 0, .run 1, .run 1, .run 1, .run 1, .run 0, .run 1]).any
      (fun c => c.world.log.map (·.out) = [.reserved 6 1, .reserved 1 3]) = true := by
    decide +kernel
  obtain ⟨c, hrun, hlog⟩ := (Option.any_eq_true _ _).mp heval
  have hreach := System.Reach.of_schedule _ _ _ hrun
  exact ⟨c, hreach, by simpa using hlog,
    (auto_increment_never_twice (wordTable 0) _ (by decide) c hreach).2.1⟩

end FastMem
