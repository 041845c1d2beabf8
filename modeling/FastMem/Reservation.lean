import Mathlib.Order.Bounds.Basic
import FastMem.AutoInc
import FastMem.Sequential

/-!
# One reservation, exactly

What `fm_core_auto_inc_reserve` should hand out is said over the unbounded numbers; what
it does hand out is computed modulo 2^64.  Two intermediate results may wrap without the
comparisons after them telling so: the sum that rounds the counter up to the next step,
whose wrap looks like an overflow where there may be none, and the width of the interval,
whose wrap hides an overflow.  Everything else is exact.
-/

namespace FastMem

open Conc

variable {n : Nat} {W PK : Type} {cur offset inc nb v : Nat}

/-- `v` is the first value above the counter: the next one if values are handed out one by
one, else the least number of the form `offset + i * inc`. -/
def IsFirst (cur offset inc v : Nat) : Prop :=
  if inc = 1 then v = cur + 1 else IsLeast {x | cur < x ∧ ∃ i, x = offset + i * inc} v

/-- The first value above the counter. -/
def firstAbove (cur offset inc : Nat) : Nat :=
  if inc = 1 then cur + 1
  else if cur < offset then offset
  else offset + ((cur - offset) / inc + 1) * inc

/-- The value a reservation computes is the first above the counter. -/
theorem isFirst_firstAbove (hpos : 0 < inc) : IsFirst cur offset inc
    (firstAbove cur offset inc) := by
  unfold IsFirst firstAbove
  by_cases hone : inc = 1
  · rw [if_pos hone, if_pos hone]
  rw [if_neg hone, if_neg hone]
  by_cases hbelow : cur < offset
  · rw [if_pos hbelow]
    constructor
    · exact ⟨hbelow, 0, by omega⟩
    · intro x hx
      obtain ⟨-, i, rfl⟩ := hx
      exact Nat.le_add_right _ _
  rw [if_neg hbelow]
  have hdiv : cur - offset < ((cur - offset) / inc + 1) * inc := by
    rw [← Nat.div_lt_iff_lt_mul hpos]
    exact Nat.lt_succ_self _
  constructor
  · exact ⟨by omega, _, rfl⟩
  · intro x hx
    obtain ⟨hx, i, rfl⟩ := hx
    -- a smaller multiple would not get past the counter
    have hi : (cur - offset) / inc < i := by
      rw [Nat.div_lt_iff_lt_mul hpos]
      omega
    have hmul : ((cur - offset) / inc + 1) * inc ≤ i * inc := Nat.mul_le_mul_right _ hi
    omega

/-- It is above the counter. -/
theorem lt_firstAbove (hpos : 0 < inc) : cur < firstAbove cur offset inc := by
  have hfirst : IsFirst cur offset inc (firstAbove cur offset inc) := isFirst_firstAbove hpos
  unfold IsFirst at hfirst
  split at hfirst
  · omega
  · exact hfirst.1.1

theorem firstAbove_le (hpos : 0 < inc) (hle : offset ≤ cur) :
    firstAbove cur offset inc ≤ cur + inc := by
  unfold firstAbove
  have hdiv : (cur - offset) / inc * inc ≤ cur - offset := Nat.div_mul_le_self _ _
  split
  · omega
  · rw [if_neg (by omega), Nat.add_mul]
    omega

/-- Rounding the counter up to the next step wraps. -/
def RoundingWraps (cur offset inc : Nat) : Prop :=
  1 < inc ∧ offset ≤ cur ∧ 2 ^ 64 ≤ cur - offset + inc

instance : Decidable (RoundingWraps cur offset inc) :=
  inferInstanceAs (Decidable (_ ∧ _ ∧ _))

/-- The first value the source computes is the first value above the counter, unless this
does not fit in 64 bits, or rounding up has wrapped. -/
theorem autoIncFirst_eq (hcur : cur < 2 ^ 64) (hoffset : offset < 2 ^ 64) (hinc : inc < 2 ^ 64)
    (hpos : 0 < inc) :
    autoIncFirst cur offset inc =
      if RoundingWraps cur offset inc ∨ 2 ^ 64 ≤ firstAbove cur offset inc then none
      else some (firstAbove cur offset inc) := by
  have hlt : cur < firstAbove cur offset inc := lt_firstAbove hpos
  unfold autoIncFirst
  by_cases hlast : cur + 1 = 2 ^ 64
  · rw [if_pos (Or.inr (by omega)), hlast]
    rfl
  have hnext : (cur + 1) % 2 ^ 64 = cur + 1 := Nat.mod_eq_of_lt (by omega)
  simp only [hnext, Nat.add_one_ne_zero, if_false]
  by_cases hone : inc = 1
  · have hfirst : firstAbove cur offset inc = cur + 1 := if_pos hone
    have hround : ¬ RoundingWraps cur offset inc := fun h => absurd h.1 (by omega)
    rw [if_pos (by omega), if_neg (not_or.mpr ⟨hround, by omega⟩), hfirst]
  rw [if_neg (by omega)]
  by_cases hbelow : cur < offset
  · -- nothing to round up
    have hfirst : firstAbove cur offset inc = offset := by
      rw [firstAbove, if_neg hone, if_pos hbelow]
    have hround : ¬ RoundingWraps cur offset inc := fun h => absurd h.2.1 (by omega)
    have hzero : (0 + inc - 1) % 2 ^ 64 / inc = 0 := by
      rw [Nat.mod_eq_of_lt (by omega)]
      exact Nat.div_eq_of_lt (by omega)
    rw [if_neg (by omega : ¬ offset < cur + 1), hzero, Nat.zero_mul, Nat.add_zero,
      Nat.mod_eq_of_lt hoffset, if_neg (by omega), if_neg (by omega),
      if_neg (not_or.mpr ⟨hround, by omega⟩), hfirst]
  have hfirst : firstAbove cur offset inc = offset + ((cur - offset) / inc + 1) * inc := by
    rw [firstAbove, if_neg hone, if_neg hbelow]
  have hle : firstAbove cur offset inc ≤ cur + inc := firstAbove_le hpos (by omega)
  have hsum : cur + 1 - offset + inc - 1 = cur - offset + inc := by omega
  rw [if_pos (by omega : offset < cur + 1), hsum]
  by_cases hround : RoundingWraps cur offset inc
  · have hwrap : (cur - offset + inc) % 2 ^ 64 / inc = 0 := by
      apply Nat.div_eq_of_lt
      have := hround.2.2
      omega
    rw [hwrap, Nat.zero_mul, Nat.add_zero, Nat.mod_eq_of_lt hoffset, if_pos (by omega),
      if_pos (Or.inl hround)]
  have hnowrap : cur - offset + inc < 2 ^ 64 := by
    by_contra hge
    exact hround ⟨by omega, by omega, by omega⟩
  rw [Nat.mod_eq_of_lt hnowrap, Nat.add_div_right _ hpos, ← hfirst]
  by_cases hfits : 2 ^ 64 ≤ firstAbove cur offset inc
  · rw [if_pos (by omega), if_pos (Or.inr hfits)]
  · rw [Nat.mod_eq_of_lt (by omega), if_neg (by omega), if_neg (by omega),
      if_neg (not_or.mpr ⟨hround, hfits⟩)]

variable {cfg : ShareCfg n W PK} {t : Nat} {s : Share n W}

/-- What the comparisons of one round let through: the first value and the new counter. -/
def reservation (cur offset inc nb : Nat) : Option (Nat × Nat) :=
  match autoIncFirst cur offset inc with
  | none => none
  | some v =>
      if (v + (nb - 1) * inc) % 2 ^ 64 < v then none else some (v, (v + (nb - 1) * inc) % 2 ^ 64)

/-- A round, once the counter is loaded: the comparisons, and the compare-exchange of what
they let through. -/
def tryReserve (cur offset inc nb : Nat) : Core n W PK (Nat × Nat) :=
  match reservation cur offset inc nb with
  | none => pure (0, 0)
  | some (v, last) => do
      let (ok, _) ← access (.casAutoInc cur last)
      if ok then pure (v, nb) else loop (.reserveLoop offset inc nb)

/-- One round of the loop. -/
theorem reserveBody_eq (offset inc nb : Nat) :
    (reserveBody offset inc nb : Core n W PK (Nat × Nat)) =
      access .loadAutoInc >>= fun cur => tryReserve cur offset inc nb := by
  unfold reserveBody
  congr 1
  funext cur
  unfold tryReserve reservation
  cases autoIncFirst cur offset inc with
  | none => rfl
  | some v =>
      dsimp only
      split <;> rfl

/-- A round that reports an overflow. -/
theorem runs_reserve_overflow (h : reservation s.autoInc offset inc nb = none) :
    (machine cfg).Runs t (loop (.reserveLoop offset inc nb)) s (0, 0) s := by
  apply runs_loop
  show (machine cfg).Runs t (reserveBody offset inc nb) s (0, 0) s
  rw [reserveBody_eq]
  apply runs_access rfl
  rw [tryReserve, h]
  exact runs_pure

/-- A thread that runs alone tries until its compare-exchange does not fail spuriously. -/
theorem runs_reserve_ok {m : Nat} (hm : s.cas ≤ m) (hcas : cfg.spurious m = false) {last : Nat}
    (h : reservation s.autoInc offset inc nb = some (v, last)) :
    ∃ s', (machine cfg).Runs t (loop (.reserveLoop offset inc nb)) s
      (v, nb) s' ∧ s'.autoInc = last := by
  -- one round, up to the compare-exchange
  have hround : ∀ s₁ : Share n W, s₁.autoInc = s.autoInc → ∀ {x s'},
      (machine cfg).Runs t (do
        let (ok, _) ← access (.casAutoInc s.autoInc last)
        if ok then pure (v, nb) else loop (.reserveLoop offset inc nb)) s₁ x s' →
      (machine cfg).Runs t (loop (.reserveLoop offset inc nb)) s₁ x s' := by
    intro s₁ hs₁ x s' hrest
    apply runs_loop
    show (machine cfg).Runs t (reserveBody offset inc nb) s₁ x s'
    rw [reserveBody_eq]
    apply runs_access rfl
    rw [tryReserve, hs₁, h]
    exact hrest
  -- by induction on how many compare-exchanges may still fail
  have htries : ∀ d (s₁ : Share n W), s₁.autoInc = s.autoInc → s₁.cas + d = m →
      ∃ s', (machine cfg).Runs t (loop (.reserveLoop offset inc nb)) s₁ (v, nb) s' ∧
      s'.autoInc = last := by
    intro d
    induction d with
    | zero =>
        intro s₁ hs₁ hcount
        have hok : cfg.spurious s₁.cas = false := by
          rw [← hcas, ← hcount, Nat.add_zero]
        have hexec : exec cfg t (.casAutoInc s.autoInc last) s₁ =
            some ((true, s₁.autoInc), { s₁ with autoInc := last, cas := s₁.cas + 1 }) :=
          if_pos ⟨hs₁, hok⟩
        exact ⟨_, hround s₁ hs₁ (runs_access hexec runs_pure), rfl⟩
    | succ d ih =>
        intro s₁ hs₁ hcount
        by_cases hok : cfg.spurious s₁.cas = false
        · have hexec : exec cfg t (.casAutoInc s.autoInc last) s₁ =
              some ((true, s₁.autoInc), { s₁ with autoInc := last, cas := s₁.cas + 1 }) :=
            if_pos ⟨hs₁, hok⟩
          exact ⟨_, hround s₁ hs₁ (runs_access hexec runs_pure), rfl⟩
        · have hexec : exec cfg t (.casAutoInc s.autoInc last) s₁ =
              some ((false, s₁.autoInc), { s₁ with cas := s₁.cas + 1 }) :=
            if_neg fun h => hok h.2
          obtain ⟨s', hruns, hend⟩ := ih { s₁ with cas := s₁.cas + 1 } hs₁ (by
            show s₁.cas + 1 + d = m
            omega)
          exact ⟨s', hround s₁ hs₁ (runs_access hexec hruns), hend⟩
  exact htries (m - s.cas) s rfl (by omega)

/-- The reservation of `nb` values, the first of which should be `v`, does what it should:
it returns `v` and `nb` and moves the counter to the last of the values if this fits in 64
bits, and else it returns 0 and leaves the counter alone. -/
def ReservesExactly (cfg : ShareCfg n W PK) (t : Nat) (s : Share n W) (offset inc nb : UInt64)
    (v : Nat) : Prop :=
  ∃ r s', (machine cfg).Runs t (autoIncReserve offset.toNat inc.toNat nb.toNat) s r s' ∧
    if v + (orOne nb - 1) * orOne inc ≤ 2 ^ 64 - 1 then
      r = (v, orOne nb) ∧ s'.autoInc = v + (orOne nb - 1) * orOne inc
    else r.1 = 0 ∧ s'.autoInc = s.autoInc

/-- No wrap goes wrong: where rounding up wraps, the last value does not fit either, and
where the width of the interval wraps, its low 64 bits and the first value overflow
too. -/
structure NoFalseWrap (cur offset inc nb v : Nat) : Prop where
  rounding : RoundingWraps cur offset inc → 2 ^ 64 ≤ v + (nb - 1) * inc
  width : ¬ RoundingWraps cur offset inc → 2 ^ 64 ≤ (nb - 1) * inc →
    2 ^ 64 ≤ v + (nb - 1) * inc % 2 ^ 64

/-- What is let through, from the first value above the counter. -/
theorem reservation_eq (nb : Nat) (hcur : cur < 2 ^ 64) (hoffset : offset < 2 ^ 64)
    (hinc : inc < 2 ^ 64) (hpos : 0 < inc) (hv : firstAbove cur offset inc = v) :
    reservation cur offset inc nb =
      if RoundingWraps cur offset inc ∨ 2 ^ 64 ≤ v then none
      else if (v + (nb - 1) * inc) % 2 ^ 64 < v then none
      else some (v, (v + (nb - 1) * inc) % 2 ^ 64) := by
  unfold reservation
  rw [autoIncFirst_eq hcur hoffset hinc hpos, hv]
  by_cases hnone : RoundingWraps cur offset inc ∨ 2 ^ 64 ≤ v
  · rw [if_pos hnone, if_pos hnone]
  · rw [if_neg hnone, if_neg hnone]

/-- A run that reports an overflow is right exactly if there is one. -/
theorem noFalseWrap_iff_of_overflow
    (hover : (RoundingWraps cur offset inc ∨ 2 ^ 64 ≤ v) ∨ (v + (nb - 1) * inc) % 2 ^ 64 < v) :
    NoFalseWrap cur offset inc nb v ↔ 2 ^ 64 ≤ v + (nb - 1) * inc := by
  constructor
  · intro h
    by_cases hround : RoundingWraps cur offset inc
    · exact h.rounding hround
    · rw [or_iff_right hround] at hover
      omega
  · intro hge
    refine ⟨fun _ => hge, fun hround hwide => ?_⟩
    rw [or_iff_right hround] at hover
    omega

/-- A run that gets through is right exactly if there is no overflow. -/
theorem noFalseWrap_iff_of_fits (hround : ¬ RoundingWraps cur offset inc) (hv : v < 2 ^ 64)
    (hlast : v ≤ (v + (nb - 1) * inc) % 2 ^ 64) :
    NoFalseWrap cur offset inc nb v ↔ v + (nb - 1) * inc < 2 ^ 64 := by
  constructor
  · intro h
    have hwidth := h.width hround
    omega
  · intro hlt
    exact ⟨fun h => absurd h hround, fun _ hwide => by omega⟩

/-- **One reservation, exactly.**  On every share with a 64-bit counter, for all 64-bit
arguments, and however often its compare-exchange fails spuriously as long as that does
not go on for ever: a reservation that runs alone does what it should exactly if no wrap
goes wrong. -/
theorem reserve_exact_iff (cfg : ShareCfg n W PK) (t : Nat) (s : Share n W)
    (hcur : s.autoInc < 2 ^ 64) (hcas : ∀ m, ∃ m' ≥ m, cfg.spurious m' = false)
    (offset inc nb : UInt64) :
    ∃ v, IsFirst s.autoInc (orOne offset) (orOne inc) v ∧
      (ReservesExactly cfg t s offset inc nb v ↔
        NoFalseWrap s.autoInc (orOne offset) (orOne inc) (orOne nb) v) := by
  have hpos : 0 < orOne inc := orOne_pos inc
  have hlt : s.autoInc < firstAbove s.autoInc (orOne offset) (orOne inc) := lt_firstAbove hpos
  refine ⟨firstAbove s.autoInc (orOne offset) (orOne inc), isFirst_firstAbove hpos, ?_⟩
  generalize hv : firstAbove s.autoInc (orOne offset) (orOne inc) = v at hlt
  have hwhat := reservation_eq (orOne nb) hcur (orOne_lt offset) (orOne_lt inc) hpos hv
  -- it is all about the one run there is
  have hexact : ∀ r s',
      (machine cfg).Runs t (loop (.reserveLoop (orOne offset) (orOne inc) (orOne nb))) s r s' →
      (ReservesExactly cfg t s offset inc nb v ↔
        if v + (orOne nb - 1) * orOne inc ≤ 2 ^ 64 - 1 then
          r = (v, orOne nb) ∧ s'.autoInc = v + (orOne nb - 1) * orOne inc
        else r.1 = 0 ∧ s'.autoInc = s.autoInc) := by
    intro r s' hr
    constructor
    · intro h
      obtain ⟨r', s'', hr', hspec⟩ := h
      obtain ⟨rfl, rfl⟩ := hr.det hr'
      exact hspec
    · intro h
      exact ⟨r, s', hr, h⟩
  by_cases hover : (RoundingWraps s.autoInc (orOne offset) (orOne inc) ∨ 2 ^ 64 ≤ v) ∨
      (v + (orOne nb - 1) * orOne inc) % 2 ^ 64 < v
  · have hnone : reservation s.autoInc (orOne offset) (orOne inc) (orOne nb) = none := by
      rw [hwhat, ite_eq_left_iff]
      intro hno
      exact if_pos (hover.resolve_left hno)
    rw [hexact _ _ (runs_reserve_overflow hnone), noFalseWrap_iff_of_overflow hover]
    by_cases hfits : v + (orOne nb - 1) * orOne inc ≤ 2 ^ 64 - 1
    · rw [if_pos hfits]
      apply iff_of_false
      · intro h
        have hzero : 0 = v := (Prod.mk.inj h.1).1
        omega
      · omega
    · rw [if_neg hfits]
      exact iff_of_true ⟨rfl, rfl⟩ (by omega)
  · obtain ⟨hno, hlast⟩ := not_or.mp hover
    obtain ⟨hround, hbig⟩ := not_or.mp hno
    rw [if_neg hno, if_neg hlast] at hwhat
    obtain ⟨m, hm, hok⟩ := hcas s.cas
    obtain ⟨s', hruns, hend⟩ := runs_reserve_ok (t := t) hm hok hwhat
    rw [hexact _ _ hruns, noFalseWrap_iff_of_fits hround (by omega) (by omega), hend]
    by_cases hfits : v + (orOne nb - 1) * orOne inc ≤ 2 ^ 64 - 1
    · rw [if_pos hfits]
      exact iff_of_true ⟨rfl, Nat.mod_eq_of_lt (by omega)⟩ (by omega)
    · rw [if_neg hfits]
      apply iff_of_false
      · intro h
        have hzero : v = 0 := h.1
        omega
      · omega

/-- The counter of a table that has never handed out a value: the first three odd values
are reserved. -/
theorem reserve_exact_three_odd_values :
    ReservesExactly (wordTable 1) 0 (Share.fresh fun _ _ => 0) 1 2 3 1 := by
  obtain ⟨v, hv, hexact⟩ := reserve_exact_iff (wordTable 1) 0 (Share.fresh fun _ _ => 0) (by decide)
    (fun m => ⟨m, le_rfl, rfl⟩) 1 2 3
  have hfirst : IsFirst 0 1 2 1 := isFirst_firstAbove Nat.two_pos
  obtain rfl : v = 1 := hv.unique hfirst
  exact hexact.mpr ⟨fun h => absurd h (by decide), fun _ h => absurd h (by decide)⟩

/-- The last value of the form `1 + 10 * i` is never handed out: rounding up wraps. -/
theorem reserve_misses_last_step :
    ¬ ∀ (cfg : ShareCfg 1 Nat Nat) (t : Nat) (s : Share 1 Nat), s.autoInc < 2 ^ 64 →
      (∀ m, ∃ m' ≥ m, cfg.spurious m' = false) → ∀ (offset inc nb : UInt64) (v : Nat),
        IsFirst s.autoInc (orOne offset) (orOne inc) v →
        ReservesExactly cfg t s offset inc nb v := by
  intro hall
  have hfirst : IsFirst 18446744073709551610 1 10 18446744073709551611 :=
    isFirst_firstAbove (Nat.succ_pos 9)
  obtain ⟨r, s', hruns, hspec⟩ := hall (wordTable 1) 0
    { (Share.fresh fun _ _ => 0 : Share 1 Nat) with autoInc := 18446744073709551610 } (by decide)
    (fun m => ⟨m, le_rfl, rfl⟩) 1 10 1 18446744073709551611 hfirst
  rw [if_pos (by decide)] at hspec
  have heval : ((machine (wordTable 1)).eval 0 10 (autoIncReserve 1 10 1)
      { (Share.fresh fun _ _ => 0 : Share 1 Nat) with autoInc := 18446744073709551610 }).any
      (·.1 = (0, 0)) = true := by
    decide +kernel
  obtain ⟨⟨r', s''⟩, heval, hr'⟩ := (Option.any_eq_true _ _).mp heval
  obtain ⟨rfl, -⟩ := hruns.det (.of_eval heval)
  rw [hspec.1] at hr'
  have hzero : (18446744073709551611, orOne 1) = (0, 0) := of_decide_eq_true hr'
  exact absurd (Prod.mk.inj hzero).1 (by decide)

end FastMem
